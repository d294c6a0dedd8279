import Mathlib.Logic.Function.Basic
import Std.Data.ExtTreeMap.Lemmas

/-! # The indexes a shard holds open -/

namespace CameoDb
open Std

inductive LockState where
  | free
  | held
  | poisoned
  deriving DecidableEq

structure IndexLocks where
  writer : String → LockState := fun _ => .free
  init : String → LockState := fun _ => .free

/-- The tracked indexes with the tick of their last use, and those with a writer or a reader open. -/
structure OpenSet where
  openIndexes : ExtTreeMap String Nat := ∅
  openTick : Nat := 0
  writers : String → Bool := fun _ => false
  readers : String → Bool := fun _ => false

def perShardOpenIndexCap (nodeCap totalShards : Nat) : Nat :=
  if nodeCap = 0 then 0
  else
    let shards := max totalShards 1
    max ((nodeCap + shards - 1) / shards) 1

/-- The loop body of the search for a victim. -/
def colder (closable : String → Bool) (coldest : Option (Nat × String)) (entry : String × Nat) :
    Option (Nat × String) :=
  if closable entry.1 then
    match coldest with
    | some (best, _) => if entry.2 < best then some (entry.2, entry.1) else coldest
    | none => some (entry.2, entry.1)
  else coldest

namespace OpenSet

def touchOpenIndex (s : OpenSet) (index : String) : OpenSet :=
  if index ∈ s.openIndexes then
    { s with openIndexes := s.openIndexes.insert index s.openTick, openTick := s.openTick + 1 }
  else s

def refuses (s : OpenSet) (locks : IndexLocks) (name : String) : Bool :=
  s.writers name && locks.writer name ≠ .free || locks.init name ≠ .free

def coldestClosableIndex (s : OpenSet) (locks : IndexLocks) (exclude : String) : Option String :=
  (s.openIndexes.toList.foldl (colder fun name => name ≠ exclude && !s.refuses locks name) none).map (·.2)

def dropIndexCaches (s : OpenSet) (index : String) : OpenSet :=
  { s with openIndexes := s.openIndexes.erase index, writers := Function.update s.writers index false,
           readers := Function.update s.readers index false }

/-- Whether an index was closed. What its writer buffered is committed first, and a commit that fails closes it all
    the same. -/
def closeIndex (s : OpenSet) (locks : IndexLocks) (index : String) : OpenSet × Bool :=
  if locks.init index = .held then (s, false)
  else if s.writers index ∧ locks.writer index = .held then (s, false)
  else (s.dropIndexCaches index, true)

variable (cap : Nat) (locks : IndexLocks) (index : String)

/-- The loop of an admission, in so many rounds. -/
def makeRoom : Nat → Nat → OpenSet → OpenSet
  | 0, _, s => s
  | rounds + 1, skipsLeft, s =>
    if s.openIndexes.size < cap then s
    else
      match s.coldestClosableIndex locks index with
      | some victim =>
        match s.closeIndex locks victim with
        | (s, true) => makeRoom rounds skipsLeft s
        | (s, false) => if skipsLeft > 0 then makeRoom rounds (skipsLeft - 1) s else s
      | none => s

def admitOpenIndex (s : OpenSet) : OpenSet :=
  let tick := s.openTick
  let s := { s with openTick := tick + 1 }
  if index ∈ s.openIndexes then { s with openIndexes := s.openIndexes.insert index tick }
  else
    let s := if cap > 0 then makeRoom cap locks index (2 * s.openIndexes.size + 1) s.openIndexes.size s else s
    { s with openIndexes := s.openIndexes.insert index tick }

/-- An index opened to be written, unless it is. The open can fail before its admission. -/
def getOrCreateIndexLocked (s : OpenSet) (opened : Bool) : OpenSet :=
  if s.writers index || !opened then s
  else
    let s := s.admitOpenIndex cap locks index
    { s with writers := Function.update s.writers index true }

/-- An index opened to be read, unless it is, if it is on disk. Its reader can fail to open after the admission. -/
def openReader (s : OpenSet) (exists_ opened : Bool) : OpenSet :=
  if s.readers index || !exists_ then s
  else
    let s := s.admitOpenIndex cap locks index
    { s with readers := Function.update s.readers index opened }

end OpenSet

/-- What the calls on a shard do with its open indexes. A reader goes when it cannot be reloaded, and when its index
    is opened anew. -/
inductive CacheStep where
  | touch (index : String)
  | openWriter (index : String) (locks : IndexLocks) (opened : Bool)
  | openReader (index : String) (locks : IndexLocks) (exists_ opened : Bool)
  | refreshReader (index : String)
  | close (index : String) (locks : IndexLocks)
  | drop (index : String)

def CacheStep.getOrCreateIndex (index : String) (locks : IndexLocks) (opened : Bool) : List CacheStep :=
  [.touch index, .openWriter index locks opened]

def CacheStep.getReader (index : String) (locks : IndexLocks) (exists_ opened : Bool) : List CacheStep :=
  [.touch index, .openReader index locks exists_ opened]

namespace OpenSet

def step (cap : Nat) (s : OpenSet) : CacheStep → OpenSet
  | .touch index => s.touchOpenIndex index
  | .openWriter index locks opened => s.getOrCreateIndexLocked cap locks index opened
  | .openReader index locks exists_ opened => s.openReader cap locks index exists_ opened
  | .refreshReader index => { s with readers := Function.update s.readers index false }
  | .close index locks => (s.closeIndex locks index).1
  | .drop index => s.dropIndexCaches index

def run (cap : Nat) (steps : List CacheStep) : OpenSet := steps.foldl (step cap) {}

end OpenSet

end CameoDb
