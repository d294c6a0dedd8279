import CameoDb.Theorems.Auth.Grants
import CameoDb.Theorems.Auth.ManagedFiles
import CameoDb.Theorems.Auth.RateLimit
import CameoDb.Theorems.Auth.Revocation
import CameoDb.Theorems.Auth.Tokens
import CameoDb.Theorems.Client.Ingest
import CameoDb.Theorems.Cluster.Ring
import CameoDb.Theorems.Mcp.FederatedSearch
import CameoDb.Theorems.Mcp.InFlight
import CameoDb.Theorems.Node.Coalesce
import CameoDb.Theorems.Node.DeleteQuery
import CameoDb.Theorems.Node.Dropped
import CameoDb.Theorems.Node.Paging
import CameoDb.Theorems.Node.Pool
import CameoDb.Theorems.Node.QueryKeywords
import CameoDb.Theorems.Node.Reclaim
import CameoDb.Theorems.Node.Reconcile
import CameoDb.Theorems.Node.Routing
import CameoDb.Theorems.Node.ServiceHistogram
import CameoDb.Theorems.Node.ShardMaps
import CameoDb.Theorems.Node.SingleMint
import CameoDb.Theorems.Node.SortValues
import CameoDb.Theorems.Node.Supervisors
import CameoDb.Theorems.Node.Validate
import CameoDb.Theorems.Node.WriterLiveness
import CameoDb.Theorems.Storage.Dates
import CameoDb.Theorems.Storage.DeleteQuery
import CameoDb.Theorems.Storage.Drop
import CameoDb.Theorems.Storage.Fingerprint
import CameoDb.Theorems.Storage.IpQuery
import CameoDb.Theorems.Storage.OpenIndexes
import CameoDb.Theorems.Storage.Phrases
import CameoDb.Theorems.Storage.PrefixQuery
import CameoDb.Theorems.Storage.Projection
import CameoDb.Theorems.Storage.QueryDepth
import CameoDb.Theorems.Storage.Refused
import CameoDb.Theorems.Storage.SearchKeys
import CameoDb.Theorems.Storage.Teaching
