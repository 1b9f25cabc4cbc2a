import TxCache.Lib.OrdList
import TxCache.Lib.SortedTrim
import TxCache.Lib.CString
import TxCache.Lib.Printf
import TxCache.Lib.Trace
import TxCache.Lib.RefCount
import TxCache.Lib.Modify
import TxCache.Lib.Fold
import TxCache.Interval
import TxCache.Server.Store
import TxCache.Server.Invalidate
import TxCache.Server.Put
import TxCache.Server.LatePut
import TxCache.Client.PinSet
import TxCache.Client.Policy
import TxCache.Client.Client
import TxCache.Client.Frames
import TxCache.Server.Server
import TxCache.Client.Consistency
import TxCache.Postgres.Inval
import TxCache.System.Transport
import TxCache.Pincushion.PinTable
import TxCache.Pincushion.Pincushion
import TxCache.Pincushion.Safety
import TxCache.Pincushion.TableCalls
import TxCache.Lib.Bytes
import TxCache.Net.IOBuf
import TxCache.Net.Wire
import TxCache.Net.Rpc
import TxCache.Server.Invariants
import TxCache.Server.Bookkeeping
import TxCache.Server.Walk
import TxCache.Server.Marshal
import TxCache.Server.Eviction
import TxCache.Server.Reachable
import TxCache.Tmpl.RBTree
import TxCache.Tmpl.RBRemove
import TxCache.Postgres.Datum
import TxCache.Lib.Lookup3
import TxCache.Tmpl.Hashtable
import TxCache.Lib.Links
import TxCache.Postgres.CommitMap
import TxCache.Postgres.CommitMapLayout
import TxCache.Postgres.SSnap
import TxCache.PhpClient.Marshal
import TxCache.Invald.Invald
import TxCache.System.Invalidation
