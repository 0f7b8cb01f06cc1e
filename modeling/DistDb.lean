import DistDb.Lib.WordMixing
import DistDb.Lib.SuccessorRing
import DistDb.Lib.KeyedList
import DistDb.Lib.Recency
import DistDb.Lib.Run
import DistDb.Lib.Shards
import DistDb.Lib.Parallel
import DistDb.Lib.BoundedFifo
import DistDb.Lib.DoublyLinked
import DistDb.Lib.CharArray
import DistDb.Utils
import DistDb.Add.LinkedList
import DistDb.Add.Nodes
import DistDb.Add.Links
import DistDb.Add.Owned
import DistDb.Add.Hashtable
import DistDb.Add.Queue
import DistDb.LruCache
import DistDb.Server
import DistDb.LoadBalancer
import DistDb.Main
import DistDb.Input
import DistDb.OrderList
import DistDb.CacheRuns
import DistDb.RequestQueue
import DistDb.ServerView
import DistDb.EagerServer
import DistDb.Buffers
import DistDb.EditLine
import DistDb.Migration
import DistDb.HashRing
import DistDb.Routing
import DistDb.Placement
import DistDb.Contents
import DistDb.Coherence
import DistDb.ReadYourWrites
import DistDb.Conservation
import DistDb.Topology
import DistDb.Faults
import DistDb.Ledger
import DistDb.CommandLine
import DistDb.Program
import DistDb.CacheSizes
import DistDb.HeapCache
import DistDb.Locality
import DistDb.RecentNames
import DistDb.Rebalancing
import DistDb.TableRuns
import DistDb.HeapTable
import DistDb.Provenance
import DistDb.LazyExecution
import DistDb.HeapBalancer
