import ScratchStore.Lib.Layers
import ScratchStore.Lib.SortedAssoc
import ScratchStore.Lib.Pod
import ScratchStore.Lib.LittleEndian
import ScratchStore.Lib.Float24
import ScratchStore.Lib.Runs
import ScratchStore.Lib.CellHeap
import ScratchStore.Lib.LockOrder
import ScratchStore.Lib.RingScan
import ScratchStore.Lib.PageScan
import ScratchStore.Stdio
import ScratchStore.Master.KeyValue
import ScratchStore.Master.Line
import ScratchStore.Master.AnyLine
import ScratchStore.Bloom.Bloom
import ScratchStore.Bloom.Reload
import ScratchStore.Bloom.InMemory
import ScratchStore.BufferManager.FileIO
import ScratchStore.BufferManager.Calls
import ScratchStore.BufferManager.Lru
import ScratchStore.BufferManager.Elements
import ScratchStore.Core.DataFile
import ScratchStore.Core.Merge
import ScratchStore.Core.Read
import ScratchStore.Core.Reads
import ScratchStore.Core.FailedOpen
import ScratchStore.RBTree.BinaryTree
import ScratchStore.RBTree.Walk
import ScratchStore.RBTree.Dump
import ScratchStore.RBTree.Log
import ScratchStore.RBTree.Replay
import ScratchStore.RBTree.Recovery
import ScratchStore.RBTree.Load
import ScratchStore.RBTree.Linked
import ScratchStore.RBTree.LogHandle
import ScratchStore.RBTree.Represents
import ScratchStore.RBTree.History
import ScratchStore.RBTree.Reachable
import ScratchStore.RBTree.Memtable
import ScratchStore.RBTree.Traversal
import ScratchStore.RBTree.TreeSize
import ScratchStore.RBTree.Sync
import ScratchStore.Core.DumpedTree
import ScratchStore.Master.Store
import ScratchStore.Master.Ring
import ScratchStore.Master.Adjust
import ScratchStore.Master.Fresh
import ScratchStore.Master.Write
import ScratchStore.Master.Flush
import ScratchStore.Master.Run
import ScratchStore.Master.Timestamps
import ScratchStore.Master.Threads
import ScratchStore.Master.KeepLogs
import ScratchStore.Master.Batch
import ScratchStore.Master.ReplayLogs
import ScratchStore.Master.Boot
import ScratchStore.Master.Crash
import ScratchStore.Master.CrashInAdjust
import ScratchStore.Master.Reader
import ScratchStore.Master.ReadRun
import ScratchStore.Master.Serve
import ScratchStore.Master.Locks
import ScratchStore.Master.RingOrder
import ScratchStore.Master.CrashedDisk
import ScratchStore.Master.Constructor
import ScratchStore.Master.MakeFS
import ScratchStore.Master.Lifetimes
import ScratchStore.Master.Origins
import ScratchStore.Master.RunFiles
import ScratchStore.Lsm3.IndexTuple
import ScratchStore.Lsm3.NBTree
import ScratchStore.Lsm3.Scan
import ScratchStore.Lsm3.Protocol
import ScratchStore.Lsm3.Control
import ScratchStore.Lsm3.Contents
import ScratchStore.Lsm3.Lifecycle
import ScratchStore.Lsm3.Merges
import ScratchStore.Lsm3.ScanRun
import ScratchStore.Lsm3.Unique
import ScratchStore.Lsm3.Bitmap
import ScratchStore.Lsm3.Progress
import ScratchStore.Lsm3.TableLocks
