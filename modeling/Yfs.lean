import Yfs.Lock.Handoff
import Yfs.Store.Isolation
import Yfs.Store.Conservation
import Yfs.Store.Bounds
import Yfs.Extent.Runs
import Yfs.Extent.Reuse
import Yfs.Extent.Attributes
import Yfs.Extent.Missing
import Yfs.Client.Locks
import Yfs.Client.FileIO
import Yfs.Client.Offsets
import Yfs.Client.DirectoryIO
import Yfs.Client.Namespace
import Yfs.Client.Exhaustion
import Yfs.Client.Paging
import Yfs.Client.Mount
import Yfs.Rpc.Procedures
import Yfs.Rpc.Callbacks
import Yfs.Lock.Blocking
import Yfs.Lock.Progress
import Yfs.Rpc.Fifo
import Yfs.Client.Directories
import Yfs.Client.Shared
import Yfs.Client.Concurrent
