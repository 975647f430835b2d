import Rpcsx.Rx.AreaTable.Refinement
import Rpcsx.Orbis.Pipe
import Rpcsx.Kernel.MemoryResource.Savestate
import Rpcsx.Orbis.Blockpool.Ownership
import Rpcsx.Orbis.Vmem.Frame
import Rpcsx.Vfs.Get
import Rpcsx.Orbis.Evf.Runs
import Rpcsx.Orbis.Umtx.MutexRuns
import Rpcsx.Orbis.Umtx.RwLockRuns
import Rpcsx.Rx.SharedMutex.Runs
import Rpcsx.Rx.SharedCV.Runs
import Rpcsx.Psf.Hostile
import Rpcsx.Tar.RoundTrip
import Rpcsx.Ps3.CellSync.Barrier
import Rpcsx.Ps3.CellSync.Rwm
import Rpcsx.Ps3.CellSync.QueueRuns
import Rpcsx.Ps3.CellRtc.Months
import Rpcsx.Ps3.CellL10n.Unicode
import Rpcsx.Util.AddressRange.Runs
import Rpcsx.Util.Bunch
import Rpcsx.Rsx.Swizzle.Images
import Rpcsx.Rsx.IndexBuffer.Expand
import Rpcsx.Rsx.DataHeap.Runs
import Rpcsx.Rsx.TiledDma.Copy
import Rpcsx.Orbis.Dmem.Window
import Rpcsx.Shader.DomTree.Queries
import Rpcsx.Orbis.Vmem.Pointwise
import Rpcsx.Loader.Tropusr
import Rpcsx.Loader.Watermark
import Rpcsx.Cellos.Net.P2psHang
import Rpcsx.Cellos.Net.P2psStream
import Rpcsx.Cellos.Sync.Semaphore
import Rpcsx.Crypto.PkgDecrypt
import Rpcsx.Crypto.PkgReader
import Rpcsx.Crypto.EdatReads
import Rpcsx.Orbis.Ipmi.Locks
import Rpcsx.Orbis.Ipmi.Sync
