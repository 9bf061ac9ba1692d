import Kei.Boot.NonOverlapping
import Kei.Events.Epoll
import Kei.Events.Waiting
import Kei.Ext2.XattrRules
import Kei.FrameAllocator.Alignment
import Kei.FrameAllocator.BalanceBounds
import Kei.FrameAllocator.Fewest
import Kei.Framebuffer.Bounds
import Kei.Framebuffer.Dcs
import Kei.Framebuffer.EarlyConsole
import Kei.Framebuffer.Mirror
import Kei.Framebuffer.Sgr
import Kei.Framebuffer.SixelAgreement
import Kei.IdAlloc.LeastFree
import Kei.Manifest.Scale
import Kei.Mm.Installed
import Kei.Mm.LargestPages
import Kei.Sched.Parameters
import Kei.SecureDisk.BlockSemantics
import Kei.SecureDisk.ChunkExact
import Kei.SecureDisk.SyncAware
import Kei.SecureDisk.WalBytes
import Kei.Spsc.Refines
import Kei.Sync.RwLockRules
import Kei.Unix.Readiness
import Kei.Util.Coeff
import Kei.Vfs.RangeLockWaiting
import Kei.Virtio.QueueRuns
import Kei.Vmar.AlienAccess
import Kei.Vmar.FreeRegion
import Kei.Wire.Crc
import Kei.Wire.DecodeRecovery
import Kei.Wire.Sending
