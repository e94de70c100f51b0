import Nt365.FsRtl.FileLockCheck
import Nt365.Mm.VadTreeRuns
import Nt365.Mm.AllocVm
import Nt365.Rng.RngPool
import Nt365.Virtio.RingRuns
import Nt365.Ntfs.CheckSupSound
import Nt365.Ntfs.AllocSupRoundTrip
import Nt365.Boot.MemMapExact
import Nt365.Boot.MmuExact
import Nt365.Rtl.GenTableRuns
import Nt365.Se.AccessCheckExact
import Nt365.Ssh.PacketRuns
import Nt365.Ssh.HandshakeAuth
import Nt365.Term.Edit
import Nt365.Term.SchedRuns
import Nt365.Ex.HandleTableRuns
import Nt365.FsRtl.FileLockEnum
import Nt365.FsRtl.LargeMcbCanonical
import Nt365.FsRtl.NameLanguage
import Nt365.Rtl.BitMapRange
import Nt365.Rtl.BitMapLongest
import Nt365.Rtl.BitMapFind
import Nt365.Config.HiveCheck
import Nt365.Rtl.TimeCutover
import Nt365.Rtl.Lznt1Fragment
import Nt365.Se.FastTraverse
import Nt365.Tcp.Header
import Nt365.Tcp.Raq
import Nt365.Rtl.Gen8dot3
