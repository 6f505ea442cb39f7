import Magisk.ThreadPool
import Magisk.Cpio.Actions
import Magisk.Cpio.Metadata
import Magisk.Compress.ChunkLoop
import Magisk.Boot.PiggySize
import Magisk.Boot.DhtbSize
import Magisk.Boot.HeaderFile
import Magisk.Boot.Reload
import Magisk.Boot.Vbmeta
import Magisk.Boot.PayloadBounds
import Magisk.Boot.FdtLoop
import Magisk.Boot.DtbSearch
import Magisk.Boot.HexPatch
import Magisk.Boot.Lz4Walk
import Magisk.Cpio.Keys
import Magisk.Sepolicy.Buckets
import Magisk.Sepolicy.Deny
import Magisk.Sepolicy.Scan
import Magisk.Sepolicy.FilenameTrans
import Magisk.Sepolicy.Reload
import Magisk.ParseNum
import Magisk.Su.Prune
import Magisk.Su.Wire
import Magisk.Su.Pts
import Magisk.Zygisk
import Magisk.BootLoop
import Magisk.Deny.Store
import Magisk.Sqlite
import Magisk.Mount.Preinit
import Magisk.Mount.Revert
import Magisk.Init.SwitchRoot
import Magisk.CStrBuf
import Magisk.Init.PatchRc
import Magisk.Init.KvPairs
import Magisk.Module.Upgrade
import Magisk.Module.Overlay
import Magisk.Module.Apply
import Magisk.Directory
import Magisk.Resetprop.Persist
import Magisk.Logging
