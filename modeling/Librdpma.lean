import Librdpma.Octopus.DirectoryBytes
import Librdpma.Octopus.LogArea
import Librdpma.Octopus.WriteResult
import Librdpma.Octopus.Deletion
import Librdpma.Octopus.ExtentBounds
import Librdpma.Octopus.Interleaving
import Librdpma.LevelHash.Counters
import Librdpma.LevelHash.Reached
import Librdpma.LevelKv.FrontEnd
import Librdpma.LevelKv.CacheInvariant
import Librdpma.LevelKv.ExpandData
import Librdpma.LevelKv.Displacement
import Librdpma.LevelKv.FrameUse
import Librdpma.LevelKv.Ensure
import Librdpma.LevelKv.Numbering
import Librdpma.LevelKv.Addressing
import Librdpma.Drtmh.WriteBack
import Librdpma.Drtmh.OneSidedCommit
import Librdpma.Drtmh.DbsiSnapshot
import Librdpma.Drtmh.BatchRead
import Librdpma.Drtmh.LogRing
import Librdpma.Drtmh.LogMem
import Librdpma.Drtmh.TempLog
import Librdpma.Drtmh.ValueCopy
import Librdpma.Drtmh.Rtx
import Librdpma.Drtmh.LockRelease
import Librdpma.Drtmh.Dbtx
import Librdpma.Drtmh.TsManager
import Librdpma.Drtmh.DbtxLocal
import Librdpma.Drtmh.DbRad
import Librdpma.Drtmh.RemoteGet
import Librdpma.Drtmh.BPlusTreeSeek
import Librdpma.Drtmh.BPlusTreeErase
import Librdpma.Drtmh.RangeScan
import Librdpma.Drtmh.Routines
