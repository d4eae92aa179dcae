import Cosmos.Lib.Word64
import Cosmos.Lib.Cover
import Cosmos.Lib.Pool
import Cosmos.Lib.Round
import Cosmos.Lib.Run
import Cosmos.Hal.Msadsc
import Cosmos.Hal.Memarea
import Cosmos.Hal.Memdivmer
import Cosmos.Hal.Blocks
import Cosmos.Hal.MemdivmerDiv
import Cosmos.Hal.MemdivmerMerge
import Cosmos.Hal.MmInv
import Cosmos.Hal.MemdivmerRun
import Cosmos.Hal.MemareaBoot
import Cosmos.Hal.MemareaFile
import Cosmos.Hal.MemareaInit
import Cosmos.Hal.MemareaScan
import Cosmos.Hal.MemdivmerOwn
import Cosmos.Hal.MemdivmerRestore
import Cosmos.Hal.MemdivmerExact
import Cosmos.Hal.MsadscOccupy
import Cosmos.Hal.Halplatform
import Cosmos.Hal.Kmsob
import Cosmos.Lib.Slab
import Cosmos.Hal.KmsobPool
import Cosmos.Hal.KmsobOps
import Cosmos.Hal.KmsobInv
import Cosmos.Hal.KmsobRun
import Cosmos.Hal.KmsobObjs
import Cosmos.Hal.KmsobPages
import Cosmos.Kernel.Krlsched
import Cosmos.Kernel.KrlschedPlace
import Cosmos.Kernel.KrlschedRun
import Cosmos.Kernel.KrlschedRotate
import Cosmos.Kernel.KrlsvethreadFail
import Cosmos.Kernel.Krlsem
import Cosmos.Drivers.Drvrfs
import Cosmos.Drivers.DrvrfsInv
import Cosmos.Drivers.DrvrfsRun
import Cosmos.Drivers.DrvrfsBufs
import Cosmos.Drivers.DrvrfsHands
import Cosmos.Hal.Halmmu
import Cosmos.Lib.Radix
import Cosmos.Hal.HalmmuInv
import Cosmos.Hal.HalmmuOps
import Cosmos.Hal.HalmmuRun
import Cosmos.Hal.HalmmuUndo
import Cosmos.Kernel.Krlvadrsmem
import Cosmos.Lib.Ranges
import Cosmos.Kernel.KrlvadrsmemInv
import Cosmos.Kernel.KrlvadrsmemObj
import Cosmos.Kernel.KrlvadrsmemList
import Cosmos.Kernel.KrlvadrsmemEnd
import Cosmos.Kernel.KrlvadrsmemMap
import Cosmos.Kernel.KrlvadrsmemPages
import Cosmos.Kernel.Krlschdclass
import Cosmos.Kernel.Krlthread
import Cosmos.Hal.MemareaCut
import Cosmos.Hal.Halmm
import Cosmos.Hal.HalmmMsadsc
import Cosmos.Drivers.DrvrfsPath
import Cosmos.Drivers.DrvrfsRead
import Cosmos.Lib.Bytes
import Cosmos.Lib.Files
import Cosmos.Tools.Imgmgrhead
import Cosmos.Tools.Imgcore
import Cosmos.Tools.ImgcoreCopy
import Cosmos.Tools.ImgcorePacked
import Cosmos.Tools.Imgundo
import Cosmos.Hal.HalplatformFile
import Cosmos.Lib.Copy
import Cosmos.Hal.Io
import Cosmos.Initldr.Fs
import Cosmos.Hal.HalplatformMove
import Cosmos.Hal.HalplatformZone
import Cosmos.Initldr.FsMove
import Cosmos.Initldr.Bstartparm
import Cosmos.Kernel.KrlvadrsmemOthers
import Cosmos.Kernel.KrlvadrsmemSpace
import Cosmos.Kernel.KrlvadrsmemShare
import Cosmos.Kernel.Krldevice
import Cosmos.Drivers.Drvuart
import Cosmos.Kernel.Krlsveopen
import Cosmos.Kernel.KrlsveopenRun
import Cosmos.Kernel.KrlvadrsmemCount
import Cosmos.Kernel.KrlvadrsmemSearch
import Cosmos.Kernel.KrlvadrsmemUnmap
import Cosmos.Kernel.KrlvadrsmemFault
import Cosmos.Kernel.Krlsvethread
import Cosmos.Kernel.KrlsvethreadRun
import Cosmos.Kernel.KrlvadrsmemPtrs
import Cosmos.Kernel.KrlvadrsmemNew
import Cosmos.Drivers.DrvrfsCreate
import Cosmos.Drivers.DrvrfsBytes
import Cosmos.Hal.BdvideoUtf8
import Cosmos.Hal.BdvideoScreen
import Cosmos.Hal.Halprint
import Cosmos.Tools.ImgundoEnd
import Cosmos.Drivers.DrvrfsEntry
import Cosmos.Kernel.Krlpagempol
import Cosmos.Kernel.KrlpagempolInv
import Cosmos.Kernel.KrlpagempolRun
import Cosmos.Kernel.KrlpagempolBack
import Cosmos.Kernel.KrlpagempolSupply
import Cosmos.Kernel.KrlschedTick
import Cosmos.Hal.Halcpuctrl
import Cosmos.Hal.HalcpuctrlRun
import Cosmos.Hal.I8259
import Cosmos.Hal.Halgdtidt
import Cosmos.Hal.Halintupt
import Cosmos.Lib.Stack
import Cosmos.Hal.Kernelasm
import Cosmos.Kernel.KrlschedContext
import Cosmos.Kernel.KrlschedContextRun
import Cosmos.Kernel.Krlservice
import Cosmos.Lib.Rings
import Cosmos.Bastypeinc.List
import Cosmos.Bastypeinc.ListRun
import Cosmos.Hal.Memmgrinit
import Cosmos.Hal.KmsobChek
import Cosmos.Hal.KmsobSupply
import Cosmos.Tools.Param
