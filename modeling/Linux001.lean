import Linux001.Drivers.HdLock
import Linux001.Fs.Bitmap
import Linux001.Fs.ZoneBounds
import Linux001.Fs.Create
import Linux001.Fs.Dcache
import Linux001.Fs.Exe
import Linux001.Fs.PipeSignal
import Linux001.Fs.Recycle
import Linux001.Fs.PipeSleep
import Linux001.Fs.TreeRun
import Linux001.Fs.FileCount
import Linux001.Fs.HeadsSpec
import Linux001.Fs.OpenRace
import Linux001.Fs.InodeCache
import Linux001.Fs.SyncWalk
import Linux001.Fs.ZoneLeak
import Linux001.Kernel.Alarm
import Linux001.Kernel.PutFs
import Linux001.Kernel.SigHalt
import Linux001.Kernel.Sigaction
import Linux001.Kernel.Tail
import Linux001.Kernel.WaitQueue
import Linux001.Kernel.WaitRace
import Linux001.Mm.Isolation
import Linux001.Mm.Leak
import Linux001.Mm.Reserved
import Linux001.Mm.SharedStore
import Linux001.Tools.Mkdisk
import Linux001.Fs.Path
