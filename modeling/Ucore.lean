import Ucore.Mm.DefaultPmmRun
import Ucore.Fs.Sfs.WriteExact
import Ucore.Fs.Sfs.Ownership
import Ucore.Schedule.StrideShare
import Ucore.Process.Protocol
import Ucore.Schedule.RunQueue
import Ucore.Schedule.StrideOrder
import Ucore.Sync.MonitorInv
import Ucore.Fs.Sfs.InodeCacheInv
import Ucore.Process.TimersRun
import Ucore.Process.LinksRun
import Ucore.Tools.MksfsDir
import Ucore.Fs.Sfs.SyncRun
import Ucore.Mm.CopyString
import Ucore.Driver.Console
import Ucore.Fs.Devs.Stdin
import Ucore.Process.LoadRun
import Ucore.Fs.Sfs.Getdirentry
import Ucore.Fs.Vfs.Lookup
import Ucore.Mm.BestFitPmm
import Ucore.Mm.BuddyRecover
import Ucore.Fs.Sfs.BitmapSet
import Ucore.Mm.BuddyBounds
import Ucore.Debug.Kmonitor
import Ucore.Fs.Sfs.TruncExact
import Ucore.Mm.SlobRun
