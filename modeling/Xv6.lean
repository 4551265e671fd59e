import Xv6.Log.Reserve
import Xv6.Log.Crash
import Xv6.Log.Waiting
import Xv6.Bcache.Run
import Xv6.Mkfs.Regions
import Xv6.Mkfs.ReadBack
import Xv6.Fs.DirMap
import Xv6.Fs.Resolution
import Xv6.Sys.FullDir
import Xv6.Sync.Sleeplock
import Xv6.Sync.PipeWakeup
import Xv6.Dev.Console
import Xv6.Dev.Mp
import Xv6.Fs.IcacheRun
import Xv6.Bcache.Bread
import Xv6.Proc.Pid
import Xv6.Proc.Kill
import Xv6.Proc.Reap
import Xv6.Proc.Running
import Xv6.User.ShParse
import Xv6.User.UmallocRun
import Xv6.User.EditorLoop
import Xv6.User.Grep
import Xv6.User.Printf
import Xv6.User.ShRedir
import Xv6.Sys.ExecFail
import Xv6.Sys.SharedFile
