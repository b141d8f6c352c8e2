import Aim.Binder.ScatterGather
import Aim.Binder.Spam
import Aim.Fmq.Wakeful
import Aim.Fmq.Descriptor
import Aim.Futex.Order
import Aim.Props.ContextLookup
import Aim.Props.Untorn
import Aim.Rc.Imports
import Aim.Props.Protocol
import Aim.Props.Guest
import Aim.Timers.Exact
import Aim.Fuse.Errors
import Aim.Fuse.Invalidate
import Aim.Uri.Users
import Aim.Mounts.Namespace
import Aim.Intents.Scan
import Aim.Futex.Owner
import Aim.Daemon.RoundTrip
import Aim.Cred.Privilege
import Aim.Parcels.Exceptions
import Aim.Lmkd.Kills
import Aim.Xml.RoundTrip
import Aim.Fsverity.Correct
import Aim.Pidns.Tids
import Aim.Fork.State
import Aim.Memfd.Executable
import Aim.Cgroup.Table
