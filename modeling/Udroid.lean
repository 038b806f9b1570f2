import Udroid.Mounts.Rounds
import Udroid.Mounts.Teardown
import Udroid.Mounts.Convergence
import Udroid.Mounts.Lifecycle
import Udroid.Performance
import Udroid.Preload
import Udroid.FreeMem.Total
import Udroid.Links.Rootless
import Udroid.Links.Tidy
import Udroid.Import.Kept
import Udroid.Chroot.Agree
import Udroid.Systrace.Controller
import Udroid.Systrace.Transport
import Udroid.Systrace.Circular
import Udroid.Devil.Instrument
import Udroid.Devil.Lines
import Udroid.Devil.FlagChanger
import Udroid.Devil.AppHistory
import Udroid.Unix.ShellWords
import Udroid.Dependency.Atomic
