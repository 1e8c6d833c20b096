import Oxinit.Proof.Alarms
import Oxinit.Proof.Arrivals
import Oxinit.Proof.Backoff
import Oxinit.Proof.Bindings
import Oxinit.Proof.Clients
import Oxinit.Proof.Cycles
import Oxinit.Proof.Descriptors
import Oxinit.Proof.Duration
import Oxinit.Proof.Ends
import Oxinit.Proof.Exclusion
import Oxinit.Proof.Exec
import Oxinit.Proof.Exits
import Oxinit.Proof.Firings
import Oxinit.Proof.Gone
import Oxinit.Proof.Hangs
import Oxinit.Proof.Hardware
import Oxinit.Proof.Image
import Oxinit.Proof.ListenProbe
import Oxinit.Proof.Loading
import Oxinit.Proof.Notify
import Oxinit.Proof.Overrides
import Oxinit.Proof.Paths
import Oxinit.Proof.Pid
import Oxinit.Proof.Pipes
import Oxinit.Proof.Placement
import Oxinit.Proof.Precedence
import Oxinit.Proof.Punctual
import Oxinit.Proof.Queue
import Oxinit.Proof.Readiness
import Oxinit.Proof.Refresh
import Oxinit.Proof.Replies
import Oxinit.Proof.Requirements
import Oxinit.Proof.Restarts
import Oxinit.Proof.Rotation
import Oxinit.Proof.Schedules
import Oxinit.Proof.Session
import Oxinit.Proof.Settings
import Oxinit.Proof.Settled
import Oxinit.Proof.Shipping
import Oxinit.Proof.Shutdown
import Oxinit.Proof.Spins
import Oxinit.Proof.Starts
import Oxinit.Proof.StopOrder
import Oxinit.Proof.Stops
import Oxinit.Proof.Supply
import Oxinit.Proof.Timerfds
import Oxinit.Proof.User
import Oxinit.Proof.Waits
import Oxinit.Proof.Watch
import Oxinit.Proof.Watchdog
import Oxinit.Proof.Wakeup
