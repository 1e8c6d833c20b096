/-!
# Where oxinit is running

What `container.rs` answers: oxinit booted a machine, or was handed a
container. A user's manager is neither, and is asked for.
-/

namespace Oxinit

/-- What said so, and what it said. -/
structure Runtime where
  name : String
  evidence : String
  deriving DecidableEq

/-- Where oxinit is running. -/
inductive Environment
  | machine
  | container (runtime : Runtime)
  /-- `oxinit --user`. -/
  | user (name : String)
  deriving DecidableEq

namespace Environment

/-- Whether the machine is somebody else's. -/
def isContainer : Environment → Bool
  | .container _ => true
  | .machine | .user _ => false

/-- Whether this is a user's manager. -/
def isUser : Environment → Bool
  | .user _ => true
  | .machine | .container _ => false

/-- Whether a shutdown ends by exiting rather than by `reboot(2)`. -/
def exits (e : Environment) : Bool := e ≠ .machine

end Environment

end Oxinit
