import Mathlib.Init

/-!
# The epoll loop

`event.rs`: the token that a descriptor is registered with, and what `wait`
makes of the tokens that epoll hands back.
-/

namespace Oxinit.EventLoop

/-- Which descriptor woke the loop. -/
inductive Source
  | signals
  | timer
  | wallTimer
  | notify
  | cgroup (id : UInt32)
  | socket (id : UInt32)
  | control
  | client (id : UInt32)
  | logSocket
  | logShipper
  deriving DecidableEq

/-- Where the kind of a source stands in its token. -/
def kindShift : UInt64 := 32

/-- The kinds of source. -/
def kindFixed : UInt64 := 0
def kindCgroup : UInt64 := 1
def kindSocket : UInt64 := 2
def kindClient : UInt64 := 3

namespace Source

/-- What kind of descriptor it is, and which one. -/
def kindAndId : Source → UInt64 × UInt32
  | .signals => (kindFixed, 0)
  | .timer => (kindFixed, 1)
  | .notify => (kindFixed, 2)
  | .control => (kindFixed, 3)
  | .logSocket => (kindFixed, 4)
  | .logShipper => (kindFixed, 5)
  | .wallTimer => (kindFixed, 6)
  | .cgroup id => (kindCgroup, id)
  | .socket id => (kindSocket, id)
  | .client id => (kindClient, id)

/-- The high half is the kind, the low half is the id. -/
def token (s : Source) : UInt64 := (s.kindAndId.1 <<< kindShift) ||| s.kindAndId.2.toUInt64

/-- The descriptors there is one of. -/
def fixed (id : UInt32) : Option Source :=
  if id = 0 then some .signals
  else if id = 1 then some .timer
  else if id = 2 then some .notify
  else if id = 3 then some .control
  else if id = 4 then some .logSocket
  else if id = 5 then some .logShipper
  else if id = 6 then some .wallTimer
  else none

/-- The source that a token stands for, if it is one. -/
def fromToken (token : UInt64) : Option Source :=
  let id := token.toUInt32
  let kind := token >>> kindShift
  if kind = kindFixed then fixed id
  else if kind = kindCgroup then some (.cgroup id)
  else if kind = kindSocket then some (.socket id)
  else if kind = kindClient then some (.client id)
  else none

end Source

/-- What `epoll_wait` reports, by the tokens of the registrations that are ready. -/
def wait (tokens : List UInt64) : List Source := tokens.filterMap Source.fromToken

end Oxinit.EventLoop
