import Oxinit.Framework.Batches
import Oxinit.Model.Kernel
import Oxinit.Model.Log
import Oxinit.Model.Text

/-!
# The notify socket

`notify.rs`, of `oxinit-service` and of `oxinit`: the `sd_notify` wire format,
and how the datagrams that are queued on the socket are read.
-/

namespace Oxinit

namespace Notify

/-- One line of a datagram. The status is held for the lifetime of the service, so
it is bounded. -/
def readLine (message : Message) (line : List Char) : Message :=
  match Text.splitOnce '=' line with
  | none => message
  | some (key, value) =>
    if key = "READY".toList ∧ value = "1".toList then { message with ready := true }
    else if key = "WATCHDOG".toList ∧ value = "1".toList then { message with watchdog := true }
    else if key = "STATUS".toList then { message with status := some (String.ofList (value.take 256)) }
    else message

/-- Parse a datagram body into a message. -/
def parse (pid : Pid) (body : Log.Bytes) : Option Message :=
  (String.fromUTF8? ⟨body.toArray⟩).map fun text => (Text.lines text.toList).foldl readLine { pid }

/-- One datagram on the socket. -/
structure Datagram where
  /-- Who sent it, if the kernel attached credentials. -/
  sender : Option Pid := none
  body : Log.Bytes := []
  deriving DecidableEq

/-- What there is room for. -/
def payload (d : Datagram) : Log.Bytes := d.body.take 4096

/-- Read every datagram that is queued, up to one that is empty; and what is
left in the queue. -/
def drain : List Datagram → List Message × List Datagram
  | [] => ([], [])
  | d :: queue =>
    if (payload d).length = 0 then ([], queue)
    else
      let rest := drain queue
      match d.sender with
      | none => rest
      | some pid =>
        match parse pid (payload d) with
        | none => rest
        | some parsed => (parsed :: rest.1, rest.2)

end Notify

end Oxinit
