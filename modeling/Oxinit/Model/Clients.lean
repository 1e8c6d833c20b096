import Oxinit.Model.Handle
import Oxinit.Model.Log

/-!
# The control socket

`control.rs`, down to the descriptor that each client is connected by, the
message encoding of `oxinit-ipc`, and the handlers of `main.rs` that accept a
client and answer one. The encoding itself is `serde_json`'s (`Json`).
-/

namespace Oxinit

open Log (Bytes bytes)

/-- `serde_json`, at what oxinit reads and writes. -/
structure Json where
  toRequest : Bytes → Except String Request
  ofResponse : Response → Bytes

namespace Ipc

/-- The largest message either side will send or accept. -/
def maxMessage : Nat := 64 * 1024

/-- Why a message is not sent or not understood. -/
inductive Error
  | encode (message : String)
  | decode (message : String)
  | tooLarge (size limit : Nat)
  deriving DecidableEq

/-- What a client is told of it. -/
def Error.toString : Error → String
  | .encode message => "encode: " ++ message
  | .decode message => "decode: " ++ message
  | .tooLarge size limit =>
    "message is " ++ ToString.toString size ++ " bytes, over the " ++ ToString.toString limit ++ " byte limit"

/-- Encode a message, refusing one too large to survive the wire. -/
def encode (j : Json) (value : Response) : Except Error Bytes :=
  let bytes := j.ofResponse value
  if maxMessage < bytes.length then .error (.tooLarge bytes.length maxMessage) else .ok bytes

/-- Decode a request. -/
def decode (j : Json) (bytes : Bytes) : Except Error Request := (j.toRequest bytes).mapError .decode

end Ipc

/-- How many clients may be connected at once. -/
def maxClients : Nat := 8

/-- A client, and the descriptor it is connected by. -/
structure Client (Fd : Type) where
  id : Nat
  fd : Fd
  deriving DecidableEq

/-- The connected clients, and the id for the next one. -/
structure Clients (Fd : Type) where
  clients : List (Client Fd) := []
  nextId : Nat := 0
  deriving DecidableEq

namespace Clients

variable {Fd : Type}

/-- Take one pending connection, unless there are too many clients. -/
def accept (pending : Option Fd) (c : Clients Fd) : Option Nat × Clients Fd :=
  match pending with
  | none => (none, c)
  | some fd =>
    if maxClients ≤ c.clients.length then (none, c)
    else
      let id := c.nextId
      (some id, { clients := c.clients ++ [{ id, fd }], nextId := (id + 1) % 2 ^ 32 })

/-- The first client of that id. -/
def client (id : Nat) (c : Clients Fd) : Option (Client Fd) := c.clients.find? (·.id = id)

/-- The descriptor it is connected by. -/
def fd (id : Nat) (c : Clients Fd) : Option Fd := (c.client id).map (·.fd)

/-- `recv(2)` into a buffer: what landed in it, and how much that was. Without
`MSG_TRUNC` the rest of a longer message is not counted. -/
def receive (size : Nat) (message : Bytes) : Bytes × Nat := (message.take size, min message.length size)

/-- What `recv` makes of the message that came, or of an error. -/
def whole (message : Option Bytes) : Option Bytes := do
  let (read, sent) := receive Ipc.maxMessage (← message)
  if read = [] then none else if Ipc.maxMessage < sent then none else some read

/-- One whole request. `socket` is what `recv(2)` finds on each descriptor. -/
def recv (socket : Fd → Option Bytes) (id : Nat) (c : Clients Fd) : Option Bytes := do
  let client ← c.client id
  whole (socket client.fd)

/-- What is sent, and on which descriptor. -/
def reply (id : Nat) (message : Bytes) (c : Clients Fd) : Option (Fd × Bytes) := do
  let client ← c.client id
  return (client.fd, message)

/-- Forget a client. -/
def close (id : Nat) (c : Clients Fd) : Clients Fd := { c with clients := c.clients.filter (·.id ≠ id) }

/-- Someone connected to the control socket. `register` is whether epoll takes
the descriptor. -/
def onConnect (register : Fd → Bool) (pending : Option Fd) (c : Clients Fd) : Clients Fd :=
  match c.accept pending with
  | (none, c) => c
  | (some id, c) => if (c.fd id).map register = some true then c else c.close id

/-- A control client sent a request, or hung up. One request per connection:
the reply goes back and the connection closes. -/
def onRequest (j : Json) (w : World) (socket : Fd → Option Bytes) (id : Nat) (c : Clients Fd) (s : Supervisor) :
    Option (Fd × Bytes) × Clients Fd × Supervisor :=
  match c.recv socket id with
  | none => (none, c.close id, s)
  | some message =>
    let (response, s) := match Ipc.decode j message with
      | .ok request => s.handle w request
      | .error e => (Response.error e.toString, s)
    let sent := match Ipc.encode j response with
      | .ok bytes => c.reply id bytes
      | .error _ => none
    (sent, c.close id, s)

/-- What changes the clients. -/
inductive Call (Fd : Type)
  | accept (pending : Option Fd)
  | close (id : Nat)

/-- One of them. -/
def step (c : Clients Fd) : Call Fd → Clients Fd
  | .accept pending => (c.accept pending).2
  | .close id => c.close id

/-- Any sequence of them, from the start of the server. -/
def run (calls : List (Call Fd)) : Clients Fd := calls.foldl step {}

end Clients

end Oxinit
