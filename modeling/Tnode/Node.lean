import Tnode.Socket
import Tnode.Holdings

namespace Tnode

def ILLEGAL_SERVICE : Nat := 2 ^ 32 - 1

def MAX_SOCKET : Int := 65536

/-- `Service`, as far as messages pass through it. -/
structure Service where
  isstop : Bool
  msgQueue : List Servicemessage
deriving DecidableEq, Repr

def Service.pushMessage (service : Service) (msg : Servicemessage) : Service :=
  { service with msgQueue := service.msgQueue ++ [msg] }

def Service.getMessage (service : Service) : Option (Servicemessage × Service) :=
  match service.msgQueue with
  | [] => none
  | msg :: rest => some (msg, { service with msgQueue := rest })

def Service.stop (service : Service) : Service :=
  { service with isstop := true }

def leBytes : Nat → Nat → List Byte
  | 0, _ => []
  | n + 1, x => UInt8.ofNat x :: leBytes n (x / 0x100)

/-- The block `cc_response` fills: `len`, `entityid`, `msgid`, `flags` and the payload. -/
def responseBytes (entityid msgid : Nat) (payload : List Byte) : List Byte :=
  leBytes 4 (payload.length + sizeofSocketmessage) ++ leBytes 8 entityid ++ leBytes 2 msgid ++
    leBytes 2 0 ++ payload

/-- `NetworkManager` and `ServiceManager` with the messages that running functions hold:
`dispatching` those on their way from a socket to `pushMessage`, `handling` those that
`Service::run` has taken, `responding` those that `cc_response` has built. `handed` records,
for each response given to a socket, whose request it answers and which socket object got it. -/
structure Node where
  heap : Heap
  created : Nat
  sockets : AList fun _ : SOCKET => SocketInternal
  autoid : Nat
  initid : Nat
  services : AList fun _ : Nat => Service
  dispatching : List Servicemessage
  handling : List Servicemessage
  responding : List Servicemessage
  handed : List (Nat × Nat)

namespace Node

/-- After `ServiceManager::init`: the init service is there, and no connection yet. -/
def start : Node where
  heap := ⟨0, []⟩
  created := 0
  sockets := ∅
  autoid := 1
  initid := 0
  services := (∅ : AList fun _ : Nat => Service).insert 0 ⟨false, []⟩
  dispatching := []
  handling := []
  responding := []
  handed := []

def release (n : Node) (message : Servicemessage) : Node :=
  { n with heap := releaseMessage n.heap message }

/-- One turn of the accept loop of `readSocket`. -/
def accept (n : Node) (newfd : SOCKET) : Option Node :=
  if 0 ≤ newfd ∧ newfd < MAX_SOCKET ∧ n.sockets.lookup newfd = none then
    some { n with
      created := n.created + 1
      sockets := n.sockets.insert newfd (SocketInternal.create n.created newfd) }
  else none

def closeSocket (n : Node) (s : SOCKET) : Node :=
  match n.sockets.lookup s with
  | none => n
  | some socket => { n with sockets := n.sockets.erase s, heap := socket.destroy n.heap }

/-- `readSocket` up to the loop over `getMessage`. -/
def receive (n : Node) (s : SOCKET) (k : RecvSide) : Option Node :=
  match n.sockets.lookup s with
  | none => some n
  | some socket => do
    let (ok, socket, _, heap) ← socket.receive k n.heap
    let n := { n with sockets := n.sockets.insert s socket, heap := heap }
    return if ok then n else n.closeSocket s

def getMessage (n : Node) (s : SOCKET) : Option Node := do
  let socket ← n.sockets.lookup s
  let (message, socket) ← socket.getMessage
  return { n with
    sockets := n.sockets.insert s socket
    dispatching := n.dispatching ++ [message] }

/-- `writeSocket`. -/
def send (n : Node) (s : SOCKET) (k : SendSide) : Option Node :=
  match n.sockets.lookup s with
  | none => some n
  | some socket => do
    let (ok, socket, _, heap) ← socket.send k n.heap
    let n := { n with sockets := n.sockets.insert s socket, heap := heap }
    return if ok then n else n.closeSocket s

/-- `ServiceManager::pushMessage` of the `i`-th dispatched message; `sid` is what the init
service's `dispatch` returns. -/
def pushMessage (n : Node) (i : Nat) (sid : Nat) : Option Node := do
  let msg ← n.dispatching[i]?
  let n := { n with dispatching := n.dispatching.eraseIdx i }
  if n.services.lookup n.initid = none then
    return n.release msg
  if sid = ILLEGAL_SERVICE then
    return n.release msg
  match n.services.lookup sid with
  | none => return n.release msg
  | some service => return { n with services := n.services.insert sid (service.pushMessage msg) }

def newservice (n : Node) : Option Node :=
  if n.services.lookup n.autoid = none then
    some { n with autoid := n.autoid + 1, services := n.services.insert n.autoid ⟨false, []⟩ }
  else none

def exitservice (n : Node) (sid : Nat) : Node :=
  match n.services.lookup sid with
  | none => n
  | some service => { n with services := n.services.insert sid service.stop }

/-- `ServiceManager::schedule` deletes a service that has stopped. -/
def deleteService (n : Node) (sid : Nat) : Option Node := do
  let service ← n.services.lookup sid
  if service.isstop then some { n with services := n.services.erase sid } else none

def takeMessage (n : Node) (sid : Nat) : Option Node := do
  let service ← n.services.lookup sid
  if service.isstop then none else
    let (msg, service) ← service.getMessage
    return { n with services := n.services.insert sid service, handling := n.handling ++ [msg] }

/-- `Service::run` releases a message after `msgParser`. -/
def finishMessage (n : Node) (i : Nat) : Option Node := do
  let msg ← n.handling[i]?
  return { n with handling := n.handling.eraseIdx i }.release msg

/-- `cc_response`, called while the `i`-th handled message is parsed, up to `sendMessage`. -/
def response (n : Node) (i : Nat) (fd : SOCKET) (entityid msgid : Nat) (payload : List Byte)
    (serialized : Bool) : Option Node := do
  let request ← n.handling[i]?
  let (addr, heap) := allocateMessage n.heap
  let msg : Servicemessage := ⟨addr, request.origin, fd, responseBytes entityid msgid payload⟩
  let n := { n with heap := heap }
  if serialized then
    return { n with responding := n.responding ++ [msg] }
  else
    return n.release msg

/-- `NetworkManager::sendMessage` of the `i`-th response; there is no step when the number
is no index of `_sockets`. `cc_response` ignores the result. -/
def sendMessage (n : Node) (i : Nat) (k : SendSide) : Option Node := do
  let message ← n.responding[i]?
  let n := { n with responding := n.responding.eraseIdx i }
  if message.fd < 0 ∨ MAX_SOCKET ≤ message.fd then
    none
  match n.sockets.lookup message.fd with
  | none => return n
  | some socket => do
    let (ok, socket', _, heap) ← socket.sendMessage message k n.heap
    let n := { n with
      sockets := n.sockets.insert message.fd socket'
      heap := heap
      handed := n.handed ++ [(message.origin, socket.self)] }
    return if ok then n else n.closeSocket message.fd

inductive Label
  | accept (newfd : SOCKET)
  | receive (s : SOCKET) (k : RecvSide)
  | getMessage (s : SOCKET)
  | send (s : SOCKET) (k : SendSide)
  | closeSocket (s : SOCKET)
  | pushMessage (i sid : Nat)
  | newservice
  | exitservice (sid : Nat)
  | deleteService (sid : Nat)
  | takeMessage (sid : Nat)
  | finishMessage (i : Nat)
  | response (i : Nat) (fd : SOCKET) (entityid msgid : Nat) (payload : List Byte) (serialized : Bool)
  | sendMessage (i : Nat) (k : SendSide)

def step (n : Node) : Label → Option Node
  | .accept newfd => n.accept newfd
  | .receive s k => n.receive s k
  | .getMessage s => n.getMessage s
  | .send s k => n.send s k
  | .closeSocket s => some (n.closeSocket s)
  | .pushMessage i sid => n.pushMessage i sid
  | .newservice => n.newservice
  | .exitservice sid => some (n.exitservice sid)
  | .deleteService sid => n.deleteService sid
  | .takeMessage sid => n.takeMessage sid
  | .finishMessage i => n.finishMessage i
  | .response i fd entityid msgid payload serialized =>
    n.response i fd entityid msgid payload serialized
  | .sendMessage i k => n.sendMessage i k

end Node

/-- A response is a frame of the wire format as long as its length fits the field. -/
theorem wellFormed_responseBytes (entityid msgid : Nat) {payload : List Byte}
    (h : payload.length + sizeofSocketmessage < 2 ^ 32) :
    WellFormedFrame (responseBytes entityid msgid payload) := by
  have h16 : sizeofSocketmessage = 16 := rfl
  refine ⟨?_, ?_, ?_⟩
  · simp [responseBytes, leBytes, h16]
  · simp [responseBytes, leBytes]
    omega
  · simp [responseBytes, leBytes, u32le]
    omega

end Tnode
