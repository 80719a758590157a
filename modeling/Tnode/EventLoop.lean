import Tnode.SocketSend
import Tnode.SocketStream
import Tnode.Node

namespace Tnode

open Transitions

/-- A socket with what the kernel has for it: the connections a server has not accepted yet, and
whether its last `accept` failed, the bytes that have arrived, whether the peer has shut down behind
them, whether the last `::send` would have blocked and there is no room since, whether an error is
pending, and whether `epoll_ctl` took the socket. -/
structure Polled where
  socket : SocketInternal
  backlog : Nat
  refused : Bool
  queued : List Byte
  shut : Bool
  full : Bool
  failed : Bool
  registered : Bool

namespace Polled

def create (self : Nat) (s : SOCKET) (type : SocketType) (registered : Bool) : Polled :=
  ⟨{ SocketInternal.create self s with socketType := type }, 0, false, [], false, false, false,
    registered⟩

def isServer (p : Polled) : Bool := p.socket.socketType = .server

/-- `EPOLLIN`. -/
def input (p : Polled) : Bool :=
  if p.isServer then 0 < p.backlog else !p.queued.isEmpty || p.shut

/-- `EPOLLOUT`. -/
def output (p : Polled) : Bool := !p.isServer && !p.full

/-- What the socket has still to send. -/
def left (p : Polled) : List Byte := p.socket.wbuffer.unread ++ raws p.socket.slist

end Polled

structure PollEvent where
  fd : SOCKET
  error : Bool
  input : Bool
  output : Bool
deriving DecidableEq, Repr

def NM_POLL_EVENT : Nat := 128

/-- `NetworkManager` with its `Poll`, whose descriptors are all edge-triggered: `ready` is the list
of the kernel that `epoll_wait` takes from, and `batch` what is left of the events it has returned.
`handed` is what the loop has given to `ServiceManager::pushMessage`. -/
structure EventLoop where
  sockets : AList fun _ : SOCKET => Polled
  heap : Heap
  created : Nat
  ready : List SOCKET
  batch : List PollEvent
  handed : List Servicemessage

namespace EventLoop

def start : EventLoop := ⟨∅, ⟨0, []⟩, 0, [], [], []⟩

def wake (e : EventLoop) (s : SOCKET) : EventLoop :=
  if s ∈ e.ready then e else { e with ready := e.ready ++ [s] }

/-- A change that the kernel makes to a socket, with the edge it reports for one that it polls. -/
def kernel (e : EventLoop) (s : SOCKET) (f : Polled → Option Polled) : Option EventLoop := do
  let p ← e.sockets.lookup s
  let p ← f p
  let e := { e with sockets := e.sockets.insert s p }
  return if p.registered then e.wake s else e

/-- The table gets a socket, and `Poll::addSocket` reports it if it is ready. When `epoll_ctl` fails
the socket stays in the table all the same: nobody looks at what `Poll::addSocket` returns. -/
def addSocket (e : EventLoop) (s : SOCKET) (type : SocketType) (registered : Bool) :
    Option EventLoop :=
  if 0 ≤ s ∧ s < MAX_SOCKET ∧ e.sockets.lookup s = none then
    let p := Polled.create e.created s type registered
    let e := { e with created := e.created + 1, sockets := e.sockets.insert s p }
    some (if registered && (p.input || p.output) then e.wake s else e)
  else none

def closeSocket (e : EventLoop) (s : SOCKET) : EventLoop :=
  match e.sockets.lookup s with
  | none => e
  | some p => { e with
      sockets := e.sockets.erase s
      heap := p.socket.destroy e.heap
      ready := e.ready.filter (· ≠ s) }

/-- The loop of `readSocket` over `accept()`. -/
def acceptLoop (e : EventLoop) : List (SOCKET × Bool) → Option EventLoop
  | [] => some e
  | (newfd, registered) :: newfds => do
    let e ← e.addSocket newfd .connection registered
    e.acceptLoop newfds

/-- What the kernel decides in `readSocket`: for a server the numbers of the connections that it
accepts, each with the outcome of its `epoll_ctl`, and whether it then fails, for a connection the
outcome of each `::recv`. -/
structure ReadChoice where
  newfds : List (SOCKET × Bool)
  refused : Bool
  script : List RecvChoice
  zeroAgain : Bool

def readSocket (e : EventLoop) (s : SOCKET) (c : ReadChoice) : Option EventLoop :=
  match e.sockets.lookup s with
  | none => some e
  | some p =>
    if p.isServer then
      if c.newfds.length ≤ p.backlog ∧ (c.refused = false → c.newfds.length = p.backlog) then
        let p := { p with backlog := p.backlog - c.newfds.length, refused := c.refused }
        { e with sockets := e.sockets.insert s p }.acceptLoop c.newfds
      else none
    else do
      let (ok, socket, k, heap) ← p.socket.receive ⟨p.queued, p.shut, c.zeroAgain, c.script, none⟩ e.heap
      if ok then
        let (messages, socket) := socket.getMessages
        let p := { p with socket, queued := k.queued }
        return { e with
          sockets := e.sockets.insert s p, heap, handed := e.handed ++ messages }
      else
        let p := { p with socket, queued := k.queued }
        return { e with sockets := e.sockets.insert s p, heap }.closeSocket s

/-- A call of `send()` or `send(message)` on a socket. -/
def sendCall (e : EventLoop) (s : SOCKET) (p : Polled) (script : List SendChoice) :
    Option EventLoop := do
  let last : Option SendResult := if p.full then some .again else none
  let (ok, socket, k, heap) ← p.socket.send ⟨[], script, last⟩ e.heap
  let p := { p with socket, full := k.last = some .again }
  let e := { e with sockets := e.sockets.insert s p, heap }
  return if ok then e else e.closeSocket s

def writeSocket (e : EventLoop) (s : SOCKET) (script : List SendChoice) : Option EventLoop :=
  match e.sockets.lookup s with
  | none => some e
  | some p => e.sendCall s p script

def sendMessage (e : EventLoop) (message : Servicemessage) (script : List SendChoice) :
    Option EventLoop :=
  if message.fd < 0 ∨ MAX_SOCKET ≤ message.fd then none
  else match e.sockets.lookup message.fd with
  | none => some e
  | some p =>
    let socket := { p.socket with slist := p.socket.slist ++ [message] }
    e.sendCall message.fd { p with socket } script

/-- `epoll_wait`: of the descriptors in front of the list those are returned that are ready. -/
def wait (e : EventLoop) (n : Nat) : Option EventLoop :=
  let events := (e.ready.take n).filterMap fun s => (e.sockets.lookup s).bind fun p =>
    if p.failed || p.input || p.output then some ⟨s, p.failed, p.input, p.output⟩ else none
  if e.batch = [] ∧ events.length ≤ NM_POLL_EVENT then
    some { e with ready := e.ready.drop n, batch := events }
  else none

inductive Label
  | connect (s : SOCKET)
  | arrive (s : SOCKET) (bytes : List Byte)
  | shutdown (s : SOCKET)
  | room (s : SOCKET)
  | fail (s : SOCKET)
  | newserver (s : SOCKET) (registered : Bool)
  | newclient (s : SOCKET) (registered : Bool)
  | closeSocket (s : SOCKET)
  | sendMessage (message : Servicemessage) (script : List SendChoice)
  | wait (n : Nat)
  | error
  | read (choice : ReadChoice)
  | write (script : List SendChoice)
  | next

/-- The steps of the kernel, of the threads that run scripts, and of the loop over the events. -/
def step (e : EventLoop) : Label → Option EventLoop
  | .connect s => e.kernel s fun p =>
    if p.isServer then some { p with backlog := p.backlog + 1, refused := false } else none
  | .arrive s bytes => e.kernel s fun p =>
    if p.isServer || p.shut then none else some { p with queued := p.queued ++ bytes }
  | .shutdown s => e.kernel s fun p => if p.isServer then none else some { p with shut := true }
  | .room s => e.kernel s fun p => if p.isServer then none else some { p with full := false }
  | .fail s => e.kernel s fun p => some { p with failed := true }
  | .newserver s registered => e.addSocket s .server registered
  | .newclient s registered => e.addSocket s .client registered
  | .closeSocket s => some (e.closeSocket s)
  | .sendMessage message script => e.sendMessage message script
  | .wait n => e.wait n
  | .error =>
    match e.batch with
    | ⟨s, true, _, _⟩ :: batch => some { e.closeSocket s with batch }
    | _ => none
  | .read choice =>
    match e.batch with
    | ⟨s, false, true, output⟩ :: batch =>
      { e with batch := ⟨s, false, false, output⟩ :: batch }.readSocket s choice
    | _ => none
  | .write script =>
    match e.batch with
    | ⟨s, false, false, true⟩ :: batch =>
      { e with batch := ⟨s, false, false, false⟩ :: batch }.writeSocket s script
    | _ => none
  | .next =>
    match e.batch with
    | ⟨_, false, false, false⟩ :: batch => some { e with batch }
    | _ => none

end EventLoop

namespace SocketInternal

/-- A read that does not fail has taken all that the kernel had. -/
theorem readBytes_drained (k : RecvSide) (len : Nat) (bytes : List Byte)
    (h : (readBytes k len bytes).1 ≠ -1) :
    (readBytes k len bytes).2.2.queued = [] ∧ k.shut = false := by
  fun_induction readBytes k len bytes with
  | case1 k bytes k' hr => exact absurd rfl h
  | case2 k bytes k' hr ih =>
    obtain ⟨_, rfl⟩ := RecvSide.recv_interrupted hr
    exact ih h
  | case3 k bytes k' hr =>
    obtain ⟨hq, hshut, _, rfl⟩ := RecvSide.recv_again hr
    exact ⟨hq, hshut⟩
  | case4 k bytes k' hr => exact absurd rfl h
  | case5 k bytes rc k' hr ih =>
    obtain ⟨_, _, _, _, _, rfl⟩ := RecvSide.recv_data hr
    exact ih h

theorem receive_drained {s s' : SocketInternal} {k k' : RecvSide} {heap heap' : Heap} {ok : Bool}
    (h : s.receive k heap = some (ok, s', k', heap')) :
    (ok = true → k'.queued = [] ∧ k.shut = false) ∧ s'.wbuffer = s.wbuffer ∧ s'.slist = s.slist ∧
      s'.socketType = s.socketType := by
  obtain ⟨_, hlost | hread⟩ := readBytes_stored k readlen [] (Nat.zero_le _)
  · obtain ⟨b, hb⟩ := receive_lost s heap (Prod.ext hlost rfl : readBytes k readlen [] = (-1, _, _))
    rw [hb] at h
    cases h
    exact ⟨fun hok => absurd hok Bool.false_ne_true, rfl, rfl, rfl⟩
  · obtain ⟨b, _, hb⟩ := receive_read s heap (Prod.ext hread rfl)
    rw [hb] at h
    cases h
    refine ⟨fun _ => readBytes_drained k readlen [] ?_, rfl, rfl, rfl⟩
    rw [hread]
    omega

end SocketInternal

namespace EventLoop

/-- The loop is going to look at `s`: the kernel still has it in its list, or an event that the loop
has not come to tells it of an error or of what `flag` stands for. -/
def Attended (ready : List SOCKET) (batch : List PollEvent) (s : SOCKET)
    (flag : PollEvent → Bool) : Prop :=
  s ∈ ready ∨ ∃ ev ∈ batch, ev.fd = s ∧ (ev.error = true ∨ flag ev = true)

/-- Whatever there is to do for a socket, the loop is going to do it: to read, but for the
connections that were left when `accept` failed, to send, and to close it for an error. -/
structure Served (ready : List SOCKET) (batch : List PollEvent) (s : SOCKET) (p : Polled) : Prop where
  input : p.input = true → (p.isServer = true → p.refused = false) →
    Attended ready batch s PollEvent.input
  output : p.left ≠ [] → p.full = false → Attended ready batch s PollEvent.output
  error : p.failed = true → Attended ready batch s fun _ => false
  server : p.isServer = true → p.left ≠ [] → p.full = true

/-- The loop serves the sockets that `epoll_ctl` took. -/
def Awake (e : EventLoop) : Prop :=
  ∀ s p, e.sockets.lookup s = some p → p.registered = true → Served e.ready e.batch s p

section

variable {ready ready' : List SOCKET} {batch batch' : List PollEvent} {s : SOCKET} {p p' : Polled}
  {flag : PollEvent → Bool}

theorem Attended.mono (h : Attended ready batch s flag) (hready : s ∈ ready → s ∈ ready')
    (hbatch : ∀ ev ∈ batch, ev.fd = s → ev ∈ batch') : Attended ready' batch' s flag := by
  rcases h with h | ⟨ev, hev, hfd, hflag⟩
  · exact Or.inl (hready h)
  · exact Or.inr ⟨ev, hbatch ev hev hfd, hfd, hflag⟩

theorem Served.mono (h : Served ready batch s p) (hready : s ∈ ready → s ∈ ready')
    (hbatch : ∀ ev ∈ batch, ev.fd = s → ev ∈ batch') : Served ready' batch' s p where
  input hinput hrefused := (h.input hinput hrefused).mono hready hbatch
  output hleft hfull := (h.output hleft hfull).mono hready hbatch
  error hfailed := (h.error hfailed).mono hready hbatch
  server := h.server

theorem Served.of_ready (hs : s ∈ ready) (hserver : p.isServer = true → p.left ≠ [] → p.full = true) :
    Served ready batch s p :=
  ⟨fun _ _ => Or.inl hs, fun _ _ => Or.inl hs, fun _ => Or.inl hs, hserver⟩

/-- Nothing is to be done for a new socket. -/
theorem served_create (self : Nat) (type : SocketType) (registered : Bool) :
    Served ready batch s (.create self s type registered) := by
  have hleft : (Polled.create self s type registered).left = [] := by
    simp [Polled.left, Polled.create, SocketInternal.create, raws]
  have hinput : (Polled.create self s type registered).input = false := by
    simp [Polled.input, Polled.create]
  refine ⟨fun h => ?_, fun h => absurd hleft h,
    fun hfailed => absurd hfailed Bool.false_ne_true, fun _ h => absurd hleft h⟩
  rw [hinput] at h
  cases h

theorem Attended.head {ev ev' : PollEvent} (h : Attended ready (ev :: batch) s flag)
    (hfd : ev'.fd = ev.fd)
    (hkeep : ev.error = true ∨ flag ev = true → ev'.error = true ∨ flag ev' = true) :
    Attended ready (ev' :: batch) s flag := by
  rcases h with h | ⟨x, hx, hxs, hflag⟩
  · exact Or.inl h
  · rcases List.mem_cons.mp hx with rfl | hx
    · exact Or.inr ⟨ev', List.mem_cons_self, hfd.trans hxs, hkeep hflag⟩
    · exact Or.inr ⟨x, List.mem_cons_of_mem _ hx, hxs, hflag⟩

theorem Attended.tail {ev : PollEvent} (h : Attended ready (ev :: batch) s flag)
    (hev : ev.error = false ∧ flag ev = false) : Attended ready batch s flag := by
  rcases h with h | ⟨x, hx, hxs, hflag⟩
  · exact Or.inl h
  · rcases List.mem_cons.mp hx with rfl | hx
    · rw [hev.1, hev.2] at hflag
      simp at hflag
    · exact Or.inr ⟨x, hx, hxs, hflag⟩

/-- After a read, which leaves a server with connections only when `accept` has failed. -/
theorem Served.read {output : Bool} (h : Served ready (⟨s, false, true, output⟩ :: batch) s p)
    (hread : p'.input = true → p'.isServer = true ∧ p'.refused = true) (hleft : p'.left = p.left)
    (hfull : p'.full = p.full) (hfailed : p'.failed = p.failed) (htype : p'.isServer = p.isServer) :
    Served ready (⟨s, false, false, output⟩ :: batch) s p' := by
  refine ⟨fun hinput hrefused => ?_, fun hne hno => ?_, fun hf => ?_, ?_⟩
  · obtain ⟨hserver, hyes⟩ := hread hinput
    rw [hrefused hserver] at hyes
    cases hyes
  · rw [hleft] at hne
    rw [hfull] at hno
    exact (h.output hne hno).head rfl id
  · rw [hfailed] at hf
    exact (h.error hf).head rfl id
  · rw [htype, hleft, hfull]
    exact h.server

/-- After a call of `send`, which stops only when the kernel would block. -/
theorem Served.sent (hleft : p.left ≠ [] → p.full = true)
    (hinput : p.input = true → (p.isServer = true → p.refused = false) →
      Attended ready batch s PollEvent.input)
    (herror : p.failed = true → Attended ready batch s fun _ => false) :
    Served ready batch s p := by
  refine ⟨hinput, fun hne hno => ?_, herror, fun _ => hleft⟩
  rw [hleft hne] at hno
  cases hno

end

section

variable {e e' : EventLoop} {s : SOCKET} {p : Polled}

@[simp] theorem sockets_wake : (e.wake s).sockets = e.sockets := by
  unfold wake
  split <;> rfl

@[simp] theorem batch_wake : (e.wake s).batch = e.batch := by
  unfold wake
  split <;> rfl

@[simp] theorem mem_wake {t : SOCKET} : t ∈ (e.wake s).ready ↔ t = s ∨ t ∈ e.ready := by
  unfold wake
  split
  next h =>
    refine ⟨Or.inr, ?_⟩
    rintro (rfl | h)
    · exact h
    · assumption
  next => simp [or_comm]

/-- What holds of the other sockets when a step is about `s`. -/
def Others (e e' : EventLoop) (s : SOCKET) : Prop :=
  ∀ t q, t ≠ s → e.sockets.lookup t = some q → q.registered = true →
    Served e'.ready e'.batch t q

theorem Awake.others (h : Awake e) (hready : ∀ t, t ≠ s → t ∈ e.ready → t ∈ e'.ready)
    (hbatch : ∀ ev ∈ e.batch, ev.fd ≠ s → ev ∈ e'.batch) : Others e e' s := by
  intro t q hne hq hreg
  exact (h t q hq hreg).mono (hready t hne) fun ev hev hfd => hbatch ev hev (hfd ▸ hne)

/-- The loop has done a part of its first event. -/
theorem Awake.others_head {ev ev' : PollEvent} {batch : List PollEvent} (h : Awake e)
    (hbatch : e.batch = ev :: batch) (hfd : ev.fd = s) :
    Others e { e with batch := ev' :: batch } s := by
  refine h.others (fun t _ ht => ht) fun x hx hne => ?_
  rw [hbatch] at hx
  rcases List.mem_cons.mp hx with rfl | hx
  · exact absurd hfd hne
  · exact List.mem_cons_of_mem _ hx

theorem Others.of_none (h : Others e e' s) (hsockets : e'.sockets = e.sockets)
    (hs : e.sockets.lookup s = none) : Awake e' := by
  intro t q hq hreg
  rw [hsockets] at hq
  refine h t q ?_ hq hreg
  rintro rfl
  rw [hs] at hq
  cases hq

theorem Others.insert (h : Others e e' s) (hsockets : e'.sockets = e.sockets.insert s p)
    (hs : p.registered = true → Served e'.ready e'.batch s p) : Awake e' := by
  intro t q hq hreg
  rw [hsockets] at hq
  by_cases hne : t = s
  · subst hne
    rw [AList.lookup_insert] at hq
    cases hq
    exact hs hreg
  · rw [AList.lookup_insert_ne hne] at hq
    exact h t q hne hq hreg

theorem closeSocket_batch (batch : List PollEvent) :
    { e.closeSocket s with batch } = { e with batch }.closeSocket s := by
  unfold EventLoop.closeSocket
  dsimp only
  split <;> rfl

theorem Others.closeSocket (h : Others e e s) : Awake (e.closeSocket s) := by
  intro t q hq hreg
  unfold EventLoop.closeSocket at hq ⊢
  split at hq
  next hnone => exact h.of_none rfl hnone t q hq hreg
  next p hp =>
    by_cases hne : t = s
    · subst hne
      simp at hq
    · rw [AList.lookup_erase_ne hne] at hq
      refine (h t q hne hq hreg).mono (fun ht => ?_) fun ev hev _ => hev
      exact List.mem_filter.mpr ⟨ht, by simpa using hne⟩

theorem Awake.closeSocket (h : Awake e) (s : SOCKET) : Awake (e.closeSocket s) :=
  (h.others (fun _ _ ht => ht) fun _ hev _ => hev : Others e e s).closeSocket

theorem Awake.wake (h : Awake e) (s : SOCKET) : Awake (e.wake s) := by
  intro t q hq hreg
  rw [sockets_wake] at hq
  refine (h t q hq hreg).mono (fun ht => mem_wake.mpr (Or.inr ht)) fun ev hev _ => ?_
  rw [batch_wake]
  exact hev

theorem Awake.kernel {f : Polled → Option Polled} (h : Awake e)
    (hf : ∀ p p', f p = some p' → p'.registered = p.registered ∧ (p'.isServer = true →
      p.isServer = true ∧ p'.left = p.left ∧ p'.full = p.full))
    (hk : e.kernel s f = some e') : Awake e' := by
  obtain ⟨p, hp, hk⟩ := Option.bind_eq_some_iff.mp hk
  obtain ⟨p', hp', hk⟩ := Option.bind_eq_some_iff.mp hk
  cases hk
  obtain ⟨hsame, hserver⟩ := hf p p' hp'
  have hothers : Others e { e with sockets := e.sockets.insert s p' } s :=
    h.others (fun _ _ ht => ht) fun _ hev _ => hev
  cases hreg : p'.registered with
  | true =>
    rw [if_pos rfl]
    refine Others.insert (h.others (fun t _ ht => mem_wake.mpr (Or.inr ht)) fun ev hev _ => ?_)
      sockets_wake fun _ => .of_ready (mem_wake.mpr (Or.inl rfl)) fun hs => ?_
    · rw [batch_wake]
      exact hev
    · obtain ⟨hs', hleft, hfull⟩ := hserver hs
      rw [hleft, hfull]
      exact (h s p hp (hsame.symm.trans hreg)).server hs'
  | false =>
    refine hothers.insert rfl fun hyes => ?_
    rw [hreg] at hyes
    cases hyes

theorem Awake.addSocket {type : SocketType} {registered : Bool} (h : Awake e)
    (ha : e.addSocket s type registered = some e') : Awake e' := by
  unfold EventLoop.addSocket at ha
  split at ha
  next =>
    cases ha
    have hnew : Awake { e with
        created := e.created + 1
        sockets := e.sockets.insert s (.create e.created s type registered) } :=
      Others.insert (h.others (fun t _ ht => ht) fun ev hev _ => hev) rfl
        fun _ => served_create e.created type registered
    split
    next => exact hnew.wake s
    next => exact hnew
  next => cases ha

theorem Awake.acceptLoop {newfds : List (SOCKET × Bool)} (h : Awake e)
    (ha : e.acceptLoop newfds = some e') : Awake e' := by
  induction newfds generalizing e with
  | nil =>
    cases ha
    exact h
  | cons newfd newfds ih =>
    obtain ⟨e₁, h₁, ha⟩ := Option.bind_eq_some_iff.mp ha
    exact ih (h.addSocket h₁) ha

theorem Others.sendCall {script : List SendChoice} (h : Others e e s)
    (hp : p.registered = true →
      (p.input = true → (p.isServer = true → p.refused = false) →
        Attended e.ready e.batch s PollEvent.input) ∧
      (p.failed = true → Attended e.ready e.batch s fun _ => false))
    (hsend : e.sendCall s p script = some e') : Awake e' := by
  unfold EventLoop.sendCall at hsend
  obtain ⟨ok, left, slist', w', k', hs, _, _, hsent⟩ :=
    p.socket.send_stream ⟨[], script, if p.full then some .again else none⟩ e.heap
  simp only [hs, Option.bind_eq_bind, Option.bind_some] at hsend
  cases hsend
  cases ok with
  | true =>
    refine Others.insert h rfl fun hreg => .sent (fun hne => ?_) (hp hreg).1 (hp hreg).2
    exact decide_eq_true (hsent.pending rfl hne)
  | false =>
    refine Others.closeSocket ?_
    intro t q hne hq hreg
    rw [AList.lookup_insert_ne hne] at hq
    exact h t q hne hq hreg

theorem Awake.readSocket {choice : ReadChoice} {output : Bool} {batch : List PollEvent}
    (h : Awake e) (hbatch : e.batch = ⟨s, false, true, output⟩ :: batch)
    (hread : { e with batch := ⟨s, false, false, output⟩ :: batch }.readSocket s choice = some e') :
    Awake e' := by
  have hothers : Others e { e with batch := ⟨s, false, false, output⟩ :: batch } s :=
    h.others_head hbatch rfl
  unfold EventLoop.readSocket at hread
  split at hread
  next hnone =>
    cases hread
    exact hothers.of_none rfl hnone
  next p hp =>
    have hs : p.registered = true → Served e.ready (⟨s, false, true, output⟩ :: batch) s p := by
      rw [← hbatch]
      exact h s p hp
    split at hread
    next hserver =>
      split at hread
      next hc =>
        refine Awake.acceptLoop ?_ hread
        refine Others.insert hothers rfl fun hreg =>
          (hs hreg).read (fun hinput => ⟨hserver, ?_⟩) rfl rfl rfl rfl
        by_contra hno
        have hlen := hc.2 (by simpa using hno)
        have hback : 0 < p.backlog - choice.newfds.length := by
          have hserver' : Polled.isServer
              { p with backlog := p.backlog - choice.newfds.length, refused := choice.refused } := hserver
          simpa [Polled.input, hserver'] using hinput
        omega
      next => cases hread
    next hconn =>
      obtain ⟨⟨ok, socket, k, heap⟩, hr, hread⟩ := Option.bind_eq_some_iff.mp hread
      obtain ⟨hdrained, hw, hl, ht⟩ := SocketInternal.receive_drained hr
      cases ok with
      | true =>
        obtain ⟨hq, hshut⟩ := hdrained rfl
        simp only [SocketInternal.getMessages_eq] at hread
        cases hread
        have htype : Polled.isServer { p with
            socket := { socket with rlist := [] }, queued := k.queued } = p.isServer := by
          simp [Polled.isServer, ht]
        refine Others.insert hothers rfl fun hreg =>
          (hs hreg).read (fun hinput => ?_) ?_ rfl rfl htype
        · rw [Polled.input, htype, if_neg hconn] at hinput
          have hshut' : p.shut = false := hshut
          simp [hq, hshut'] at hinput
        · simp [Polled.left, hw, hl]
      | false =>
        cases hread
        refine Others.closeSocket ?_
        intro t q hne hq hreg
        rw [AList.lookup_insert_ne hne] at hq
        exact hothers t q hne hq hreg

theorem Awake.writeSocket {script : List SendChoice} {batch : List PollEvent} (h : Awake e)
    (hbatch : e.batch = ⟨s, false, false, true⟩ :: batch)
    (hwrite : { e with batch := ⟨s, false, false, false⟩ :: batch }.writeSocket s script = some e') :
    Awake e' := by
  have hothers : Others e { e with batch := ⟨s, false, false, false⟩ :: batch } s :=
    h.others_head hbatch rfl
  unfold EventLoop.writeSocket at hwrite
  split at hwrite
  next hnone =>
    cases hwrite
    exact hothers.of_none rfl hnone
  next p hp =>
    refine Others.sendCall hothers (fun hreg => ?_) hwrite
    have hs := h s p hp hreg
    rw [hbatch] at hs
    exact ⟨fun hinput hrefused => (hs.input hinput hrefused).head rfl id,
      fun hfailed => (hs.error hfailed).head rfl id⟩

theorem Awake.sendMessage {message : Servicemessage} {script : List SendChoice} (h : Awake e)
    (hsend : e.sendMessage message script = some e') : Awake e' := by
  unfold EventLoop.sendMessage at hsend
  split at hsend
  next => cases hsend
  next =>
    split at hsend
    next =>
      cases hsend
      exact h
    next p hp =>
      refine Others.sendCall (p := { p with socket := { p.socket with
        slist := p.socket.slist ++ [message] } }) ?_ (fun hreg => ?_) hsend
      · exact h.others (fun _ _ ht => ht) fun _ hev _ => hev
      · exact ⟨(h _ p hp hreg).input, (h _ p hp hreg).error⟩

theorem Awake.wait {n : Nat} (h : Awake e) (hw : e.wait n = some e') : Awake e' := by
  unfold EventLoop.wait at hw
  simp only at hw
  split at hw
  next hc =>
    cases hw
    intro t q hq hreg
    have hs := h t q hq hreg
    have hnew : ∀ flag : PollEvent → Bool, Attended e.ready e.batch t flag →
        (q.failed || q.input || q.output) = true →
        q.failed = true ∨ flag ⟨t, q.failed, q.input, q.output⟩ = true →
        Attended (e.ready.drop n) ((e.ready.take n).filterMap fun s =>
          (e.sockets.lookup s).bind fun p => if p.failed || p.input || p.output then
            some ⟨s, p.failed, p.input, p.output⟩ else none) t flag := by
      intro flag hatt hany hflag
      have hready : t ∈ e.ready.take n ++ e.ready.drop n := by
        rw [List.take_append_drop]
        rcases hatt with hr | ⟨ev, hev, _⟩
        · exact hr
        · rw [hc.1] at hev
          cases hev
      rcases List.mem_append.mp hready with htake | hdrop
      · refine Or.inr ⟨⟨t, q.failed, q.input, q.output⟩, ?_, rfl, hflag⟩
        exact List.mem_filterMap.mpr ⟨t, htake, by simp only [hq, Option.bind_some, if_pos hany]⟩
      · exact Or.inl hdrop
    refine ⟨fun hinput hrefused => ?_, fun hne hno => ?_, fun hf => ?_, hs.server⟩
    · exact hnew _ (hs.input hinput hrefused) (by simp [hinput]) (Or.inr hinput)
    · have hout : q.output = true := by
        have hserver : q.isServer = false := by
          by_contra hyes
          have := hs.server (by simpa using hyes) hne
          rw [hno] at this
          cases this
        simp [Polled.output, hserver, hno]
      exact hnew _ (hs.output hne hno) (by simp [hout]) (Or.inr hout)
    · exact hnew _ (hs.error hf) (by simp [hf]) (Or.inl hf)
  next => cases hw

theorem start_awake : Awake start := by
  intro s p hp
  cases hp

theorem step_awake {l : Label} (h : Awake e) (hstep : step e l = some e') : Awake e' := by
  cases l with
  | connect s =>
    refine h.kernel (fun p p' hf => ?_) hstep
    simp only [Option.ite_none_right_eq_some, Option.some.injEq] at hf
    obtain ⟨hs, rfl⟩ := hf
    exact ⟨rfl, fun _ => ⟨hs, rfl, rfl⟩⟩
  | arrive s bytes =>
    refine h.kernel (fun p p' hf => ?_) hstep
    simp only [Option.ite_none_left_eq_some, Option.some.injEq] at hf
    obtain ⟨hs, rfl⟩ := hf
    exact ⟨rfl, fun hserver => absurd (by simp [show p.isServer = true from hserver]) hs⟩
  | shutdown s =>
    refine h.kernel (fun p p' hf => ?_) hstep
    simp only [Option.ite_none_left_eq_some, Option.some.injEq] at hf
    obtain ⟨hs, rfl⟩ := hf
    exact ⟨rfl, fun hserver => absurd hserver hs⟩
  | room s =>
    refine h.kernel (fun p p' hf => ?_) hstep
    simp only [Option.ite_none_left_eq_some, Option.some.injEq] at hf
    obtain ⟨hs, rfl⟩ := hf
    exact ⟨rfl, fun hserver => absurd hserver hs⟩
  | fail s =>
    refine h.kernel (fun p p' hf => ?_) hstep
    cases hf
    exact ⟨rfl, fun hserver => ⟨hserver, rfl, rfl⟩⟩
  | newserver s registered => exact h.addSocket hstep
  | newclient s registered => exact h.addSocket hstep
  | closeSocket s =>
    cases hstep
    exact h.closeSocket s
  | sendMessage message script => exact h.sendMessage hstep
  | wait n => exact h.wait hstep
  | error =>
    simp only [step] at hstep
    split at hstep
    next s _ _ batch hbatch =>
      cases hstep
      rw [closeSocket_batch]
      refine Others.closeSocket (h.others (fun t _ ht => ht) fun ev hev hne => ?_)
      rw [hbatch] at hev
      rcases List.mem_cons.mp hev with rfl | hev
      · exact absurd rfl hne
      · exact hev
    next => cases hstep
  | read choice =>
    simp only [step] at hstep
    split at hstep
    next hbatch => exact h.readSocket hbatch hstep
    next => cases hstep
  | write script =>
    simp only [step] at hstep
    split at hstep
    next hbatch => exact h.writeSocket hbatch hstep
    next => cases hstep
  | next =>
    simp only [step] at hstep
    split at hstep
    next hbatch =>
      cases hstep
      intro t q hq hreg
      have hs := h t q hq hreg
      rw [hbatch] at hs
      exact ⟨fun hinput hrefused => (hs.input hinput hrefused).tail ⟨rfl, rfl⟩,
        fun hne hno => (hs.output hne hno).tail ⟨rfl, rfl⟩,
        fun hfailed => (hs.error hfailed).tail ⟨rfl, rfl⟩, hs.server⟩
    next => cases hstep

end

/-- When the loop is about to sleep in `epoll_wait`, with nothing in the list of the kernel that
would wake it, nothing is left to be done for a socket that `epoll_ctl` took: no connection is
waiting, but for those that were left when `accept` failed, every byte that has arrived has been
read, no peer has shut down and no socket has an error that the loop has not seen, and what is left
to send is what the kernel has no room for. -/
theorem asleep_drained {e : EventLoop} {ls : List Label} (h : run step start ls = some e)
    (hready : e.ready = []) (hbatch : e.batch = []) (s : SOCKET) (p : Polled)
    (hp : e.sockets.lookup s = some p) (hreg : p.registered = true) :
    (p.isServer = true → p.backlog = 0 ∨ p.refused = true) ∧
      (p.isServer = false → p.queued = [] ∧ p.shut = false) ∧
      p.failed = false ∧ (p.left ≠ [] → p.full = true) := by
  have hawake := run_invariant_always Awake (fun _ _ _ h hs => step_awake h hs) start_awake h
  have hs := hawake s p hp hreg
  have hnot : ∀ flag, ¬ Attended e.ready e.batch s flag := by
    rintro flag (hr | ⟨ev, hev, _⟩)
    · simp [hready] at hr
    · simp [hbatch] at hev
  refine ⟨fun hserver => ?_, fun hconn => ?_, ?_, fun hne => ?_⟩
  · by_contra hno
    obtain ⟨hback, hrefused⟩ := not_or.mp hno
    refine hnot _ (hs.input ?_ fun _ => by simpa using hrefused)
    simp [Polled.input, hserver]
    omega
  · have hin : ¬ p.input = true := fun hinput =>
      hnot _ (hs.input hinput fun hserver => by rw [hconn] at hserver; cases hserver)
    simpa [Polled.input, hconn] using hin
  · exact Bool.eq_false_iff.mpr fun hfailed => hnot _ (hs.error hfailed)
  · by_contra hno
    exact hnot _ (hs.output hne (by simpa using hno))

theorem asleep_drained_one_frame : ∃ e p, run step start [.newserver 3 true, .connect 3, .wait 1,
      .read ⟨[(7, true)], false, [], true⟩, .next, .arrive 7 emptyFrame, .wait 1,
      .read ⟨[], false, [], true⟩, .write [], .next] = some e ∧
    e.sockets.lookup 7 = some p ∧ p.registered = true ∧
    e.handed.map Servicemessage.rawmsg = [emptyFrame] ∧
    ((p.isServer = true → p.backlog = 0 ∨ p.refused = true) ∧
      (p.isServer = false → p.queued = [] ∧ p.shut = false) ∧
      p.failed = false ∧ (p.left ≠ [] → p.full = true)) := by
  let ls : List Label := [.newserver 3 true, .connect 3, .wait 1,
    .read ⟨[(7, true)], false, [], true⟩, .next, .arrive 7 emptyFrame, .wait 1,
    .read ⟨[], false, [], true⟩, .write [], .next]
  have hrun : (run step start ls).map (fun e =>
      (e.ready, e.batch, e.handed.map Servicemessage.rawmsg,
        (e.sockets.lookup 7).map Polled.registered)) = some ([], [], [emptyFrame], some true) := by
    decide +kernel
  obtain ⟨e, he, hall⟩ := Option.map_eq_some_iff.mp hrun
  simp only [Prod.mk.injEq] at hall
  obtain ⟨hready, hbatch, hhanded, hp⟩ := hall
  obtain ⟨p, hp, hreg⟩ := Option.map_eq_some_iff.mp hp
  exact ⟨e, p, he, hp, hreg, hhanded, asleep_drained he hready hbatch 7 p hp hreg⟩

end EventLoop

end Tnode
