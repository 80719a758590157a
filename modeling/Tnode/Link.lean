import Tnode.ReadSocket
import Tnode.SocketSend

namespace Tnode

open Framing Transitions

/-- One direction of a connection between two nodes: the slot of the socket that sends and the
messages it has been given, the bytes on their way, those in the queue of the other kernel, and
the slot of the socket that reads them. -/
structure Link where
  near : Option SocketInternal
  nearHeap : Heap
  pushed : List Servicemessage
  wire : List Byte
  arrived : List Byte
  far : Connection

/-- `send` is `NetworkManager::sendMessage` or `writeSocket`, and `read` is `readSocket`, each with
what the kernel decides. A slot may also be closed for another reason, and a connection that is
closed may lose what is on its way. -/
inductive LinkEvent
  | send (call : SendCall) (script : List SendChoice)
  | carry (count : Nat)
  | read (zeroAgain : Bool) (script : List RecvChoice)
  | closeNear
  | closeFar
  | lose
deriving DecidableEq, Repr

def SocketInternal.sendCall (s : SocketInternal) (call : SendCall) (k : SendSide) (heap : Heap) :
    Option (Bool × SocketInternal × SendSide × Heap) :=
  match call with
  | .message m => s.sendMessage m k heap
  | .flush => s.send k heap

namespace Link

def recvSide (t : Link) (zeroAgain : Bool) (script : List RecvChoice) : RecvSide :=
  ⟨t.arrived, t.near.isNone && t.wire.isEmpty, zeroAgain, script, none⟩

def send (t : Link) (call : SendCall) (script : List SendChoice) : Option Link :=
  match t.near with
  | none => some t
  | some socket => do
    let (ok, socket, kernel, heap) ← socket.sendCall call ⟨[], script, none⟩ t.nearHeap
    let pushed := t.pushed ++ Tnode.pushed [call]
    let wire := t.wire ++ kernel.accepted
    if ok then return { t with near := some socket, nearHeap := heap, pushed, wire }
    else return { t with near := none, nearHeap := socket.destroy heap, pushed, wire }

def read (t : Link) (zeroAgain : Bool) (script : List RecvChoice) : Option Link :=
  match t.far.socket with
  | none => some t
  | some _ => do
    let k := t.recvSide zeroAgain script
    let far ← readSocket t.far k
    return { t with far, arrived := (SocketInternal.readBytes k SocketInternal.readlen []).2.2.queued }

def step (t : Link) : LinkEvent → Option Link
  | .send call script => t.send call script
  | .carry count =>
    some { t with wire := t.wire.drop count, arrived := t.arrived ++ t.wire.take count }
  | .read zeroAgain script => t.read zeroAgain script
  | .closeNear => some { t with
      near := none, nearHeap := t.near.elim t.nearHeap fun s => s.destroy t.nearHeap }
  | .closeFar => some { t with
      far := { t.far with
        socket := none, heap := t.far.socket.elim t.far.heap fun s => s.destroy t.far.heap } }
  | .lose => some { t with wire := if t.near.isSome then t.wire else [] }

/-- No byte is between the callers of `send` and the reader of the far socket. -/
def Idle (t : Link) : Prop :=
  t.wire = [] ∧ t.arrived = [] ∧ ∀ s ∈ t.near, s.wbuffer.unread = [] ∧ s.slist = []

/-- The event is a frame given to `send`, if it gives one. -/
def Framed : LinkEvent → Prop
  | .send call _ => ∀ m ∈ Tnode.pushed [call], WellFormedFrame m.rawmsg
  | _ => True

instance : DecidablePred Framed
  | .send call _ =>
    inferInstanceAs (Decidable (∀ m ∈ Tnode.pushed [call], WellFormedFrame m.rawmsg))
  | .carry _ | .read .. | .closeNear | .closeFar | .lose => inferInstanceAs (Decidable True)

/-- Neither kernel reports an error, nobody closes a slot, and fewer bytes wait than `receive` has
room for. -/
def Undisturbed (t : Link) : LinkEvent → Prop
  | .send _ script => SendSide.NoError ⟨[], script, none⟩
  | .carry _ => True
  | .read zeroAgain script =>
    (t.recvSide zeroAgain script).NoError ∧ t.arrived.length < SocketInternal.readlen
  | .closeNear | .closeFar | .lose => False

end Link

theorem raw_of_wellFormed {m : Servicemessage} (h : WellFormedFrame m.rawmsg) :
    m.raw = m.rawmsg := by
  have hlen : m.len = m.rawmsg.length := h.2.2
  apply List.ext_getElem
  · rw [length_raw, hlen]
  · intro i _ hi
    simp [Servicemessage.raw, hi]

theorem raws_of_wellFormed {messages : List Servicemessage}
    (h : ∀ m ∈ messages, WellFormedFrame m.rawmsg) :
    raws messages = (messages.map Servicemessage.rawmsg).flatten := by
  rw [raws, List.map_congr_left fun m hm => raw_of_wellFormed (h m hm)]

theorem RecvSide.recv_queued {k k' : RecvSide} {n : Nat} {res : RecvResult}
    (h : k.recv n = (res, k')) (hres : ∀ bytes, res ≠ .data bytes) : k'.queued = k.queued := by
  rcases k.recv_cases n with ⟨_, he⟩ | ⟨_, he⟩ | ⟨hq, he⟩ | ⟨_, _, he⟩ | ⟨_, c, _, _, he⟩
  case inr.inr.inr.inr => exact absurd (Prod.mk.inj (he.symm.trans h)).1.symm (hres _)
  case inr.inr.inl =>
    rw [← (Prod.mk.inj (he.symm.trans h)).2, hq]
  all_goals rw [← (Prod.mk.inj (he.symm.trans h)).2]

namespace SocketInternal

/-- What `readBytes` leaves with the kernel stands behind what it stores. -/
theorem readBytes_queued (k : RecvSide) (len : Nat) (bytes : List Byte) :
    (readBytes k len bytes).2.1 ++ (readBytes k len bytes).2.2.queued = bytes ++ k.queued := by
  fun_induction readBytes k len bytes with
  | case1 k bytes k' hr => rw [RecvSide.recv_queued hr (by simp)]
  | case2 k bytes k' hr ih =>
    obtain ⟨_, rfl⟩ := RecvSide.recv_interrupted hr
    exact ih
  | case3 k bytes k' hr => rw [RecvSide.recv_queued hr (by simp)]
  | case4 k bytes k' hr => rw [RecvSide.recv_queued hr (by simp)]
  | case5 k bytes rc k' hr ih =>
    obtain ⟨_, c, _, _, rfl, rfl⟩ := RecvSide.recv_data hr
    rw [ih, List.append_assoc, List.take_append_drop]

end SocketInternal

theorem SocketInternal.sendCall_eq (s : SocketInternal) (call : SendCall) (k : SendSide)
    (heap : Heap) :
    s.sendCall call k heap = { s with slist := s.slist ++ pushed [call] }.send k heap := by
  cases call with
  | message m => rfl
  | flush => simp [sendCall, pushed]

/-- A wake-up on a stream of legal frames: the connection moves behind what it reads, unless the
read fails. -/
theorem readSocket_reads {c : Connection} {s : SocketInternal} {seen : List Byte} {k : RecvSide}
    (h : c.Behind s seen) (hgood : (socketRule.parse
      (seen ++ (SocketInternal.readBytes k SocketInternal.readlen []).2.1)).bad = false) :
    ∃ c', readSocket c k = some c' ∧
      ((∃ s', c'.Behind s' (seen ++ (SocketInternal.readBytes k SocketInternal.readlen []).2.1)) ∨
        c'.socket = none ∧ c'.handed = c.handed ∧ ¬(k.NoError ∧ k.Fits SocketInternal.readlen)) := by
  obtain ⟨_, hcount⟩ := SocketInternal.readBytes_stored k SocketInternal.readlen [] (Nat.zero_le _)
  rcases hcount with hlost | hcount
  · obtain ⟨b, hcall⟩ := SocketInternal.receive_lost s c.heap
      (Prod.ext hlost rfl : SocketInternal.readBytes k SocketInternal.readlen [] = (-1, _, _))
    refine ⟨⟨none, { s with rbuffer := b }.destroy c.heap, c.handed⟩, ?_, Or.inr ⟨rfl, rfl, ?_⟩⟩
    · simp [readSocket, h.socket, hcall]
    · rintro ⟨hk, hfit⟩
      obtain ⟨k', hread, _⟩ := SocketInternal.readBytes_fits SocketInternal.readlen []
        (Nat.zero_le _) hk hfit
      rw [hread] at hlost
      have : (0 : Int) ≤ (([] ++ k.queued : List Byte).length : Int) := Int.natCast_nonneg _
      omega
  · obtain ⟨b, hb, hcall⟩ := SocketInternal.receive_read s c.heap
      (Prod.ext hcount rfl :
        SocketInternal.readBytes k SocketInternal.readlen [] = (((_ : List Byte).length : Int), _, _))
    obtain ⟨hf, hrest, hbad⟩ :=
      parse_behind h (SocketInternal.readBytes k SocketInternal.readlen []).2.1
    rw [hgood] at hbad
    rw [← hbad] at hcall
    refine ⟨_, by simp [readSocket, h.socket, hcall]; rfl, Or.inl ⟨_, rfl, rfl, ?_, hgood, ?_⟩⟩
    · rw [hb, hrest]
    · simp only [List.map_append, h.handed, hf, h.rlist, List.nil_append,
        SocketInternal.map_rawmsg_framed]
      rfl

namespace Link

/-- What holds when the far socket has read the bytes `seen`. -/
structure Keeps (t : Link) (seen : List Byte) : Prop where
  frames : ∀ m ∈ t.pushed, WellFormedFrame m.rawmsg
  isPrefix : seen ++ t.arrived ++ t.wire <+: raws t.pushed
  bytes : ∀ s ∈ t.near,
    seen ++ t.arrived ++ t.wire ++ s.wbuffer.unread ++ raws s.slist = raws t.pushed
  handed : t.far.handed.map Servicemessage.rawmsg <+: t.pushed.map Servicemessage.rawmsg
  behind : ∀ s ∈ t.far.socket, t.far.Behind s seen

variable {t : Link} {seen : List Byte}

theorem Keeps.parse_of_isPrefix (h : t.Keeps seen) {xs : List Byte} (hp : xs <+: raws t.pushed) :
    (socketRule.parse xs).bad = false ∧ legalFrames xs <+: t.pushed.map Servicemessage.rawmsg := by
  have hframes : ∀ f ∈ t.pushed.map Servicemessage.rawmsg, socketRule.IsFrame f := by
    intro f hf
    obtain ⟨m, hm, rfl⟩ := List.mem_map.mp hf
    exact isFrame_iff.mpr (h.frames m hm)
  rw [raws_of_wellFormed h.frames] at hp
  exact ⟨Rule.good_of_prefix_frames hframes socketRule_nil hp,
    Rule.frames_isPrefix hframes socketRule_nil hp⟩

theorem send_keeps (h : t.Keeps seen) {call : SendCall} (script : List SendChoice)
    (hf : ∀ m ∈ Tnode.pushed [call], WellFormedFrame m.rawmsg) :
    ∃ t', t.send call script = some t' ∧ t'.Keeps seen ∧ t'.far = t.far ∧
      (SendSide.NoError ⟨[], script, none⟩ → t'.near.isSome = t.near.isSome) := by
  unfold send
  cases hnear : t.near with
  | none => exact ⟨t, rfl, h, rfl, fun _ => by rw [hnear]⟩
  | some s =>
    obtain ⟨ok, left, slist, w, k, hsend, _, hok, hsent⟩ :=
      SocketInternal.send_stream { s with slist := s.slist ++ Tnode.pushed [call] }
        ⟨[], script, none⟩ t.nearHeap
    have hframes : ∀ m ∈ t.pushed ++ Tnode.pushed [call], WellFormedFrame m.rawmsg := by
      intro m hm
      exact (List.mem_append.mp hm).elim (h.frames m) (hf m)
    have hbytes : seen ++ t.arrived ++ t.wire ++
        (s.wbuffer.unread ++ raws (s.slist ++ Tnode.pushed [call])) =
          raws (t.pushed ++ Tnode.pushed [call]) := by
      have hold := h.bytes s hnear
      simp only [raws_append, ← List.append_assoc, hold]
    have hprefix : seen ++ t.arrived ++ (t.wire ++ k.accepted) <+:
        raws (t.pushed ++ Tnode.pushed [call]) := by
      rw [← hbytes, ← List.append_assoc]
      exact List.prefix_append_right_inj _ |>.mpr (by simpa using hsent.isPrefix)
    have hhanded : t.far.handed.map Servicemessage.rawmsg <+:
        (t.pushed ++ Tnode.pushed [call]).map Servicemessage.rawmsg := by
      rw [List.map_append]
      exact h.handed.trans (List.prefix_append _ _)
    simp only [s.sendCall_eq, hsend, Option.bind_eq_bind, Option.bind_some]
    cases ok with
    | true =>
      refine ⟨_, rfl, ⟨hframes, hprefix, ?_, hhanded, h.behind⟩, rfl, fun _ => rfl⟩
      intro s' hs'
      cases hs'
      have hnew := hsent.bytes rfl
      simp only [List.nil_append, List.append_assoc] at hnew hbytes ⊢
      rw [hnew, hbytes]
    | false =>
      refine ⟨_, rfl, ⟨hframes, hprefix, by simp, hhanded, h.behind⟩, rfl, ?_⟩
      intro hk
      cases (hok hk).1

theorem read_keeps (h : t.Keeps seen) (zeroAgain : Bool) (script : List RecvChoice) :
    ∃ t', t.read zeroAgain script = some t' ∧ (∃ seen', t'.Keeps seen') ∧ t'.near = t.near ∧
      ((t.recvSide zeroAgain script).NoError →
        (t.recvSide zeroAgain script).Fits SocketInternal.readlen →
          t'.far.socket.isSome = t.far.socket.isSome) := by
  unfold read
  cases hfar : t.far.socket with
  | none => exact ⟨t, rfl, ⟨seen, h⟩, rfl, fun _ _ => by rw [hfar]⟩
  | some s =>
    let k := t.recvSide zeroAgain script
    let stored := (SocketInternal.readBytes k SocketInternal.readlen []).2.1
    let queued := (SocketInternal.readBytes k SocketInternal.readlen []).2.2.queued
    have harrived : stored ++ queued = t.arrived :=
      SocketInternal.readBytes_queued k SocketInternal.readlen []
    have hsplit : seen ++ t.arrived = seen ++ stored ++ queued := by
      rw [← harrived, List.append_assoc]
    have hprefix := h.isPrefix
    have hbytes := h.bytes
    rw [hsplit] at hprefix
    simp only [hsplit] at hbytes
    have hstored : seen ++ stored <+: raws t.pushed :=
      ((List.prefix_append _ _).trans (List.prefix_append _ _)).trans hprefix
    obtain ⟨hgood, hlegal⟩ := h.parse_of_isPrefix hstored
    obtain ⟨c, hread, hcases⟩ := readSocket_reads (k := k) (h.behind s hfar) hgood
    refine ⟨{ t with far := c, arrived := queued }, by simp [hread, k, queued], ?_, rfl, ?_⟩
    · refine ⟨seen ++ stored, h.frames, hprefix, hbytes, ?_, ?_⟩
      · rcases hcases with ⟨s', hbehind⟩ | ⟨_, hhanded, _⟩
        · rw [hbehind.handed]
          exact hlegal
        · rw [hhanded]
          exact h.handed
      · intro u hu
        rcases hcases with ⟨s', hbehind⟩ | ⟨hnone, _⟩
        · cases hbehind.socket.symm.trans hu
          exact hbehind
        · cases hnone.symm.trans hu
    · intro hk hfit
      rcases hcases with ⟨s', hbehind⟩ | ⟨_, _, hno⟩
      · simp [hbehind.socket]
      · exact absurd ⟨hk, hfit⟩ hno

/-- Both sockets are in their slots. -/
def Open (t : Link) : Prop := t.near.isSome = true ∧ t.far.socket.isSome = true

theorem step_keeps (h : t.Keeps seen) {event : LinkEvent} (hf : Framed event) :
    ∃ t', t.step event = some t' ∧ (∃ seen', t'.Keeps seen') ∧
      (t.Open → t.Undisturbed event → t'.Open) := by
  cases event with
  | send call script =>
    obtain ⟨t', hstep, hkeeps, hfar, hopen⟩ := send_keeps h script hf
    exact ⟨t', hstep, ⟨seen, hkeeps⟩, fun ho hu => ⟨(hopen hu).trans ho.1, hfar ▸ ho.2⟩⟩
  | carry count =>
    refine ⟨_, rfl, ⟨seen, h.frames, ?_, ?_, h.handed, h.behind⟩, fun ho _ => ho⟩
    · simpa using h.isPrefix
    · simpa using h.bytes
  | read zeroAgain script =>
    obtain ⟨t', hstep, hkeeps, hnear, hopen⟩ := read_keeps h zeroAgain script
    refine ⟨t', hstep, hkeeps, fun ho hu => ⟨hnear ▸ ho.1, ?_⟩⟩
    rw [hopen hu.1 ⟨?_, Or.inl hu.2⟩]
    · exact ho.2
    · have hnone := Option.isSome_iff_ne_none.mp ho.1
      simp [recvSide, hnone]
  | closeNear => exact ⟨_, rfl, ⟨seen, h.frames, h.isPrefix, nofun, h.handed, h.behind⟩, nofun⟩
  | closeFar => exact ⟨_, rfl, ⟨seen, h.frames, h.isPrefix, h.bytes, h.handed, nofun⟩, nofun⟩
  | lose =>
    refine ⟨_, rfl, ⟨seen, h.frames, ?_, ?_, h.handed, h.behind⟩, nofun⟩
    · dsimp only
      split
      next => exact h.isPrefix
      next =>
        rw [List.append_nil]
        exact (List.prefix_append _ _).trans h.isPrefix
    · intro s hs
      have hsome : t.near.isSome = true := Option.isSome_of_mem hs
      rw [if_pos hsome]
      exact h.bytes s hs

def start (a b : Nat) (s s' : SOCKET) (heap heap' : Heap) : Link :=
  ⟨some (.create a s), heap, [], [], [], ⟨some (.create b s'), heap', []⟩⟩

theorem start_keeps (a b : Nat) (s s' : SOCKET) (heap heap' : Heap) :
    (start a b s s' heap heap').Keeps [] := by
  have hnil := Rule.parse_more socketRule_nil
  refine ⟨nofun, by simp [start], ?_, by simp [start], ?_⟩
  · intro u hu
    cases hu
    simp [start, SocketInternal.create, raws]
  · intro u hu
    cases hu
    exact ⟨rfl, rfl, by simp [SocketInternal.create, hnil], by rw [hnil],
      by simp [start, legalFrames, hnil]⟩

theorem Keeps.handed_of_idle (h : t.Keeps seen) (ho : t.Open) (hi : t.Idle) :
    t.far.handed.map Servicemessage.rawmsg = t.pushed.map Servicemessage.rawmsg := by
  obtain ⟨s, hs⟩ := Option.isSome_iff_exists.mp ho.1
  obtain ⟨u, hu⟩ := Option.isSome_iff_exists.mp ho.2
  obtain ⟨hwire, harrived, hnear⟩ := hi
  obtain ⟨hunread, hslist⟩ := hnear s hs
  have hseen : seen = raws t.pushed := by
    have hbytes := h.bytes s hs
    simpa [hwire, harrived, hunread, hslist, raws] using hbytes
  have hframes : ∀ f ∈ t.pushed.map Servicemessage.rawmsg, socketRule.IsFrame f := by
    intro f hf
    obtain ⟨m, hm, rfl⟩ := List.mem_map.mp hf
    exact isFrame_iff.mpr (h.frames m hm)
  have hparse := Rule.parse_frames hframes []
  rw [List.append_nil, Rule.parse_more socketRule_nil, List.append_nil,
    ← raws_of_wellFormed h.frames, ← hseen] at hparse
  rw [(h.behind u hu).handed, legalFrames, hparse]

/-- Whatever the two kernels do and in whatever pieces the bytes arrive, the messages handed to the
far node are the first of those given to `send`, byte for byte and in order. They are all of them
when no byte is on its way, as long as both sockets are open; and what the code does closes
neither of them unless a kernel reports an error or too many bytes wait. -/
theorem run_delivers (a b : Nat) (s s' : SOCKET) (heap heap' : Heap) {events : List LinkEvent}
    (hf : ∀ e ∈ events, Framed e) :
    ∃ t, run step (start a b s s' heap heap') events = some t ∧
      t.far.handed.map Servicemessage.rawmsg <+: t.pushed.map Servicemessage.rawmsg ∧
      (t.Open → t.Idle →
        t.far.handed.map Servicemessage.rawmsg = t.pushed.map Servicemessage.rawmsg) ∧
      (Along step Undisturbed (start a b s s' heap heap') events → t.Open) := by
  have hrun : ∀ (t : Link) (seen : List Byte), t.Keeps seen → ∃ t', run step t events = some t' ∧
      (∃ seen', t'.Keeps seen') ∧ (t.Open → Along step Undisturbed t events → t'.Open) := by
    induction events with
    | nil => exact fun t seen h => ⟨t, rfl, ⟨seen, h⟩, fun ho _ => ho⟩
    | cons e events ih =>
      intro t seen h
      obtain ⟨t', hstep, ⟨seen', hkeeps⟩, hopen⟩ := step_keeps h (hf e (by simp))
      obtain ⟨u, hu, hlast, hopen'⟩ := ih (fun e' he' => hf e' (List.mem_cons_of_mem e he')) t' seen' hkeeps
      refine ⟨u, run_cons_iff.mpr ⟨t', hstep, hu⟩, hlast, fun ho ha => ?_⟩
      exact hopen' (hopen ho ha.1) (ha.2 t' hstep)
  obtain ⟨t, ht, ⟨seen, hkeeps⟩, hopen⟩ := hrun _ [] (start_keeps a b s s' heap heap')
  exact ⟨t, ht, hkeeps.handed, hkeeps.handed_of_idle, hopen ⟨rfl, rfl⟩⟩

/-- A frame that leaves in two pieces and arrives in two others. -/
def inPieces : List LinkEvent :=
  [.send (.message ⟨0, 0, 7, emptyFrame⟩) [.accept 5, .wouldblock], .carry 3, .read true [.upTo 2],
    .send .flush [.accept 99], .carry 99, .read false []]

theorem run_delivers_in_pieces : ∃ t, run step (start 0 1 7 8 ⟨1, []⟩ ⟨0, []⟩) inPieces = some t ∧
    t.far.handed.map Servicemessage.rawmsg <+: t.pushed.map Servicemessage.rawmsg ∧
    (t.Open → t.Idle →
      t.far.handed.map Servicemessage.rawmsg = t.pushed.map Servicemessage.rawmsg) ∧
    (Along step Undisturbed (start 0 1 7 8 ⟨1, []⟩ ⟨0, []⟩) inPieces → t.Open) :=
  run_delivers 0 1 7 8 ⟨1, []⟩ ⟨0, []⟩ (by decide)

end Link

end Tnode
