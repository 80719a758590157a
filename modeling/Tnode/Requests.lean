import Tnode.NodeSteps
import Tnode.ReadSocket
import Mathlib.Logic.Function.Basic

namespace Tnode

open Framing Transitions

/-- A node with what has passed through it: the bytes that `receive` has stored of each connection,
the messages in the order of `getMessage`, and which of them were pushed to a service and which a
service has taken, each with the service. -/
structure Exchange where
  node : Node
  arrived : Nat → List Byte
  received : List Servicemessage
  routed : List (Nat × Servicemessage)
  taken : List (Nat × Servicemessage)

/-- `ServiceManager::pushMessage` finds a service for what is dispatched to `sid`. -/
def Node.Routes (n : Node) (sid : Nat) : Prop :=
  n.services.lookup n.initid ≠ none ∧ sid ≠ ILLEGAL_SERVICE ∧ n.services.lookup sid ≠ none

instance (n : Node) (sid : Nat) : Decidable (n.Routes sid) :=
  inferInstanceAs (Decidable (_ ∧ _ ∧ _))

/-- One thread reads: it gets a message only when it has pushed the one before. -/
def Node.OneReader (n : Node) : Node.Label → Prop
  | .getMessage _ => n.dispatching = []
  | _ => True

instance (n : Node) (l : Node.Label) : Decidable (n.OneReader l) :=
  match l with
  | .getMessage _ => inferInstanceAs (Decidable (_ = _))
  | .accept _ | .receive _ _ | .send _ _ | .closeSocket _ | .pushMessage _ _ | .newservice
  | .exitservice _ | .deleteService _ | .takeMessage _ | .finishMessage _ | .response _ _ _ _ _ _
  | .sendMessage _ _ => isTrue trivial

namespace Exchange

def start : Exchange := ⟨.start, fun _ => [], [], [], []⟩

def record (t : Exchange) : Node.Label → Exchange
  | .receive s k =>
    match t.node.sockets.lookup s with
    | none => t
    | some c =>
      let stored := (SocketInternal.readBytes k SocketInternal.readlen []).2.1
      { t with arrived := Function.update t.arrived c.self (t.arrived c.self ++ stored) }
  | .getMessage s =>
    match t.node.sockets.lookup s with
    | none => t
    | some c => { t with received := t.received ++ c.rlist.head?.toList }
  | .pushMessage i sid =>
    if t.node.Routes sid then
      { t with routed := t.routed ++ t.node.dispatching[i]?.toList.map (sid, ·) }
    else t
  | .takeMessage sid =>
    match t.node.services.lookup sid with
    | none => t
    | some service => { t with taken := t.taken ++ service.msgQueue.head?.toList.map (sid, ·) }
  | _ => t

def step (t : Exchange) (l : Node.Label) : Option Exchange :=
  (t.node.step l).map fun node => { t.record l with node }

end Exchange

/-- What is recorded with a service. -/
def ofService (sid : Nat) (messages : List (Nat × Servicemessage)) : List Servicemessage :=
  (messages.filter (·.1 = sid)).map Prod.snd

/-- The bytes of the messages of a connection. -/
def ofConnection (o : Nat) (messages : List Servicemessage) : List (List Byte) :=
  (messages.filter (·.origin = o)).map Servicemessage.rawmsg

@[simp] theorem ofService_append (sid : Nat) (xs ys : List (Nat × Servicemessage)) :
    ofService sid (xs ++ ys) = ofService sid xs ++ ofService sid ys := by
  simp [ofService]

theorem ofService_single (sid sid' : Nat) (m : Servicemessage) :
    ofService sid [(sid', m)] = if sid' = sid then [m] else [] := by
  by_cases h : sid' = sid <;> simp [ofService, h]

@[simp] theorem ofConnection_append (o : Nat) (xs ys : List Servicemessage) :
    ofConnection o (xs ++ ys) = ofConnection o xs ++ ofConnection o ys := by
  simp [ofConnection]

theorem ofConnection_single (o : Nat) (m : Servicemessage) :
    ofConnection o [m] = if m.origin = o then [m.rawmsg] else [] := by
  by_cases h : m.origin = o <;> simp [ofConnection, h]

/-- The sockets of the second table stood in the first under the same number, with what they have
received since left as it was. -/
def Persist (t t' : AList fun _ : SOCKET => SocketInternal) : Prop :=
  ∀ s c', t'.lookup s = some c' → ∃ c, t.lookup s = some c ∧ c'.self = c.self ∧
    c'.rlist = c.rlist ∧ c'.rbuffer = c.rbuffer

theorem Persist.refl (t : AList fun _ : SOCKET => SocketInternal) : Persist t t :=
  fun _ c h => ⟨c, h, rfl, rfl, rfl⟩

theorem Persist.erase {t t' : AList fun _ : SOCKET => SocketInternal} (h : Persist t t') (s : SOCKET) :
    Persist t (t'.erase s) := by
  intro r c' hr
  by_cases hrs : r = s
  · rw [hrs, AList.lookup_erase] at hr
    cases hr
  · rw [AList.lookup_erase_ne hrs] at hr
    exact h r c' hr

theorem persist_insert {t : AList fun _ : SOCKET => SocketInternal} {s : SOCKET}
    {c c' : SocketInternal} (h : t.lookup s = some c) (hself : c'.self = c.self)
    (hrlist : c'.rlist = c.rlist) (hrbuffer : c'.rbuffer = c.rbuffer) : Persist t (t.insert s c') := by
  intro r d hd
  by_cases hrs : r = s
  · rw [hrs, AList.lookup_insert] at hd
    cases hd
    exact ⟨c, by rw [hrs, h], hself, hrlist, hrbuffer⟩
  · rw [AList.lookup_insert_ne hrs] at hd
    exact Persist.refl t r d hd

/-- A socket that was changed and then closed. -/
theorem persist_closed (t : AList fun _ : SOCKET => SocketInternal) (s : SOCKET) (c : SocketInternal) :
    Persist t ((t.insert s c).erase s) := by
  intro r d hd
  by_cases hrs : r = s
  · rw [hrs, AList.lookup_erase] at hd
    cases hd
  · rw [AList.lookup_erase_ne hrs, AList.lookup_insert_ne hrs] at hd
    exact Persist.refl t r d hd

namespace Node

theorem closeSocket_sockets (n : Node) (s : SOCKET) : (n.closeSocket s).sockets = n.sockets.erase s ∨
    (n.closeSocket s).sockets = n.sockets := by
  unfold closeSocket
  split
  next => exact Or.inr rfl
  next => exact Or.inl rfl

theorem closeSocket_persist {n : Node} {t : AList fun _ : SOCKET => SocketInternal}
    (h : Persist t n.sockets) (s : SOCKET) : Persist t (n.closeSocket s).sockets := by
  rcases n.closeSocket_sockets s with hs | hs <;> rw [hs]
  · exact h.erase s
  · exact h

/-- The rest of the node does not see that a socket is closed. -/
theorem closeSocket_rest (n : Node) (s : SOCKET) : ∃ sockets heap,
    n.closeSocket s = { n with sockets, heap } := by
  unfold closeSocket
  split
  next => exact ⟨n.sockets, n.heap, rfl⟩
  next => exact ⟨_, _, rfl⟩

/-- A `receive` that keeps its connection has moved it behind the bytes that it stored. -/
theorem receive_reads {n n' : Node} {s : SOCKET} {k : RecvSide} {c : SocketInternal}
    (hs : n.sockets.lookup s = some c) (h : n.receive s k = some n') :
    (∃ parsed b, parsed = socketRule.parse
        (c.rbuffer.unread ++ (SocketInternal.readBytes k SocketInternal.readlen []).2.1) ∧
      parsed.bad = false ∧ b.unread = parsed.rest ∧
      n' = { n with
        sockets := n.sockets.insert s (framedOn c n.heap parsed.frames b)
        heap := { n.heap with next := n.heap.next + parsed.frames.length } }) ∨
    ∃ c' heap, n' = { n with sockets := (n.sockets.insert s c').erase s, heap } := by
  have hclosed : ∀ c' : SocketInternal, ∀ heap : Heap, ∃ c'' heap',
      ({ n with sockets := n.sockets.insert s c', heap } : Node).closeSocket s =
        { n with sockets := (n.sockets.insert s c'').erase s, heap := heap' } := by
    intro c' heap
    exact ⟨c', _, by simp only [closeSocket, AList.lookup_insert]; rfl⟩
  obtain ⟨_, hlost | hread⟩ :=
    SocketInternal.readBytes_stored k SocketInternal.readlen [] (Nat.zero_le _)
  · obtain ⟨b, hb⟩ := SocketInternal.receive_lost c n.heap
      (Prod.ext hlost rfl : SocketInternal.readBytes k SocketInternal.readlen [] = (-1, _, _))
    simp only [receive, hs, hb, Option.bind_eq_bind, Option.bind_some, Option.pure_def,
      Option.some.injEq] at h
    rw [← h]
    exact Or.inr (hclosed _ _)
  · obtain ⟨b, hrest, hb⟩ := SocketInternal.receive_read c n.heap (Prod.ext hread rfl)
    simp only [receive, hs, hb, Option.bind_eq_bind, Option.bind_some, Option.pure_def,
      Option.some.injEq] at h
    rw [← h]
    cases hbad : (socketRule.parse (c.rbuffer.unread ++
        (SocketInternal.readBytes k SocketInternal.readlen []).2.1)).bad with
    | true => exact Or.inr (hclosed _ _)
    | false => exact Or.inl ⟨_, b, rfl, hbad, hrest, rfl⟩

theorem pushMessage_routes {n n' : Node} {i sid : Nat} (h : n.pushMessage i sid = some n') :
    ∃ msg, n.dispatching[i]? = some msg ∧
      (¬n.Routes sid ∧ n' = { n with dispatching := n.dispatching.eraseIdx i }.release msg ∨
        ∃ service, n.Routes sid ∧ n.services.lookup sid = some service ∧
          n' = { n with
            dispatching := n.dispatching.eraseIdx i
            services := n.services.insert sid (service.pushMessage msg) }) := by
  obtain ⟨msg, hm, h⟩ := Option.bind_eq_some_iff.mp h
  refine ⟨msg, hm, ?_⟩
  by_cases hinit : n.services.lookup n.initid = none
  · left
    simpa [Routes, hinit] using h.symm
  · by_cases hill : sid = ILLEGAL_SERVICE
    · left
      simpa [Routes, hinit, hill] using h.symm
    · cases hs : n.services.lookup sid with
      | none =>
        left
        simpa [Routes, hinit, hill, hs] using h.symm
      | some service =>
        right
        exact ⟨service, by simp [Routes, hinit, hill, hs], rfl, by simpa [hinit, hill, hs] using h.symm⟩

end Node

/-- What connections have brought and what was received of it agree: an open connection has parsed
what has arrived, a closed one has handed over the first of its frames. -/
structure Inbound (sockets : AList fun _ : SOCKET => SocketInternal) (created : Nat)
    (arrived : Nat → List Byte) (received : List Servicemessage) : Prop where
  born : ∀ s c, sockets.lookup s = some c → c.self < created
  apart : ∀ s s' c c', sockets.lookup s = some c → sockets.lookup s' = some c' →
    c.self = c'.self → s = s'
  own : ∀ s c, sockets.lookup s = some c → ∀ m ∈ c.rlist, m.origin = c.self
  parsed : ∀ s c, sockets.lookup s = some c → socketRule.parse (arrived c.self) =
    ⟨ofConnection c.self received ++ c.rlist.map Servicemessage.rawmsg, c.rbuffer.unread, false⟩
  unborn : ∀ o, created ≤ o → arrived o = [] ∧ ofConnection o received = []
  frames : ∀ o, ofConnection o received <+: legalFrames (arrived o)

section

variable {sockets sockets' : AList fun _ : SOCKET => SocketInternal} {created : Nat}
  {arrived : Nat → List Byte} {received : List Servicemessage} {s : SOCKET} {c : SocketInternal}

theorem lookup_insert_cases {r : SOCKET} {d : SocketInternal}
    (h : (sockets.insert s c).lookup r = some d) :
    r = s ∧ d = c ∨ r ≠ s ∧ sockets.lookup r = some d := by
  by_cases hrs : r = s
  · rw [hrs, AList.lookup_insert] at h
    exact Or.inl ⟨hrs, (Option.some.inj h).symm⟩
  · rw [AList.lookup_insert_ne hrs] at h
    exact Or.inr ⟨hrs, h⟩

theorem parse_nil : socketRule.parse [] = ⟨[], [], false⟩ := Rule.parse_more socketRule_nil

theorem Inbound.persist (h : Inbound sockets created arrived received)
    (hp : Persist sockets sockets') : Inbound sockets' created arrived received where
  born := by
    intro s c hs
    obtain ⟨d, hd, hself, _⟩ := hp s c hs
    rw [hself]
    exact h.born s d hd
  apart := by
    intro s s' c c' hs hs' heq
    obtain ⟨d, hd, hself, _⟩ := hp s c hs
    obtain ⟨d', hd', hself', _⟩ := hp s' c' hs'
    exact h.apart s s' d d' hd hd' (by rw [← hself, ← hself', heq])
  own := by
    intro s c hs m hm
    obtain ⟨d, hd, hself, hrlist, _⟩ := hp s c hs
    rw [hrlist] at hm
    rw [hself]
    exact h.own s d hd m hm
  parsed := by
    intro s c hs
    obtain ⟨d, hd, hself, hrlist, hrbuffer⟩ := hp s c hs
    rw [hself, hrlist, hrbuffer]
    exact h.parsed s d hd
  unborn := h.unborn
  frames := h.frames

theorem Inbound.accept (h : Inbound sockets created arrived received) (s : SOCKET) :
    Inbound (sockets.insert s (.create created s)) (created + 1) arrived received := by
  refine ⟨?_, ?_, ?_, ?_, fun o ho => h.unborn o (by omega), h.frames⟩
  · intro r d hr
    rcases lookup_insert_cases hr with ⟨_, rfl⟩ | ⟨_, hr⟩
    · exact Nat.lt_succ_self created
    · exact Nat.lt_succ_of_lt (h.born r d hr)
  · intro r r' d d' hr hr' heq
    rcases lookup_insert_cases hr with ⟨hrs, rfl⟩ | ⟨hrs, hr⟩ <;>
      rcases lookup_insert_cases hr' with ⟨hrs', rfl⟩ | ⟨hrs', hr'⟩
    · rw [hrs, hrs']
    · exact absurd heq (Nat.ne_of_gt (h.born r' d' hr'))
    · exact absurd heq (Nat.ne_of_lt (h.born r d hr))
    · exact h.apart r r' d d' hr hr' heq
  · intro r d hr m hm
    rcases lookup_insert_cases hr with ⟨_, rfl⟩ | ⟨_, hr⟩
    · cases hm
    · exact h.own r d hr m hm
  · intro r d hr
    rcases lookup_insert_cases hr with ⟨_, rfl⟩ | ⟨_, hr⟩
    · obtain ⟨harrived, hreceived⟩ := h.unborn created (Nat.le_refl _)
      simp [SocketInternal.create, harrived, hreceived, parse_nil]
    · exact h.parsed r d hr

theorem Inbound.born_insert (h : Inbound sockets created arrived received)
    (hs : sockets.lookup s = some c) {c' : SocketInternal} (hself : c'.self = c.self) (r : SOCKET)
    (d : SocketInternal) (hr : (sockets.insert s c').lookup r = some d) : d.self < created := by
  rcases lookup_insert_cases hr with ⟨_, rfl⟩ | ⟨_, hr⟩
  · rw [hself]
    exact h.born s c hs
  · exact h.born r d hr

theorem Inbound.apart_insert (h : Inbound sockets created arrived received)
    (hs : sockets.lookup s = some c) {c' : SocketInternal} (hself : c'.self = c.self)
    (r r' : SOCKET) (d d' : SocketInternal) (hr : (sockets.insert s c').lookup r = some d)
    (hr' : (sockets.insert s c').lookup r' = some d') (heq : d.self = d'.self) : r = r' := by
  rcases lookup_insert_cases hr with ⟨hrs, hd⟩ | ⟨hrs, hold⟩ <;>
    rcases lookup_insert_cases hr' with ⟨hrs', hd'⟩ | ⟨hrs', hold'⟩
  · rw [hrs, hrs']
  · rw [hd, hself] at heq
    exact absurd (h.apart s r' c d' hs hold' heq) (Ne.symm hrs')
  · rw [hd', hself] at heq
    exact absurd (h.apart r s d c hold hs heq) hrs
  · exact h.apart r r' d d' hold hold' heq

/-- Frames stay as more bytes arrive. -/
theorem legalFrames_append (xs ys : List Byte) : legalFrames xs <+: legalFrames (xs ++ ys) := by
  unfold legalFrames
  rw [Rule.parse_append]
  split
  next => exact List.prefix_rfl
  next => exact List.prefix_append _ _

theorem Inbound.frames_update (h : Inbound sockets created arrived received) (o : Nat)
    (stored : List Byte) (o' : Nat) : ofConnection o' received <+:
      legalFrames (Function.update arrived o (arrived o ++ stored) o') := by
  by_cases ho : o' = o
  · rw [ho, Function.update_self]
    exact (h.frames o).trans (legalFrames_append _ _)
  · rw [Function.update_of_ne ho]
    exact h.frames o'

theorem Inbound.unborn_update (h : Inbound sockets created arrived received) {o : Nat}
    (ho : o < created) (stored : List Byte) {o' : Nat} (ho' : created ≤ o') :
    Function.update arrived o (arrived o ++ stored) o' = [] ∧ ofConnection o' received = [] := by
  rw [Function.update_of_ne (Nat.ne_of_gt (Nat.lt_of_lt_of_le ho ho'))]
  exact h.unborn o' ho'

theorem Inbound.reads (h : Inbound sockets created arrived received) (hs : sockets.lookup s = some c)
    {stored : List Byte} {parsed : Parsed Byte} {b : ByteBuffer} (heap : Heap)
    (hparsed : parsed = socketRule.parse (c.rbuffer.unread ++ stored)) (hbad : parsed.bad = false)
    (hrest : b.unread = parsed.rest) :
    Inbound (sockets.insert s (Node.framedOn c heap parsed.frames b)) created
      (Function.update arrived c.self (arrived c.self ++ stored)) received := by
  refine ⟨h.born_insert hs rfl, h.apart_insert hs rfl, ?_, ?_,
    fun o => h.unborn_update (h.born s c hs) stored, h.frames_update c.self stored⟩
  · intro r d hr m hm
    rcases lookup_insert_cases hr with ⟨_, rfl⟩ | ⟨_, hr⟩
    · rcases List.mem_append.mp hm with hm | hm
      · exact h.own s c hs m hm
      · exact (SocketInternal.mem_framed hm).2.1
    · exact h.own r d hr m hm
  · intro r d hr
    rcases lookup_insert_cases hr with ⟨_, rfl⟩ | ⟨hrs, hr⟩
    · have hparse := Rule.parse_append (r := socketRule) (arrived c.self) stored
      rw [h.parsed s c hs, if_neg Bool.false_ne_true, ← hparsed, hbad, ← hrest] at hparse
      simp only [Node.framedOn, Function.update_self, hparse, List.map_append,
        SocketInternal.map_rawmsg_framed, List.append_assoc]
    · have hself : d.self ≠ c.self := fun heq => hrs (h.apart r s d c hr hs heq)
      rw [Function.update_of_ne hself]
      exact h.parsed r d hr

/-- What arrives at a connection that is then closed is not looked at. -/
theorem Inbound.closes (h : Inbound sockets created arrived received) (hs : sockets.lookup s = some c)
    (c' : SocketInternal) (stored : List Byte) :
    Inbound ((sockets.insert s c').erase s) created
      (Function.update arrived c.self (arrived c.self ++ stored)) received := by
  have hp := h.persist (persist_closed sockets s c')
  refine ⟨hp.born, hp.apart, hp.own, ?_, fun o => h.unborn_update (h.born s c hs) stored,
    h.frames_update c.self stored⟩
  intro r d hr
  have hrs : r ≠ s := by
    rintro rfl
    rw [AList.lookup_erase] at hr
    cases hr
  have hold : sockets.lookup r = some d := by
    rwa [AList.lookup_erase_ne hrs, AList.lookup_insert_ne hrs] at hr
  have hself : d.self ≠ c.self := fun heq => hrs (h.apart r s d c hold hs heq)
  rw [Function.update_of_ne hself]
  exact h.parsed r d hold

theorem Inbound.gets (h : Inbound sockets created arrived received) (hs : sockets.lookup s = some c)
    {msg : Servicemessage} {rest : List Servicemessage} (hrlist : c.rlist = msg :: rest) :
    Inbound (sockets.insert s { c with rlist := rest }) created arrived (received ++ [msg]) := by
  have horigin : msg.origin = c.self := h.own s c hs msg (by simp [hrlist])
  have hparsed := h.parsed s c hs
  rw [hrlist, List.map_cons] at hparsed
  have hreceived : ofConnection c.self (received ++ [msg]) =
      ofConnection c.self received ++ [msg.rawmsg] := by
    rw [ofConnection_append, ofConnection_single, if_pos horigin]
  have hother : ∀ o, o ≠ c.self → ofConnection o (received ++ [msg]) = ofConnection o received := by
    intro o ho
    rw [ofConnection_append, ofConnection_single, if_neg (by rw [horigin]; exact ho.symm),
      List.append_nil]
  refine ⟨h.born_insert hs rfl, h.apart_insert hs rfl, ?_, ?_, ?_, ?_⟩
  · intro r d hr m hm
    rcases lookup_insert_cases hr with ⟨_, rfl⟩ | ⟨_, hr⟩
    · exact h.own s c hs m (by rw [hrlist]; exact List.mem_cons_of_mem _ hm)
    · exact h.own r d hr m hm
  · intro r d hr
    rcases lookup_insert_cases hr with ⟨_, rfl⟩ | ⟨hrs, hr⟩
    · simp only [hparsed, hreceived, List.append_assoc, List.singleton_append]
    · rw [hother d.self fun heq => hrs (h.apart r s d c hr hs heq)]
      exact h.parsed r d hr
  · intro o ho
    rw [hother o (Nat.ne_of_gt (Nat.lt_of_lt_of_le (h.born s c hs) ho))]
    exact h.unborn o ho
  · intro o
    by_cases ho : o = c.self
    · rw [ho, hreceived, legalFrames, hparsed]
      exact ⟨rest.map Servicemessage.rawmsg, by simp⟩
    · rw [hother o ho]
      exact h.frames o

end

/-- What was received has been dispatched up to the message the reader holds; services have taken
what was pushed to them but for their queues. -/
structure Outbound (received dispatching : List Servicemessage) (services : AList fun _ : Nat => Service)
    (autoid : Nat) (routed taken : List (Nat × Servicemessage)) : Prop where
  single : dispatching.length ≤ 1
  dispatched : ∃ done, received = done ++ dispatching ∧ (routed.map Prod.snd).Sublist done
  live : ∀ sid service, services.lookup sid = some service →
    sid < autoid ∧ ofService sid taken ++ service.msgQueue = ofService sid routed
  past : ∀ sid, ofService sid taken <+: ofService sid routed
  ids : ∀ p ∈ routed, p.1 < autoid

section

variable {received dispatching : List Servicemessage} {services : AList fun _ : Nat => Service}
  {autoid sid : Nat} {routed taken : List (Nat × Servicemessage)} {service : Service}
  {msg : Servicemessage}

theorem lookup_service_cases {r : Nat} {d : Service}
    (h : (services.insert sid service).lookup r = some d) :
    r = sid ∧ d = service ∨ r ≠ sid ∧ services.lookup r = some d := by
  by_cases hrs : r = sid
  · rw [hrs, AList.lookup_insert] at h
    exact Or.inl ⟨hrs, (Option.some.inj h).symm⟩
  · rw [AList.lookup_insert_ne hrs] at h
    exact Or.inr ⟨hrs, h⟩

theorem Outbound.gets (h : Outbound received [] services autoid routed taken) (msg : Servicemessage) :
    Outbound (received ++ [msg]) ([] ++ [msg]) services autoid routed taken := by
  obtain ⟨done, hdone, hsub⟩ := h.dispatched
  exact ⟨Nat.le_refl 1, ⟨done, by simpa using hdone, hsub⟩, h.live, h.past, h.ids⟩

/-- The only message that is dispatched is the first. -/
theorem Outbound.dispatching_eq (h : Outbound received dispatching services autoid routed taken)
    {i : Nat} (hi : dispatching[i]? = some msg) : dispatching = [msg] ∧ dispatching.eraseIdx i = [] := by
  obtain ⟨hlt, hget⟩ := List.getElem?_eq_some_iff.mp hi
  have hi0 : i = 0 := by have := h.single; omega
  subst hi0
  obtain ⟨first, hfirst⟩ := List.length_eq_one_iff.mp (show dispatching.length = 1 by
    have := h.single; omega)
  subst hfirst
  have hmsg : first = msg := by simpa using hget
  rw [hmsg]
  exact ⟨rfl, rfl⟩

theorem Outbound.drops (h : Outbound received [msg] services autoid routed taken) :
    Outbound received [] services autoid routed taken := by
  obtain ⟨done, hdone, hsub⟩ := h.dispatched
  exact ⟨Nat.zero_le 1, ⟨done ++ [msg], by rw [hdone, List.append_nil],
    hsub.trans (List.sublist_append_left _ _)⟩, h.live, h.past, h.ids⟩

theorem Outbound.routes (h : Outbound received [msg] services autoid routed taken)
    (hs : services.lookup sid = some service) :
    Outbound received [] (services.insert sid (service.pushMessage msg)) autoid
      (routed ++ [(sid, msg)]) taken := by
  obtain ⟨done, hdone, hsub⟩ := h.dispatched
  refine ⟨Nat.zero_le 1, ⟨done ++ [msg], by rw [hdone, List.append_nil], ?_⟩, ?_, ?_, ?_⟩
  · rw [List.map_append]
    exact hsub.append (List.Sublist.refl [msg])
  · intro r d hr
    rcases lookup_service_cases hr with ⟨rfl, rfl⟩ | ⟨hrs, hr⟩
    · obtain ⟨hlt, hqueue⟩ := h.live r service hs
      refine ⟨hlt, ?_⟩
      rw [ofService_append, ofService_single, if_pos rfl, ← hqueue, List.append_assoc]
      rfl
    · rw [ofService_append, ofService_single, if_neg (Ne.symm hrs), List.append_nil]
      exact h.live r d hr
  · intro r
    rw [ofService_append]
    exact (h.past r).trans (List.prefix_append _ _)
  · intro p hp
    rcases List.mem_append.mp hp with hp | hp
    · exact h.ids p hp
    · rw [List.mem_singleton.mp hp]
      exact (h.live sid service hs).1

theorem Outbound.creates (h : Outbound received dispatching services autoid routed taken) :
    Outbound received dispatching (services.insert autoid ⟨false, []⟩) (autoid + 1) routed taken := by
  refine ⟨h.single, h.dispatched, ?_, h.past, fun p hp => Nat.lt_succ_of_lt (h.ids p hp)⟩
  intro r d hr
  rcases lookup_service_cases hr with ⟨rfl, rfl⟩ | ⟨hrs, hr⟩
  · have hnone : ofService r routed = [] := by
      rw [ofService, List.map_eq_nil_iff, List.filter_eq_nil_iff]
      intro p hp
      simpa using Nat.ne_of_lt (h.ids p hp)
    have hpast := h.past r
    rw [hnone, List.prefix_nil] at hpast
    exact ⟨Nat.lt_succ_self r, by rw [hnone, hpast]; rfl⟩
  · obtain ⟨hlt, hqueue⟩ := h.live r d hr
    exact ⟨Nat.lt_succ_of_lt hlt, hqueue⟩

theorem Outbound.stops (h : Outbound received dispatching services autoid routed taken)
    (hs : services.lookup sid = some service) :
    Outbound received dispatching (services.insert sid service.stop) autoid routed taken := by
  refine ⟨h.single, h.dispatched, ?_, h.past, h.ids⟩
  intro r d hr
  rcases lookup_service_cases hr with ⟨rfl, rfl⟩ | ⟨hrs, hr⟩
  · exact h.live r service hs
  · exact h.live r d hr

theorem Outbound.deletes (h : Outbound received dispatching services autoid routed taken) (sid : Nat) :
    Outbound received dispatching (services.erase sid) autoid routed taken := by
  refine ⟨h.single, h.dispatched, ?_, h.past, h.ids⟩
  intro r d hr
  by_cases hrs : r = sid
  · rw [hrs, AList.lookup_erase] at hr
    cases hr
  · rw [AList.lookup_erase_ne hrs] at hr
    exact h.live r d hr

theorem Outbound.takes (h : Outbound received dispatching services autoid routed taken)
    (hs : services.lookup sid = some service) {rest : List Servicemessage}
    (hqueue : service.msgQueue = msg :: rest) :
    Outbound received dispatching (services.insert sid { service with msgQueue := rest }) autoid
      routed (taken ++ [(sid, msg)]) := by
  obtain ⟨hlt, hrouted⟩ := h.live sid service hs
  have hself : ofService sid (taken ++ [(sid, msg)]) ++ rest = ofService sid routed := by
    rw [ofService_append, ofService_single, if_pos rfl, ← hrouted, hqueue, List.append_assoc]
    rfl
  refine ⟨h.single, h.dispatched, ?_, ?_, h.ids⟩
  · intro r d hr
    rcases lookup_service_cases hr with ⟨rfl, rfl⟩ | ⟨hrs, hr⟩
    · exact ⟨hlt, hself⟩
    · rw [ofService_append, ofService_single, if_neg (Ne.symm hrs), List.append_nil]
      exact h.live r d hr
  · intro r
    by_cases hrs : r = sid
    · rw [hrs]
      exact ⟨rest, hself⟩
    · rw [ofService_append, ofService_single, if_neg (Ne.symm hrs), List.append_nil]
      exact h.past r

end

namespace Exchange

structure Ordered (t : Exchange) : Prop where
  inbound : Inbound t.node.sockets t.node.created t.arrived t.received
  outbound : Outbound t.received t.node.dispatching t.node.services t.node.autoid t.routed t.taken

variable {t : Exchange} {n : Node}

theorem start_ordered : start.Ordered := by
  refine ⟨⟨?_, ?_, ?_, ?_, fun _ _ => ⟨rfl, rfl⟩, fun _ => List.nil_prefix⟩, ?_⟩
  · intro s c hs
    simp [start, Node.start] at hs
  · intro s s' c c' hs
    simp [start, Node.start] at hs
  · intro s c hs
    simp [start, Node.start] at hs
  · intro s c hs
    simp [start, Node.start] at hs
  · refine ⟨Nat.zero_le 1, ⟨[], rfl, List.Sublist.refl _⟩, ?_, fun _ => List.prefix_rfl, by simp [start]⟩
    intro sid service hs
    rcases lookup_service_cases hs with ⟨rfl, rfl⟩ | ⟨_, hs⟩
    · exact ⟨Nat.one_pos, rfl⟩
    · simp at hs

theorem receive_ordered (h : t.Ordered) {s : SOCKET} {k : RecvSide} (hn : t.node.receive s k = some n) :
    { t.record (.receive s k) with node := n }.Ordered := by
  cases hs : t.node.sockets.lookup s with
  | none =>
    simp only [Node.receive, hs, Option.some.injEq] at hn
    simp only [record, hs, ← hn]
    exact h
  | some c =>
    simp only [record, hs]
    rcases Node.receive_reads hs hn with ⟨parsed, b, hparsed, hbad, hrest, rfl⟩ | ⟨c', heap, rfl⟩
    · exact ⟨h.inbound.reads hs t.node.heap hparsed hbad hrest, h.outbound⟩
    · exact ⟨h.inbound.closes hs c' _, h.outbound⟩

theorem getMessage_ordered (h : t.Ordered) {s : SOCKET} (hone : t.node.dispatching = [])
    (hn : t.node.getMessage s = some n) : { t.record (.getMessage s) with node := n }.Ordered := by
  obtain ⟨c, msg, rest, hs, hrlist, rfl⟩ := Node.getMessage_cases hn
  have houtbound := h.outbound
  rw [hone] at houtbound
  simp only [record, hs, hrlist, hone]
  exact ⟨h.inbound.gets hs hrlist, houtbound.gets msg⟩

theorem pushMessage_ordered (h : t.Ordered) {i sid : Nat} (hn : t.node.pushMessage i sid = some n) :
    { t.record (.pushMessage i sid) with node := n }.Ordered := by
  obtain ⟨msg, hmsg, hcases⟩ := Node.pushMessage_routes hn
  obtain ⟨hdispatching, herase⟩ := h.outbound.dispatching_eq hmsg
  have houtbound := h.outbound
  rw [hdispatching] at houtbound
  rcases hcases with ⟨hroutes, rfl⟩ | ⟨service, hroutes, hs, rfl⟩
  · simp only [record, hroutes, if_false, Node.release, herase]
    exact ⟨h.inbound, houtbound.drops⟩
  · simp only [record, hroutes, if_true, hmsg, herase]
    exact ⟨h.inbound, houtbound.routes hs⟩

theorem Ordered.of_persist (h : t.Ordered) (hp : Persist t.node.sockets n.sockets)
    (hcreated : n.created = t.node.created) (hd : n.dispatching = t.node.dispatching)
    (hs : n.services = t.node.services) (ha : n.autoid = t.node.autoid) :
    { t with node := n }.Ordered := by
  refine ⟨?_, ?_⟩
  · dsimp only
    rw [hcreated]
    exact h.inbound.persist hp
  · dsimp only
    rw [hd, hs, ha]
    exact h.outbound

/-- A step that only sends or closes. -/
theorem closed_ordered {m : Node} (s : SOCKET) (hm : { t with node := m }.Ordered)
    (hn : n = m ∨ n = m.closeSocket s) : { t with node := n }.Ordered := by
  rcases hn with rfl | rfl
  · exact hm
  · obtain ⟨sockets, heap, hrest⟩ := m.closeSocket_rest s
    have hp : Persist m.sockets (m.closeSocket s).sockets :=
      Node.closeSocket_persist (Persist.refl _) s
    rw [hrest] at hp ⊢
    exact hm.of_persist hp rfl rfl rfl rfl

theorem step_ordered {l : Node.Label} (h : t.Ordered) (hone : t.node.OneReader l)
    (hn : t.node.step l = some n) : { t.record l with node := n }.Ordered := by
  cases l with
  | accept newfd =>
    obtain ⟨_, rfl⟩ := Node.accept_cases hn
    exact ⟨h.inbound.accept newfd, h.outbound⟩
  | receive s k => exact receive_ordered h hn
  | getMessage s => exact getMessage_ordered h hone hn
  | send s k =>
    rcases Node.send_cases hn with rfl | ⟨c, left, slist, w, hs, _, m, rfl, hn⟩
    · exact h
    · refine closed_ordered s ?_ hn
      exact h.of_persist (persist_insert hs rfl rfl rfl) rfl rfl rfl rfl
  | closeSocket s =>
    exact closed_ordered s h (Or.inr (Option.some.inj hn).symm)
  | pushMessage i sid => exact pushMessage_ordered h hn
  | newservice =>
    obtain ⟨_, rfl⟩ := Node.newservice_cases hn
    exact ⟨h.inbound, h.outbound.creates⟩
  | exitservice sid =>
    cases Option.some.inj hn
    unfold Node.exitservice
    split
    next => exact h
    next service hs => exact ⟨h.inbound, h.outbound.stops hs⟩
  | deleteService sid =>
    obtain ⟨_, _, rfl⟩ := Node.deleteService_cases hn
    exact ⟨h.inbound, h.outbound.deletes sid⟩
  | takeMessage sid =>
    obtain ⟨service, msg, rest, hs, _, hqueue, rfl⟩ := Node.takeMessage_cases hn
    simp only [record, hs, hqueue]
    exact ⟨h.inbound, h.outbound.takes hs hqueue⟩
  | finishMessage i =>
    obtain ⟨msg, _, rfl⟩ := Node.finishMessage_cases hn
    exact ⟨h.inbound, h.outbound⟩
  | response i fd entityid msgid payload serialized =>
    obtain ⟨request, msg, _, _, rfl | rfl⟩ := Node.response_cases hn
    · exact ⟨h.inbound, h.outbound⟩
    · exact ⟨h.inbound, h.outbound⟩
  | sendMessage i k =>
    obtain ⟨message, _, ⟨_, rfl⟩ | ⟨c, left, slist, w, hs, _, m, rfl, hn⟩⟩ := Node.sendMessage_cases hn
    · exact ⟨h.inbound, h.outbound⟩
    · refine closed_ordered message.fd ?_ hn
      exact h.of_persist (persist_insert hs rfl rfl rfl) rfl rfl rfl rfl

theorem run_ordered {ls : List Node.Label} (h : t.Ordered)
    (hone : Along Node.step Node.OneReader t.node ls) (hn : run Node.step t.node ls = some n) :
    ∃ t', run step t ls = some t' ∧ t'.node = n ∧ t'.Ordered := by
  induction ls generalizing t with
  | nil => exact ⟨t, rfl, Option.some.inj hn, h⟩
  | cons l ls ih =>
    obtain ⟨m, hm, hn⟩ := run_cons_iff.mp hn
    obtain ⟨t', ht', hnode, hordered⟩ :=
      ih (t := { t.record l with node := m }) (step_ordered h hone.1 hm) (hone.2 m hm) hn
    refine ⟨t', ?_, hnode, hordered⟩
    rw [run, step, hm]
    exact ht'

/-- However the connections, the reader and the services interleave: the requests of a connection
come in as they stand in its bytes, each is pushed to at most one service, and a service takes what
is pushed to it in order. What it takes of a connection is then in the order of the bytes, and none
of it twice. -/
theorem requests_in_order {ls : List Node.Label} (hn : run Node.step .start ls = some n)
    (hone : Along Node.step Node.OneReader .start ls) :
    ∃ t, run step start ls = some t ∧ t.node = n ∧
      (∀ o, ofConnection o t.received <+: legalFrames (t.arrived o)) ∧
      (∀ s c, n.sockets.lookup s = some c →
        ofConnection c.self t.received ++ c.rlist.map Servicemessage.rawmsg =
          legalFrames (t.arrived c.self)) ∧
      (t.routed.map Prod.snd).Sublist t.received ∧
      (∀ sid, ofService sid t.taken <+: ofService sid t.routed) ∧
      (∀ sid service, n.services.lookup sid = some service →
        ofService sid t.taken ++ service.msgQueue = ofService sid t.routed) ∧
      ∀ sid o, (ofConnection o (ofService sid t.taken)).Sublist (legalFrames (t.arrived o)) := by
  obtain ⟨t, ht, rfl, hinbound, houtbound⟩ := run_ordered start_ordered hone hn
  obtain ⟨done, hdone, hsub⟩ := houtbound.dispatched
  have hrouted : (t.routed.map Prod.snd).Sublist t.received := by
    rw [hdone]
    exact hsub.trans (List.sublist_append_left _ _)
  refine ⟨t, ht, rfl, hinbound.frames, ?_, hrouted, houtbound.past,
    fun sid service hs => (houtbound.live sid service hs).2, ?_⟩
  · intro s c hs
    rw [legalFrames, hinbound.parsed s c hs]
  · intro sid o
    have hservice : (ofService sid t.routed).Sublist (t.routed.map Prod.snd) :=
      List.filter_sublist.map Prod.snd
    have htaken := (houtbound.past sid).sublist.trans (hservice.trans hrouted)
    exact ((htaken.filter _).map _).trans (hinbound.frames o).sublist

/-- Two requests come in at once; one is taken, the other still waits. -/
theorem requests_in_order_two_frames :
    ∃ n, run Node.step .start [.accept 7, .receive 7 ⟨emptyFrame ++ emptyFrame, false, true, [], none⟩,
        .getMessage 7, .pushMessage 0 0, .getMessage 7, .pushMessage 0 0, .takeMessage 0] = some n ∧
      ∃ t, run step start [.accept 7, .receive 7 ⟨emptyFrame ++ emptyFrame, false, true, [], none⟩,
          .getMessage 7, .pushMessage 0 0, .getMessage 7, .pushMessage 0 0, .takeMessage 0] = some t ∧
        t.node = n ∧
        (∀ o, ofConnection o t.received <+: legalFrames (t.arrived o)) ∧
        (∀ s c, n.sockets.lookup s = some c →
          ofConnection c.self t.received ++ c.rlist.map Servicemessage.rawmsg =
            legalFrames (t.arrived c.self)) ∧
        (t.routed.map Prod.snd).Sublist t.received ∧
        (∀ sid, ofService sid t.taken <+: ofService sid t.routed) ∧
        (∀ sid service, n.services.lookup sid = some service →
          ofService sid t.taken ++ service.msgQueue = ofService sid t.routed) ∧
        ∀ sid o, (ofConnection o (ofService sid t.taken)).Sublist (legalFrames (t.arrived o)) := by
  have hrun : (run Node.step .start [.accept 7,
      .receive 7 ⟨emptyFrame ++ emptyFrame, false, true, [], none⟩, .getMessage 7, .pushMessage 0 0,
      .getMessage 7, .pushMessage 0 0, .takeMessage 0]).isSome = true := by
    decide +kernel
  obtain ⟨n, hn⟩ := Option.isSome_iff_exists.mp hrun
  exact ⟨n, hn, requests_in_order hn (by decide +kernel)⟩

end Exchange

end Tnode
