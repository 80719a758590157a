import Tnode.Node
import Tnode.SocketReceive
import Tnode.SocketSend

namespace Tnode

/-- A call of `receive` appends what it frames to `_rlist`, allocates nothing else and
leaves the rest of the socket as it is. -/
theorem SocketInternal.receive_spec (s : SocketInternal) (k : RecvSide) (heap : Heap) :
    ∃ ok fs b k', s.receive k heap = some (ok,
      { s with rlist := s.rlist ++ framed s.self s.fd heap.next fs, rbuffer := b }, k',
      { heap with next := heap.next + fs.length }) := by
  obtain ⟨hl, hlost | hread⟩ := readBytes_stored k readlen [] (by simp)
  · obtain ⟨b, hb⟩ := receive_lost s heap (Prod.ext hlost rfl)
    exact ⟨false, [], b, _, by simpa [framed] using hb⟩
  · obtain ⟨b, _, hb⟩ := receive_read s heap (Prod.ext hread rfl)
    exact ⟨_, _, b, _, hb⟩

namespace Node

def framedOn (c : SocketInternal) (heap : Heap) (fs : List (List Byte)) (b : ByteBuffer) :
    SocketInternal :=
  { c with rlist := c.rlist ++ SocketInternal.framed c.self c.fd heap.next fs, rbuffer := b }

theorem receive_cases {n n' : Node} {s : SOCKET} {k : RecvSide} (h : n.receive s k = some n') :
    n' = n ∨ ∃ c fs b, n.sockets.lookup s = some c ∧
      ∃ m, m = { n with
          sockets := n.sockets.insert s (framedOn c n.heap fs b)
          heap := { n.heap with next := n.heap.next + fs.length } } ∧
        (n' = m ∨ n' = m.closeSocket s) := by
  cases hs : n.sockets.lookup s with
  | none =>
    left
    simpa [receive, hs] using h.symm
  | some c =>
    right
    obtain ⟨ok, fs, b, k', hr⟩ := c.receive_spec k n.heap
    refine ⟨c, fs, b, rfl, _, rfl, ?_⟩
    simp only [receive, hs, hr, Option.bind_eq_bind, Option.bind_some, Option.pure_def,
      Option.some.injEq] at h
    cases ok with
    | true => exact Or.inl h.symm
    | false => exact Or.inr h.symm

theorem getMessage_cases {n n' : Node} {s : SOCKET} (h : n.getMessage s = some n') :
    ∃ c msg rest, n.sockets.lookup s = some c ∧ c.rlist = msg :: rest ∧
      n' = { n with
        sockets := n.sockets.insert s { c with rlist := rest }
        dispatching := n.dispatching ++ [msg] } := by
  obtain ⟨c, hc, h⟩ := Option.bind_eq_some_iff.mp h
  obtain ⟨⟨msg, c'⟩, hm, h⟩ := Option.bind_eq_some_iff.mp h
  cases hl : c.rlist with
  | nil => simp [SocketInternal.getMessage, hl] at hm
  | cons first rest =>
    simp only [SocketInternal.getMessage, hl, Option.some.injEq, Prod.mk.injEq] at hm
    obtain ⟨rfl, rfl⟩ := hm
    exact ⟨c, first, rest, hc, hl, (Option.some.inj h).symm⟩

def sentOn (c : SocketInternal) (slist : List Servicemessage) (w : ByteBuffer) : SocketInternal :=
  { c with slist := slist, wbuffer := w }

theorem send_cases {n n' : Node} {s : SOCKET} {k : SendSide} (h : n.send s k = some n') :
    n' = n ∨ ∃ c left slist w, n.sockets.lookup s = some c ∧ c.slist = left ++ slist ∧
      ∃ m, m = { n with
          sockets := n.sockets.insert s (sentOn c slist w), heap := n.heap.releases left } ∧
        (n' = m ∨ n' = m.closeSocket s) := by
  cases hs : n.sockets.lookup s with
  | none =>
    left
    simpa [send, hs] using h.symm
  | some c =>
    right
    obtain ⟨ok, left, slist, w, k', hr, hsplit, _⟩ := c.send_spec k n.heap
    refine ⟨c, left, slist, w, rfl, hsplit, _, rfl, ?_⟩
    simp only [send, hs, hr, Option.bind_eq_bind, Option.bind_some, Option.pure_def,
      Option.some.injEq] at h
    cases ok with
    | true => exact Or.inl h.symm
    | false => exact Or.inr h.symm

theorem sendMessage_cases {n n' : Node} {i : Nat} {k : SendSide} (h : n.sendMessage i k = some n') :
    ∃ message, n.responding[i]? = some message ∧
      (n.sockets.lookup message.fd = none ∧
          n' = { n with responding := n.responding.eraseIdx i } ∨
        ∃ c left slist w, n.sockets.lookup message.fd = some c ∧
          c.slist ++ [message] = left ++ slist ∧
          ∃ m, m = { n with
              responding := n.responding.eraseIdx i
              sockets := n.sockets.insert message.fd (sentOn c slist w)
              heap := n.heap.releases left
              handed := n.handed ++ [(message.origin, c.self)] } ∧
            (n' = m ∨ n' = m.closeSocket message.fd)) := by
  obtain ⟨message, hm, h⟩ := Option.bind_eq_some_iff.mp h
  refine ⟨message, hm, ?_⟩
  by_cases hrange : message.fd < 0 ∨ MAX_SOCKET ≤ message.fd
  · simp [hrange] at h
  · cases hs : n.sockets.lookup message.fd with
    | none =>
      left
      refine ⟨rfl, ?_⟩
      simpa [hrange, hs] using h.symm
    | some c =>
      right
      obtain ⟨ok, left, slist, w, k', hr, hsplit, _⟩ :=
        SocketInternal.send_spec { c with slist := c.slist ++ [message] } k n.heap
      have hr' : c.sendMessage message k n.heap =
          some (ok, sentOn c slist w, k', n.heap.releases left) := hr
      refine ⟨c, left, slist, w, rfl, hsplit, _, rfl, ?_⟩
      simp only [hrange, hs, hr', if_false, Option.bind_eq_bind, Option.bind_some,
        Option.pure_def, Option.some.injEq] at h
      cases ok with
      | true => exact Or.inl h.symm
      | false => exact Or.inr h.symm

theorem pushMessage_cases {n n' : Node} {i sid : Nat} (h : n.pushMessage i sid = some n') :
    ∃ msg, n.dispatching[i]? = some msg ∧
      (n' = { n with dispatching := n.dispatching.eraseIdx i }.release msg ∨
        ∃ service, n.services.lookup sid = some service ∧
          n' = { n with
            dispatching := n.dispatching.eraseIdx i
            services := n.services.insert sid (service.pushMessage msg) }) := by
  obtain ⟨msg, hm, h⟩ := Option.bind_eq_some_iff.mp h
  refine ⟨msg, hm, ?_⟩
  by_cases hinit : n.services.lookup n.initid = none
  · left
    simpa [hinit] using h.symm
  · by_cases hill : sid = ILLEGAL_SERVICE
    · left
      simpa [hinit, hill] using h.symm
    · cases hs : n.services.lookup sid with
      | none =>
        left
        simpa [hinit, hill, hs] using h.symm
      | some service =>
        right
        exact ⟨service, rfl, by simpa [hinit, hill, hs] using h.symm⟩

theorem takeMessage_cases {n n' : Node} {sid : Nat} (h : n.takeMessage sid = some n') :
    ∃ service msg rest, n.services.lookup sid = some service ∧ service.isstop = false ∧
      service.msgQueue = msg :: rest ∧
      n' = { n with
        services := n.services.insert sid { service with msgQueue := rest }
        handling := n.handling ++ [msg] } := by
  obtain ⟨service, hs, h⟩ := Option.bind_eq_some_iff.mp h
  cases hstop : service.isstop with
  | true => simp [hstop] at h
  | false =>
    cases hq : service.msgQueue with
    | nil => simp [hstop, Service.getMessage, hq] at h
    | cons msg rest =>
      refine ⟨service, msg, rest, hs, hstop, hq, ?_⟩
      simpa [hstop, Service.getMessage, hq] using h.symm

theorem response_cases {n n' : Node} {i : Nat} {fd : SOCKET} {entityid msgid : Nat}
    {payload : List Byte} {serialized : Bool}
    (h : n.response i fd entityid msgid payload serialized = some n') :
    ∃ request msg, n.handling[i]? = some request ∧
      msg = ⟨n.heap.next, request.origin, fd, responseBytes entityid msgid payload⟩ ∧
      (n' = { n with
          heap := { n.heap with next := n.heap.next + 1 }, responding := n.responding ++ [msg] } ∨
        n' = { n with heap := { n.heap with next := n.heap.next + 1 } }.release msg) := by
  obtain ⟨request, hr, h⟩ := Option.bind_eq_some_iff.mp h
  refine ⟨request, _, hr, rfl, ?_⟩
  cases serialized with
  | true => exact Or.inl (Option.some.inj h).symm
  | false => exact Or.inr (Option.some.inj h).symm

theorem accept_cases {n n' : Node} {newfd : SOCKET} (h : n.accept newfd = some n') :
    n.sockets.lookup newfd = none ∧
      n' = { n with
        created := n.created + 1
        sockets := n.sockets.insert newfd (SocketInternal.create n.created newfd) } := by
  by_cases hfree : 0 ≤ newfd ∧ newfd < MAX_SOCKET ∧ n.sockets.lookup newfd = none
  · simp only [accept, hfree, and_self, if_true, Option.some.injEq] at h
    exact ⟨hfree.2.2, h.symm⟩
  · simp [accept, hfree] at h

theorem newservice_cases {n n' : Node} (h : n.newservice = some n') :
    n.services.lookup n.autoid = none ∧
      n' = { n with
        autoid := n.autoid + 1, services := n.services.insert n.autoid ⟨false, []⟩ } := by
  by_cases hfree : n.services.lookup n.autoid = none
  · simp only [newservice, hfree, if_true, Option.some.injEq] at h
    exact ⟨hfree, h.symm⟩
  · simp [newservice, hfree] at h

theorem deleteService_cases {n n' : Node} {sid : Nat} (h : n.deleteService sid = some n') :
    ∃ service, n.services.lookup sid = some service ∧
      n' = { n with services := n.services.erase sid } := by
  obtain ⟨service, hs, h⟩ := Option.bind_eq_some_iff.mp h
  cases hstop : service.isstop with
  | false => simp [hstop] at h
  | true => exact ⟨service, hs, by simpa [hstop] using h.symm⟩

theorem finishMessage_cases {n n' : Node} {i : Nat} (h : n.finishMessage i = some n') :
    ∃ msg, n.handling[i]? = some msg ∧
      n' = { n with handling := n.handling.eraseIdx i }.release msg := by
  obtain ⟨msg, hm, h⟩ := Option.bind_eq_some_iff.mp h
  exact ⟨msg, hm, (Option.some.inj h).symm⟩

end Node

end Tnode
