import Tnode.NodeSteps

namespace Tnode

open Transitions Holdings

namespace Node

/-- The messages that still carry the fd of the connection they belong to outside of it:
requests on their way, queued or handled, and responses not yet sent. -/
def outstanding (n : Node) : List Servicemessage :=
  n.dispatching ++ contents Service.msgQueue n.services ++ n.handling ++ n.responding

/-- The message's fd number leads to the connection it belongs to, if to any. -/
def Leads (n : Node) (m : Servicemessage) : Prop :=
  ∀ c, n.sockets.lookup m.fd = some c → c.self = m.origin

/-- What holds at each moment as long as no fd number comes back too early. -/
structure Routed (n : Node) : Prop where
  sockets : ∀ s c, n.sockets.lookup s = some c →
    c.fd = s ∧ ∀ m ∈ c.rlist, m.fd = s ∧ m.origin = c.self
  outstanding : ∀ m ∈ n.outstanding, n.Leads m
  handed : ∀ p ∈ n.handed, p.1 = p.2

/-- Every socket of the second table was in the first under the same number, and has framed
only messages of its own since. -/
def Descends (t t' : AList fun _ : SOCKET => SocketInternal) : Prop :=
  ∀ s c', t'.lookup s = some c' → ∃ c, t.lookup s = some c ∧ c'.self = c.self ∧ c'.fd = c.fd ∧
    ∀ m ∈ c'.rlist, m ∈ c.rlist ∨ m.fd = c.fd ∧ m.origin = c.self

theorem Descends.refl (t : AList fun _ : SOCKET => SocketInternal) : Descends t t :=
  fun _ c' h => ⟨c', h, rfl, rfl, fun _ hm => Or.inl hm⟩

theorem descends_erase (t : AList fun _ : SOCKET => SocketInternal) (s : SOCKET) :
    Descends t (t.erase s) := by
  intro r c' h
  by_cases hrs : r = s
  · rw [hrs, AList.lookup_erase] at h
    cases h
  · rw [AList.lookup_erase_ne hrs] at h
    exact Descends.refl t r c' h

theorem descends_insert {t : AList fun _ : SOCKET => SocketInternal} {s : SOCKET}
    {c c' : SocketInternal} (h : t.lookup s = some c) (hself : c'.self = c.self)
    (hfd : c'.fd = c.fd)
    (hr : ∀ m ∈ c'.rlist, m ∈ c.rlist ∨ m.fd = c.fd ∧ m.origin = c.self) :
    Descends t (t.insert s c') := by
  intro r d hd
  by_cases hrs : r = s
  · rw [hrs, AList.lookup_insert] at hd
    cases hd
    exact ⟨c, by rw [hrs, h], hself, hfd, hr⟩
  · rw [AList.lookup_insert_ne hrs] at hd
    exact Descends.refl t r d hd

theorem Routed.evolve {n n' : Node} (h : n.Routed) (hs : Descends n.sockets n'.sockets)
    (ho : ∀ m ∈ n'.outstanding, m ∈ n.outstanding ∨ n.Leads m)
    (hh : ∀ p ∈ n'.handed, p ∈ n.handed ∨ p.1 = p.2) : n'.Routed where
  sockets := by
    intro s c' hc'
    obtain ⟨c, hc, hself, hfd, hr⟩ := hs s c' hc'
    obtain ⟨hs', hown⟩ := h.sockets s c hc
    refine ⟨by rw [hfd, hs'], fun m hm => ?_⟩
    rw [hself]
    rcases hr m hm with hold | ⟨hmfd, hmo⟩
    · exact hown m hold
    · exact ⟨by rw [hmfd, hs'], hmo⟩
  outstanding := by
    intro m hm c' hc'
    obtain ⟨c, hc, hself, _⟩ := hs m.fd c' hc'
    rw [hself]
    rcases ho m hm with hold | hleads
    · exact h.outstanding m hold c hc
    · exact hleads c hc
  handed := by
    intro p hp
    rcases hh p hp with hold | heq
    · exact h.handed p hold
    · exact heq

theorem closeSocket_routed {n : Node} (h : n.Routed) (s : SOCKET) : (n.closeSocket s).Routed := by
  cases hs : n.sockets.lookup s with
  | none => simpa [closeSocket, hs] using h
  | some c =>
    have he : n.closeSocket s = { n with
        sockets := n.sockets.erase s, heap := c.destroy n.heap } := by
      simp [closeSocket, hs]
    rw [he]
    exact h.evolve (descends_erase _ s) (fun m hm => Or.inl hm) fun p hp => Or.inl hp

theorem kept_or_closed_routed {m n' : Node} {s : SOCKET} (h : m.Routed)
    (hn : n' = m ∨ n' = m.closeSocket s) : n'.Routed := by
  rcases hn with rfl | rfl
  · exact h
  · exact closeSocket_routed h s

theorem accept_routed {n n' : Node} {newfd : SOCKET} (h : n.Routed)
    (hfree : ∀ m ∈ n.outstanding, m.fd ≠ newfd) (hn : n.accept newfd = some n') : n'.Routed := by
  obtain ⟨_, rfl⟩ := accept_cases hn
  refine ⟨?_, ?_, h.handed⟩
  · intro s c hc
    by_cases hs : s = newfd
    · rw [hs, AList.lookup_insert] at hc
      cases hc
      simp [SocketInternal.create, hs]
    · rw [AList.lookup_insert_ne hs] at hc
      exact h.sockets s c hc
  · intro m hm c hc
    rw [AList.lookup_insert_ne (hfree m hm)] at hc
    exact h.outstanding m hm c hc

theorem receive_routed {n n' : Node} {s : SOCKET} {k : RecvSide} (h : n.Routed)
    (hn : n.receive s k = some n') : n'.Routed := by
  rcases receive_cases hn with rfl | ⟨c, fs, b, hs, m, rfl, hn⟩
  · exact h
  · refine kept_or_closed_routed ?_ hn
    refine h.evolve (descends_insert hs rfl rfl ?_) (fun m hm => Or.inl hm) fun p hp => Or.inl hp
    intro m hm
    rcases List.mem_append.mp hm with hold | hnew
    · exact Or.inl hold
    · obtain ⟨hfd, ho, _⟩ := SocketInternal.mem_framed hnew
      exact Or.inr ⟨hfd, ho⟩

theorem getMessage_routed {n n' : Node} {s : SOCKET} (h : n.Routed)
    (hn : n.getMessage s = some n') : n'.Routed := by
  obtain ⟨c, msg, rest, hs, hl, rfl⟩ := getMessage_cases hn
  refine h.evolve (descends_insert hs rfl rfl ?_) ?_ fun p hp => Or.inl hp
  · intro m hm
    exact Or.inl (by rw [hl]; exact List.mem_cons_of_mem _ hm)
  · intro m hm
    simp only [outstanding, List.mem_append, List.mem_singleton] at hm ⊢
    by_cases hnew : m = msg
    · right
      obtain ⟨hfd, ho⟩ := (h.sockets s c hs).2 msg (by rw [hl]; exact List.mem_cons_self)
      intro d hd
      rw [hnew, hfd, hs] at hd
      cases hd
      rw [hnew, ho]
    · left
      simpa [hnew] using hm

theorem send_routed {n n' : Node} {s : SOCKET} {k : SendSide} (h : n.Routed)
    (hn : n.send s k = some n') : n'.Routed := by
  rcases send_cases hn with rfl | ⟨c, left, slist, w, hs, _, m, rfl, hn⟩
  · exact h
  · refine kept_or_closed_routed ?_ hn
    exact h.evolve (descends_insert hs rfl rfl fun m hm => Or.inl hm) (fun m hm => Or.inl hm)
      fun p hp => Or.inl hp

theorem sendMessage_routed {n n' : Node} {i : Nat} {k : SendSide} (h : n.Routed)
    (hn : n.sendMessage i k = some n') : n'.Routed := by
  have hrest : ∀ m ∈ { n with responding := n.responding.eraseIdx i }.outstanding,
      m ∈ n.outstanding := by
    intro m hm
    simp only [outstanding, List.mem_append] at hm ⊢
    exact hm.imp_right List.mem_of_mem_eraseIdx
  obtain ⟨message, hm, ⟨_, rfl⟩ | ⟨c, left, slist, w, hs, _, m, rfl, hn⟩⟩ := sendMessage_cases hn
  · exact h.evolve (Descends.refl _) (fun m hm => Or.inl (hrest m hm)) fun p hp => Or.inl hp
  · refine kept_or_closed_routed ?_ hn
    refine h.evolve (descends_insert hs rfl rfl fun m hm => Or.inl hm)
      (fun m hm => Or.inl (hrest m hm)) ?_
    intro p hp
    rcases List.mem_append.mp hp with hold | hnew
    · exact Or.inl hold
    · right
      rw [List.mem_singleton.mp hnew]
      have hmem : message ∈ n.outstanding :=
        List.mem_append_right _ (List.mem_of_getElem? hm)
      exact (h.outstanding message hmem c hs).symm

theorem Routed.pass {n n' : Node} (h : n.Routed) (hs : n'.sockets = n.sockets)
    (hh : n'.handed = n.handed) (ho : ∀ m ∈ n'.outstanding, m ∈ n.outstanding) : n'.Routed := by
  refine h.evolve ?_ (fun m hm => Or.inl (ho m hm)) ?_
  · rw [hs]
    exact Descends.refl _
  · rw [hh]
    exact fun p hp => Or.inl hp

theorem pushMessage_routed {n n' : Node} {i sid : Nat} (h : n.Routed)
    (hn : n.pushMessage i sid = some n') : n'.Routed := by
  obtain ⟨msg, hm, rfl | ⟨service, hs, rfl⟩⟩ := pushMessage_cases hn
  · refine h.pass rfl rfl fun m hmem => ?_
    simp only [outstanding, release, List.mem_append] at hmem ⊢
    exact hmem.imp_left (Or.imp_left (Or.imp_left List.mem_of_mem_eraseIdx))
  · refine h.pass rfl rfl fun m hmem => ?_
    have hold := List.mem_of_getElem? hm
    simp only [outstanding, contents_insert, Service.pushMessage, List.mem_append,
      List.mem_singleton] at hmem ⊢
    rcases hmem with ((hd | (hq | rfl) | ht) | hh) | hr
    · exact Or.inl (Or.inl (Or.inl (List.mem_of_mem_eraseIdx hd)))
    · exact Or.inl (Or.inl (Or.inr (mem_contents_of_lookup hs hq)))
    · exact Or.inl (Or.inl (Or.inl hold))
    · exact Or.inl (Or.inl (Or.inr (mem_contents_of_erase ht)))
    · exact Or.inl (Or.inr hh)
    · exact Or.inr hr

theorem Routed.services {n : Node} (h : n.Routed) {services : AList fun _ : Nat => Service}
    (hq : ∀ m ∈ contents Service.msgQueue services, m ∈ contents Service.msgQueue n.services)
    (autoid : Nat) : Routed { n with services := services, autoid := autoid } := by
  refine h.pass rfl rfl fun m hm => ?_
  simp only [Node.outstanding, List.mem_append] at hm ⊢
  exact hm.imp_left (Or.imp_left (Or.imp_right (hq m)))

theorem newservice_routed {n n' : Node} (h : n.Routed) (hn : n.newservice = some n') :
    n'.Routed := by
  obtain ⟨_, rfl⟩ := newservice_cases hn
  refine h.services ?_ _
  intro m hm
  rw [contents_insert, List.nil_append] at hm
  exact mem_contents_of_erase hm

theorem exitservice_routed {n : Node} (h : n.Routed) (sid : Nat) : (n.exitservice sid).Routed := by
  cases hs : n.services.lookup sid with
  | none => simpa [exitservice, hs] using h
  | some service =>
    have he : n.exitservice sid = { n with services := n.services.insert sid service.stop } := by
      simp [exitservice, hs]
    rw [he]
    refine h.services ?_ _
    intro m hm
    rw [contents_insert] at hm
    rcases List.mem_append.mp hm with hq | ht
    · exact mem_contents_of_lookup hs hq
    · exact mem_contents_of_erase ht

theorem deleteService_routed {n n' : Node} {sid : Nat} (h : n.Routed)
    (hn : n.deleteService sid = some n') : n'.Routed := by
  obtain ⟨service, _, rfl⟩ := deleteService_cases hn
  exact h.services (fun m hm => mem_contents_of_erase hm) _

theorem takeMessage_routed {n n' : Node} {sid : Nat} (h : n.Routed)
    (hn : n.takeMessage sid = some n') : n'.Routed := by
  obtain ⟨service, msg, rest, hs, _, hq, rfl⟩ := takeMessage_cases hn
  refine h.pass rfl rfl fun m hm => ?_
  have hall : ∀ x ∈ msg :: rest, x ∈ contents Service.msgQueue n.services :=
    fun x hx => mem_contents_of_lookup hs (by rw [hq]; exact hx)
  simp only [outstanding, contents_insert, List.mem_append, List.mem_singleton] at hm ⊢
  rcases hm with ((hd | hr | ht) | hh | rfl) | hp
  · exact Or.inl (Or.inl (Or.inl hd))
  · exact Or.inl (Or.inl (Or.inr (hall m (List.mem_cons_of_mem _ hr))))
  · exact Or.inl (Or.inl (Or.inr (mem_contents_of_erase ht)))
  · exact Or.inl (Or.inr hh)
  · exact Or.inl (Or.inl (Or.inr (hall m List.mem_cons_self)))
  · exact Or.inr hp

theorem finishMessage_routed {n n' : Node} {i : Nat} (h : n.Routed)
    (hn : n.finishMessage i = some n') : n'.Routed := by
  obtain ⟨msg, _, rfl⟩ := finishMessage_cases hn
  refine h.pass rfl rfl fun m hm => ?_
  simp only [outstanding, release, List.mem_append] at hm ⊢
  exact hm.imp_left (Or.imp_right List.mem_of_mem_eraseIdx)

theorem response_routed {n n' : Node} {i : Nat} {fd : SOCKET} {entityid msgid : Nat}
    {payload : List Byte} {serialized : Bool} (h : n.Routed)
    (hfd : ∀ request, n.handling[i]? = some request → fd = request.fd)
    (hn : n.response i fd entityid msgid payload serialized = some n') : n'.Routed := by
  obtain ⟨request, msg, hr, rfl, rfl | rfl⟩ := response_cases hn
  · have hleads := h.outstanding request
      (List.mem_append_left _ (List.mem_append_right _ (List.mem_of_getElem? hr)))
    refine h.evolve (Descends.refl _) (fun m hm => ?_) fun p hp => Or.inl hp
    rcases List.mem_append.mp hm with hold | hm
    · exact Or.inl (List.mem_append_left _ hold)
    · rcases List.mem_append.mp hm with hold | hnew
      · exact Or.inl (List.mem_append_right _ hold)
      · right
        rw [List.mem_singleton.mp hnew]
        intro c hc
        exact hleads c (by rw [← hfd request hr]; exact hc)
  · exact h.pass rfl rfl fun m hm => hm

/-- The kernel gives a new connection no number that an outstanding message still carries. -/
def FreshFd (n : Node) : Label → Prop
  | .accept newfd => ∀ m ∈ n.outstanding, m.fd ≠ newfd
  | _ => True

def AnswersGivenFd (n : Node) : Label → Prop
  | .response i fd _ _ _ _ => ∀ request ∈ n.handling[i]?, fd = request.fd
  | _ => True

instance (n : Node) (l : Label) : Decidable (n.FreshFd l) :=
  match l with
  | .accept newfd => inferInstanceAs (Decidable (∀ m ∈ n.outstanding, m.fd ≠ newfd))
  | .receive .. | .getMessage .. | .send .. | .closeSocket .. | .pushMessage .. | .newservice
  | .exitservice .. | .deleteService .. | .takeMessage .. | .finishMessage .. | .response ..
  | .sendMessage .. => isTrue trivial

instance (n : Node) (l : Label) : Decidable (n.AnswersGivenFd l) :=
  match l with
  | .response i fd _ _ _ _ =>
    inferInstanceAs (Decidable (∀ request ∈ n.handling[i]?, fd = request.fd))
  | .accept .. | .receive .. | .getMessage .. | .send .. | .closeSocket .. | .pushMessage ..
  | .newservice | .exitservice .. | .deleteService .. | .takeMessage .. | .finishMessage ..
  | .sendMessage .. => isTrue trivial

theorem step_routed {n n' : Node} {l : Label} (h : n.Routed)
    (hok : n.AnswersGivenFd l ∧ n.FreshFd l) (hn : n.step l = some n') : n'.Routed := by
  cases l with
  | accept newfd => exact accept_routed h hok.2 hn
  | receive s k => exact receive_routed h hn
  | getMessage s => exact getMessage_routed h hn
  | send s k => exact send_routed h hn
  | closeSocket s =>
    cases Option.some.inj hn
    exact closeSocket_routed h s
  | pushMessage i sid => exact pushMessage_routed h hn
  | newservice => exact newservice_routed h hn
  | exitservice sid =>
    cases Option.some.inj hn
    exact exitservice_routed h sid
  | deleteService sid => exact deleteService_routed h hn
  | takeMessage sid => exact takeMessage_routed h hn
  | finishMessage i => exact finishMessage_routed h hn
  | response i fd entityid msgid payload serialized => exact response_routed h hok.1 hn
  | sendMessage i k => exact sendMessage_routed h hn

theorem start_routed : start.Routed where
  sockets := by
    intro s c hc
    cases hc
  outstanding := by
    intro m hm
    cases hm
  handed := by
    intro p hp
    cases hp

/-- A response whose connection has no socket in the table reaches no socket. -/
theorem sendMessage_dropped {n n' : Node} {i : Nat} {k : SendSide} {m : Servicemessage}
    (h : n.Routed) (hm : n.responding[i]? = some m)
    (hgone : ∀ s c, n.sockets.lookup s = some c → c.self ≠ m.origin)
    (hn : n.sendMessage i k = some n') : n'.handed = n.handed := by
  obtain ⟨message, hmessage, ⟨_, rfl⟩ | ⟨c, _, _, _, hs, _⟩⟩ := sendMessage_cases hn
  · rfl
  · cases hm.symm.trans hmessage
    have hmem : m ∈ n.outstanding := List.mem_append_right _ (List.mem_of_getElem? hm)
    exact absurd (h.outstanding m hmem c hs) (hgone m.fd c hs)

/-- In every run in which a service answers with the fd it was given and no connection is
opened under a number that an outstanding message still carries, each response handed to a
socket is handed to the one its request came from, and dropped when that one is gone. -/
theorem handed_own {n : Node} {ls : List Label} (hg : Along step AnswersGivenFd start ls)
    (hf : Along step FreshFd start ls) (hr : run step start ls = some n) :
    (∀ p ∈ n.handed, p.1 = p.2) ∧
      ∀ i k m n', n.responding[i]? = some m →
        (∀ s c, n.sockets.lookup s = some c → c.self ≠ m.origin) →
        n.sendMessage i k = some n' → n'.handed = n.handed := by
  have hrouted : n.Routed :=
    run_invariant (fun s l t hs hok hst => step_routed hs hok hst) start_routed (hg.and hf) hr
  exact ⟨hrouted.handed, fun i k m n' hm hgone hn => sendMessage_dropped hrouted hm hgone hn⟩

theorem handed_own_answered :
    ∃ n, run step start [.accept 7, .receive 7 ⟨emptyFrame, false, true, [], none⟩, .getMessage 7,
        .pushMessage 0 0, .takeMessage 0, .response 0 7 1 2 [] true, .finishMessage 0,
        .sendMessage 0 ⟨[], [], none⟩, .closeSocket 7, .accept 7] = some n ∧
      n.handed = [(0, 0)] ∧ (∀ p ∈ n.handed, p.1 = p.2) ∧
      ∀ i k m n', n.responding[i]? = some m →
        (∀ s c, n.sockets.lookup s = some c → c.self ≠ m.origin) →
        n.sendMessage i k = some n' → n'.handed = n.handed := by
  have hrun : (run step start [.accept 7, .receive 7 ⟨emptyFrame, false, true, [], none⟩,
      .getMessage 7, .pushMessage 0 0, .takeMessage 0, .response 0 7 1 2 [] true, .finishMessage 0,
      .sendMessage 0 ⟨[], [], none⟩, .closeSocket 7, .accept 7]).map handed = some [(0, 0)] := by
    decide +kernel
  obtain ⟨n, hn, hhanded⟩ := Option.map_eq_some_iff.mp hrun
  exact ⟨n, hn, hhanded, handed_own (by decide +kernel) (by decide +kernel) hn⟩

/-- A response sent after its connection was closed and its number given to another one
goes to that other one. -/
theorem handed_to_other_connection :
    Along step AnswersGivenFd start [.accept 7, .receive 7 ⟨emptyFrame, false, true, [], none⟩,
        .getMessage 7, .pushMessage 0 0, .takeMessage 0, .closeSocket 7, .accept 7,
        .response 0 7 1 2 [] true, .sendMessage 0 ⟨[], [], none⟩] ∧
      ∃ n, run step start [.accept 7, .receive 7 ⟨emptyFrame, false, true, [], none⟩,
        .getMessage 7, .pushMessage 0 0, .takeMessage 0, .closeSocket 7, .accept 7,
        .response 0 7 1 2 [] true, .sendMessage 0 ⟨[], [], none⟩] = some n ∧ n.handed = [(0, 1)] := by
  refine ⟨by decide +kernel, ?_⟩
  have hrun : (run step start [.accept 7, .receive 7 ⟨emptyFrame, false, true, [], none⟩,
      .getMessage 7, .pushMessage 0 0, .takeMessage 0, .closeSocket 7, .accept 7,
      .response 0 7 1 2 [] true, .sendMessage 0 ⟨[], [], none⟩]).map handed = some [(0, 1)] := by
    decide +kernel
  exact Option.map_eq_some_iff.mp hrun

end Node

end Tnode
