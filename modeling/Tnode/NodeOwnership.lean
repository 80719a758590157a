import Tnode.NodeSteps

namespace Tnode

open Transitions Holdings

def addrs (messages : List Servicemessage) : List Nat := messages.map Servicemessage.addr

@[simp] theorem addrs_append (xs ys : List Servicemessage) :
    addrs (xs ++ ys) = addrs xs ++ addrs ys := List.map_append

@[simp] theorem addrs_cons (m : Servicemessage) (ms : List Servicemessage) :
    addrs (m :: ms) = m.addr :: addrs ms := rfl

@[simp] theorem addrs_nil : addrs [] = [] := rfl

def SocketInternal.held (c : SocketInternal) : List Nat := addrs c.rlist ++ addrs c.slist

def Service.held (service : Service) : List Nat := addrs service.msgQueue

namespace Node

/-- Every place a message can be in, and the addresses released. -/
def accounted (n : Node) : List Nat :=
  contents SocketInternal.held n.sockets ++ contents Service.held n.services ++
    addrs n.dispatching ++ addrs n.handling ++ addrs n.responding ++ n.heap.released

/-- Every address allocated is in exactly one place or has been released exactly once. -/
def Conserved (n : Node) : Prop := n.accounted.Perm (List.range n.heap.next)

instance (n : Node) : Decidable n.Conserved := inferInstanceAs (Decidable (List.Perm _ _))

/-- What a step drops without releasing it. -/
def lost (n : Node) : Label → List Nat
  | .sendMessage i _ =>
    match n.responding[i]? with
    | none => []
    | some message => if n.sockets.lookup message.fd = none then [message.addr] else []
  | .deleteService sid =>
    match n.services.lookup sid with
    | none => []
    | some service => service.held
  | _ => []

/-- Between two states the allocated addresses are added to the account, and `gone` taken
off it. -/
def Balance (n n' : Node) (gone : List Nat) : Prop :=
  n.heap.next ≤ n'.heap.next ∧
    (n'.accounted ++ gone).Perm
      (n.accounted ++ List.range' n.heap.next (n'.heap.next - n.heap.next))

theorem Balance.refl (n : Node) : n.Balance n [] := by
  refine ⟨Nat.le_refl _, ?_⟩
  simp

theorem Balance.trans {n m n' : Node} {gone gone' : List Nat} (h : n.Balance m gone)
    (h' : m.Balance n' gone') : n.Balance n' (gone ++ gone') := by
  obtain ⟨hle, hperm⟩ := h
  obtain ⟨hle', hperm'⟩ := h'
  refine ⟨by omega, ?_⟩
  have hrange : List.range' n.heap.next (n'.heap.next - n.heap.next) =
      List.range' n.heap.next (m.heap.next - n.heap.next) ++
        List.range' m.heap.next (n'.heap.next - m.heap.next) := by
    have hsum : n'.heap.next - n.heap.next =
        (m.heap.next - n.heap.next) + (n'.heap.next - m.heap.next) := by omega
    have hstart : n.heap.next + (m.heap.next - n.heap.next) = m.heap.next := by omega
    rw [hsum, ← List.range'_append_1, hstart]
  rw [List.perm_iff_count] at hperm hperm' ⊢
  intro a
  have h1 := hperm a
  have h2 := hperm' a
  rw [hrange]
  simp only [List.count_append] at h1 h2 ⊢
  omega

theorem balance_of_count {n n' : Node} {gone : List Nat} (hn : n'.heap.next = n.heap.next)
    (h : ∀ a, (n'.accounted ++ gone).count a = n.accounted.count a) : n.Balance n' gone := by
  refine ⟨by omega, ?_⟩
  rw [hn, Nat.sub_self, List.range'_zero, List.append_nil, List.perm_iff_count]
  exact h

theorem count_addrs_eraseIdx {l : List Servicemessage} {i : Nat} {m : Servicemessage}
    (h : l[i]? = some m) (a : Nat) :
    (addrs l).count a = [m.addr].count a + (addrs (l.eraseIdx i)).count a := by
  obtain ⟨hi, rfl⟩ := List.getElem?_eq_some_iff.mp h
  have hsplit : l = l.take i ++ l[i] :: l.drop (i + 1) := by
    rw [← List.drop_eq_getElem_cons hi, List.take_append_drop]
  have hc := congrArg (fun xs => (addrs xs).count a) hsplit
  rw [List.eraseIdx_eq_take_drop_succ]
  simp only [addrs_append, addrs_cons, List.count_append, List.count_cons, List.count_nil] at hc ⊢
  omega

theorem destroy_eq (c : SocketInternal) (heap : Heap) :
    c.destroy heap = (heap.releases c.rlist).releases c.slist := by
  simp only [SocketInternal.destroy, foldl_releaseMessage]

theorem closeSocket_balance (n : Node) (s : SOCKET) : n.Balance (n.closeSocket s) [] := by
  cases hs : n.sockets.lookup s with
  | none =>
    have he : n.closeSocket s = n := by simp [closeSocket, hs]
    rw [he]
    exact Balance.refl n
  | some c =>
    have he : n.closeSocket s = { n with
        sockets := n.sockets.erase s, heap := (n.heap.releases c.rlist).releases c.slist } := by
      simp [closeSocket, hs, destroy_eq]
    rw [he]
    refine balance_of_count rfl fun a => ?_
    have hc := count_contents_of_lookup (f := SocketInternal.held) hs a
    simp only [accounted, Heap.releases, SocketInternal.held, addrs, List.count_append,
      List.count_nil] at hc ⊢
    omega

theorem kept_or_closed {n m n' : Node} {s : SOCKET} {gone : List Nat} (h : n.Balance m gone)
    (hn : n' = m ∨ n' = m.closeSocket s) : n.Balance n' gone := by
  rcases hn with rfl | rfl
  · exact h
  · simpa using h.trans (closeSocket_balance m s)

theorem accept_balance {n n' : Node} {newfd : SOCKET} (h : n.accept newfd = some n') :
    n.Balance n' [] := by
  obtain ⟨hfree, rfl⟩ := accept_cases h
  refine balance_of_count rfl fun a => ?_
  simp only [accounted, contents_insert, contents_erase_of_lookup_none hfree,
    SocketInternal.held, SocketInternal.create, addrs_nil, List.nil_append, List.append_nil]

theorem receive_balance {n n' : Node} {s : SOCKET} {k : RecvSide} (h : n.receive s k = some n') :
    n.Balance n' [] := by
  rcases receive_cases h with rfl | ⟨c, fs, b, hs, m, rfl, hn⟩
  · exact Balance.refl n'
  · refine kept_or_closed ?_ hn
    refine ⟨Nat.le_add_right _ _, ?_⟩
    rw [List.perm_iff_count]
    intro a
    have hc := count_contents_of_lookup (f := SocketInternal.held) hs a
    have hnew : addrs (SocketInternal.framed c.self c.fd n.heap.next fs) =
        List.range' n.heap.next fs.length := SocketInternal.map_addr_framed _ _ _ _
    simp only [accounted, contents_insert, framedOn, SocketInternal.held, addrs_append, hnew,
      List.count_append, List.count_nil, Nat.add_sub_cancel_left] at hc ⊢
    omega

theorem getMessage_balance {n n' : Node} {s : SOCKET} (h : n.getMessage s = some n') :
    n.Balance n' [] := by
  obtain ⟨c, msg, rest, hs, hl, rfl⟩ := getMessage_cases h
  refine balance_of_count rfl fun a => ?_
  have hc := count_contents_of_lookup (f := SocketInternal.held) hs a
  simp only [accounted, contents_insert, SocketInternal.held, hl, addrs_append, addrs_cons,
    addrs_nil, List.count_append, List.count_cons, List.count_nil] at hc ⊢
  omega

theorem send_balance {n n' : Node} {s : SOCKET} {k : SendSide} (h : n.send s k = some n') :
    n.Balance n' [] := by
  rcases send_cases h with rfl | ⟨c, left, slist, w, hs, hl, m, rfl, hn⟩
  · exact Balance.refl n'
  · refine kept_or_closed ?_ hn
    refine balance_of_count rfl fun a => ?_
    have hc := count_contents_of_lookup (f := SocketInternal.held) hs a
    have hleft : left.map Servicemessage.addr = addrs left := rfl
    simp only [accounted, contents_insert, SocketInternal.held, sentOn, hl, Heap.releases, hleft,
      addrs_append, List.count_append, List.count_nil] at hc ⊢
    omega

/-- A response whose connection is gone leaves the account; every other one is queued,
sent and released by the socket, or released with it. -/
theorem sendMessage_balance {n n' : Node} {i : Nat} {k : SendSide}
    (h : n.sendMessage i k = some n') : n.Balance n' (n.lost (.sendMessage i k)) := by
  obtain ⟨message, hm, ⟨hs, rfl⟩ | ⟨c, left, slist, w, hs, hl, m, rfl, hn⟩⟩ := sendMessage_cases h
  · refine balance_of_count rfl fun a => ?_
    have hc := count_addrs_eraseIdx hm a
    simp only [accounted, lost, hm, hs, if_true, List.count_append] at hc ⊢
    omega
  · have hnone : n.lost (.sendMessage i k) = [] := by simp [lost, hm, hs]
    rw [hnone]
    refine kept_or_closed ?_ hn
    refine balance_of_count rfl fun a => ?_
    have hc := count_contents_of_lookup (f := SocketInternal.held) hs a
    have hr := count_addrs_eraseIdx hm a
    have hsplit := congrArg (fun xs => (addrs xs).count a) hl
    have hleft : left.map Servicemessage.addr = addrs left := rfl
    simp only [accounted, contents_insert, SocketInternal.held, sentOn, Heap.releases, hleft,
      addrs_append, addrs_cons, addrs_nil, List.count_append, List.count_nil] at hc hr hsplit ⊢
    omega

theorem release_balance {n n' : Node} {msg : Servicemessage} {gone : List Nat}
    (h : n.Balance n' (msg.addr :: gone)) : n.Balance (n'.release msg) gone := by
  obtain ⟨hle, hperm⟩ := h
  refine ⟨hle, ?_⟩
  rw [List.perm_iff_count] at hperm ⊢
  intro a
  have hc := hperm a
  simp only [accounted, release, releaseMessage, List.count_append, List.count_cons,
    List.count_nil] at hc ⊢
  omega

theorem pushMessage_balance {n n' : Node} {i sid : Nat} (h : n.pushMessage i sid = some n') :
    n.Balance n' [] := by
  obtain ⟨msg, hm, rfl | ⟨service, hs, rfl⟩⟩ := pushMessage_cases h
  · refine release_balance (balance_of_count rfl fun a => ?_)
    have hc := count_addrs_eraseIdx hm a
    simp only [accounted, List.count_append] at hc ⊢
    omega
  · refine balance_of_count rfl fun a => ?_
    have hr := count_addrs_eraseIdx hm a
    have hc := count_contents_of_lookup (f := Service.held) hs a
    simp only [accounted, contents_insert, Service.held, Service.pushMessage, addrs_append,
      addrs_cons, addrs_nil, List.count_append, List.count_nil] at hc hr ⊢
    omega

theorem newservice_balance {n n' : Node} (h : n.newservice = some n') : n.Balance n' [] := by
  obtain ⟨hfree, rfl⟩ := newservice_cases h
  refine balance_of_count rfl fun a => ?_
  simp only [accounted, contents_insert, contents_erase_of_lookup_none hfree, Service.held,
    addrs_nil, List.nil_append, List.append_nil]

theorem exitservice_balance (n : Node) (sid : Nat) : n.Balance (n.exitservice sid) [] := by
  cases hs : n.services.lookup sid with
  | none =>
    have he : n.exitservice sid = n := by simp [exitservice, hs]
    rw [he]
    exact Balance.refl n
  | some service =>
    have he : n.exitservice sid = { n with services := n.services.insert sid service.stop } := by
      simp [exitservice, hs]
    rw [he]
    refine balance_of_count rfl fun a => ?_
    have hc := count_contents_of_lookup (f := Service.held) hs a
    simp only [accounted, contents_insert, Service.held, Service.stop, List.count_append,
      List.count_nil] at hc ⊢
    omega

theorem deleteService_balance {n n' : Node} {sid : Nat} (h : n.deleteService sid = some n') :
    n.Balance n' (n.lost (.deleteService sid)) := by
  obtain ⟨service, hs, rfl⟩ := deleteService_cases h
  refine balance_of_count rfl fun a => ?_
  have hc := count_contents_of_lookup (f := Service.held) hs a
  simp only [accounted, lost, hs, List.count_append] at hc ⊢
  omega

theorem takeMessage_balance {n n' : Node} {sid : Nat} (h : n.takeMessage sid = some n') :
    n.Balance n' [] := by
  obtain ⟨service, msg, rest, hs, _, hq, rfl⟩ := takeMessage_cases h
  refine balance_of_count rfl fun a => ?_
  have hc := count_contents_of_lookup (f := Service.held) hs a
  simp only [accounted, contents_insert, Service.held, hq, addrs_append, addrs_cons, addrs_nil,
    List.count_append, List.count_cons, List.count_nil] at hc ⊢
  omega

theorem finishMessage_balance {n n' : Node} {i : Nat} (h : n.finishMessage i = some n') :
    n.Balance n' [] := by
  obtain ⟨msg, hm, rfl⟩ := finishMessage_cases h
  refine release_balance (balance_of_count rfl fun a => ?_)
  have hc := count_addrs_eraseIdx hm a
  simp only [accounted, List.count_append] at hc ⊢
  omega

theorem response_balance {n n' : Node} {i : Nat} {fd : SOCKET} {entityid msgid : Nat}
    {payload : List Byte} {serialized : Bool}
    (h : n.response i fd entityid msgid payload serialized = some n') : n.Balance n' [] := by
  obtain ⟨request, msg, _, rfl, hn⟩ := response_cases h
  have hrange : List.range' n.heap.next (n.heap.next + 1 - n.heap.next) = [n.heap.next] := by
    rw [Nat.add_sub_cancel_left]
    rfl
  rcases hn with rfl | rfl
  · refine ⟨Nat.le_succ _, ?_⟩
    rw [hrange, List.perm_iff_count]
    intro a
    simp only [accounted, addrs_append, addrs_cons, addrs_nil, List.count_append, List.count_nil]
    omega
  · refine release_balance ⟨Nat.le_succ _, ?_⟩
    rw [hrange]
    exact List.Perm.refl _

theorem step_balance {n n' : Node} {l : Label} (h : n.step l = some n') : n.Balance n' (n.lost l) := by
  cases l with
  | accept newfd => exact accept_balance h
  | receive s k => exact receive_balance h
  | getMessage s => exact getMessage_balance h
  | send s k => exact send_balance h
  | closeSocket s =>
    cases Option.some.inj h
    exact closeSocket_balance n s
  | pushMessage i sid => exact pushMessage_balance h
  | newservice => exact newservice_balance h
  | exitservice sid =>
    cases Option.some.inj h
    exact exitservice_balance n sid
  | deleteService sid => exact deleteService_balance h
  | takeMessage sid => exact takeMessage_balance h
  | finishMessage i => exact finishMessage_balance h
  | response i fd entityid msgid payload serialized => exact response_balance h
  | sendMessage i k => exact sendMessage_balance h

theorem run_balance {n n' : Node} {ls : List Label} (h : run step n ls = some n') :
    n.Balance n' (collect step lost n ls) := by
  induction ls generalizing n with
  | nil =>
    cases Option.some.inj h
    exact Balance.refl n'
  | cons l ls ih =>
    obtain ⟨m, hm, h⟩ := run_cons_iff.mp h
    have hb := (step_balance hm).trans (ih h)
    simpa [collect, hm] using hb

theorem conserved_iff_collect {n : Node} {ls : List Label} (h : run step start ls = some n) :
    n.Conserved ↔ collect step lost start ls = [] := by
  obtain ⟨_, hperm⟩ := run_balance h
  have hstart : start.accounted ++ List.range' start.heap.next (n.heap.next - start.heap.next) =
      List.range n.heap.next := by
    rw [List.range_eq_range']
    rfl
  rw [hstart] at hperm
  constructor
  · intro hc
    have hl := hperm.length_eq
    rw [List.length_append, hc.length_eq] at hl
    exact List.length_eq_zero_iff.mp (by omega)
  · intro hnil
    simpa [Conserved, hnil] using hperm

/-- A step that drops nothing: a response finds its connection in the table, and a deleted
service has an empty queue. -/
def NoLoss (n : Node) : Label → Prop
  | .sendMessage i _ =>
    ∀ message, n.responding[i]? = some message → (n.sockets.lookup message.fd).isSome
  | .deleteService sid =>
    ∀ service, n.services.lookup sid = some service → service.msgQueue = []
  | _ => True

theorem lost_eq_nil_iff (n : Node) (l : Label) : n.lost l = [] ↔ n.NoLoss l := by
  cases l with
  | sendMessage i k =>
    cases hm : n.responding[i]? with
    | none => simp [lost, NoLoss, hm]
    | some message => cases hs : n.sockets.lookup message.fd <;> simp [lost, NoLoss, hm, hs]
  | deleteService sid =>
    cases hs : n.services.lookup sid <;> simp [lost, NoLoss, hs, Service.held, addrs]
  | _ => simp [lost, NoLoss]

theorem collect_lost_iff {n : Node} {ls : List Label} :
    collect step lost n ls = [] ↔ Along step NoLoss n ls := by
  rw [collect_eq_nil_iff]
  exact ⟨Along.imp fun s l => (lost_eq_nil_iff s l).mp,
    Along.imp fun s l => (lost_eq_nil_iff s l).mpr⟩

/-- Along a run every message allocated is at each moment in exactly one place or has been
released exactly once, exactly when no step of it drops a message. -/
theorem conserved_along_iff {n : Node} {ls : List Label} (h : run step start ls = some n) :
    (∀ ms m, ms <+: ls → run step start ms = some m → m.Conserved) ↔ Along step NoLoss start ls := by
  rw [← collect_lost_iff]
  constructor
  · exact fun hall => (conserved_iff_collect h).mp (hall ls n (List.prefix_refl ls) h)
  · intro hnil ms m hp hm
    rw [conserved_iff_collect hm]
    obtain ⟨rest, rfl⟩ := hp
    exact (List.append_eq_nil_iff.mp (by rw [← collect_append hm, hnil])).1

/-- Two requests arrive at once. The first is handled and answered; for the second `dispatch` names
no service. Then the service stops and is deleted, and the connection closed. -/
def answered : List Label :=
  [.accept 7, .receive 7 ⟨emptyFrame ++ emptyFrame, false, true, [], none⟩, .getMessage 7,
    .pushMessage 0 0, .getMessage 7, .pushMessage 0 ILLEGAL_SERVICE, .takeMessage 0,
    .response 0 7 1 2 [8] true, .sendMessage 0 ⟨[], [.accept 5, .wouldblock], none⟩,
    .finishMessage 0, .send 7 ⟨[], [], none⟩, .exitservice 0, .deleteService 0, .closeSocket 7]

/-- The three messages of this run are released, each of them once. -/
theorem conserved_along_iff_answered : ∃ n, run step start answered = some n ∧
    n.heap = ⟨3, [1, 2, 0]⟩ ∧
    ∀ ms m, ms <+: answered → run step start ms = some m → m.Conserved := by
  have hrun : (run step start answered).map Node.heap = some ⟨3, [1, 2, 0]⟩ := by decide +kernel
  obtain ⟨n, hn, hheap⟩ := Option.map_eq_some_iff.mp hrun
  have hlost : collect step lost start answered = [] := by decide +kernel
  exact ⟨n, hn, hheap, (conserved_along_iff hn).mpr (collect_lost_iff.mp hlost)⟩

/-- A response to a connection that is gone, and the queue of a deleted service, are in no
place and never released. -/
theorem conserved_loses_response_and_queue :
    (∃ n, run step start [.accept 7, .receive 7 ⟨emptyFrame, false, true, [], none⟩, .getMessage 7,
        .pushMessage 0 0, .takeMessage 0, .response 0 7 1 2 [] true, .closeSocket 7,
        .sendMessage 0 ⟨[], [], none⟩] = some n ∧ ¬ n.Conserved) ∧
      ∃ n, run step start [.accept 7, .receive 7 ⟨emptyFrame, false, true, [], none⟩,
        .getMessage 7, .exitservice 0, .pushMessage 0 0, .deleteService 0] = some n ∧
        ¬ n.Conserved := by
  have hresponse : (run step start [.accept 7, .receive 7 ⟨emptyFrame, false, true, [], none⟩,
      .getMessage 7, .pushMessage 0 0, .takeMessage 0, .response 0 7 1 2 [] true, .closeSocket 7,
      .sendMessage 0 ⟨[], [], none⟩]).map (fun n => decide n.Conserved) = some false := by
    decide +kernel
  have hqueue : (run step start [.accept 7, .receive 7 ⟨emptyFrame, false, true, [], none⟩,
      .getMessage 7, .exitservice 0, .pushMessage 0 0, .deleteService 0]).map
        (fun n => decide n.Conserved) = some false := by
    decide +kernel
  obtain ⟨n, hn, hc⟩ := Option.map_eq_some_iff.mp hresponse
  obtain ⟨m, hm, hd⟩ := Option.map_eq_some_iff.mp hqueue
  exact ⟨⟨n, hn, of_decide_eq_false hc⟩, m, hm, of_decide_eq_false hd⟩

end Node

end Tnode
