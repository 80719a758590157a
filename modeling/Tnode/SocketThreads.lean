import Tnode.Transitions
import Mathlib.Data.List.Nodup

namespace Tnode

open Transitions

/-- The network thread with one fd: idle, before it reads the table in `readSocket` or
`writeSocket`, in front of a method call on the socket object it has found, inside
`pushMessage` of the loop over its messages, and in front of `closeSocket`. -/
inductive FdPc
  | idle
  | readSocket
  | writeSocket
  | socketType (o : Nat)
  | receive (o : Nat)
  | getMessage (o : Nat)
  | pushMessage (o : Nat)
  | send (o : Nat)
  | closeSocket
deriving DecidableEq, Repr

/-- A call of `sendMessage`: before it reads the table, in front of `socket->send`, in front of
`closeSocket` after a failure, and over. -/
inductive SendPc
  | lookup
  | send (o : Nat)
  | closeSocket
  | done
deriving DecidableEq, Repr

/-- One fd and the threads that use it. Socket objects are numbered as they are created; `rlist`
holds the length of each one's queue of messages, and `misused` the objects on which a method
was called after `closeSocket` had deleted them. -/
structure SocketThreads where
  slot : Option Nat
  rlist : List Nat
  deleted : List Nat
  network : FdPc
  senders : List SendPc
  misused : List Nat
deriving DecidableEq, Repr

/-- The object on which the network thread is going to call a method. -/
def FdPc.holds : FdPc → Option Nat
  | .socketType o | .receive o | .getMessage o | .pushMessage o | .send o => some o
  | .idle | .readSocket | .writeSocket | .closeSocket => none

namespace SocketThreads

def start : SocketThreads := ⟨none, [], [], .idle, [], []⟩

/-- A method call on a socket object. -/
def use (s : SocketThreads) (o : Nat) : SocketThreads :=
  { s with misused := s.misused ++ if o ∈ s.deleted then [o] else [] }

/-- `NetworkManager::closeSocket`; the queues of the object go with it. -/
def closeSocket (s : SocketThreads) : SocketThreads :=
  match s.slot with
  | none => s
  | some o => { s with slot := none, deleted := s.deleted ++ [o], rlist := s.rlist.set o 0 }

/-- The next step of the network thread; `ok` is the result of `receive` or `send`, and `framed`
how many messages `receive` puts into the queue. -/
def networkStep (s : SocketThreads) (ok : Bool) (framed : Nat) : SocketThreads :=
  match s.network with
  | .idle => s
  | .readSocket => { s with network := s.slot.elim .idle .socketType }
  | .writeSocket => { s with network := s.slot.elim .idle .send }
  | .socketType o => { s.use o with network := .receive o }
  | .receive o =>
    if ok then
      { s.use o with network := .getMessage o, rlist := s.rlist.set o (s.rlist.getD o 0 + framed) }
    else { s.use o with network := .closeSocket }
  | .getMessage o =>
    if s.rlist.getD o 0 = 0 then { s.use o with network := .idle }
    else { s.use o with network := .pushMessage o, rlist := s.rlist.set o (s.rlist.getD o 0 - 1) }
  | .pushMessage o => { s with network := .getMessage o }
  | .send o => { s.use o with network := if ok then .idle else .closeSocket }
  | .closeSocket => { s.closeSocket with network := .idle }

/-- What the next step of a call of `sendMessage` does, and where the call stands afterwards. -/
def senderStep (s : SocketThreads) (ok : Bool) : SendPc → SocketThreads × SendPc
  | .lookup => (s, s.slot.elim .done .send)
  | .send o => (s.use o, if ok then .done else .closeSocket)
  | .closeSocket => (s.closeSocket, .done)
  | .done => (s, .done)

inductive Label
  | readEvent
  | writeEvent
  | errorEvent
  | network (ok : Bool) (framed : Nat)
  | sendMessage
  | sender (i : Nat) (ok : Bool)
  | closeSocket
  | newSocket
deriving DecidableEq, Repr

/-- One method call of one thread. The script that `pushMessage` runs, and those of other
services, call `closeSocket` and `sendMessage` at any time; a new object goes into an empty
slot only. -/
def step (s : SocketThreads) : Label → Option SocketThreads
  | .readEvent => if s.network = .idle then some { s with network := .readSocket } else none
  | .writeEvent => if s.network = .idle then some { s with network := .writeSocket } else none
  | .errorEvent => if s.network = .idle then some { s with network := .closeSocket } else none
  | .network ok framed => some (s.networkStep ok framed)
  | .sendMessage => some { s with senders := s.senders ++ [.lookup] }
  | .sender i ok => do
    let pc ← s.senders[i]?
    let (s, pc) := s.senderStep ok pc
    return { s with senders := s.senders.set i pc }
  | .closeSocket => some s.closeSocket
  | .newSocket =>
    if s.slot = none then some { s with slot := some s.rlist.length, rlist := s.rlist ++ [0] }
    else none

/-- The step runs `closeSocket`. -/
def Closes (s : SocketThreads) : Label → Prop
  | .closeSocket => True
  | .network _ _ => s.network = .closeSocket
  | .sender i _ => s.senders[i]? = some .closeSocket
  | _ => False

/-- Some thread has read the object from the table and is going to call a method on it. -/
def Held (s : SocketThreads) (o : Nat) : Prop := s.network.holds = some o ∨ .send o ∈ s.senders

/-- `closeSocket` runs only when no thread holds the socket that it deletes. -/
def ClosesUnheld (s : SocketThreads) (l : Label) : Prop :=
  s.Closes l → ∀ o ∈ s.slot, ¬ s.Held o

instance (s : SocketThreads) (l : Label) : Decidable (s.Closes l) :=
  match l with
  | .closeSocket => isTrue trivial
  | .network _ _ => inferInstanceAs (Decidable (s.network = .closeSocket))
  | .sender i _ => inferInstanceAs (Decidable (s.senders[i]? = some .closeSocket))
  | .readEvent | .writeEvent | .errorEvent | .sendMessage | .newSocket => isFalse id

instance (s : SocketThreads) (o : Nat) : Decidable (s.Held o) :=
  inferInstanceAs (Decidable (_ ∨ _))

instance (s : SocketThreads) (l : Label) : Decidable (s.ClosesUnheld l) :=
  match h : s.slot with
  | none => isTrue (by simp [ClosesUnheld, h])
  | some o => decidable_of_iff (s.Closes l → ¬ s.Held o) (by simp [ClosesUnheld, h])

/-- The socket in the table and those that threads hold are not deleted. -/
structure Live (s : SocketThreads) : Prop where
  known : ∀ o ∈ s.deleted, o < s.rlist.length
  slot : ∀ o ∈ s.slot, o ∉ s.deleted ∧ o < s.rlist.length
  held : ∀ o, s.Held o → o ∉ s.deleted
  misused : s.misused = []

theorem use_of_live {s : SocketThreads} {o : Nat} (h : o ∉ s.deleted) : s.use o = s := by
  simp [use, h]

/-- A step that deletes nothing and after which threads hold no other socket than before, or
the one in the table. -/
theorem Live.move {s t : SocketThreads} (hs : s.Live) (hslot : t.slot = s.slot)
    (hdeleted : t.deleted = s.deleted) (hlength : t.rlist.length = s.rlist.length)
    (hmisused : t.misused = s.misused) (hheld : ∀ o, t.Held o → s.Held o ∨ o ∈ s.slot) :
    t.Live := by
  refine ⟨?_, ?_, ?_, hmisused.trans hs.misused⟩
  · rw [hdeleted, hlength]
    exact hs.known
  · rw [hdeleted, hlength, hslot]
    exact hs.slot
  · intro o ho
    rw [hdeleted]
    rcases hheld o ho with ho | ho
    · exact hs.held o ho
    · exact (hs.slot o ho).1

theorem Live.network {s : SocketThreads} (hs : s.Live) {pc : FdPc} {rlist : List Nat}
    (hlength : rlist.length = s.rlist.length)
    (hpc : ∀ o, pc.holds = some o → s.network.holds = some o ∨ s.slot = some o) :
    Live { s with network := pc, rlist := rlist } := by
  refine hs.move rfl rfl hlength rfl ?_
  rintro o (ho | ho)
  · rcases hpc o ho with ho | ho
    · exact Or.inl (Or.inl ho)
    · exact Or.inr ho
  · exact Or.inl (Or.inr ho)

theorem Live.sender {s : SocketThreads} (hs : s.Live) {i : Nat} {pc : SendPc}
    (hpc : ∀ o, pc = .send o → s.slot = some o) :
    Live { s with senders := s.senders.set i pc } := by
  refine hs.move rfl rfl rfl rfl ?_
  rintro o (ho | ho)
  · exact Or.inl (Or.inl ho)
  · rcases List.mem_or_eq_of_mem_set ho with ho | ho
    · exact Or.inl (Or.inr ho)
    · exact Or.inr (hpc o ho.symm)

theorem closeSocket_threads (s : SocketThreads) :
    s.closeSocket.network = s.network ∧ s.closeSocket.senders = s.senders := by
  unfold closeSocket
  split <;> exact ⟨rfl, rfl⟩

theorem closeSocket_live {s : SocketThreads} (hs : s.Live) (hu : ∀ o ∈ s.slot, ¬ s.Held o) :
    s.closeSocket.Live := by
  unfold closeSocket
  split
  next => exact hs
  next o hslot =>
    have hunheld := hu o hslot
    have hknown := (hs.slot o hslot).2
    refine ⟨?_, ?_, ?_, hs.misused⟩
    · intro x hx
      rw [List.length_set]
      rcases List.mem_append.mp hx with hx | hx
      · exact hs.known x hx
      · rw [List.mem_singleton.mp hx]
        exact hknown
    · intro x hx
      simp at hx
    · intro x hx hmem
      rcases List.mem_append.mp hmem with hmem | hmem
      · exact hs.held x hx hmem
      · rw [List.mem_singleton.mp hmem] at hx
        exact hunheld hx

theorem networkStep_live {s : SocketThreads} {ok : Bool} {framed : Nat} (hs : s.Live)
    (hu : s.ClosesUnheld (.network ok framed)) : (s.networkStep ok framed).Live := by
  have hown : ∀ o, s.network.holds = some o → s.use o = s := fun o ho =>
    use_of_live (hs.held o (Or.inl ho))
  cases hn : s.network with
  | idle =>
    simp only [networkStep, hn]
    exact hs
  | readSocket =>
    simp only [networkStep, hn]
    apply hs.network rfl
    intro o ho
    cases hslot : s.slot <;> simp_all [FdPc.holds]
  | writeSocket =>
    simp only [networkStep, hn]
    apply hs.network rfl
    intro o ho
    cases hslot : s.slot <;> simp_all [FdPc.holds]
  | socketType o =>
    simp only [networkStep, hn, hown o (by rw [hn]; rfl)]
    exact hs.network rfl fun x hx => Or.inl (by rw [hn]; exact hx)
  | receive o =>
    simp only [networkStep, hn, hown o (by rw [hn]; rfl)]
    split
    next => exact hs.network (List.length_set ..) fun x hx => Or.inl (by rw [hn]; exact hx)
    next => exact hs.network rfl fun x hx => by simp [FdPc.holds] at hx
  | getMessage o =>
    simp only [networkStep, hn, hown o (by rw [hn]; rfl)]
    split
    next => exact hs.network rfl fun x hx => by simp [FdPc.holds] at hx
    next => exact hs.network (List.length_set ..) fun x hx => Or.inl (by rw [hn]; exact hx)
  | pushMessage o =>
    simp only [networkStep, hn]
    exact hs.network rfl fun x hx => Or.inl (by rw [hn]; exact hx)
  | send o =>
    simp only [networkStep, hn, hown o (by rw [hn]; rfl)]
    exact hs.network rfl fun x hx => by cases ok <;> simp [FdPc.holds] at hx
  | closeSocket =>
    have hclosed := closeSocket_live hs (hu hn)
    simp only [networkStep, hn]
    exact hclosed.network rfl fun x hx => by simp [FdPc.holds] at hx

theorem sender_cases {s t : SocketThreads} {i : Nat} {ok : Bool}
    (h : s.step (.sender i ok) = some t) :
    ∃ pc, s.senders[i]? = some pc ∧
      t = { (s.senderStep ok pc).1 with senders := s.senders.set i (s.senderStep ok pc).2 } := by
  obtain ⟨pc, hpc, h⟩ := Option.bind_eq_some_iff.mp h
  have hsenders : (s.senderStep ok pc).1.senders = s.senders := by
    cases pc with
    | closeSocket => exact s.closeSocket_threads.2
    | _ => rfl
  have ht : t = { (s.senderStep ok pc).1 with
      senders := (s.senderStep ok pc).1.senders.set i (s.senderStep ok pc).2 } :=
    (Option.some.inj h).symm
  exact ⟨pc, hpc, by rw [ht, hsenders]⟩

theorem sender_live {s t : SocketThreads} {i : Nat} {ok : Bool} (hs : s.Live)
    (hu : s.ClosesUnheld (.sender i ok)) (h : s.step (.sender i ok) = some t) : t.Live := by
  obtain ⟨pc, hpc, rfl⟩ := sender_cases h
  have hmem := List.mem_of_getElem? hpc
  cases pc with
  | lookup =>
    have hnext : ∀ o, s.slot.elim SendPc.done .send = .send o → s.slot = some o := by
      intro o ho
      cases hslot : s.slot <;> simp_all
    exact hs.sender hnext
  | send o =>
    have hlive := use_of_live (hs.held o (Or.inr hmem))
    simp only [senderStep, hlive]
    exact hs.sender fun x hx => by cases ok <;> simp at hx
  | closeSocket =>
    have hclosed := closeSocket_live hs (hu hpc)
    have hsent := @Live.sender _ hclosed i .done (by simp)
    rw [s.closeSocket_threads.2] at hsent
    exact hsent
  | done => exact hs.sender fun x hx => by simp [senderStep] at hx

theorem event_live {s t : SocketThreads} {pc : FdPc} (hs : s.Live) (hpc : pc.holds = none)
    (h : (if s.network = .idle then some { s with network := pc } else none) = some t) :
    t.Live := by
  split at h
  next =>
    cases h
    exact hs.network rfl fun x hx => by simp [hpc] at hx
  next => simp at h

theorem step_live {s t : SocketThreads} {l : Label} (hs : s.Live) (hu : s.ClosesUnheld l)
    (h : s.step l = some t) : t.Live := by
  cases l with
  | readEvent => exact event_live hs rfl h
  | writeEvent => exact event_live hs rfl h
  | errorEvent => exact event_live hs rfl h
  | network ok framed =>
    cases Option.some.inj h
    exact networkStep_live hs hu
  | sendMessage =>
    cases Option.some.inj h
    refine hs.move rfl rfl rfl rfl ?_
    rintro x (hx | hx)
    · exact Or.inl (Or.inl hx)
    · rcases List.mem_append.mp hx with hx | hx
      · exact Or.inl (Or.inr hx)
      · simp at hx
  | sender i ok => exact sender_live hs hu h
  | closeSocket =>
    cases Option.some.inj h
    exact closeSocket_live hs (hu trivial)
  | newSocket =>
    simp only [step] at h
    split at h
    next =>
      cases h
      refine ⟨?_, ?_, hs.held, hs.misused⟩
      · intro x hx
        have hlt := hs.known x hx
        rw [List.length_append, List.length_singleton]
        omega
      · intro x hx
        have he : x = s.rlist.length := (Option.some.inj hx).symm
        refine ⟨fun hmem => ?_, ?_⟩
        · have hlt := hs.known x hmem
          omega
        · rw [List.length_append, List.length_singleton]
          omega
    next => simp at h

theorem start_live : start.Live where
  known := by simp [start]
  slot := by simp [start]
  held := by simp [start]
  misused := rfl

/-- In every run in which `closeSocket` never deletes a socket that a thread holds, no method
is called on a deleted socket. -/
theorem misused_nil {s : SocketThreads} {ls : List Label} (ha : Along step ClosesUnheld start ls)
    (hr : run step start ls = some s) : s.misused = [] :=
  (run_invariant (fun _ _ _ hs hu h => step_live hs hu h) start_live ha hr).misused

theorem misused_nil_two_messages :
    ∃ s, run step start [.newSocket, .readEvent, .network true 0, .network true 0, .network true 2,
        .network true 0, .network true 0, .sendMessage, .sender 0 true, .sender 0 false,
        .network true 0, .network true 0, .network true 0, .sender 0 true, .newSocket, .readEvent,
        .network true 0] = some s ∧ s.misused = [] := by
  refine ⟨_, rfl, ?_⟩
  exact @misused_nil _ [.newSocket, .readEvent, .network true 0, .network true 0,
    .network true 2, .network true 0, .network true 0, .sendMessage, .sender 0 true,
    .sender 0 false, .network true 0, .network true 0, .network true 0, .sender 0 true, .newSocket,
    .readEvent, .network true 0] (by decide) rfl

/-- A thread that holds a socket calls a method on it after someone has deleted it. -/
theorem misused_of_held {s : SocketThreads} {o : Nat} (hheld : s.Held o) (hdeleted : o ∈ s.deleted) :
    ∃ ls t, run step s ls = some t ∧ o ∈ t.misused := by
  rcases hheld with hheld | hheld
  · cases hn : s.network with
    | idle | readSocket | writeSocket | closeSocket => simp [hn, FdPc.holds] at hheld
    | pushMessage x =>
      obtain rfl : x = o := by simpa [hn, FdPc.holds] using hheld
      refine ⟨[.network true 0, .network true 0], _, rfl, ?_⟩
      simp only [networkStep, hn]
      split <;> simp [use, hdeleted]
    | socketType x =>
      obtain rfl : x = o := by simpa [hn, FdPc.holds] using hheld
      refine ⟨[.network true 0], _, rfl, ?_⟩
      simp [networkStep, hn, use, hdeleted]
    | receive x =>
      obtain rfl : x = o := by simpa [hn, FdPc.holds] using hheld
      refine ⟨[.network true 0], _, rfl, ?_⟩
      simp [networkStep, hn, use, hdeleted]
    | getMessage x =>
      obtain rfl : x = o := by simpa [hn, FdPc.holds] using hheld
      refine ⟨[.network true 0], _, rfl, ?_⟩
      simp only [networkStep, hn]
      split <;> simp [use, hdeleted]
    | send x =>
      obtain rfl : x = o := by simpa [hn, FdPc.holds] using hheld
      refine ⟨[.network true 0], _, rfl, ?_⟩
      simp [networkStep, hn, use, hdeleted]
  · obtain ⟨i, hi⟩ := List.mem_iff_getElem?.mp hheld
    refine ⟨[.sender i true], _, by simp [run, step, hi]; rfl, ?_⟩
    simp [senderStep, use, hdeleted]

theorem closes_cases {s t : SocketThreads} {l : Label} (hl : s.Closes l) (h : s.step l = some t) :
    t.deleted = s.closeSocket.deleted ∧ ∀ o, s.Held o → t.Held o := by
  obtain ⟨hnetwork, hsenders⟩ := s.closeSocket_threads
  cases l with
  | closeSocket =>
    cases Option.some.inj h
    refine ⟨rfl, fun o ho => ?_⟩
    rw [Held, hnetwork, hsenders]
    exact ho
  | network ok framed =>
    have hn : s.network = .closeSocket := hl
    cases Option.some.inj h
    have hd : (s.networkStep ok framed).deleted = s.closeSocket.deleted := by
      simp only [networkStep, hn]
    have hs : (s.networkStep ok framed).senders = s.senders := by
      simp only [networkStep, hn, hsenders]
    refine ⟨hd, ?_⟩
    rintro o (ho | ho)
    · simp [hn, FdPc.holds] at ho
    · exact Or.inr (by rw [hs]; exact ho)
  | sender i ok =>
    obtain ⟨pc, hpc, rfl⟩ := sender_cases h
    obtain rfl : pc = .closeSocket := Option.some.inj (hpc.symm.trans hl)
    refine ⟨rfl, ?_⟩
    rintro o (ho | ho)
    · exact Or.inl (by rw [← hnetwork] at ho; exact ho)
    · obtain ⟨j, hj⟩ := List.mem_iff_getElem?.mp ho
      have hne : i ≠ j := by
        rintro rfl
        simp [hj] at hpc
      refine Or.inr (@List.mem_of_getElem? _ _ j _ ?_)
      show (s.senders.set i _)[j]? = _
      rw [List.getElem?_set_ne hne, hj]
  | readEvent | writeEvent | errorEvent | sendMessage | newSocket => exact absurd hl id

/-- Whenever `closeSocket` deletes a socket that a thread holds, some continuation calls a
method on the deleted socket. -/
theorem misused_of_closes_held {s t : SocketThreads} {l : Label} {o : Nat} (hl : s.Closes l)
    (hslot : s.slot = some o) (hheld : s.Held o) (h : s.step l = some t) :
    ∃ ls u, run step t ls = some u ∧ o ∈ u.misused := by
  obtain ⟨hdeleted, hkept⟩ := closes_cases hl h
  apply misused_of_held (hkept o hheld)
  rw [hdeleted, closeSocket, hslot]
  simp

/-- The script that `dispatch` runs closes the socket whose messages the loop is reading. -/
theorem misused_after_closeSocket :
    ∃ s, run step start [.newSocket, .readEvent, .network true 0, .network true 0, .network true 1,
        .network true 0, .closeSocket, .network true 0, .network true 0] = some s ∧
      s.misused = [0] ∧ s.deleted = [0] := by
  exact ⟨_, rfl, rfl, rfl⟩

end SocketThreads

end Tnode
