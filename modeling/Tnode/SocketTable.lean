import Tnode.Transitions
import Mathlib.Logic.Function.Basic

namespace Tnode

open Transitions

/-- A `Socket` as the table sees it: the object and its `fd()`. -/
structure SocketObject where
  self : Nat
  fd : Nat
deriving DecidableEq, Repr

/-- An operation on a descriptor that is half-way: `newserver` and `newclient` in `listen` and
`connect`, these and `accept` before the assertion on the slot, before the slot is filled and
before `addSocket`; `closeSocket` after `removeSocket` and before the object is deleted, and
before the slot is cleared, with the object that it has deleted. -/
inductive TablePc
  | connect (o : SocketObject)
  | check (o : SocketObject)
  | fill (o : SocketObject)
  | add (o : SocketObject)
  | delete
  | clear (o : Option SocketObject)
deriving DecidableEq, Repr

/-- Between the `delete` of a `closeSocket` and its clearing of the slot. -/
def TablePc.clearing : TablePc → Bool
  | .clear _ => true
  | _ => false

/-- What concerns one number: whether the kernel has it open for a socket, whether epoll has it,
`_sockets[fd]`, and the operations on it. -/
structure FdState where
  isopen : Bool
  registered : Bool
  slot : Option SocketObject
  ops : List TablePc
deriving DecidableEq, Repr

/-- `NetworkManager` with its descriptors; `failed` says that the assertion on a slot has
failed, and `dropped` lists the objects cleared from their slots by the close of another. -/
structure SocketTable where
  descriptors : Nat → FdState
  created : Nat
  failed : Bool
  dropped : List SocketObject

namespace SocketTable

def start : SocketTable := ⟨fun _ => ⟨false, false, none, []⟩, 0, false, []⟩

def modify (t : SocketTable) (fd : Nat) (f : FdState → FdState) : SocketTable :=
  { t with descriptors := Function.update t.descriptors fd (f (t.descriptors fd)) }

/-- `delete` of a socket object: `SafeClose` closes its number unless it is 0. -/
def destroy (t : SocketTable) (o : SocketObject) : SocketTable :=
  t.modify o.fd fun d => { d with isopen := d.isopen && o.fd = 0 }

def replaceOp (t : SocketTable) (fd i : Nat) (pc : TablePc) : SocketTable :=
  t.modify fd fun d => { d with ops := d.ops.set i pc }

def endOp (t : SocketTable) (fd i : Nat) : SocketTable :=
  t.modify fd fun d => { d with ops := d.ops.eraseIdx i }

/-- The next step of the `i`-th operation on `fd`; `ok` is the result of `listen` or `connect`,
and `epoll_ctl` succeeds. -/
def opStep (t : SocketTable) (fd i : Nat) (ok : Bool) : TablePc → Option SocketTable
  | .connect o =>
    if ok then some (t.replaceOp fd i (.check o)) else some ((t.destroy o).endOp fd i)
  | .check o =>
    some { t.replaceOp fd i (.fill o) with
      failed := t.failed || (t.descriptors o.fd).slot.isSome }
  | .fill o => some ((t.modify o.fd fun d => { d with slot := some o }).replaceOp fd i (.add o))
  | .add o =>
    if (t.descriptors o.fd).isopen ∧ (t.descriptors o.fd).registered = false then
      some ((t.modify o.fd fun d => { d with registered := true }).endOp fd i)
    else none
  | .delete =>
    match (t.descriptors fd).slot with
    | some o => some ((t.destroy o).replaceOp fd i (.clear (some o)))
    | none => some (t.replaceOp fd i (.clear none))
  | .clear o =>
    some { (t.modify fd fun d => { d with slot := none }).endOp fd i with
      dropped := t.dropped ++
        ((t.descriptors fd).slot.filter fun x => some x ≠ o).toList }

inductive Label
  | accept (fd : Nat)
  | socket (fd : Nat)
  | closeSocket (fd : Nat)
  | op (fd i : Nat) (ok : Bool)
deriving DecidableEq, Repr

/-- The kernel returns `fd`, which is not open, and the new object goes on with `pc`. -/
def openSocket (t : SocketTable) (fd : Nat) (pc : SocketObject → TablePc) : Option SocketTable :=
  if (t.descriptors fd).isopen then none
  else
    some { t.modify fd fun d =>
        { d with isopen := true, ops := d.ops ++ [pc ⟨t.created, fd⟩] } with
      created := t.created + 1 }

/-- One step of one thread. `socket` begins a `newserver` or `newclient`, and `closeSocket`
begins with `removeSocket`. -/
def step (t : SocketTable) : Label → Option SocketTable
  | .accept fd => t.openSocket fd .check
  | .socket fd => t.openSocket fd .connect
  | .closeSocket fd =>
    if (t.descriptors fd).registered then
      some (t.modify fd fun d => { d with registered := false, ops := d.ops ++ [.delete] })
    else none
  | .op fd i ok => do
    let pc ← (t.descriptors fd).ops[i]?
    t.opStep fd i ok pc

/-- The kernel returns no number whose slot a `closeSocket` has still to clear. -/
def OpensCleared (t : SocketTable) : Label → Prop
  | .accept fd | .socket fd => (t.descriptors fd).ops.all fun pc => !pc.clearing
  | _ => True

instance (t : SocketTable) (l : Label) : Decidable (t.OpensCleared l) :=
  match l with
  | .accept _ | .socket _ => inferInstanceAs (Decidable (_ = true))
  | .closeSocket _ | .op _ _ _ => isTrue trivial

/-- The phases of a number, from one `closeSocket` to the next. The number 0 is never closed. -/
inductive Phase (fd : Nat) : FdState → Prop
  | free : Phase fd ⟨false, false, none, []⟩
  | kept (h : fd = 0) : Phase fd ⟨true, false, none, []⟩
  | connecting (o : SocketObject) (h : o.fd = fd) : Phase fd ⟨true, false, none, [.connect o]⟩
  | checking (o : SocketObject) (h : o.fd = fd) : Phase fd ⟨true, false, none, [.check o]⟩
  | filling (o : SocketObject) (h : o.fd = fd) : Phase fd ⟨true, false, none, [.fill o]⟩
  | adding (o : SocketObject) (h : o.fd = fd) : Phase fd ⟨true, false, some o, [.add o]⟩
  | steady (o : SocketObject) (h : o.fd = fd) : Phase fd ⟨true, true, some o, []⟩
  | deleting (o : SocketObject) (h : o.fd = fd) : Phase fd ⟨true, false, some o, [.delete]⟩
  | clearing (isopen : Bool) (o : SocketObject) (h : o.fd = fd) (hopen : isopen = true → fd = 0) :
      Phase fd ⟨isopen, false, some o, [.clear (some o)]⟩

structure Consistent (t : SocketTable) : Prop where
  phase : ∀ fd, Phase fd (t.descriptors fd)
  failed : t.failed = false
  dropped : t.dropped = []

theorem modify_modify (t : SocketTable) (fd : Nat) (f g : FdState → FdState) :
    (t.modify fd f).modify fd g = t.modify fd (g ∘ f) := by
  simp [modify]

theorem Consistent.modify {t t' : SocketTable} (hs : t.Consistent) {fd : Nat}
    {f : FdState → FdState} (hd : t'.descriptors = (t.modify fd f).descriptors)
    (hf : Phase fd (f (t.descriptors fd))) (hfailed : t'.failed = false)
    (hdropped : t'.dropped = []) : t'.Consistent := by
  refine ⟨?_, hfailed, hdropped⟩
  intro x
  rw [hd]
  by_cases hx : x = fd
  · subst hx
    simpa [SocketTable.modify] using hf
  · simpa [SocketTable.modify, hx] using hs.phase x

theorem phase_closed {fd : Nat} (isopen : Bool) (h : isopen = true → fd = 0) :
    Phase fd ⟨isopen, false, none, []⟩ := by
  cases isopen with
  | false => exact .free
  | true => exact .kept (h rfl)

theorem openSocket_consistent {t t' : SocketTable} {fd : Nat} {pc : SocketObject → TablePc}
    (hs : t.Consistent) (hclear : (t.descriptors fd).ops.all fun pc => !pc.clearing)
    (hpc : ∀ o : SocketObject, o.fd = fd → Phase fd ⟨true, false, none, [pc o]⟩)
    (h : t.openSocket fd pc = some t') : t'.Consistent := by
  have hphase := hs.phase fd
  unfold openSocket at h
  split at h
  next => simp at h
  next hclosed =>
    cases h
    refine hs.modify (f := fun d => { d with isopen := true, ops := d.ops ++ [pc ⟨t.created, fd⟩] })
      rfl ?_ hs.failed hs.dropped
    generalize hd : t.descriptors fd = d at hphase hclosed hclear
    cases hphase with
    | free => exact hpc _ rfl
    | clearing => simp [TablePc.clearing] at hclear
    | _ => simp at hclosed

theorem op_consistent {t t' : SocketTable} {fd i : Nat} {ok : Bool} (hs : t.Consistent)
    (h : t.step (.op fd i ok) = some t') : t'.Consistent := by
  obtain ⟨pc, hpc, h⟩ := Option.bind_eq_some_iff.mp h
  have hphase := hs.phase fd
  generalize hd : t.descriptors fd = d at hphase hpc
  have hone : ∀ x : TablePc, [x][i]? = some pc → i = 0 ∧ x = pc := by
    intro x hx
    cases i with
    | zero => exact ⟨rfl, by simpa using hx⟩
    | succ i => simp at hx
  cases hphase with
  | free | kept | steady => simp at hpc
  | connecting o ho =>
    obtain ⟨rfl, rfl⟩ := hone _ hpc
    subst ho
    simp only [opStep, destroy, endOp, replaceOp, modify_modify] at h
    split at h
    next =>
      cases h
      refine hs.modify rfl ?_ hs.failed hs.dropped
      simpa [hd] using .checking o rfl
    next =>
      cases h
      refine hs.modify rfl ?_ hs.failed hs.dropped
      simpa [hd] using @phase_closed o.fd (decide (o.fd = 0)) (by simp)
  | checking o ho =>
    obtain ⟨rfl, rfl⟩ := hone _ hpc
    subst ho
    simp only [opStep, replaceOp] at h
    cases h
    refine hs.modify (f := fun d => { d with ops := d.ops.set 0 (.fill o) }) rfl ?_ ?_ hs.dropped
    · simpa [hd] using .filling o rfl
    · simp [hd, hs.failed]
  | filling o ho =>
    obtain ⟨rfl, rfl⟩ := hone _ hpc
    subst ho
    simp only [opStep, replaceOp, modify_modify] at h
    cases h
    refine hs.modify rfl ?_ hs.failed hs.dropped
    simpa [hd] using .adding o rfl
  | adding o ho =>
    obtain ⟨rfl, rfl⟩ := hone _ hpc
    subst ho
    simp only [opStep, endOp, modify_modify, hd, and_self, if_true] at h
    cases h
    refine hs.modify rfl ?_ hs.failed hs.dropped
    simpa [hd] using .steady o rfl
  | deleting o ho =>
    obtain ⟨rfl, rfl⟩ := hone _ hpc
    subst ho
    simp only [opStep, hd, destroy, replaceOp, modify_modify] at h
    cases h
    refine hs.modify rfl ?_ hs.failed hs.dropped
    simpa [hd] using .clearing (decide (o.fd = 0)) o rfl (by simp)
  | clearing isopen o ho hopen =>
    obtain ⟨rfl, rfl⟩ := hone _ hpc
    simp only [opStep, endOp, modify_modify] at h
    cases h
    refine hs.modify rfl ?_ hs.failed ?_
    · simpa [hd] using phase_closed isopen hopen
    · simp [hd, hs.dropped]

theorem closeSocket_consistent {t t' : SocketTable} {fd : Nat} (hs : t.Consistent)
    (h : t.step (.closeSocket fd) = some t') : t'.Consistent := by
  have hphase := hs.phase fd
  simp only [step] at h
  split at h
  next hregistered =>
    cases h
    refine hs.modify rfl ?_ hs.failed hs.dropped
    generalize hd : t.descriptors fd = d at hphase hregistered
    cases hphase with
    | steady o ho => exact .deleting o ho
    | _ => simp at hregistered
  next => simp at h

theorem step_consistent {t t' : SocketTable} {l : Label} (hs : t.Consistent)
    (hok : t.OpensCleared l) (h : t.step l = some t') : t'.Consistent := by
  cases l with
  | accept fd => exact openSocket_consistent hs hok .checking h
  | socket fd => exact openSocket_consistent hs hok .connecting h
  | closeSocket fd => exact closeSocket_consistent hs h
  | op fd i ok => exact op_consistent hs h

theorem start_consistent : start.Consistent := ⟨fun _ => .free, rfl, rfl⟩

/-- A number on which no operation is half-way is open and registered exactly when its slot
holds a socket, and that is the socket of the number. -/
theorem Phase.settled {fd : Nat} {d : FdState} (h : Phase fd d) (hops : d.ops = []) :
    (d.slot ≠ none ↔ d.isopen = true ∧ d.registered = true) ∧ ∀ o ∈ d.slot, o.fd = fd := by
  cases h with
  | free | kept => simp
  | steady o ho => simpa using ho
  | _ => simp at hops

/-- In every run in which the kernel returns no number whose slot a `closeSocket` has still to
clear, the assertion never fails, no socket is dropped by the close of another, and a number
on which no operation is half-way is open and registered exactly when its slot is filled, with
the socket of that number. -/
theorem table_consistent {t : SocketTable} {ls : List Label}
    (ha : Along step OpensCleared start ls) (hr : run step start ls = some t) :
    t.failed = false ∧ t.dropped = [] ∧
      ∀ fd, (t.descriptors fd).ops = [] →
        ((t.descriptors fd).slot ≠ none ↔
          (t.descriptors fd).isopen = true ∧ (t.descriptors fd).registered = true) ∧
        ∀ o ∈ (t.descriptors fd).slot, o.fd = fd := by
  have hs : t.Consistent :=
    run_invariant (fun _ _ _ hs hok h => step_consistent hs hok h) start_consistent ha hr
  exact ⟨hs.failed, hs.dropped, fun fd hops => (hs.phase fd).settled hops⟩

theorem table_consistent_number_reused :
    ∃ t, run step start [.accept 5, .op 5 0 true, .op 5 0 true, .op 5 0 true, .socket 6,
        .closeSocket 5, .op 5 0 true, .op 6 0 false, .op 5 0 true, .accept 5, .op 5 0 true,
        .op 5 0 true, .op 5 0 true] = some t ∧
      t.failed = false ∧ t.dropped = [] ∧
      ∀ fd, (t.descriptors fd).ops = [] →
        ((t.descriptors fd).slot ≠ none ↔
          (t.descriptors fd).isopen = true ∧ (t.descriptors fd).registered = true) ∧
        ∀ o ∈ (t.descriptors fd).slot, o.fd = fd := by
  refine ⟨_, rfl, ?_⟩
  exact @table_consistent _ [.accept 5, .op 5 0 true, .op 5 0 true, .op 5 0 true, .socket 6,
    .closeSocket 5, .op 5 0 true, .op 6 0 false, .op 5 0 true, .accept 5, .op 5 0 true,
    .op 5 0 true, .op 5 0 true] (by decide) rfl

theorem check_fails {t : SocketTable} {fd i : Nat} {o : SocketObject}
    (hop : (t.descriptors fd).ops[i]? = some (.check o))
    (hslot : (t.descriptors o.fd).slot.isSome = true) :
    ∃ u, t.step (.op fd i true) = some u ∧ u.failed = true := by
  refine ⟨_, by simp only [step, hop, Option.bind_eq_bind, Option.bind_some, opStep]; rfl, ?_⟩
  simp [hslot]

theorem connect_checks {t : SocketTable} {fd i : Nat} {o : SocketObject}
    (hop : (t.descriptors fd).ops[i]? = some (.connect o)) :
    ∃ u, t.step (.op fd i true) = some u ∧ (u.descriptors fd).ops[i]? = some (.check o) ∧
      (u.descriptors o.fd).slot = (t.descriptors o.fd).slot := by
  obtain ⟨hi, _⟩ := List.getElem?_eq_some_iff.mp hop
  refine ⟨_, by simp only [step, hop, Option.bind_eq_bind, Option.bind_some, opStep]; rfl, ?_, ?_⟩
  · simp [replaceOp, modify, hi]
  · by_cases ho : o.fd = fd
    · simp [replaceOp, modify, ho]
    · simp [replaceOp, modify, ho]

/-- Once the kernel has returned a number whose slot is still to be cleared, some continuation
runs into the assertion. -/
theorem failed_of_uncleared {t t' : SocketTable} {l : Label} (hs : t.Consistent)
    (hbad : ¬ t.OpensCleared l) (h : t.step l = some t') :
    ∃ ls u, run step t' ls = some u ∧ u.failed = true := by
  have hfd : ∃ fd pc, (pc = TablePc.check ∨ pc = TablePc.connect) ∧
      t.openSocket fd pc = some t' ∧ (t.descriptors fd).ops.all (fun pc => !pc.clearing) ≠ true := by
    cases l with
    | accept fd => exact ⟨fd, _, Or.inl rfl, h, hbad⟩
    | socket fd => exact ⟨fd, _, Or.inr rfl, h, hbad⟩
    | closeSocket fd | op fd i ok => exact absurd trivial hbad
  obtain ⟨fd, pc, hpc, hopen, hclear⟩ := hfd
  have hphase := hs.phase fd
  have hnew : (t'.descriptors fd).ops[1]? = some (pc ⟨t.created, fd⟩) ∧
      (t'.descriptors fd).slot.isSome = true := by
    unfold openSocket at hopen
    split at hopen
    next => simp at hopen
    next =>
      cases hopen
      generalize hd : t.descriptors fd = d at hphase hclear
      cases hphase with
      | clearing => simp [modify, hd]
      | _ => simp [TablePc.clearing] at hclear
  rcases hpc with rfl | rfl
  · obtain ⟨u, hu, hfailed⟩ := check_fails hnew.1 hnew.2
    exact ⟨[.op fd 1 true], u, run_cons_iff.mpr ⟨u, hu, rfl⟩, hfailed⟩
  · obtain ⟨u, hu, hcheck, hslot⟩ := connect_checks hnew.1
    obtain ⟨v, hv, hfailed⟩ := check_fails hcheck (by rw [hslot]; exact hnew.2)
    exact ⟨[.op fd 1 true, .op fd 1 true], v,
      run_cons_iff.mpr ⟨u, hu, run_cons_iff.mpr ⟨v, hv, rfl⟩⟩, hfailed⟩

/-- The kernel hands out 5 again between the `delete` and the clearing of the slot: the
assertion fails, and without it the new connection is dropped from the table. -/
theorem slot_cleared_late :
    ∃ t, run step start [.accept 5, .op 5 0 true, .op 5 0 true, .op 5 0 true, .closeSocket 5,
        .op 5 0 true, .accept 5, .op 5 1 true, .op 5 1 true, .op 5 0 true, .op 5 0 true] = some t ∧
      t.failed = true ∧ t.dropped = [⟨1, 5⟩] ∧
      t.descriptors 5 = ⟨true, true, none, []⟩ := by
  exact ⟨_, rfl, rfl, rfl, rfl⟩

end SocketTable

end Tnode
