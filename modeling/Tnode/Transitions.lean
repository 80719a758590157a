import Mathlib.Data.List.Basic

namespace Transitions

variable {State Label Out : Type}

/-- A run of a partial step function along a list of labels. -/
def run (step : State → Label → Option State) : State → List Label → Option State
  | s, [] => some s
  | s, l :: ls => (step s l).bind fun t => run step t ls

/-- `ok` holds of every step of the run, judged in the state before the step. -/
def Along (step : State → Label → Option State) (ok : State → Label → Prop) :
    State → List Label → Prop
  | _, [] => True
  | s, l :: ls => ok s l ∧ ∀ t, step s l = some t → Along step ok t ls

instance decidableAlong (step : State → Label → Option State) (ok : State → Label → Prop)
    [∀ s l, Decidable (ok s l)] (s : State) (ls : List Label) : Decidable (Along step ok s ls) :=
  match ls with
  | [] => isTrue trivial
  | l :: ls =>
    match hs : step s l with
    | none => decidable_of_iff (ok s l) (by simp [Along, hs])
    | some t =>
      have := decidableAlong step ok t ls
      decidable_of_iff (ok s l ∧ Along step ok t ls) (by simp [Along, hs])

/-- What the steps of a run put out, in order. -/
def collect (step : State → Label → Option State) (out : State → Label → List Out) :
    State → List Label → List Out
  | _, [] => []
  | s, l :: ls => out s l ++ (step s l).elim [] fun t => collect step out t ls

variable {step : State → Label → Option State}

@[simp] theorem run_nil (s : State) : run step s [] = some s := rfl

theorem run_cons_iff {s u : State} {l : Label} {ls : List Label} :
    run step s (l :: ls) = some u ↔ ∃ t, step s l = some t ∧ run step t ls = some u :=
  Option.bind_eq_some_iff

theorem run_append (s : State) (ls ms : List Label) :
    run step s (ls ++ ms) = (run step s ls).bind fun t => run step t ms := by
  induction ls generalizing s with
  | nil => rfl
  | cons l ls ih =>
    cases hs : step s l with
    | none => simp [run, hs]
    | some t => simpa [run, hs] using ih t

/-- An invariant that every allowed step keeps holds after every allowed run. -/
theorem run_invariant {Inv : State → Prop} {ok : State → Label → Prop}
    (keep : ∀ s l t, Inv s → ok s l → step s l = some t → Inv t) {s u : State}
    {ls : List Label} (hs : Inv s) (ha : Along step ok s ls) (hr : run step s ls = some u) :
    Inv u := by
  induction ls generalizing s with
  | nil => cases Option.some.inj hr; exact hs
  | cons l ls ih =>
    obtain ⟨t, ht, hr⟩ := run_cons_iff.mp hr
    exact ih (keep s l t hs ha.1 ht) (ha.2 t ht) hr

theorem run_invariant_always (Inv : State → Prop)
    (keep : ∀ s l t, Inv s → step s l = some t → Inv t) {s u : State} {ls : List Label}
    (hs : Inv s) (hr : run step s ls = some u) : Inv u := by
  induction ls generalizing s with
  | nil => cases Option.some.inj hr; exact hs
  | cons l ls ih =>
    obtain ⟨t, ht, hr⟩ := run_cons_iff.mp hr
    exact ih (keep s l t hs ht) hr

theorem Along.of_isPrefix {ok : State → Label → Prop} {s : State} {pre ls : List Label}
    (hpre : pre <+: ls) (h : Along step ok s ls) : Along step ok s pre := by
  induction pre generalizing s ls with
  | nil => trivial
  | cons l pre ih =>
    obtain ⟨rest, rfl⟩ := hpre
    exact ⟨h.1, fun t ht => ih (List.prefix_append pre rest) (h.2 t ht)⟩

/-- An invariant that the allowed steps keep and the others break holds in every state of a run
exactly where all its steps are allowed. -/
theorem always_iff_along {Inv : State → Prop} {ok : State → Label → Prop}
    (keep : ∀ s l t, Inv s → ok s l → step s l = some t → Inv t)
    (broken : ∀ s l, Inv s → ¬ok s l → ∃ t, step s l = some t ∧ ¬Inv t) {s : State}
    {ls : List Label} (hs : Inv s) :
    (∀ pre t, pre <+: ls → run step s pre = some t → Inv t) ↔ Along step ok s ls := by
  constructor
  · intro h
    induction ls generalizing s with
    | nil => trivial
    | cons l ls ih =>
      have hfirst : ∀ t, step s l = some t → Inv t := by
        intro t ht
        apply h [l] t ⟨ls, rfl⟩
        rw [run, ht]
        rfl
      constructor
      · by_contra hno
        obtain ⟨t, ht, hbad⟩ := broken s l hs hno
        exact hbad (hfirst t ht)
      · intro t ht
        apply ih (hfirst t ht)
        intro pre u hpre hu
        apply h (l :: pre) u (List.cons_prefix_cons.mpr ⟨rfl, hpre⟩)
        exact run_cons_iff.mpr ⟨t, ht, hu⟩
  · intro h pre t hpre ht
    exact run_invariant keep hs (h.of_isPrefix hpre) ht

theorem collect_eq_nil_iff {out : State → Label → List Out} {s : State} {ls : List Label} :
    collect step out s ls = [] ↔ Along step (fun s l => out s l = []) s ls := by
  induction ls generalizing s with
  | nil => simp [collect, Along]
  | cons l ls ih =>
    cases hs : step s l with
    | none => simp [collect, Along, hs]
    | some t => simp [collect, Along, hs, ih]

theorem forall_mem_collect {out : State → Label → List Out} {p : Out → Prop} {s : State}
    {ls : List Label} :
    (∀ x ∈ collect step out s ls, p x) ↔ Along step (fun s l => ∀ x ∈ out s l, p x) s ls := by
  induction ls generalizing s with
  | nil => simp [collect, Along]
  | cons l ls ih =>
    cases hs : step s l with
    | none => simp [collect, Along, hs]
    | some t => simp [collect, Along, hs, ih, or_imp, forall_and]

theorem collect_append {out : State → Label → List Out} {s t : State} {ls : List Label}
    (h : run step s ls = some t) (ms : List Label) :
    collect step out s (ls ++ ms) = collect step out s ls ++ collect step out t ms := by
  induction ls generalizing s with
  | nil => cases Option.some.inj h; rfl
  | cons l ls ih =>
    obtain ⟨u, hu, h⟩ := run_cons_iff.mp h
    simp [collect, hu, ih h]

theorem Along.imp {ok ok' : State → Label → Prop} (h : ∀ s l, ok s l → ok' s l) {s : State}
    {ls : List Label} (ha : Along step ok s ls) : Along step ok' s ls := by
  induction ls generalizing s with
  | nil => trivial
  | cons l ls ih => exact ⟨h s l ha.1, fun t ht => ih (ha.2 t ht)⟩

theorem Along.of_forall {ok : State → Label → Prop} (h : ∀ s l, ok s l) (s : State)
    (ls : List Label) : Along step ok s ls := by
  induction ls generalizing s with
  | nil => trivial
  | cons l ls ih => exact ⟨h s l, fun t _ => ih t⟩

theorem Along.and {ok ok' : State → Label → Prop} {s : State} {ls : List Label}
    (ha : Along step ok s ls) (hb : Along step ok' s ls) :
    Along step (fun s l => ok s l ∧ ok' s l) s ls := by
  induction ls generalizing s with
  | nil => trivial
  | cons l ls ih => exact ⟨⟨ha.1, hb.1⟩, fun t ht => ih (ha.2 t ht) (hb.2 t ht)⟩

theorem run_of_isPrefix {s u : State} {pre ls : List Label} (hpre : pre <+: ls)
    (h : run step s ls = some u) : ∃ t, run step s pre = some t := by
  obtain ⟨rest, rfl⟩ := hpre
  rw [run_append] at h
  obtain ⟨t, ht, -⟩ := Option.bind_eq_some_iff.mp h
  exact ⟨t, ht⟩

/-- Along a run on which an invariant is kept, two conditions that agree under it agree. -/
theorem along_iff {Inv : State → Prop} {dom ok ok' : State → Label → Prop}
    (same : ∀ s l, Inv s → dom s l → (ok s l ↔ ok' s l))
    (keep : ∀ s l t, Inv s → dom s l → ok s l → step s l = some t → Inv t) {s : State}
    {ls : List Label} (hs : Inv s) (hd : Along step dom s ls) :
    Along step ok s ls ↔ Along step ok' s ls := by
  induction ls generalizing s with
  | nil => exact Iff.rfl
  | cons l ls ih =>
    have hl := same s l hs hd.1
    constructor
    · intro ha
      exact ⟨hl.mp ha.1, fun t ht =>
        (ih (keep s l t hs hd.1 ha.1 ht) (hd.2 t ht)).mp (ha.2 t ht)⟩
    · intro ha
      have hok := hl.mpr ha.1
      exact ⟨hok, fun t ht => (ih (keep s l t hs hd.1 hok ht) (hd.2 t ht)).mpr (ha.2 t ht)⟩

end Transitions
