import Mathlib.Data.List.Basic

namespace Assignments

variable {K V : Type*} [DecidableEq K]

/-- The value that a sequence of assignments leaves at a key. -/
def last : List (K × V) → K → Option V
  | [], _ => none
  | (k', v) :: ws, k => (last ws k).or (if k' = k then some v else none)

theorem last_eq_none_iff {ws : List (K × V)} {k : K} :
    last ws k = none ↔ ∀ w ∈ ws, w.1 ≠ k := by
  induction ws with
  | nil => simp [last]
  | cons w ws ih =>
    obtain ⟨k', v⟩ := w
    simp only [last, Option.or_eq_none_iff, ih, List.forall_mem_cons]
    constructor
    · rintro ⟨hws, hk⟩
      refine ⟨?_, hws⟩
      intro he
      simp [he] at hk
    · rintro ⟨hk, hws⟩
      exact ⟨hws, if_neg hk⟩

/-- The last assignment to a key decides. -/
theorem last_eq_some_iff {ws : List (K × V)} {k : K} {v : V} :
    last ws k = some v ↔
      ∃ i : Nat, ws[i]? = some (k, v) ∧
        ∀ (j : Nat) (w : K × V), i < j → ws[j]? = some w → w.1 ≠ k := by
  induction ws with
  | nil => simp [last]
  | cons w ws ih =>
    obtain ⟨k', v'⟩ := w
    simp only [last, Option.or_eq_some_iff, last_eq_none_iff, ih]
    constructor
    · rintro (⟨i, hi, hlast⟩ | ⟨hws, hk⟩)
      · refine ⟨i + 1, hi, ?_⟩
        intro j w hj hw
        obtain ⟨j, rfl⟩ : ∃ j', j = j' + 1 := ⟨j - 1, by omega⟩
        exact hlast j w (by omega) hw
      · split at hk
        next he =>
          cases hk
          refine ⟨0, by simp [he], ?_⟩
          intro j w hj hw
          obtain ⟨j, rfl⟩ : ∃ j', j = j' + 1 := ⟨j - 1, by omega⟩
          exact hws w (List.mem_of_getElem? hw)
        next => cases hk
    · rintro ⟨i, hi, hlast⟩
      cases i with
      | zero =>
        cases hi
        refine .inr ⟨?_, if_pos rfl⟩
        intro w hw
        obtain ⟨j, hj⟩ := List.mem_iff_getElem?.mp hw
        exact hlast (j + 1) w (Nat.succ_pos j) hj
      | succ i =>
        refine .inl ⟨i, hi, ?_⟩
        intro j w hj hw
        exact hlast (j + 1) w (by omega) hw

end Assignments
