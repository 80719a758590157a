import Tnode.DecodedTables
import Mathlib.Data.List.Sort
import Mathlib.Data.List.Range

namespace Tnode

theorem mem_numbered {first : Nat} {values : List LuaValue} {e : LuaKey × LuaValue}
    (h : e ∈ numbered first values) :
    ∃ i, first ≤ i ∧ i < first + values.length ∧ e.1 = .number (ofInteger i) := by
  induction values generalizing first with
  | nil => simp [numbered] at h
  | cons v values ih =>
    rw [List.length_cons]
    rcases List.mem_cons.mp h with rfl | h
    · exact ⟨first, le_rfl, by omega, rfl⟩
    · obtain ⟨i, hle, hlt, hk⟩ := ih h
      exact ⟨i, by omega, by omega, hk⟩

theorem key_mem_numbered {first i : Nat} {values : List LuaValue} (hle : first ≤ i)
    (hlt : i < first + values.length) :
    ∃ e ∈ numbered first values, e.1 = .number (ofInteger i) := by
  induction values generalizing first with
  | nil =>
    rw [List.length_nil] at hlt
    omega
  | cons v values ih =>
    rw [List.length_cons] at hlt
    by_cases heq : first = i
    · exact ⟨_, List.mem_cons_self, by rw [heq]⟩
    · obtain ⟨e, he, hk⟩ := @ih (first + 1) (by omega) (by omega)
      exact ⟨e, List.mem_cons_of_mem _ he, hk⟩

theorem numbered_fresh {values : List LuaValue} {first index : Nat}
    (hle : first + values.length ≤ index) (hlt : index < 2 ^ 53) :
    Fresh (numbered first values) (.number (ofInteger index)) := by
  intro e he hk
  obtain ⟨i, _, hi, hki⟩ := mem_numbered he
  rw [hki] at hk
  have heq := ofInteger_injective (by omega) hlt (LuaKey.number.inj hk)
  omega

theorem sizeOf_lt_numbered {v : LuaValue} {values : List LuaValue} (h : v ∈ values) (index : Nat) :
    sizeOf v < sizeOf (numbered index values) := by
  induction values generalizing index with
  | nil => simp at h
  | cons w values ih =>
    simp only [numbered, List.cons.sizeOf_spec, Prod.mk.sizeOf_spec]
    rcases List.mem_cons.mp h with rfl | h
    · omega
    · have := ih h (index + 1)
      omega

theorem gettable_not_nil {t : LuaTable} {k : LuaKey} (hk : ∃ e ∈ t, e.1 = k)
    (hv : ∀ e ∈ t, e.2.isNil = false) : (gettable t k).isNil = false := by
  induction t with
  | nil => simp at hk
  | cons e t ih =>
    rw [List.forall_mem_cons] at hv
    obtain ⟨e', he', hk⟩ := hk
    rw [gettable]
    split
    next => exact hv.1
    next hne =>
      rcases List.mem_cons.mp he' with rfl | he'
      · exact absurd hk hne
      · exact ih ⟨e', he', hk⟩ hv.2

/-- `lua_next` visits the keys of a sequence in ascending order. -/
def Lua.Ascending (lua : Lua) : Prop :=
  ∀ (t : LuaTable) (values : List LuaValue), values.length < 2 ^ 53 → t.Perm (numbered 1 values) →
    lua.next t = numbered 1 values

def LuaKey.rank : LuaKey → ℚ
  | .number (.finite q _) => q
  | _ => 0

theorem rank_ofInteger {i : Nat} (h : i < 2 ^ 53) : (LuaKey.number (ofInteger i)).rank = i := by
  have hsmall : |(i : Int)| < 2 ^ 53 := abs_lt.mpr (by omega)
  have hpush := pushinteger_of_representable (by omega) (representable_of_small hsmall)
  rw [pushinteger, LuaValue.number.injEq] at hpush
  rw [hpush, LuaKey.rank, Int.cast_natCast]

theorem numbered_ranks {first : Nat} {values : List LuaValue} (h : first + values.length ≤ 2 ^ 53) :
    (numbered first values).map (fun e => e.1.rank) =
      (List.range' first values.length).map (Nat.cast : ℕ → ℚ) := by
  induction values generalizing first with
  | nil => rfl
  | cons v values ih =>
    rw [List.length_cons] at h ⊢
    rw [numbered, List.map_cons, rank_ofInteger (by omega), ih (by omega), List.range'_succ,
      List.map_cons]

/-- A runtime whose `lua_next` visits the keys of every table in ascending order. -/
def sortingLua : Lua where
  next := fun t => t.mergeSort fun a b => a.1.rank ≤ b.1.rank
  next_perm := fun t => List.mergeSort_perm t _
  num2str := fun _ => []
  strscan := fun _ => none

theorem sortingLua_ascending : sortingLua.Ascending := by
  intro t values hlen hperm
  have hranks := @numbered_ranks 1 values (by omega)
  have hnodup : ((numbered 1 values).map fun e => e.1.rank).Nodup := by
    rw [hranks]
    exact List.Nodup.map Nat.cast_injective List.nodup_range'
  have hlt : (List.range' 1 values.length).Pairwise fun i j : ℕ => (i : ℚ) ≤ j :=
    List.Pairwise.imp (fun h => Nat.cast_le.mpr h.le) List.pairwise_lt_range'
  have hsorted : (numbered 1 values).Pairwise fun a b => a.1.rank ≤ b.1.rank := by
    rw [← List.pairwise_map, hranks, List.pairwise_map]
    exact hlt
  have hnext : (sortingLua.next t).Pairwise fun a b => a.1.rank ≤ b.1.rank := by
    have h := @List.pairwise_mergeSort _ (fun a b : LuaKey × LuaValue => a.1.rank ≤ b.1.rank)
      (fun a b c => by simpa using le_trans) (fun a b => by simpa using le_total _ _) t
    exact h.imp of_decide_eq_true
  have hvisit : (sortingLua.next t).Perm (numbered 1 values) := (sortingLua.next_perm t).trans hperm
  refine List.Perm.eq_of_pairwise (fun a b ha hb hab hba => ?_) hnext hsorted hvisit
  exact List.inj_on_of_nodup_map hnodup (hvisit.mem_iff.mp ha) hb (le_antisymm hab hba)

end Tnode
