import Tnode.Assignments
import Tnode.JsonDocument

namespace Tnode

/-- A table has one entry for each key. -/
def Distinct (t : LuaTable) : Prop := (t.map Prod.fst).Nodup

theorem mem_settable {t : LuaTable} {k : LuaKey} {v : LuaValue} {e : LuaKey × LuaValue}
    (h : e ∈ settable t k v) : e = (k, v) ∨ e ∈ t := by
  induction t with
  | nil =>
    rw [settable] at h
    split at h
    next => cases h
    next => exact .inl (by simpa using h)
  | cons e₀ t ih =>
    obtain ⟨k₀, v₀⟩ := e₀
    rw [settable] at h
    split at h
    next =>
      split at h
      next => exact .inr (List.mem_cons_of_mem _ h)
      next =>
        rcases List.mem_cons.mp h with he | ht
        · exact .inl he
        · exact .inr (List.mem_cons_of_mem _ ht)
    next =>
      rcases List.mem_cons.mp h with he | ht
      · exact .inr (he ▸ List.mem_cons_self)
      · rcases ih ht with he | ht'
        · exact .inl he
        · exact .inr (List.mem_cons_of_mem _ ht')

theorem mem_keys_settable {t : LuaTable} {k k' : LuaKey} {v : LuaValue}
    (h : k' ∈ (settable t k v).map Prod.fst) : k' = k ∨ k' ∈ t.map Prod.fst := by
  obtain ⟨e, he, rfl⟩ := List.mem_map.mp h
  rcases mem_settable he with rfl | hold
  · exact .inl rfl
  · exact .inr (List.mem_map_of_mem hold)

theorem Distinct.settable {t : LuaTable} (h : Distinct t) (k : LuaKey) (v : LuaValue) :
    Distinct (settable t k v) := by
  induction t with
  | nil =>
    unfold Tnode.settable Distinct
    split <;> simp
  | cons e t ih =>
    obtain ⟨k₀, v₀⟩ := e
    obtain ⟨hk₀, ht⟩ := List.nodup_cons.mp h
    rw [Tnode.settable]
    split
    next he =>
      subst he
      split
      next => exact ht
      next => exact List.nodup_cons.mpr ⟨hk₀, ht⟩
    next he =>
      apply List.nodup_cons.mpr
      refine ⟨?_, ih ht⟩
      intro hmem
      rcases mem_keys_settable hmem with heq | hin
      · exact he heq
      · exact hk₀ hin

theorem gettable_eq_nil {t : LuaTable} {k : LuaKey} (h : k ∉ t.map Prod.fst) :
    gettable t k = .nil := by
  induction t with
  | nil => rfl
  | cons e t ih =>
    obtain ⟨hk, ht⟩ := List.ne_and_not_mem_of_not_mem_cons h
    rw [gettable, if_neg hk.symm, ih ht]

/-- A key holds what was assigned to it, which may be `nil`. -/
theorem Distinct.gettable_settable {t : LuaTable} (h : Distinct t) (k : LuaKey) (v : LuaValue) :
    gettable (Tnode.settable t k v) k = v := by
  cases hv : v.isNil with
  | false => exact Tnode.gettable_settable t k hv
  | true =>
    have hnil : v = .nil := by
      cases v <;> first | rfl | cases hv
    subst hnil
    induction t with
    | nil => rfl
    | cons e t ih =>
      obtain ⟨k₀, v₀⟩ := e
      obtain ⟨hk₀, ht⟩ := List.nodup_cons.mp h
      rw [Tnode.settable]
      split
      next he =>
        subst he
        exact gettable_eq_nil hk₀
      next he => rw [gettable, if_neg he, ih ht]

def assignAll (t : LuaTable) (ws : List (LuaKey × LuaValue)) : LuaTable :=
  ws.foldl (fun t w => settable t w.1 w.2) t

theorem Distinct.gettable_assignAll {t : LuaTable} (h : Distinct t)
    (ws : List (LuaKey × LuaValue)) (k : LuaKey) :
    gettable (assignAll t ws) k = (Assignments.last ws k).getD (gettable t k) := by
  induction ws generalizing t with
  | nil => rfl
  | cons w ws ih =>
    obtain ⟨k', v⟩ := w
    have hrest := ih (h.settable k' v)
    rw [assignAll, List.foldl_cons, ← assignAll, hrest, Assignments.last]
    cases hlast : Assignments.last ws k with
    | some v' => rfl
    | none =>
      rw [Option.none_or, Option.getD_none]
      split
      next he => rw [he, ← he, h.gettable_settable, Option.getD_some]
      next he => rw [gettable_settable_ne t (Ne.symm he) v, Option.getD_none]

/-- `k` is the number `n`. -/
def LuaKey.IsIndex (k : LuaKey) (n : Int) : Prop :=
  ∃ h : binary64.Representable n, k = .number (.finite n h)

/-- `t` has `v` under the integer key `n`; an absent key stands for `nil`. -/
def Indexed (t : LuaTable) (n : Int) (v : LuaValue) : Prop :=
  (∀ k : LuaKey, k.IsIndex n → gettable t k = v) ∧ (v ≠ .nil → ∃ k : LuaKey, k.IsIndex n)

mutual

/-- The meaning of a document: the `k`-th element of an array is under the key `k`, the last
of several members with one key counts, and `null` is no entry. -/
def Json.Means : Json → LuaValue → Prop
  | .null, v => v = .nil
  | .boolean b, v => v = .boolean b
  | .integer n, v => v = pushinteger n
  | .float x, v => v = .number x
  | .string s, v => v = .string s
  | .array elements, v =>
    ∃ t, v = .table t ∧ ElementsMean 1 elements t ∧
      ∀ k : LuaKey, (∀ n : Int, k.IsIndex n → ¬(1 ≤ n ∧ n ≤ elements.length)) → gettable t k = .nil
  | .object members, v =>
    ∃ t, v = .table t ∧ MembersMean members t ∧
      ∀ k : LuaKey, (∀ m ∈ members, k ≠ .string m.1) → gettable t k = .nil

def ElementsMean (n : Int) : List Json → LuaTable → Prop
  | [], _ => True
  | e :: elements, t => (∃ v, e.Means v ∧ Indexed t n v) ∧ ElementsMean (n + 1) elements t

def MembersMean : List (List Byte × Json) → LuaTable → Prop
  | [], _ => True
  | (k, e) :: members, t =>
    (k ∉ members.map Prod.fst → e.Means (gettable t (.string k))) ∧ MembersMean members t

end

/-- A string value that `_json_parser_special_type` takes for a function. -/
def NamesFunction (s : List Byte) : Prop :=
  bytes "function" <+: s ∧ ∃ colon p, strchr s 58 = colon :: p ∧ strtoull16 p ≠ 0 ∧
    strtoull16 p ≠ ULONG_MAX

/-- The last position up to `n` whose element contains an array, 0 where there is none. -/
def lastArray (elements : List Json) : Nat → Nat
  | 0 => 0
  | n + 1 => if (elements[n]?).any Json.hasArray then n + 1 else lastArray elements n

/-- The index under which the element behind the first `n` is stored: counted on from the
last element that contains an array, and the position behind that one is a `char`. -/
def elementIndex (elements : List Json) (n : Nat) : Int :=
  int32 (schar (lastArray elements n + 1) + (n - lastArray elements n))

/-- The element at a position; there is `null` at every other one. -/
def elementAt (elements : List Json) (n : Int) : Json :=
  if 1 ≤ n then elements.getD (n - 1).toNat .null else .null

def Placed (elements : List Json) : Prop :=
  ∀ n < elements.length, elementIndex elements n = n + 1 ∨
    elementAt elements (n + 1) = .null ∧ elementAt elements (elementIndex elements n) = .null

mutual

/-- The documents that the callback decodes: no string that stays names a function, and every
element that is not `null` is stored under its position, which no `null` overwrites. -/
def Json.Sound : Json → Prop
  | .string s => ¬NamesFunction s
  | .array elements => ElementsSound elements ∧ Placed elements
  | .object members => MembersSound members
  | _ => True

def ElementsSound : List Json → Prop
  | [] => True
  | e :: elements => e.Sound ∧ ElementsSound elements

def MembersSound : List (List Byte × Json) → Prop
  | [] => True
  | (k, e) :: members => (k ∉ members.map Prod.fst → e.Sound) ∧ MembersSound members

end

theorem jsonParserSpecialType_eq_iff {s : List Byte} :
    jsonParserSpecialType s = .string s ↔ ¬NamesFunction s := by
  unfold jsonParserSpecialType NamesFunction
  by_cases hp : bytes "function" <+: s
  · rw [if_pos hp]
    cases hc : strchr s 58 with
    | nil => simp
    | cons colon p =>
      simp only
      split
      next ha => simpa [hp] using ha
      next ha => simpa [hp] using ha
  · simp [hp]

theorem ElementsSound.iff_forall {elements : List Json} :
    ElementsSound elements ↔ ∀ e ∈ elements, e.Sound := by
  induction elements with
  | nil => simp [ElementsSound]
  | cons e elements ih => simp [ElementsSound, ih]

theorem elementsMean_iff {n : Int} {elements : List Json} {t : LuaTable} :
    ElementsMean n elements t ↔
      ∀ (i : Nat) (e : Json), elements[i]? = some e → ∃ v, e.Means v ∧ Indexed t (n + i) v := by
  induction elements generalizing n with
  | nil => simp [ElementsMean]
  | cons e elements ih =>
    rw [ElementsMean, ih]
    constructor
    · rintro ⟨he, hrest⟩ i e' hi
      cases i with
      | zero =>
        cases hi
        simpa using he
      | succ i =>
        have := hrest i e' hi
        rwa [Int.natCast_succ, add_comm (i : Int), ← add_assoc]
    · intro h
      refine ⟨by simpa using h 0 e rfl, ?_⟩
      intro i e' hi
      have := h (i + 1) e' hi
      rwa [Int.natCast_succ, add_comm (i : Int), ← add_assoc] at this

end Tnode
