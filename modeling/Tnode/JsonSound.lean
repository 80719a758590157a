import Tnode.JsonMeaning

namespace Tnode

/-- The assignments that the elements of an array make. -/
def elementWrites (idx : Int) : List Json → List (LuaKey × LuaValue)
  | [] => []
  | e :: elements =>
    (indexKey idx, e.decoded) :: elementWrites (e.restored (int32 (idx + 1))) elements

theorem storeElements_eq (idx : Int) (elements : List Json) (t : LuaTable) :
    storeElements idx elements t = assignAll t (elementWrites idx elements) := by
  induction elements generalizing idx t with
  | nil => simp [storeElements, elementWrites, assignAll]
  | cons e elements ih =>
    rw [storeElements, ih, elementWrites, assignAll, assignAll, List.foldl_cons]

theorem elementWrites_getElem? (idx : Int) (elements : List Json) (i : Nat) :
    (elementWrites idx elements)[i]? =
      (elements[i]?).map fun e => (indexKey (indexAfter idx (elements.take i)), e.decoded) := by
  induction elements generalizing idx i with
  | nil => simp [elementWrites]
  | cons e elements ih =>
    cases i with
    | zero => simp [elementWrites, indexAfter]
    | succ i => simp [elementWrites, indexAfter, ih]

theorem indexAfter_concat (idx : Int) (elements : List Json) (e : Json) :
    indexAfter idx (elements ++ [e]) = e.restored (int32 (indexAfter idx elements + 1)) := by
  induction elements generalizing idx with
  | nil => rfl
  | cons e' elements ih => exact ih _

theorem schar_congr {m n : Int} (h : m % 2 ^ 8 = n % 2 ^ 8) : schar m = schar n := by
  unfold schar
  rw [Int.bmod_def, Int.bmod_def]
  simp only [Nat.cast_pow, Nat.cast_ofNat, h]

theorem schar_emod (n : Int) : schar n % 2 ^ 8 = n % 2 ^ 8 := Int.bmod_emod

theorem int32_emod (n : Int) : int32 n % 2 ^ 8 = n % 2 ^ 8 := by
  have h : int32 n % 2 ^ 32 = n % 2 ^ 32 := Int.bmod_emod
  omega

theorem int32_add (m n : Int) : int32 (int32 m + n) = int32 (m + n) := Int.bmod_add_bmod

theorem lastArray_le (elements : List Json) (n : Nat) : lastArray elements n ≤ n := by
  induction n with
  | zero => exact Nat.le_refl 0
  | succ n ih =>
    rw [lastArray]
    split <;> omega

theorem elementIndex_emod (elements : List Json) (n : Nat) :
    elementIndex elements n % 2 ^ 8 = (n + 1) % 2 ^ 8 := by
  have h := int32_emod (schar (lastArray elements n + 1) + (n - lastArray elements n))
  have hs := schar_emod (lastArray elements n + 1)
  unfold elementIndex
  omega

theorem elementIndex_succ {elements : List Json} {n : Nat} {e : Json} (h : elements[n]? = some e) :
    elementIndex elements (n + 1) = e.restored (int32 (elementIndex elements n + 1)) := by
  by_cases he : e.hasArray = true
  · have hlast : lastArray elements (n + 1) = n + 1 := by simp [lastArray, h, he]
    have hmod := elementIndex_emod elements n
    have hmod' := int32_emod (elementIndex elements n + 1)
    have hschar : schar (int32 (elementIndex elements n + 1)) = schar ((n + 1 : Nat) + 1) := by
      apply schar_congr
      push_cast
      omega
    rw [Json.restored, if_pos he, hschar, elementIndex, hlast, sub_self, add_zero, int32_schar]
  · have hlast : lastArray elements (n + 1) = lastArray elements n := by simp [lastArray, h, he]
    have hnext : schar (lastArray elements n + 1) + (n - lastArray elements n) + 1 =
        schar (lastArray elements n + 1) + ((n + 1 : Nat) - lastArray elements n) := by
      push_cast
      omega
    rw [Json.restored, if_neg he, elementIndex, hlast, elementIndex, int32_add, hnext]

theorem indexAfter_take {elements : List Json} {n : Nat} (h : n ≤ elements.length) :
    indexAfter 1 (elements.take n) = elementIndex elements n := by
  induction n with
  | zero =>
    have hone : int32 (schar 1) = 1 := by decide
    simp [indexAfter, elementIndex, lastArray, hone]
  | succ n ih =>
    have hn : elements[n]? = some elements[n] := List.getElem?_eq_getElem h
    rw [List.take_add_one, hn, Option.toList_some, indexAfter_concat, ih (by omega),
      elementIndex_succ hn]

theorem elementIndex_le (elements : List Json) (n : Nat) : elementIndex elements n ≤ n + 1 := by
  have hlast := lastArray_le elements n
  have hle := Int.le_bmod (x := lastArray elements n + 1) (m := 2 ^ 8) (by decide)
  have hschar : schar (lastArray elements n + 1) ≤ lastArray elements n + 1 := by
    unfold schar
    rw [Int.bmod_def]
    split <;> omega
  have hmin : -128 ≤ schar (lastArray elements n + 1) := by
    unfold schar
    omega
  unfold elementIndex int32
  rw [Int.bmod_def]
  split <;> omega

theorem int32_elementIndex (elements : List Json) (n : Nat) :
    int32 (elementIndex elements n) = elementIndex elements n := int32_int32 _

theorem isIndex_indexKey (idx : Int) : (indexKey idx).IsIndex (int32 idx) :=
  ⟨representable_int32 idx, rfl⟩

theorem LuaKey.IsIndex.unique {k : LuaKey} {m n : Int} (hm : k.IsIndex m) (hn : k.IsIndex n) :
    m = n := by
  obtain ⟨_, rfl⟩ := hm
  obtain ⟨_, h⟩ := hn
  have hq : (m : ℚ) = n := by
    injection h with h
    injection h
  exact_mod_cast hq

theorem LuaKey.IsIndex.eq {k k' : LuaKey} {n : Int} (h : k.IsIndex n) (h' : k'.IsIndex n) :
    k = k' := by
  obtain ⟨_, rfl⟩ := h
  obtain ⟨_, rfl⟩ := h'
  rfl

theorem isIndex_elementIndex (elements : List Json) (n : Nat) :
    (indexKey (elementIndex elements n)).IsIndex (elementIndex elements n) := by
  have h := isIndex_indexKey (elementIndex elements n)
  rwa [int32_elementIndex] at h

theorem Json.decoded_eq_nil_iff {d : Json} : d.decoded = .nil ↔ d = .null := by
  cases d with
  | string s =>
    simp only [Json.decoded, jsonParserSpecialType]
    split
    next =>
      split
      next => split <;> simp
      next => simp
    next => simp
  | _ => simp [Json.decoded, pushinteger]

theorem Json.means_nil_iff {d : Json} : d.Means .nil ↔ d = .null := by
  cases d <;> simp [Json.Means, pushinteger]

/-- What a key of a decoded array holds: the last element stored under it. -/
theorem gettable_array_of_last {elements : List Json} {i : Nat} {e : Json} {k : LuaKey}
    (he : elements[i]? = some e) (hk : k.IsIndex (elementIndex elements i))
    (hlast : ∀ j < elements.length, i < j → elementIndex elements j ≠ elementIndex elements i) :
    gettable (storeElements 1 elements []) k = e.decoded := by
  have hlen : i < elements.length := (List.getElem?_eq_some_iff.mp he).1
  have hkey : k = indexKey (elementIndex elements i) := hk.eq (isIndex_elementIndex elements i)
  have hlast' : Assignments.last (elementWrites 1 elements) k = some e.decoded := by
    apply Assignments.last_eq_some_iff.mpr
    refine ⟨i, ?_, ?_⟩
    · rw [elementWrites_getElem?, he, Option.map_some, indexAfter_take (by omega), hkey]
    · intro j w hj hw
      rw [elementWrites_getElem?, Option.map_eq_some_iff] at hw
      obtain ⟨e', he', rfl⟩ := hw
      have hlen' : j < elements.length := (List.getElem?_eq_some_iff.mp he').1
      rw [indexAfter_take (by omega)]
      intro hkey'
      have hidx := isIndex_elementIndex elements j
      simp only at hkey'
      rw [hkey'] at hidx
      exact hlast j hlen' hj (hidx.unique hk)
  have hdistinct : Distinct [] := List.nodup_nil
  rw [storeElements_eq, hdistinct.gettable_assignAll, hlast', Option.getD_some]

theorem gettable_array_cases {elements : List Json} {k : LuaKey}
    (h : gettable (storeElements 1 elements []) k ≠ .nil) :
    ∃ (i : Nat) (e : Json), elements[i]? = some e ∧ k.IsIndex (elementIndex elements i) ∧
      gettable (storeElements 1 elements []) k = e.decoded ∧
      ∀ j < elements.length, i < j → elementIndex elements j ≠ elementIndex elements i := by
  have hdistinct : Distinct [] := List.nodup_nil
  rw [storeElements_eq, hdistinct.gettable_assignAll] at h ⊢
  cases hlast : Assignments.last (elementWrites 1 elements) k with
  | none =>
    rw [hlast] at h
    exact absurd rfl h
  | some v =>
    obtain ⟨i, hi, hbehind⟩ := Assignments.last_eq_some_iff.mp hlast
    rw [elementWrites_getElem?, Option.map_eq_some_iff] at hi
    obtain ⟨e, he, heq⟩ := hi
    obtain ⟨rfl, rfl⟩ := Prod.mk.inj heq
    have hlen : i < elements.length := (List.getElem?_eq_some_iff.mp he).1
    rw [indexAfter_take (by omega)] at hbehind ⊢
    refine ⟨i, e, he, isIndex_elementIndex elements i, rfl, ?_⟩
    intro j hj hij hidx
    have hw : (elementWrites 1 elements)[j]? =
        some (indexKey (elementIndex elements j), elements[j].decoded) := by
      rw [elementWrites_getElem?, List.getElem?_eq_getElem hj, Option.map_some,
        indexAfter_take (by omega)]
    exact hbehind j _ hij hw (congrArg indexKey hidx)

theorem elementAt_succ {elements : List Json} {n : Nat} {e : Json} (h : elements[n]? = some e) :
    elementAt elements (n + 1) = e := by
  have hn : ((n : Int) + 1 - 1).toNat = n := by omega
  rw [elementAt, if_pos (by omega), hn, List.getD_eq_getElem?_getD, h, Option.getD_some]

theorem elementAt_cases {elements : List Json} {n : Int} (h : elementAt elements n ≠ .null) :
    ∃ (i : Nat) (e : Json), n = i + 1 ∧ elements[i]? = some e ∧ e ≠ .null := by
  unfold elementAt at h
  split at h
  next hn =>
    rw [List.getD_eq_getElem?_getD] at h
    cases he : elements[(n - 1).toNat]? with
    | none =>
      rw [he] at h
      exact absurd rfl h
    | some e =>
      rw [he] at h
      exact ⟨(n - 1).toNat, e, by omega, he, h⟩
  next => exact absurd rfl h

/-- An element that stays `null` in its place leaves no entry, and the others find theirs. -/
theorem Placed.indexed {elements : List Json} (h : Placed elements) {i : Nat} {e : Json}
    (he : elements[i]? = some e) :
    Indexed (storeElements 1 elements []) (i + 1) e.decoded := by
  have hlen : i < elements.length := (List.getElem?_eq_some_iff.mp he).1
  have hat := elementAt_succ he
  have hother : ∀ j < elements.length, elementIndex elements j = i + 1 → j = i ∨ e = .null := by
    intro j hj hidx
    rcases h j hj with hown | ⟨_, hnull⟩
    · exact .inl (by omega)
    · rw [hidx, hat] at hnull
      exact .inr hnull
  by_cases hnull : e = .null
  · subst hnull
    refine ⟨?_, fun hne => absurd rfl hne⟩
    intro k hk
    by_contra hne
    obtain ⟨j, e', he', hk', hget, _⟩ := gettable_array_cases hne
    have hj : j < elements.length := (List.getElem?_eq_some_iff.mp he').1
    rcases h j hj with hown | ⟨hnull', _⟩
    · have hij : j = i := by
        have := hk'.unique hk
        omega
      subst hij
      rw [he] at he'
      cases he'
      exact hne hget
    · rw [elementAt_succ he'] at hnull'
      rw [hget, hnull'] at hne
      exact hne rfl
  · have hidx : elementIndex elements i = i + 1 := by
      rcases h i hlen with hown | ⟨hnull', _⟩
      · exact hown
      · exact absurd (hat.symm.trans hnull') hnull
    have hkey := isIndex_elementIndex elements i
    rw [hidx] at hkey
    refine ⟨?_, fun _ => ⟨_, hkey⟩⟩
    intro k hk
    rw [← hidx] at hk
    apply gettable_array_of_last he hk
    intro j hj hij heq
    rcases hother j hj (heq.trans hidx) with hji | hnull'
    · omega
    · exact hnull hnull'

theorem Placed.rest {elements : List Json} (h : Placed elements) {k : LuaKey}
    (hk : ∀ n : Int, k.IsIndex n → ¬(1 ≤ n ∧ n ≤ elements.length)) :
    gettable (storeElements 1 elements []) k = .nil := by
  by_contra hne
  obtain ⟨i, e, he, hidx, hget, _⟩ := gettable_array_cases hne
  have hlen : i < elements.length := (List.getElem?_eq_some_iff.mp he).1
  rcases h i hlen with hown | ⟨hnull, _⟩
  · exact hk _ hidx (by omega)
  · rw [elementAt_succ he] at hnull
    rw [hget, hnull] at hne
    exact hne rfl

section

variable {elements : List Json}
  (hmean : ∀ (i : Nat) (e : Json), elements[i]? = some e →
    ∃ v, e.Means v ∧ Indexed (storeElements 1 elements []) (i + 1) v)

include hmean

/-- An element that is found in its place was stored by an element that is not `null` and comes
no earlier. -/
theorem stored_of_means {i : Nat} {e : Json} (he : elements[i]? = some e) (hne : e ≠ .null) :
    ∃ (j : Nat) (e' : Json), elements[j]? = some e' ∧ e' ≠ .null ∧ e.Means e'.decoded ∧
      elementIndex elements j = i + 1 ∧
      ∀ p < elements.length, j < p → elementIndex elements p ≠ elementIndex elements j := by
  obtain ⟨v, hv, hget, hkey⟩ := hmean i e he
  have hv' : v ≠ .nil := fun hnil => hne (Json.means_nil_iff.mp (hnil ▸ hv))
  obtain ⟨k, hk⟩ := hkey hv'
  have hk' := hget k hk
  obtain ⟨j, e', he', hidx, hdec, hlast⟩ := gettable_array_cases (hk' ▸ hv')
  have hdecoded : e'.decoded = v := hdec.symm.trans hk'
  refine ⟨j, e', he', ?_, hdecoded ▸ hv, hidx.unique hk, hlast⟩
  intro hnull
  exact hv' (hdecoded ▸ Json.decoded_eq_nil_iff.mpr hnull)

theorem elementIndex_of_means (i : Nat) {e : Json} (he : elements[i]? = some e) (hne : e ≠ .null) :
    elementIndex elements i = i + 1 := by
  obtain ⟨j, e', he', hne', _, hidx, _⟩ := stored_of_means hmean he hne
  have hlen : j < elements.length := (List.getElem?_eq_some_iff.mp he').1
  have hle := elementIndex_le elements j
  by_cases hij : j = i
  · rw [← hij]
    omega
  · have hown := elementIndex_of_means j he' hne'
    omega
termination_by elements.length - i

theorem stored_self_of_means {i : Nat} {e : Json} (he : elements[i]? = some e) (hne : e ≠ .null) :
    e.Means e.decoded ∧
      ∀ p < elements.length, i < p → elementIndex elements p ≠ elementIndex elements i := by
  obtain ⟨j, e', he', hne', hval, hidx, hlast⟩ := stored_of_means hmean he hne
  have hown := elementIndex_of_means hmean j he' hne'
  have hji : j = i := by omega
  subst hji
  rw [he] at he'
  cases he'
  exact ⟨hval, hlast⟩

theorem placed_of_means : Placed elements := by
  intro j hj
  by_cases hnull : elements[j] = .null
  · by_contra hnot
    obtain ⟨hidx, hat⟩ := not_or.mp hnot
    have hself : elementAt elements (j + 1) = .null := by
      rw [elementAt_succ (List.getElem?_eq_getElem hj), hnull]
    obtain ⟨i, e, hi, he, hne⟩ := elementAt_cases (fun h => hat ⟨hself, h⟩)
    have hlen : i < elements.length := (List.getElem?_eq_some_iff.mp he).1
    have hown := elementIndex_of_means hmean i he hne
    have hle := elementIndex_le elements j
    obtain ⟨_, hlast⟩ := stored_self_of_means hmean he hne
    have hne' := hlast j hj
    omega
  · exact .inl (elementIndex_of_means hmean j (List.getElem?_eq_getElem hj) hnull)

end

/-- An array is decoded to its meaning exactly when its elements are and stay in their places. -/
theorem array_means_decoded_iff {elements : List Json}
    (ih : ∀ e ∈ elements, e.Means e.decoded ↔ e.Sound) :
    (Json.array elements).Means (Json.array elements).decoded ↔ (Json.array elements).Sound := by
  rw [Json.decoded, Json.Means, Json.Sound, ElementsSound.iff_forall]
  constructor
  · rintro ⟨t, ht, hmean, _⟩
    cases ht
    rw [elementsMean_iff] at hmean
    have hmean' : ∀ (i : Nat) (e : Json), elements[i]? = some e →
        ∃ v, e.Means v ∧ Indexed (storeElements 1 elements []) (i + 1) v := by
      intro i e he
      have := hmean i e he
      rwa [add_comm] at this
    refine ⟨?_, placed_of_means hmean'⟩
    intro e hmem
    obtain ⟨i, he⟩ := List.mem_iff_getElem?.mp hmem
    by_cases hnull : e = .null
    · simp [hnull, Json.Sound]
    · exact (ih e hmem).mp (stored_self_of_means hmean' he hnull).1
  · rintro ⟨hsound, hplaced⟩
    refine ⟨_, rfl, ?_, fun k hk => hplaced.rest hk⟩
    rw [elementsMean_iff]
    intro i e he
    have hmem := List.mem_of_getElem? he
    rw [add_comm]
    exact ⟨e.decoded, (ih e hmem).mpr (hsound e hmem), hplaced.indexed he⟩

theorem gettable_storeMembers_ne {members : List (List Byte × Json)} {k : LuaKey}
    (h : ∀ m ∈ members, k ≠ .string m.1) (t : LuaTable) :
    gettable (storeMembers members t) k = gettable t k := by
  induction members generalizing t with
  | nil => rw [storeMembers]
  | cons m members ih =>
    obtain ⟨k', e⟩ := m
    have hk : k ≠ .string k' := h (k', e) List.mem_cons_self
    rw [storeMembers, ih (fun m hm => h m (List.mem_cons_of_mem _ hm)), gettable_settable_ne t hk]

theorem membersMean_iff {t : LuaTable} (h : Distinct t) {members : List (List Byte × Json)}
    (ih : ∀ m ∈ members, m.2.Means m.2.decoded ↔ m.2.Sound) :
    MembersMean members (storeMembers members t) ↔ MembersSound members := by
  induction members generalizing t with
  | nil => simp [MembersMean, MembersSound]
  | cons m members ih' =>
    obtain ⟨k, e⟩ := m
    have hrest := ih' (h.settable (.string k) e.decoded)
      (fun m hm => ih m (List.mem_cons_of_mem _ hm))
    have hhead : k ∉ members.map Prod.fst →
        gettable (storeMembers members (settable t (.string k) e.decoded)) (.string k) =
          e.decoded := by
      intro hk
      rw [gettable_storeMembers_ne, h.gettable_settable]
      intro m hm heq
      cases heq
      exact hk (List.mem_map_of_mem hm)
    rw [MembersMean, MembersSound, storeMembers, hrest]
    have he := ih (k, e) List.mem_cons_self
    constructor
    · rintro ⟨hfirst, hmembers⟩
      refine ⟨?_, hmembers⟩
      intro hk
      have hval := hfirst hk
      rw [hhead hk] at hval
      exact he.mp hval
    · rintro ⟨hfirst, hmembers⟩
      refine ⟨?_, hmembers⟩
      intro hk
      rw [hhead hk]
      exact he.mpr (hfirst hk)

mutual

/-- The callback leaves the meaning of a document exactly when the document is sound. -/
theorem Json.means_decoded_iff : ∀ d : Json, d.Means d.decoded ↔ d.Sound
  | .null | .boolean _ | .integer _ | .float _ => by simp [Json.Means, Json.decoded, Json.Sound]
  | .string s => by
    rw [Json.Means, Json.decoded, Json.Sound]
    exact jsonParserSpecialType_eq_iff
  | .array elements => array_means_decoded_iff (elements_mean_decoded_iff elements)
  | .object members => by
    have hdistinct : Distinct [] := List.nodup_nil
    have hiff := membersMean_iff hdistinct (members_mean_decoded_iff members)
    rw [Json.decoded, Json.Means, Json.Sound, ← hiff]
    constructor
    · rintro ⟨t, ht, hmean, _⟩
      cases ht
      exact hmean
    · intro hmean
      refine ⟨_, rfl, hmean, ?_⟩
      intro k hk
      rw [gettable_storeMembers_ne hk]
      rfl

theorem elements_mean_decoded_iff : ∀ (elements : List Json),
    ∀ e ∈ elements, e.Means e.decoded ↔ e.Sound
  | [], _, h => absurd h List.not_mem_nil
  | e :: elements, e', h => by
    rcases List.mem_cons.mp h with heq | hmem
    · rw [heq]
      exact e.means_decoded_iff
    · exact elements_mean_decoded_iff elements e' hmem

theorem members_mean_decoded_iff : ∀ (members : List (List Byte × Json)),
    ∀ m ∈ members, m.2.Means m.2.decoded ↔ m.2.Sound
  | [], _, h => absurd h List.not_mem_nil
  | (k, e) :: members, m, h => by
    rcases List.mem_cons.mp h with heq | hmem
    · rw [heq]
      exact e.means_decoded_iff
    · exact members_mean_decoded_iff members m hmem

end

/-- The calls for a document leave its meaning on top and everything else as it was. -/
def CallbackBuilds (d : Json) (L : List LuaValue) : Prop :=
  ∃ ctx v, reportAll jsonParserCb (.create L) d.events = some (true, ctx) ∧ ctx.L = v :: L ∧
    d.Means v ∧ ctx.keyLvl = 0 ∧ ctx.curState = .none ∧ ctx.stateStack = [] ∧ ctx.arrayStack = []

theorem callback_builds_iff {d : Json} (h : d.IsContainer) (L : List LuaValue) :
    CallbackBuilds d L ↔ d.Sound := by
  rw [← d.means_decoded_iff]
  constructor
  · rintro ⟨ctx, v, hrun, hL, hmean, _⟩
    rw [d.report_create h] at hrun
    cases hrun
    cases hL
    exact hmean
  · intro hmean
    exact ⟨_, _, d.report_create h L, rfl, hmean, rfl, rfl, rfl, rfl⟩

/-- An array of 126 numbers, an array and one more number. -/
def deepIn127 : Json := .array (List.replicate 126 (.integer 0) ++ [.array [], .integer 0])

theorem callback_builds_nested : CallbackBuilds (.object [([97], .array [.array []])]) [] := by
  have hc : (Json.object [([97], .array [.array []])]).IsContainer := trivial
  apply (callback_builds_iff hc []).mpr
  have hplaced : Placed [.array []] := by
    intro n hn
    obtain rfl : n = 0 := by simpa using hn
    exact .inl (by decide +kernel)
  have hempty : Placed [] := fun n hn => absurd hn (Nat.not_lt_zero n)
  simp [Json.Sound, MembersSound, ElementsSound, hplaced, hempty]

/-- The number behind the array is stored under the key -128. -/
theorem callback_loses_element : deepIn127.IsContainer ∧ ¬CallbackBuilds deepIn127 [] := by
  have hc : deepIn127.IsContainer := trivial
  refine ⟨hc, ?_⟩
  rintro ⟨ctx, v, hrun, hL, hmean, _⟩
  rw [Json.report_create hc] at hrun
  cases hrun
  cases hL
  obtain ⟨_, hplaced⟩ := (Json.means_decoded_iff _).mp hmean
  have hidx : elementIndex (List.replicate 126 (.integer 0) ++ [.array [], .integer 0]) 127 =
      -128 := by decide +kernel
  have hat : (List.replicate 126 (.integer 0) ++ [Json.array [], .integer 0])[127]? =
      some (.integer 0) := by
    rw [List.getElem?_append_right (by simp)]
    simp
  rcases hplaced 127 (by simp) with hown | ⟨hnull, _⟩
  · rw [hidx] at hown
    omega
  · rw [elementAt_succ hat] at hnull
    cases hnull

end Tnode
