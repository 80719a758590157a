import Tnode.JsonLiteralsRead
import Tnode.JsonMeaning

namespace Tnode

/-- A string value of a document. -/
def Json.HasString (d : Json) (b : List Byte) : Prop := .string b ∈ d.events

/-- A function is or occurs in the value. -/
inductive LuaValue.HasFunction : LuaValue → Prop
  | here (address : Nat) : HasFunction (.cfunction address)
  | entry {t : LuaTable} {k : LuaKey} {v : LuaValue} (h : (k, v) ∈ t) (hv : HasFunction v) :
    HasFunction (.table t)

theorem not_hasFunction_settable {t : LuaTable} {k : LuaKey} {v : LuaValue}
    (ht : ¬(LuaValue.table t).HasFunction) (hv : ¬v.HasFunction) :
    ¬(LuaValue.table (settable t k v)).HasFunction := by
  intro h
  cases h with
  | entry hmem hv' =>
    rcases mem_settable hmem with hnew | hold
    · cases hnew
      exact hv hv'
    · exact ht (.entry hold hv')

theorem not_hasFunction_nil : ¬(LuaValue.table []).HasFunction := by
  intro h
  cases h with
  | entry hmem _ => cases hmem

mutual

/-- A document whose strings name no function is decoded to a value without functions. -/
theorem Json.decoded_no_function : ∀ d : Json, (∀ b, d.HasString b → ¬NamesFunction b) →
    ¬d.decoded.HasFunction
  | .null, _ | .boolean _, _ | .integer _, _ | .float _, _ => by
    rw [Json.decoded]
    intro h
    cases h
  | .string s, h => by
    have hs : (Json.string s).HasString s := List.mem_cons_self
    rw [Json.decoded, jsonParserSpecialType_eq_iff.mpr (h s hs)]
    intro h
    cases h
  | .array elements, h => by
    rw [Json.decoded]
    apply elements_no_function elements _ 1 not_hasFunction_nil
    intro b hb
    apply h b
    simp [Json.HasString, Json.events, hb]
  | .object members, h => by
    rw [Json.decoded]
    apply members_no_function members _ not_hasFunction_nil
    intro b hb
    apply h b
    simp [Json.HasString, Json.events, hb]

theorem elements_no_function : ∀ elements : List Json,
    (∀ b, .string b ∈ elementEvents elements → ¬NamesFunction b) → ∀ (idx : Int) {t : LuaTable},
    ¬(LuaValue.table t).HasFunction →
    ¬(LuaValue.table (storeElements idx elements t)).HasFunction
  | [], _, idx, t, ht => by rwa [storeElements]
  | e :: elements, h, idx, t, ht => by
    have he : ∀ b, e.HasString b → ¬NamesFunction b := by
      intro b hb
      exact h b (List.mem_append_left _ hb)
    have hrest : ∀ b, .string b ∈ elementEvents elements → ¬NamesFunction b := by
      intro b hb
      exact h b (List.mem_append_right _ hb)
    rw [storeElements]
    exact elements_no_function elements hrest _
      (not_hasFunction_settable ht (e.decoded_no_function he))

theorem members_no_function : ∀ members : List (List Byte × Json),
    (∀ b, .string b ∈ memberEvents members → ¬NamesFunction b) → ∀ {t : LuaTable},
    ¬(LuaValue.table t).HasFunction →
    ¬(LuaValue.table (storeMembers members t)).HasFunction
  | [], _, t, ht => by rwa [storeMembers]
  | (k, e) :: members, h, t, ht => by
    have he : ∀ b, e.HasString b → ¬NamesFunction b := by
      intro b hb
      exact h b (List.mem_cons_of_mem _ (List.mem_append_left _ hb))
    have hrest : ∀ b, .string b ∈ memberEvents members → ¬NamesFunction b := by
      intro b hb
      exact h b (List.mem_cons_of_mem _ (List.mem_append_right _ hb))
    rw [storeMembers]
    exact members_no_function members hrest
      (not_hasFunction_settable ht (e.decoded_no_function he))

end

theorem Spells.isJson {s : List Byte} {d : Json} (h : Spells s d) : IsJson s := by
  obtain ⟨_, jc, hrun, hdone⟩ := spells_iff.mp h
  exact isJson_iff.mpr ⟨jc, by rw [hrun], hdone⟩

theorem Spells.decoded_eq {s : List Byte} {d d' : Json} (h : Spells s d) (h' : Spells s d') :
    d.decoded = d'.decoded := by
  obtain ⟨hd, jc, hrun, _⟩ := spells_iff.mp h
  obtain ⟨hd', jc', hrun', _⟩ := spells_iff.mp h'
  have hevents : d.events = d'.events := (Prod.mk.inj (hrun.symm.trans hrun')).1
  have hreport := d.report_create hd []
  rw [hevents, d'.report_create hd' []] at hreport
  simp only [Option.some.injEq, Prod.mk.injEq, JsonParserCtx.mk.injEq, List.cons.injEq] at hreport
  exact hreport.2.1.1.symm

theorem IsJson.straight_fed {s : List Byte} (h : IsJson s) :
    JsonParser.new.Straight (s.takeWhile isFed) := by
  obtain ⟨jc, hrun, _⟩ := isJson_iff.mp h
  rw [← List.takeWhile_append_dropWhile (p := isFed) (l := s), JsonParser.run_append,
    Option.bind_eq_some_iff] at hrun
  obtain ⟨jc', hrun', _⟩ := hrun
  exact JsonParser.new_fits.straight hrun'

end Tnode
