import Tnode.JsonDump
import Tnode.JsonSound
import Tnode.JsonStrings

namespace Tnode

open JsonParser FloatFormat

variable {lua : Lua}

/-- The entries of a table that has some, separated by commas. -/
theorem dumpEntries_cons {e : LuaKey × LuaValue} {entries : LuaTable} (he : EntryText lua e)
    (h : ∀ e ∈ entries, EntryText lua e) (idx : Nat) :
    ∃ s, dumpEntries lua (e :: entries) idx = some (true, (if 0 < idx then [44] else []) ++ s) ∧
      (∀ x ∈ s, isFed x = true) ∧ EntriesRead (e :: entries) s := by
  induction entries generalizing e idx with
  | nil =>
    obtain ⟨k, v⟩ := e
    have hset : v.isNil = false := he.set
    obtain ⟨key, value, hkey, hvalue, hfed, hread⟩ := he.read
    refine ⟨key ++ 58 :: value, ?_, hfed, hread⟩
    rw [dumpEntries, hset, hkey, hvalue]
    simp only [Bool.false_eq_true, if_false, Option.bind_eq_bind, Option.bind_some, if_true,
      dumpEntries]
    simp
  | cons e' entries ih =>
    obtain ⟨k, v⟩ := e
    have hset : v.isNil = false := he.set
    obtain ⟨key, value, hkey, hvalue, hfed, hread⟩ := he.read
    obtain ⟨he', hentries⟩ := List.forall_mem_cons.mp h
    obtain ⟨s, hs, hsfed, hrest⟩ := ih he' hentries (idx + 1)
    refine ⟨(key ++ 58 :: value) ++ 44 :: s, ?_, ?_, hread.append hrest⟩
    · rw [dumpEntries, hset, hkey, hvalue]
      simp only [Bool.false_eq_true, if_false, Option.bind_eq_bind, Option.bind_some, if_true, hs,
        Nat.succ_pos]
      simp
    · intro x hx
      rcases List.mem_append.mp hx with hx | hx
      · exact hfed x hx
      rcases List.mem_cons.mp hx with rfl | hx
      · rfl
      · exact hsfed x hx

/-- The text of a table, where an object may begin. -/
theorem dump_table {t : LuaTable} (h : ∀ e ∈ lua.next t, EntryText lua e) :
    ∃ s, jsonParserDumpObject lua (.table t) = some (true, s) ∧ (∀ x ∈ s, isFed x = true) ∧
      ((∀ state stack, stateTransitionTable state .lcurb = .objectBegin →
          ((⟨state, .none, false, 0, stack, []⟩ : JsonParser).run s).2 = none) ∧
          (∃ e ∈ lua.next t, Spoils e) ∨
        ∃ members, List.Forall₂ EntryReread (lua.next t) members ∧
          ∀ state stack, stateTransitionTable state .lcurb = .objectBegin →
            (⟨state, .none, false, 0, stack, []⟩ : JsonParser).run s =
              ((Json.object members).events, some (behind stack))) := by
  have hopen : ∀ state stack, stateTransitionTable state .lcurb = .objectBegin →
      (⟨state, .none, false, 0, stack, []⟩ : JsonParser).step 123 =
        ([.objectBegin], some (atKey .OB stack)) := by
    intro state stack hstate
    rw [step_token (rfl : nextClass 123 = some .lcurb) rfl ⟨by decide, by decide⟩, hstate]
    rfl
  rw [jsonParserDumpObject]
  generalize lua.next t = entries at h ⊢
  cases entries with
  | nil =>
    refine ⟨[123, 125], by rw [dumpEntries]; rfl, by decide +kernel, .inr ⟨[], .nil, ?_⟩⟩
    intro state stack hstate
    rw [run_step (hopen state stack hstate)]
    rfl
  | cons e entries =>
    obtain ⟨he, hentries⟩ := List.forall_mem_cons.mp h
    obtain ⟨s, hs, hfed, hread⟩ := dumpEntries_cons he hentries 0
    refine ⟨123 :: s ++ [125], by rw [hs]; rfl, ?_, ?_⟩
    · intro x hx
      rcases List.mem_append.mp hx with hx | hx
      · rcases List.mem_cons.mp hx with rfl | hx
        · rfl
        · exact hfed x hx
      · rw [List.mem_singleton.mp hx]
        rfl
    · rcases hread with ⟨hnone, hspoils⟩ | ⟨members, hmembers, hrun⟩
      · refine .inl ⟨?_, hspoils⟩
        intro state stack hstate
        rw [List.cons_append, run_step (hopen state stack hstate)]
        exact run_append_none (hnone .OB stack rfl) [125]
      · refine .inr ⟨members, hmembers, ?_⟩
        intro state stack hstate
        obtain ⟨events, jc, rest, hentries, hjc, hevents⟩ := hrun .OB stack rfl
        have hbrace := run_step hjc.brace_step []
        rw [List.cons_append, run_step (hopen state stack hstate), run_append_of hentries, hbrace]
        simp only [run, List.append_nil, Json.events, ← hevents, List.append_assoc]
        rfl

theorem plain_table {t : LuaTable} : (LuaValue.table t).Plain ↔ ∀ e ∈ t, ¬Spoils e := by
  constructor
  · intro h e he hspoils
    rcases hspoils with ⟨s, hkey, hs⟩ | hvalue
    · obtain ⟨k, v⟩ := e
      cases hkey
      exact hs (h s (.key he))
    · exact hvalue fun s hs => h s (.value he hs)
  · intro h s hs
    cases hs with
    | key he =>
      by_contra hs
      exact h _ he (.inl ⟨s, rfl, hs⟩)
    | value he hv =>
      by_contra hs
      exact h _ he (.inr fun hplain => hs (hplain s hv))

theorem same_table {t u : LuaTable} :
    (LuaValue.table t).Same (.table u) ↔ ∀ k, (gettable t k).Same (gettable u k) := by
  constructor
  · intro h
    cases h with
    | refl => exact fun _ => .refl _
    | table h => exact h
  · exact .table

theorem Distinct.gettable_of_mem {t : LuaTable} (h : Distinct t) {e : LuaKey × LuaValue}
    (he : e ∈ t) : gettable t e.1 = e.2 := by
  induction t with
  | nil => cases he
  | cons e₀ t ih =>
    obtain ⟨hkey, ht⟩ := List.nodup_cons.mp h
    rcases List.mem_cons.mp he with rfl | hmem
    · rw [gettable, if_pos rfl]
    · have hne : e₀.1 ≠ e.1 := by
        intro heq
        exact hkey (heq ▸ List.mem_map_of_mem hmem)
      rw [gettable, if_neg hne, ih ht hmem]

theorem entry_of_member {entries : LuaTable} {members : List (List Byte × Json)}
    (h : List.Forall₂ EntryReread entries members) {m : List Byte × Json} (hm : m ∈ members) :
    ∃ e ∈ entries, EntryReread e m := by
  induction h with
  | nil => cases hm
  | cons he _ ih =>
    rcases List.mem_cons.mp hm with rfl | hmem
    · exact ⟨_, List.mem_cons_self, he⟩
    · obtain ⟨e, hin, hread⟩ := ih hmem
      exact ⟨e, List.mem_cons_of_mem _ hin, hread⟩

def PlainKeys (t : LuaTable) : Prop := ∀ e ∈ t, ∀ s, e.1 = .string s → PlainText s

theorem EntryReread.key_eq {e : LuaKey × LuaValue} {m : List Byte × Json} (h : EntryReread e m)
    (hplain : ∀ s, e.1 = .string s → PlainText s) : e.1 = .string m.1 := by
  obtain ⟨s, hkey, hreread⟩ := h.key
  rw [hkey, hreread.eq_iff.mpr (hplain s hkey)]

/-- When the keys come back, each of them holds what its value was read as. -/
theorem gettable_members {entries : LuaTable} {members : List (List Byte × Json)}
    (h : List.Forall₂ EntryReread entries members) (distinct : Distinct entries)
    (hplain : PlainKeys entries) {t : LuaTable} (ht : Distinct t) :
    ∀ e ∈ entries, ∃ m ∈ members, EntryReread e m ∧
      gettable (storeMembers members t) e.1 = m.2.decoded := by
  induction h generalizing t with
  | nil => exact fun e he => absurd he List.not_mem_nil
  | @cons e₀ m₀ entries members he₀ hrest ih =>
    obtain ⟨hkey, hdistinct⟩ := List.nodup_cons.mp distinct
    obtain ⟨hplain₀, hplains⟩ := List.forall_mem_cons.mp hplain
    have hkey₀ := he₀.key_eq hplain₀
    intro e he
    rw [storeMembers]
    rcases List.mem_cons.mp he with rfl | hmem
    · refine ⟨m₀, List.mem_cons_self, he₀, ?_⟩
      rw [gettable_storeMembers_ne, hkey₀, ht.gettable_settable]
      intro m hm
      obtain ⟨e', he', hread⟩ := entry_of_member hrest hm
      rw [← hread.key_eq (hplains e' he')]
      intro heq
      exact hkey (heq ▸ List.mem_map_of_mem he')
    · obtain ⟨m, hm, hread, hget⟩ := ih hdistinct hplains (ht.settable (.string m₀.1) m₀.2.decoded)
        e hmem
      exact ⟨m, List.mem_cons_of_mem _ hm, hread, hget⟩

section

variable {t entries : LuaTable} {members : List (List Byte × Json)}
  (hperm : entries.Perm t) (distinct : Distinct t) (hset : ∀ e ∈ t, e.2.isNil = false)
  (hread : List.Forall₂ EntryReread entries members)

include hperm hread

/-- A key of the table that is one of the object is the text that some key was read as. -/
theorem read_key {s : List Byte} (h : gettable (storeMembers members []) (.string s) ≠ .nil) :
    ∃ e ∈ t, ∃ s', e.1 = .string s' ∧ Reread s' s := by
  by_contra hnone
  apply h
  rw [gettable_storeMembers_ne]
  · rfl
  · intro m hm heq
    cases heq
    obtain ⟨e, he, hm'⟩ := entry_of_member hread hm
    obtain ⟨s', hkey, hreread⟩ := hm'.key
    exact hnone ⟨e, hperm.mem_iff.mp he, s', hkey, hreread⟩

include distinct hset

theorem plainKeys_of_same
    (h : ∀ k, (gettable t k).Same (gettable (storeMembers members []) k)) : PlainKeys t := by
  have hfound : ∀ e ∈ t, ∀ s, e.1 = .string s → ∃ e' ∈ t, ∃ s', e'.1 = .string s' ∧ Reread s' s := by
    intro e he s hkey
    apply read_key hperm hread
    intro hnil
    have hsame := h e.1
    rw [distinct.gettable_of_mem he, hkey, hnil] at hsame
    have hvalue := hset e he
    generalize e.2 = v at hsame hvalue
    cases hsame
    cases hvalue
  have hlow : ∀ e ∈ t, ∀ s, e.1 = .string s → ∀ x ∈ s, x < 0xF0 := by
    intro e he s hkey
    obtain ⟨_, _, _, _, hreread⟩ := hfound e he s hkey
    exact hreread.low
  intro e he s hkey
  obtain ⟨e', he', s', hkey', hreread⟩ := hfound e he s hkey
  have hcut : s = cstr s' := hreread.cut (hlow e' he' s' hkey')
  have hzero : 0 ∉ s := by
    apply cstr_eq_self_iff.mp
    rw [hcut, cstr_cstr]
  intro x hx
  refine ⟨?_, hlow e he s hkey x hx⟩
  rintro rfl
  exact hzero hx

/-- A table equals the object that its entries are read as exactly when it is plain. -/
theorem same_members_iff :
    (LuaValue.table t).Same (Json.object members).decoded ↔ (LuaValue.table t).Plain := by
  have hdistinct : Distinct entries := (hperm.map Prod.fst).nodup_iff.mpr distinct
  have hget : PlainKeys t → ∀ e ∈ t, ∃ m ∈ members, EntryReread e m ∧
      gettable (storeMembers members []) e.1 = m.2.decoded := by
    intro hplain e he
    have hplains : PlainKeys entries := fun e he => hplain e (hperm.mem_iff.mp he)
    have hempty : Distinct [] := List.nodup_nil
    exact gettable_members hread hdistinct hplains hempty e (hperm.mem_iff.mpr he)
  rw [Json.decoded, same_table, plain_table]
  constructor
  · intro hsame e he hspoils
    have hplain := plainKeys_of_same hperm distinct hset hread hsame
    rcases hspoils with ⟨s, hkey, hs⟩ | hvalue
    · exact hs (hplain e he s hkey)
    · obtain ⟨m, _, hm, hstored⟩ := hget hplain e he
      have hboth := hsame e.1
      rw [distinct.gettable_of_mem he, hstored] at hboth
      exact hvalue (hm.value.mp hboth)
  · intro hplain k
    have hkeys : PlainKeys t := by
      intro e he s hkey
      by_contra hs
      exact hplain e he (.inl ⟨s, hkey, hs⟩)
    by_cases hk : ∃ e ∈ t, e.1 = k
    · obtain ⟨e, he, rfl⟩ := hk
      obtain ⟨m, _, hm, hstored⟩ := hget hkeys e he
      rw [distinct.gettable_of_mem he, hstored, hm.value]
      by_contra hvalue
      exact hplain e he (.inr hvalue)
    · have hnone : gettable (storeMembers members []) k = .nil := by
        rw [gettable_storeMembers_ne]
        · rfl
        · intro m hm heq
          obtain ⟨e, he, hm'⟩ := entry_of_member hread hm
          have hmem := hperm.mem_iff.mp he
          exact hk ⟨e, hmem, (hm'.key_eq (hkeys e hmem)).trans heq.symm⟩
      have hmissing : gettable t k = .nil := by
        apply gettable_eq_nil
        intro hmem
        obtain ⟨e, he, hkey⟩ := List.mem_map.mp hmem
        exact hk ⟨e, he, hkey⟩
      rw [hnone, hmissing]
      exact .refl _

end

theorem LuaValue.Encodable.set {v : LuaValue} (h : v.Encodable) : v.isNil = false := by
  cases h <;> rfl

/-- What is written for a table, and what reading it where an object may begin makes of it. -/
structure TableText (lua : Lua) (t : LuaTable) (s : List Byte) : Prop where
  dumped : jsonParserDumpObject lua (.table t) = some (true, s)
  fed : ∀ x ∈ s, isFed x = true
  reread : (∀ state stack, stateTransitionTable state .lcurb = .objectBegin →
        ((⟨state, .none, false, 0, stack, []⟩ : JsonParser).run s).2 = none) ∧
      ¬(LuaValue.table t).Plain ∨
    ∃ members, ((LuaValue.table t).Same (Json.object members).decoded ↔
        (LuaValue.table t).Plain) ∧
      ∀ state stack, stateTransitionTable state .lcurb = .objectBegin →
        (⟨state, .none, false, 0, stack, []⟩ : JsonParser).run s =
          ((Json.object members).events, some (behind stack))

theorem tableText {t : LuaTable} (distinct : Distinct t)
    (keys : ∀ e ∈ t, ∃ s, Utf8.Valid s ∧ e.1 = .string s) (values : ∀ e ∈ t, e.2.Encodable)
    (texts : ∀ e ∈ t, ∃ s, ValueText lua e.2 s) : ∃ s, TableText lua t s := by
  have hperm := lua.next_perm t
  have hset : ∀ e ∈ t, e.2.isNil = false := fun e he => (values e he).set
  have hentries : ∀ e ∈ lua.next t, EntryText lua e := by
    intro e he
    have hmem := hperm.mem_iff.mp he
    exact ⟨keys e hmem, texts e hmem, hset e hmem⟩
  obtain ⟨s, hs, hfed, hread⟩ := dump_table hentries
  refine ⟨s, hs, hfed, ?_⟩
  rcases hread with ⟨hnone, e, he, hspoils⟩ | ⟨members, hmembers, hrun⟩
  · refine .inl ⟨hnone, ?_⟩
    rw [plain_table]
    intro hplain
    exact hplain e (hperm.mem_iff.mp he) hspoils
  · exact .inr ⟨members, same_members_iff hperm distinct hset hmembers, hrun⟩

/-- Every value of the kind is written, and is read as its equal exactly when it is plain. -/
theorem LuaValue.Encodable.text (hlua : lua.PrintsDecimal) {v : LuaValue} (h : v.Encodable) :
    ∃ s, ValueText lua v s := by
  induction h with
  | boolean b => exact valueText_boolean b
  | integer h bound => exact valueText_integer hlua h bound
  | string valid ordinary => exact valueText_string valid ordinary
  | table distinct keys values ih =>
    obtain ⟨s, hs⟩ := tableText distinct keys values ih
    refine ⟨s, hs.dumped, hs.fed, ?_⟩
    rcases hs.reread with ⟨hnone, hplain⟩ | ⟨members, hsame, hrun⟩
    · exact .inl ⟨fun stack => hnone .VA _ rfl, hplain⟩
    · refine .inr ⟨.object members, ?_, hsame⟩
      intro stack
      exact ⟨_, _, [], hrun .VA _ rfl, behind_behind _, List.append_nil _⟩

theorem LuaValue.Encodable.tableText (hlua : lua.PrintsDecimal) {t : LuaTable}
    (h : (LuaValue.table t).Encodable) : ∃ s, TableText lua t s := by
  cases h with
  | table distinct keys values =>
    exact Tnode.tableText distinct keys values fun e he => (values e he).text hlua

/-- Decoding stops at the NUL that ends the text, also when it is cut off there. -/
theorem decode_cstr (L : List LuaValue) (s : List Byte) :
    jsonParserDecode L (cstr s) = jsonParserDecode L s := by
  have hfed : (cstr s).takeWhile isFed = s.takeWhile isFed := by
    rw [cstr, List.takeWhile_takeWhile]
    congr 1
    funext c
    rw [Bool.eq_iff_iff, decide_eq_true_eq]
    constructor
    · exact And.left
    · intro hc
      refine ⟨hc, ?_⟩
      rw [decide_eq_true_eq]
      rintro rfl
      exact absurd hc (by decide)
  rw [jsonParserDecode, jsonParserDecode, hfed]

theorem fed_terminated {s : List Byte} (h : ∀ x ∈ s, isFed x = true) :
    (s ++ [0]).takeWhile isFed = s := by
  rw [List.takeWhile_append_of_pos h]
  simp [isFed]

theorem decode_true {L : List LuaValue} {s : List Byte} {v : LuaValue}
    (h : jsonParserDecode L s = some (true, v :: L)) :
    ∃ d, Spells (s.takeWhile isFed) d ∧ v = d.decoded := by
  by_cases hs : JsonParser.new.Straight (s.takeWhile isFed)
  · rcases decode_cases hs L with ⟨_, d, hd, hdecode⟩ | ⟨_, hfalse⟩
    · rw [hdecode] at h
      cases h
      exact ⟨d, hd, rfl⟩
    · rw [hfalse] at h
      cases h
  · rw [decode_of_stray hs] at h
    cases h

theorem decode_spelled {s : List Byte} {d : Json} (hfed : ∀ x ∈ s, isFed x = true)
    (h : Spells s d) (L : List LuaValue) :
    jsonParserDecode L (s ++ [0]) = some (true, d.decoded :: L) := by
  have htext := fed_terminated hfed
  have hall : s.takeWhile isFed = s := List.takeWhile_eq_self_iff.mpr hfed
  have hs : JsonParser.new.Straight ((s ++ [0]).takeWhile isFed) := by
    have hstraight := h.isJson.straight_fed
    rwa [htext, ← hall]
  rcases decode_cases hs L with ⟨_, d', hd', hdecode⟩ | ⟨hno, _⟩
  · rw [htext] at hd'
    rw [hdecode, h.decoded_eq hd']
  · rw [htext] at hno
    exact absurd h.isJson hno

/-- The value is encoded, the text is accepted, and an equal value is decoded. -/
def ComesBack (lua : Lua) (L : List LuaValue) (v : LuaValue) : Prop :=
  ∃ s v', jsonParserEncode lua v = some (true, s) ∧ jsonParserDecode L s = some (true, v' :: L) ∧
    v.Same v'

section

variable {t : LuaTable} {s : List Byte} (h : TableText lua t s)

include h

theorem TableText.encode : jsonParserEncode lua (.table t) = some (true, s ++ [0]) := by
  rw [jsonParserEncode, h.dumped]
  rfl

theorem TableText.plain {L : List LuaValue} (hback : ComesBack lua L (.table t)) :
    (LuaValue.table t).Plain := by
  obtain ⟨s', v, hencode, hdecode, hsame⟩ := hback
  rw [h.encode] at hencode
  cases hencode
  obtain ⟨d, hd, rfl⟩ := decode_true hdecode
  rw [fed_terminated h.fed] at hd
  rcases h.reread with ⟨hnone, _⟩ | ⟨members, hiff, hrun⟩
  · obtain ⟨jc, hjc, _⟩ := isJson_iff.mp hd.isJson
    have hnew : (JsonParser.new.run s).2 = none := hnone .GO [.done] rfl
    rw [hnew] at hjc
    cases hjc
  · have hspells : Spells s (.object members) :=
      spells_iff.mpr ⟨trivial, _, hrun .GO [.done] rfl, rfl⟩
    rw [hd.decoded_eq hspells] at hsame
    exact hiff.mp hsame

theorem TableText.comesBack (hplain : (LuaValue.table t).Plain) (L : List LuaValue) :
    ComesBack lua L (.table t) := by
  rcases h.reread with ⟨_, hno⟩ | ⟨members, hiff, hrun⟩
  · exact absurd hplain hno
  · have hspells : Spells s (.object members) :=
      spells_iff.mpr ⟨trivial, _, hrun .GO [.done] rfl, rfl⟩
    exact ⟨_, _, h.encode, decode_spelled h.fed hspells L, hiff.mpr hplain⟩

end

/-- A table of the kind comes back from its text exactly when it is plain. -/
theorem comes_back_iff (hlua : lua.PrintsDecimal) {t : LuaTable}
    (h : (LuaValue.table t).Encodable) (L : List LuaValue) :
    ComesBack lua L (.table t) ↔ (LuaValue.table t).Plain := by
  obtain ⟨s, hs⟩ := h.tableText hlua
  constructor
  · exact hs.plain
  · intro hplain
    exact hs.comesBack hplain L

/-- An interpreter that visits a table in its order and prints a number as an integer. -/
def decimalLua : Lua where
  next := id
  next_perm := fun t => List.Perm.refl t
  num2str := fun x => match x with
    | .finite q _ => decimal q.num
    | _ => []
  strscan := fun _ => none

theorem decimalLua_prints : decimalLua.PrintsDecimal := fun _ _ _ => rfl

theorem encodable_single {s : List Byte} (valid : Utf8.Valid s)
    (ordinary : ¬bytes "function" <+: s) :
    (LuaValue.table [(.string (bytes "a"), .string s)]).Encodable := by
  apply LuaValue.Encodable.table
  · exact List.nodup_singleton _
  · intro e he
    rw [List.mem_singleton.mp he]
    exact ⟨_, ⟨['a'], by decide +kernel⟩, rfl⟩
  · intro e he
    rw [List.mem_singleton.mp he]
    exact .string valid ordinary

/-- U+1F600 is written as U+0001 and U+F600. -/
theorem comes_back_other : ∃ lua : Lua, lua.PrintsDecimal ∧
    (LuaValue.table [(.string (bytes "a"), .string (bytes "😀"))]).Encodable ∧
    ¬ComesBack lua [] (.table [(.string (bytes "a"), .string (bytes "😀"))]) := by
  have hencodable := encodable_single (s := bytes "😀") ⟨['😀'], by decide +kernel⟩ (by decide)
  obtain ⟨s, hs⟩ := hencodable.tableText decimalLua_prints
  refine ⟨decimalLua, decimalLua_prints, hencodable, ?_⟩
  intro hback
  have hplain := hs.plain hback _ (.value List.mem_cons_self .string)
  exact absurd (hplain 0xF0 (by decide)).2 (by decide)

theorem comes_back_nested : ComesBack decimalLua []
      (.table [(.string (bytes "a"), .table [(.string (bytes "a"), .string (bytes "é"))])]) ↔
    (LuaValue.table
      [(.string (bytes "a"), .table [(.string (bytes "a"), .string (bytes "é"))])]).Plain := by
  refine comes_back_iff decimalLua_prints ?_ []
  apply LuaValue.Encodable.table
  · exact List.nodup_singleton _
  · intro e he
    rw [List.mem_singleton.mp he]
    exact ⟨_, ⟨['a'], by decide +kernel⟩, rfl⟩
  · intro e he
    rw [List.mem_singleton.mp he]
    exact encodable_single ⟨['é'], by decide +kernel⟩ (by decide)

end Tnode
