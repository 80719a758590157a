import Tnode.JsonDecimal
import Tnode.JsonMeaning

namespace Tnode

open JsonParser FloatFormat

/-- `lua_tolstring` prints the integers of less than fifteen digits in plain decimal. -/
def Lua.PrintsDecimal (lua : Lua) : Prop :=
  ∀ (n : Int) (h : binary64.Representable n), |n| < 10 ^ 14 →
    lua.num2str (.finite n h) = decimal n

/-- Tables with string keys, strings, booleans and integers; every text is UTF-8, and no string
is one that the encoder writes for a function. -/
inductive LuaValue.Encodable : LuaValue → Prop
  | boolean (b : Bool) : Encodable (.boolean b)
  | integer {n : Int} (h : binary64.Representable n) (bound : |n| < 10 ^ 14) :
    Encodable (.number (.finite n h))
  | string {s : List Byte} (valid : Utf8.Valid s) (ordinary : ¬bytes "function" <+: s) :
    Encodable (.string s)
  | table {t : LuaTable} (distinct : Distinct t)
    (keys : ∀ e ∈ t, ∃ s, Utf8.Valid s ∧ e.1 = .string s) (values : ∀ e ∈ t, Encodable e.2) :
    Encodable (.table t)

/-- `s` is a string or a key in the value, at any depth. -/
inductive LuaValue.HasText : LuaValue → List Byte → Prop
  | string {s : List Byte} : HasText (.string s) s
  | key {t : LuaTable} {s : List Byte} {v : LuaValue} (h : (.string s, v) ∈ t) :
    HasText (.table t) s
  | value {t : LuaTable} {s : List Byte} {k : LuaKey} {v : LuaValue} (h : (k, v) ∈ t)
    (hv : HasText v s) : HasText (.table t) s

/-- No string and no key in the value has a NUL or a character above U+FFFF. -/
def LuaValue.Plain (v : LuaValue) : Prop := ∀ s, v.HasText s → PlainText s

/-- Two values are equal when they are not tables; tables are when they hold equal values under
every key. -/
inductive LuaValue.Same : LuaValue → LuaValue → Prop
  | refl (v : LuaValue) : Same v v
  | table {t u : LuaTable} (h : ∀ k, Same (gettable t k) (gettable u k)) : Same (.table t) (.table u)

/-- The text `s` is read as the document `d` behind a key. -/
def Writes (s : List Byte) (d : Json) : Prop :=
  ∀ stack, ∃ events jc rest, (ready (.object :: stack)).run s = (events, some jc) ∧
    jc.Behind (.object :: stack) rest ∧ events ++ rest = d.events

def Stops (s : List Byte) : Prop := ∀ stack, ((ready (.object :: stack)).run s).2 = none

/-- What is written for a value, and what reading it again makes of it, with stacks of Lua that are
deep enough for both. -/
structure ValueText (lua : Lua) (v : LuaValue) (s : List Byte) : Prop where
  dumped : jsonParserDumpObject lua v = some (true, s)
  fed : ∀ x ∈ s, isFed x = true
  reread : Stops s ∧ ¬v.Plain ∨ ∃ d, Writes s d ∧ (v.Same d.decoded ↔ v.Plain)

/-- What is written for an entry of a table. -/
structure EntryText (lua : Lua) (e : LuaKey × LuaValue) : Prop where
  key : ∃ s, Utf8.Valid s ∧ e.1 = .string s
  value : ∃ s, ValueText lua e.2 s
  set : e.2.isNil = false

/-- An entry of a table and the member that it is read as. -/
structure EntryReread (e : LuaKey × LuaValue) (m : List Byte × Json) : Prop where
  key : ∃ s, e.1 = .string s ∧ Reread s m.1
  value : e.2.Same m.2.decoded ↔ e.2.Plain

/-- A table with the entry is not plain. -/
def Spoils (e : LuaKey × LuaValue) : Prop := (∃ s, e.1 = .string s ∧ ¬PlainText s) ∨ ¬e.2.Plain

theorem Escapes.literal {s e : List Byte} (h : Escapes s e) :
    createJsonEscapes s = some (34 :: e ++ [34]) := by
  rw [createJsonEscapes, h.escaped]
  rfl

theorem Escapes.literal_fed {s e : List Byte} (h : Escapes s e) :
    ∀ x ∈ 34 :: e ++ [34], isFed x = true := by
  intro x hx
  rcases List.mem_append.mp hx with hx | hx
  · rcases List.mem_cons.mp hx with rfl | hx
    · rfl
    · exact h.fed x hx
  · rw [List.mem_singleton.mp hx]
    rfl

theorem not_plainText {s : List Byte} (h : ∃ x ∈ s, 0xF0 ≤ x) : ¬PlainText s := by
  obtain ⟨x, hx, hhigh⟩ := h
  intro hs
  exact absurd (hs x hx).2 (UInt8.not_lt.mpr hhigh)

namespace JsonParser

/-- The parser where a key is to come. -/
def atKey (state : JsonState) (stack : List JsonMode) : JsonParser :=
  ⟨state, .none, false, 0, .key :: stack, []⟩

/-- The parser behind a value that has been reported. -/
def behind (stack : List JsonMode) : JsonParser := ⟨.OK, .none, false, 0, stack, []⟩

theorem behind_behind (stack : List JsonMode) : (behind stack).Behind stack [] :=
  ⟨rfl, rfl, rfl, rfl, rfl, rfl⟩

theorem popBack_pushBack (jc : JsonParser) (c : Byte) : (jc.pushBack c).popBack = jc := by
  simp [popBack, pushBack]

theorem run_step {jc jc' : JsonParser} {c : Byte} {events : List JsonEvent}
    (h : jc.step c = (events, some jc')) (s : List Byte) :
    jc.run (c :: s) = (events ++ (jc'.run s).1, (jc'.run s).2) := by
  rw [run, h]

/-- The quote that begins a string. -/
theorem run_quote {state : JsonState} (h : stateTransitionTable state .quote = .SB)
    (stack : List JsonMode) (s : List Byte) :
    (⟨state, .none, false, 0, stack, []⟩ : JsonParser).run (34 :: s) = (inString stack []).run s := by
  have hstep : (⟨state, .none, false, 0, stack, []⟩ : JsonParser).step 34 =
      ([], some (inString stack [])) := by
    rw [step_token (rfl : nextClass 34 = some .quote) rfl ⟨by decide, by decide⟩, h]
    rfl
  rw [run_step hstep]
  rfl

theorem endKey (stack : List JsonMode) (b : List Byte) :
    (inString (.key :: stack) b).step 34 =
      ([.key b], some ⟨.CO, .none, false, 0, .key :: stack, []⟩) := by
  rw [step_token (rfl : nextClass 34 = some .quote) rfl ⟨by decide, by decide⟩]
  have hbuffer : ((inString (.key :: stack) b).pushBack 34).popBack = inString (.key :: stack) b :=
    popBack_pushBack _ _
  simp only [inString, stateTransitionTable, plan, pushBack] at hbuffer ⊢
  rw [hbuffer]
  rfl

theorem endString (stack : List JsonMode) (b : List Byte) :
    (inString (.object :: stack) b).step 34 = ([.string b], some (behind (.object :: stack))) := by
  rw [step_token (rfl : nextClass 34 = some .quote) rfl ⟨by decide, by decide⟩]
  have hbuffer : ((inString (.object :: stack) b).pushBack 34).popBack =
      inString (.object :: stack) b := popBack_pushBack _ _
  simp only [inString, stateTransitionTable, plan, pushBack] at hbuffer ⊢
  rw [hbuffer]
  rfl

theorem colon_step (stack : List JsonMode) :
    (⟨.CO, .none, false, 0, .key :: stack, []⟩ : JsonParser).step 58 =
      ([], some (ready (.object :: stack))) := by
  rw [step_token (rfl : nextClass 58 = some .colon) rfl ⟨by decide, by decide⟩]
  rfl

section

variable {jc : JsonParser} {stack : List JsonMode} {rest : List JsonEvent}

theorem Behind.comma_step (h : jc.Behind (.object :: stack) rest) :
    jc.step 44 = (rest, some (atKey .KE stack)) := by
  have hpending : (jc.pushBack 44).popBack.pending.toList = rest := by
    rw [popBack_pushBack, h.pending_eq]
  have hstack : (jc.pushBack 44).stack = .object :: stack := h.stack_eq
  have hclear : (jc.pushBack 44).clear = { jc with parseBuffer := [] } := rfl
  rw [step_token (rfl : nextClass 44 = some .comma) h.escaped ⟨by decide, by decide⟩,
    h.comma, plan, hpending, hstack, hclear, h.escaped, h.surrogate]
  rfl

theorem Behind.brace_step (h : jc.Behind (.object :: stack) rest) :
    jc.step 125 = (rest ++ [.objectEnd], some (behind stack)) := by
  have hpending : (jc.pushBack 125).popBack.pending.toList = rest := by
    rw [popBack_pushBack, h.pending_eq]
  have hpop : (jc.pushBack 125).clear.pop .object = some { jc with stack, parseBuffer := [] } := by
    simp [pop, clear, pushBack, h.stack_eq]
  rw [step_token (rfl : nextClass 125 = some .rcurb) h.escaped ⟨by decide, by decide⟩,
    h.brace, plan, hpending, hpop, h.escaped, h.surrogate]
  rfl

end

theorem run_literal {e b : List Byte} (h : ReadsAs e b) (stack : List JsonMode) (s : List Byte) :
    (inString stack []).run (e ++ 34 :: s) = (inString stack b).run (34 :: s) :=
  h.run_append stack [] (34 :: s)

/-- A key, its colon and what comes behind. -/
theorem run_key {state : JsonState} (hstate : stateTransitionTable state .quote = .SB)
    {e b : List Byte} (h : ReadsAs e b) (stack : List JsonMode) (s : List Byte) :
    (atKey state stack).run (34 :: e ++ [34] ++ 58 :: s) =
      (.key b :: ((ready (.object :: stack)).run s).1, ((ready (.object :: stack)).run s).2) := by
  have hquote := run_quote hstate (.key :: stack) (e ++ 34 :: 58 :: s)
  have hend := run_step (endKey stack b) (58 :: s)
  have hcolon := run_step (colon_step stack) s
  rw [hcolon] at hend
  rw [run_literal h, hend] at hquote
  simpa [atKey] using hquote

theorem run_quote_refused {state : JsonState} (hstate : stateTransitionTable state .quote = .SB)
    {e : List Byte} (h : Refuses e) (stack : List JsonMode) (s : List Byte) :
    ((⟨state, .none, false, 0, stack, []⟩ : JsonParser).run (34 :: e ++ [34] ++ s)).2 = none := by
  have hnone := run_append_none (h stack []) s
  rw [List.append_assoc, List.cons_append, run_quote hstate, ← List.append_assoc]
  exact hnone

end JsonParser

section

variable {lua : Lua}

theorem LuaValue.HasText.string_eq {s s' : List Byte} (h : (LuaValue.string s).HasText s') :
    s' = s := by
  cases h
  rfl

theorem plain_string {s : List Byte} : (LuaValue.string s).Plain ↔ PlainText s := by
  constructor
  · intro h
    exact h s .string
  · intro h s' hs'
    rwa [hs'.string_eq]

theorem LuaValue.Same.eq_of_string {s : List Byte} {v : LuaValue}
    (h : (LuaValue.string s).Same v) : v = .string s := by
  cases h
  rfl

/-- What a string is read as, if it is read. -/
theorem same_special {s b : List Byte} (ordinary : ¬bytes "function" <+: s) (h : Reread s b) :
    (LuaValue.string s).Same (jsonParserSpecialType b) ↔ (LuaValue.string s).Plain := by
  rw [plain_string, ← h.eq_iff]
  constructor
  · intro hsame
    have hspecial : jsonParserSpecialType b = .string s := hsame.eq_of_string
    unfold jsonParserSpecialType at hspecial
    split at hspecial
    next =>
      split at hspecial
      next =>
        split at hspecial
        next => cases hspecial
        next => exact LuaValue.string.inj hspecial
      next => exact LuaValue.string.inj hspecial
    next => exact LuaValue.string.inj hspecial
  · rintro rfl
    rw [jsonParserSpecialType, if_neg ordinary]
    exact .refl _

theorem valueText_string {s : List Byte} (valid : Utf8.Valid s)
    (ordinary : ¬bytes "function" <+: s) : ∃ t, ValueText lua (.string s) t := by
  obtain ⟨cs, rfl⟩ := valid
  obtain ⟨e, he⟩ := escapes_utf8 cs
  refine ⟨34 :: e ++ [34], ?_, he.literal_fed, ?_⟩
  · rw [jsonParserDumpObject, he.literal]
    rfl
  · rcases he.reread with ⟨hhigh, hrefuses⟩ | ⟨b, hb, hreread⟩
    · refine .inl ⟨?_, ?_⟩
      · intro stack
        have hnone := run_quote_refused (rfl : stateTransitionTable .VA .quote = .SB) hrefuses
          (.object :: stack) []
        rwa [List.append_nil] at hnone
      · rw [plain_string]
        exact not_plainText hhigh
    · refine .inr ⟨.string b, ?_, same_special ordinary hreread⟩
      intro stack
      have hquote := run_quote (rfl : stateTransitionTable .VA .quote = .SB) (.object :: stack)
        (e ++ [34])
      have hend := run_step (endString stack b) []
      rw [run_literal hb, hend] at hquote
      exact ⟨_, _, [], hquote, behind_behind _, rfl⟩

theorem valueText_boolean (b : Bool) : ∃ s, ValueText lua (.boolean b) s := by
  have hplain : (LuaValue.boolean b).Plain := by
    intro s hs
    cases hs
  have hsame : (LuaValue.boolean b).Same (Json.boolean b).decoded := by
    rw [Json.decoded]
    exact .refl _
  refine ⟨_, by rw [jsonParserDumpObject], ?_, .inr ⟨.boolean b, ?_, iff_of_true hsame hplain⟩⟩
  · cases b <;> decide +kernel
  · intro stack
    cases b with
    | true => exact ⟨[], _, [.true], rfl, ⟨rfl, rfl, rfl, rfl, rfl, rfl⟩, rfl⟩
    | false => exact ⟨[], _, [.false], rfl, ⟨rfl, rfl, rfl, rfl, rfl, rfl⟩, rfl⟩

theorem valueText_integer (hlua : lua.PrintsDecimal) {n : Int} (h : binary64.Representable n)
    (bound : |n| < 10 ^ 14) : ∃ s, ValueText lua (.number (.finite n h)) s := by
  have hplain : (LuaValue.number (.finite n h)).Plain := by
    intro s hs
    cases hs
  have hsame : (LuaValue.number (.finite n h)).Same (Json.integer n).decoded := by
    have hbound := abs_lt.mp bound
    rw [Json.decoded, pushinteger_of_representable (by omega) h]
    exact .refl _
  refine ⟨decimal n, ?_, decimal_fed n, .inr ⟨.integer n, ?_, iff_of_true hsame hplain⟩⟩
  · rw [jsonParserDumpObject, hlua n h bound]
  · intro stack
    obtain ⟨jc, hrun, hbehind⟩ := run_decimal bound (.object :: stack)
    exact ⟨[], jc, [.integer n], hrun, hbehind, rfl⟩

/-- What reading the text of entries gives, where the key of the first is to come. -/
def EntriesRead (entries : LuaTable) (s : List Byte) : Prop :=
  (∀ state stack, stateTransitionTable state .quote = .SB → ((atKey state stack).run s).2 = none) ∧
      (∃ e ∈ entries, Spoils e) ∨
    ∃ members, List.Forall₂ EntryReread entries members ∧
      ∀ state stack, stateTransitionTable state .quote = .SB →
        ∃ events jc rest, (atKey state stack).run s = (events, some jc) ∧
          jc.Behind (.object :: stack) rest ∧ events ++ rest = memberEvents members

theorem EntriesRead.append {entries entries' : LuaTable} {s s' : List Byte}
    (h : EntriesRead entries s) (h' : EntriesRead entries' s') :
    EntriesRead (entries ++ entries') (s ++ 44 :: s') := by
  rcases h with ⟨hnone, e, he, hspoils⟩ | ⟨members, hmembers, hrun⟩
  · refine .inl ⟨?_, e, List.mem_append_left _ he, hspoils⟩
    intro state stack hstate
    exact run_append_none (hnone state stack hstate) _
  rcases h' with ⟨hnone, e, he, hspoils⟩ | ⟨members', hmembers', hrun'⟩
  · refine .inl ⟨?_, e, List.mem_append_right _ he, hspoils⟩
    intro state stack hstate
    obtain ⟨events, jc, rest, hfirst, hjc, _⟩ := hrun state stack hstate
    rw [run_append_of hfirst, run_step hjc.comma_step]
    exact hnone .KE stack rfl
  · refine .inr ⟨members ++ members', List.rel_append hmembers hmembers', ?_⟩
    intro state stack hstate
    obtain ⟨events, jc, rest, hfirst, hjc, hevents⟩ := hrun state stack hstate
    obtain ⟨events', jc', rest', hmore, hjc', hevents'⟩ := hrun' .KE stack rfl
    refine ⟨events ++ (rest ++ events'), jc', rest', ?_, hjc', ?_⟩
    · rw [run_append_of hfirst, run_step hjc.comma_step, hmore]
    · rw [memberEvents_append, ← hevents, ← hevents']
      simp only [List.append_assoc]

/-- The text of an entry: its key, a colon and its value. -/
theorem EntryText.read {e : LuaKey × LuaValue} (h : EntryText lua e) :
    ∃ key value, createJsonEscapes (lua.keyText e.1) = some key ∧
      jsonParserDumpObject lua e.2 = some (true, value) ∧
      (∀ x ∈ key ++ 58 :: value, isFed x = true) ∧ EntriesRead [e] (key ++ 58 :: value) := by
  obtain ⟨s, ⟨cs, rfl⟩, hkey⟩ := h.key
  obtain ⟨value, hvalue⟩ := h.value
  obtain ⟨e', he'⟩ := escapes_utf8 cs
  refine ⟨34 :: e' ++ [34], value, ?_, hvalue.dumped, ?_, ?_⟩
  · rw [hkey]
    exact he'.literal
  · intro x hx
    rcases List.mem_append.mp hx with hx | hx
    · exact he'.literal_fed x hx
    · rcases List.mem_cons.mp hx with rfl | hx
      · rfl
      · exact hvalue.fed x hx
  · rcases he'.reread with ⟨hhigh, hrefuses⟩ | ⟨b, hb, hreread⟩
    · refine .inl ⟨?_, e, List.mem_cons_self, .inl ⟨_, hkey, not_plainText hhigh⟩⟩
      intro state stack hstate
      exact run_quote_refused hstate hrefuses (.key :: stack) (58 :: value)
    · rcases hvalue.reread with ⟨hstops, hplain⟩ | ⟨d, hwrites, hsame⟩
      · refine .inl ⟨?_, e, List.mem_cons_self, .inr hplain⟩
        intro state stack hstate
        rw [run_key hstate hb]
        exact hstops stack
      · refine .inr ⟨[(b, d)], .cons ⟨⟨_, hkey, hreread⟩, hsame⟩ .nil, ?_⟩
        intro state stack hstate
        obtain ⟨events, jc, rest, hrun, hbehind, hevents⟩ := hwrites stack
        refine ⟨.key b :: events, jc, rest, ?_, hbehind, ?_⟩
        · rw [run_key hstate hb, hrun]
        · rw [List.cons_append, hevents, memberEvents, memberEvents, List.append_nil]

end

end Tnode
