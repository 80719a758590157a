import Tnode.JsonContexts

namespace Tnode

/-- `lua_settop`. -/
def settop (n : Nat) (L : List LuaValue) : List LuaValue :=
  List.replicate (n - L.length) .nil ++ L.drop (L.length - n)

/-- The loop of `luaT_json_parser_decode` goes on at a `char` above zero. -/
def isFed (c : Byte) : Bool := 0 < c && c < 128

/-- `luaT_json_parser_decode` on a stack of the interpreter, which has no bound here: what it
returns and the stack it leaves; `none` is undefined behaviour. -/
def jsonParserDecode (L : List LuaValue) (jsonstr : List Byte) : Option (Bool × List LuaValue) :=
  match JsonParser.new.feed jsonParserCb (.create L) (jsonstr.takeWhile isFed) with
  | some (some jc, ctx) =>
    if jc.done then some (true, ctx.L) else some (false, settop L.length ctx.L)
  | some (none, ctx) => some (false, settop L.length ctx.L)
  | none => none

theorem settop_of_suffix {L L' : List LuaValue} (h : L <:+ L') : settop L.length L' = L := by
  obtain ⟨l, rfl⟩ := h
  simp [settop]

namespace JsonParser

theorem Fits.done {jc : JsonParser} {p : JsonPrefix} (h : jc.Fits p) (hdone : jc.done = true) :
    ∃ d : Json, d.IsContainer ∧ p = .complete d := by
  obtain ⟨phase, hphase, hfits⟩ := h
  rw [JsonParser.done, Bool.and_eq_true, decide_eq_true_eq] at hdone
  obtain ⟨jc', hpop⟩ := Option.isSome_iff_exists.mp hdone.2
  obtain ⟨stack, hstack, _⟩ := pop_eq_some hpop
  rw [hstack] at hfits
  rw [hdone.1] at hphase
  cases hfits with
  | start => cases ht : jc.type <;> rw [ht] at hphase <;> cases hphase
  | complete hd => exact ⟨_, hd, rfl⟩

theorem run_append (jc : JsonParser) (s s' : List Byte) :
    (jc.run (s ++ s')).2 = (jc.run s).2.bind fun jc => (jc.run s').2 := by
  induction s generalizing jc with
  | nil => rfl
  | cons c s ih =>
    rw [List.cons_append, run, run]
    rcases jc.step c with ⟨events, _ | jc'⟩
    · rfl
    · exact ih jc'

end JsonParser

/-- The callback that is not there. -/
def nullCallback (_ : Unit) (_ : JsonEvent) : Option (Bool × Unit) := some (true, ())

/-- `JSON_parser_char` and `JSON_parser_done` accept the bytes when there is no callback. -/
def IsJson (s : List Byte) : Prop :=
  ∃ jc, JsonParser.new.feed nullCallback () s = some (some jc, ()) ∧ jc.done = true

/-- They accept the bytes, and every call of the callback returned non-zero. -/
def Accepted (L : List LuaValue) (s : List Byte) : Prop :=
  ∃ jc ctx, JsonParser.new.feed jsonParserCb (.create L) s = some (some jc, ctx) ∧ jc.done = true

/-- The callback that collects what is reported. -/
def collectEvent (events : List JsonEvent) (event : JsonEvent) : Option (Bool × List JsonEvent) :=
  some (true, events ++ [event])

/-- The bytes are accepted, and the parser reports the document `d`. -/
def Spells (s : List Byte) (d : Json) : Prop :=
  d.IsContainer ∧
    ∃ jc, JsonParser.new.feed collectEvent [] s = some (some jc, d.events) ∧ jc.done = true

theorem reportAll_nullCallback (events : List JsonEvent) :
    reportAll nullCallback () events = some (true, ()) := by
  induction events with
  | nil => rfl
  | cons event events ih => exact ih

theorem isJson_iff {s : List Byte} :
    IsJson s ↔ ∃ jc, (JsonParser.new.run s).2 = some jc ∧ jc.done = true := by
  simp [IsJson, feed_eq, reportAll_nullCallback, settle]

theorem accepted_iff {L : List LuaValue} {s : List Byte} : Accepted L s ↔ IsJson s := by
  rw [isJson_iff]
  constructor
  · rintro ⟨jc, ctx, hfeed, hdone⟩
    refine ⟨jc, ?_, hdone⟩
    rw [feed_eq] at hfeed
    cases hr : reportAll jsonParserCb (.create L) (JsonParser.new.run s).1 with
    | none =>
      rw [hr] at hfeed
      cases hfeed
    | some r =>
      obtain ⟨b, ctx'⟩ := r
      rw [hr] at hfeed
      cases b with
      | false => cases hfeed
      | true => exact (Prod.mk.inj (Option.some.inj hfeed)).1
  · rintro ⟨jc, hrun, hdone⟩
    have hs := JsonParser.new_fits.straight hrun
    obtain ⟨ctx, hfeed, _⟩ := JsonParser.new_fits.feed_straight hs L
    exact ⟨jc, ctx, by rw [← hrun]; exact hfeed, hdone⟩

theorem reportAll_collectEvent (events events' : List JsonEvent) :
    reportAll collectEvent events events' = some (true, events ++ events') := by
  induction events' generalizing events with
  | nil => rw [reportAll, List.append_nil]
  | cons event events' ih =>
    rw [reportAll, collectEvent]
    simp only
    rw [ih, List.append_assoc, List.singleton_append]

theorem spells_iff {s : List Byte} {d : Json} :
    Spells s d ↔ d.IsContainer ∧
      ∃ jc, JsonParser.new.run s = (d.events, some jc) ∧ jc.done = true := by
  simp only [Spells, feed_eq, reportAll_collectEvent, settle, List.nil_append, Option.some.injEq,
    Prod.mk.injEq]
  constructor
  · rintro ⟨hd, jc, ⟨hrun, hevents⟩, hdone⟩
    exact ⟨hd, jc, Prod.ext hevents hrun, hdone⟩
  · rintro ⟨hd, jc, hrun, hdone⟩
    exact ⟨hd, jc, by rw [hrun]; exact ⟨rfl, rfl⟩, hdone⟩

/-- What decoding does when no stray bracket is fed. -/
theorem decode_cases {s : List Byte} (hs : JsonParser.new.Straight (s.takeWhile isFed))
    (L : List LuaValue) :
    (IsJson (s.takeWhile isFed) ∧ ∃ d, Spells (s.takeWhile isFed) d ∧
        jsonParserDecode L s = some (true, d.decoded :: L)) ∨
      (¬IsJson (s.takeWhile isFed) ∧ jsonParserDecode L s = some (false, L)) := by
  obtain ⟨ctx, hfeed, hsuffix, hfits⟩ := JsonParser.new_fits.feed_straight hs L
  change JsonParser.new.feed jsonParserCb (.create L) (s.takeWhile isFed) = _ at hfeed
  have hfalse : settop L.length ctx.L = L := settop_of_suffix hsuffix
  rcases hrun : JsonParser.new.run (s.takeWhile isFed) with ⟨events, _ | jc⟩
  · refine .inr ⟨?_, ?_⟩
    · rw [isJson_iff, hrun]
      simp
    · rw [jsonParserDecode, hfeed, hrun]
      simp only [hfalse]
  · cases hdone : jc.done with
    | false =>
      refine .inr ⟨?_, ?_⟩
      · rw [isJson_iff, hrun]
        simp [hdone]
      · rw [jsonParserDecode, hfeed, hrun]
        simp [hdone, hfalse]
    | true =>
      obtain ⟨p, hevents, hp, rfl⟩ := hfits jc (by rw [hrun])
      obtain ⟨d, hd, rfl⟩ := hp.done hdone
      have hspells : Spells (s.takeWhile isFed) d := by
        rw [spells_iff]
        refine ⟨hd, jc, ?_, hdone⟩
        rw [hrun] at hevents ⊢
        rw [show d.events = events from hevents]
      refine .inl ⟨isJson_iff.mpr ⟨jc, by rw [hrun], hdone⟩, d, hspells, ?_⟩
      rw [jsonParserDecode, hfeed, hrun]
      simp [hdone, JsonPrefix.ctx]

theorem decode_of_stray {s : List Byte} (hs : ¬JsonParser.new.Straight (s.takeWhile isFed))
    (L : List LuaValue) : jsonParserDecode L s = none := by
  have hfeed := (JsonParser.new_fits.feed_stray hs L).1
  change JsonParser.new.feed jsonParserCb (.create L) (s.takeWhile isFed) = _ at hfeed
  rw [jsonParserDecode, hfeed]

theorem nextClass_of_unfed {c : Byte} (hc : isFed c = false) :
    nextClass c = none ∨ nextClass c = some .etc := by
  by_cases hhigh : 128 ≤ c
  · exact .inr (if_pos hhigh)
  · have hzero : c = 0 := by
      simp only [isFed, Bool.and_eq_false_iff, decide_eq_false_iff_not] at hc
      rcases hc with hc | hc
      · exact UInt8.not_lt.mp hc |> fun h => UInt8.le_antisymm h (UInt8.zero_le)
      · exact absurd (UInt8.not_lt.mp hc) hhigh
    subst hzero
    exact .inl (by decide)

theorem unfed_rejected {jc : JsonParser} (hstate : jc.state = .OK) {c : Byte}
    (hc : isFed c = false) : (jc.step c).2 = none := by
  unfold JsonParser.step
  rcases nextClass_of_unfed hc with hclass | hclass
  · rw [hclass]
  · rw [hclass]
    simp only
    cases hadd : jc.addChar c .etc with
    | none => rfl
    | some jc' =>
      have hstate' : jc'.state = .OK := (JsonParser.addChar_frame hadd).1.trans hstate
      simp only [hstate']
      rfl

/-- Behind a complete document nothing is accepted that the loop does not feed. -/
theorem not_isJson_of_unfed {s : List Byte} (h : IsJson (s.takeWhile isFed))
    (hne : s.takeWhile isFed ≠ s) : ¬IsJson s := by
  obtain ⟨jc, hrun, hdone⟩ := isJson_iff.mp h
  have hstate : jc.state = .OK := by
    rw [JsonParser.done, Bool.and_eq_true, decide_eq_true_eq] at hdone
    exact hdone.1
  cases hrest : s.dropWhile isFed with
  | nil =>
    have happend := List.takeWhile_append_dropWhile (p := isFed) (l := s)
    rw [hrest, List.append_nil] at happend
    exact absurd happend hne
  | cons c s' =>
    have hc : isFed c = false := by
      have := List.head_dropWhile_not isFed (l := s) (by simp [hrest])
      simpa [hrest] using this
    have hstep : (jc.step c).2 = none := unfed_rejected hstate hc
    intro hjson
    obtain ⟨jc', hrun', _⟩ := isJson_iff.mp hjson
    rw [← List.takeWhile_append_dropWhile (p := isFed) (l := s), JsonParser.run_append, hrun, hrest,
      Option.bind_some, JsonParser.run] at hrun'
    rcases hjc : jc.step c with ⟨events, r⟩
    rw [hjc] at hstep hrun'
    cases hstep
    cases hrun'

/-- `luaT_json_parser_decode` returns true exactly on the accepted texts, with one more value on
the stack, and leaves the stack alone on the others. -/
def DecodeAgrees (L : List LuaValue) (s : List Byte) : Prop :=
  ∃ r L', jsonParserDecode L s = some (r, L') ∧ (r = true ↔ Accepted L s) ∧
    (r = true → ∃ v, L' = v :: L) ∧ (r = false → L' = L)

/-- Where the callback is called for a stray bracket, a `]` with no array open that the table does not
reject or a bracket behind the document, its behaviour is undefined. -/
theorem decode_agrees_iff (L : List LuaValue) (s : List Byte) :
    DecodeAgrees L s ↔ JsonParser.new.Straight (s.takeWhile isFed) ∧
      (s.takeWhile isFed = s ∨ ¬IsJson (s.takeWhile isFed) ∧ ¬IsJson s) := by
  unfold DecodeAgrees
  rw [accepted_iff]
  by_cases hs : JsonParser.new.Straight (s.takeWhile isFed)
  · rcases decode_cases hs L with ⟨hjson, d, _, hdecode⟩ | ⟨hjson, hdecode⟩
    · simp only [hdecode, Option.some.injEq, Prod.mk.injEq, hs, true_and, hjson, not_true_eq_false,
        false_and, or_false]
      constructor
      · rintro ⟨r, L', ⟨rfl, rfl⟩, hiff, _⟩
        by_contra hne
        exact not_isJson_of_unfed hjson hne (hiff.mp rfl)
      · intro heq
        rw [heq] at hjson
        exact ⟨true, _, ⟨rfl, rfl⟩, iff_of_true rfl hjson, fun _ => ⟨_, rfl⟩,
          fun h => absurd h (by decide)⟩
    · simp only [hdecode, Option.some.injEq, Prod.mk.injEq, hs, true_and, hjson, not_false_eq_true]
      constructor
      · rintro ⟨r, L', ⟨rfl, rfl⟩, hiff, _⟩
        exact .inr fun hall => by cases hiff.mpr hall
      · intro heq
        have hall : ¬IsJson s := by
          rcases heq with heq | hall
          · rwa [heq] at hjson
          · exact hall
        exact ⟨false, _, ⟨rfl, rfl⟩, iff_of_false Bool.false_ne_true hall,
          fun h => absurd h Bool.false_ne_true, fun _ => rfl⟩
  · simp [decode_of_stray hs L, hs]

/-- `["é"]` is refused at the first byte of its letter. -/
theorem decode_refuses_utf8 : ¬DecodeAgrees [] (bytes "[\"é\"]") := by
  rintro ⟨r, L', hdecode, hiff, _⟩
  have hjson : IsJson (bytes "[\"é\"]") := isJson_iff.mpr ⟨_, rfl, by decide +kernel⟩
  have hfed : (bytes "[\"é\"]").takeWhile isFed = bytes "[\"" := by decide +kernel
  have hrun : (JsonParser.new.run (bytes "[\"")).2 =
      some ⟨.ST, .string, false, 0, [.array, .done], []⟩ := rfl
  have hs : JsonParser.new.Straight ((bytes "[\"é\"]").takeWhile isFed) := by
    rw [hfed]
    exact JsonParser.new_fits.straight hrun
  have hno : ¬IsJson ((bytes "[\"é\"]").takeWhile isFed) := by
    rw [hfed, isJson_iff, hrun]
    rintro ⟨jc, he, hdone⟩
    cases he
    exact absurd hdone (by decide)
  rcases decode_cases hs [] with ⟨hyes, _⟩ | ⟨_, hfalse⟩
  · exact hno hyes
  · rw [hfalse] at hdecode
    cases hdecode
    exact absurd (hiff.mpr (accepted_iff.mpr hjson)) Bool.false_ne_true

end Tnode
