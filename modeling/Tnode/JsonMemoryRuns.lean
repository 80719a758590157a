import Tnode.JsonMemorySafe

namespace Tnode

open Memory JsonParserStruct

/-- The memory holds a parser between two bytes. -/
def Holds (m : JsonParserStruct) (jc : JsonParser) : Prop := m.Refines jc ∧ jc.Sound

section

variable {σ : Type}

/-- Both are undefined, both return false or both go on, with the same context. -/
def Agree (r : Option (Option JsonParserStruct × σ)) (r' : Option (Option JsonParser × σ)) :
    Prop :=
  Option.Rel (fun p p' => Option.Rel Holds p.1 p'.1 ∧ p.2 = p'.2) r r'

variable {callback : σ → JsonEvent → Option (Bool × σ)} {ctx : σ}

theorem agree_false : Agree (some (none, ctx)) (some (none, ctx)) := .some ⟨.none, rfl⟩

theorem agree_some {m : JsonParserStruct} {jc : JsonParser} (hm : m.Refines jc) (h : jc.Sound) :
    Agree (some (some m, ctx)) (some (some jc, ctx)) :=
  .some ⟨.some ⟨hm, h⟩, rfl⟩

theorem agree_call {event : JsonEvent} {k : σ → Option (Option JsonParserStruct × σ)}
    {k' : σ → Option (Option JsonParser × σ)} (h : ∀ ctx, Agree (k ctx) (k' ctx)) :
    Agree (JsonParserStruct.call callback ctx event k) (JsonParser.call callback ctx event k') := by
  unfold JsonParserStruct.call JsonParser.call
  cases callback ctx event with
  | none => exact .none
  | some r =>
    obtain ⟨_ | _, ctx⟩ := r
    · exact agree_false
    · exact h ctx

variable {m : JsonParserStruct} {jc : JsonParser} {c : Byte} {class' : JsonClass}

theorem agree_parse (hm : m.Refines jc) (hz : jc.type ≠ .string → 0 ∉ jc.parseBuffer)
    {k : JsonParserStruct → σ → Option (Option JsonParserStruct × σ)}
    {k' : JsonParser → σ → Option (Option JsonParser × σ)}
    (h : ∀ m' ctx, m'.Refines jc.clear → Agree (k m' ctx) (k' jc.clear ctx)) :
    Agree (m.parseParseBuffer callback ctx k) (jc.parseParseBuffer callback ctx k') := by
  obtain ⟨m', hclear, hm'⟩ := hm.clear
  unfold JsonParserStruct.parseParseBuffer JsonParser.parseParseBuffer
  rw [hm.value hz]
  simp only [hclear, Option.bind_eq_bind, Option.bind_some]
  cases jc.pending with
  | none => exact h m' ctx hm'
  | some event => exact agree_call fun ctx => h m' ctx hm'

theorem agree_pop (hm : m.Refines jc) (mode : JsonMode)
    {k : JsonParserStruct → Option JsonParserStruct} {k' : JsonParser → JsonParser}
    (h : ∀ m' jc', m'.Refines jc' → jc.pop mode = some jc' →
      ∃ m'', k m' = some m'' ∧ Holds m'' (k' jc')) :
    Agree ((m.pop mode).bind fun r => orFalse ctx r k) (some ((jc.pop mode).map k', ctx)) := by
  obtain ⟨r, hr, hrel⟩ := hm.pop mode
  rw [hr, Option.bind_some]
  cases hjc : jc.pop mode with
  | none =>
    rw [hjc] at hrel
    cases hrel
    exact agree_false
  | some jc' =>
    rw [hjc] at hrel
    cases hrel with
    | some hm' =>
      obtain ⟨m'', hk, hm''⟩ := h _ jc' hm' hjc
      simp only [orFalse, hk]
      exact .some ⟨.some hm'', rfl⟩

theorem JsonParser.pop_done {jc jc' : JsonParser} {mode : JsonMode} (h : jc.pop mode = some jc')
    (hmode : mode ≠ .done) (hd : .done ∈ jc.stack) :
    .done ∈ jc'.stack ∧ jc' = { jc with stack := jc'.stack } := by
  obtain ⟨stack, hstack, rfl⟩ := pop_eq_some h
  rw [hstack] at hd
  exact ⟨(List.mem_cons.mp hd).resolve_left (Ne.symm hmode), rfl⟩

theorem decodeUnicodeChar_escaped {jc jc' : JsonParser} (h : jc.decodeUnicodeChar = some jc') :
    jc'.escaped = jc.escaped := by
  unfold JsonParser.decodeUnicodeChar at h
  simp only at h
  (repeat' split at h) <;> cases h <;> rfl

theorem agree_unicode (hm : m.Refines jc) (h : jc.Taken c class') (hc : nextClass c = some class')
    (hstate : jc.state = .U4) (hhex : class'.isHex = true) :
    Agree (m.perform callback ctx .UC) (jc.perform callback ctx .UC) := by
  have hstring : jc.type = .string := by
    have htyped := h.typed
    rw [hstate] at htyped
    simpa [typed] using htyped
  obtain ⟨front, digits, hbuffer, hfront, hlen, hdigits⟩ :=
    h.digit ((nextClass_byte hc).2.1 hhex) hstring (by simp [hstate])
  rw [hstate] at hfront hlen
  obtain ⟨xs, ys, rfl, hys⟩ : ∃ xs ys, front = xs ++ ys ∧ ys.length = 2 :=
    ⟨front.take (front.length - 2), front.drop (front.length - 2), (List.take_append_drop ..).symm, by
      simp only [List.length_drop]
      have : (escapeRead .U4).1 = 2 := rfl
      omega⟩
  obtain ⟨p, q, rfl⟩ := List.length_eq_two.mp hys
  obtain ⟨w, x, y, z, rfl⟩ : ∃ w x y z, digits = [w, x, y, z] := List.length_eq_four.mp hlen
  obtain ⟨r, hr, hrel⟩ := hm.decodeUnicodeChar (by simpa using hbuffer) hdigits
  simp only [JsonParserStruct.perform, JsonParser.perform, hr, Option.bind_eq_bind,
    Option.bind_some]
  cases hjc : jc.decodeUnicodeChar with
  | none =>
    rw [hjc] at hrel
    cases hrel
    exact agree_false
  | some jc' =>
    rw [hjc] at hrel
    cases hrel with
    | some hm' =>
      obtain ⟨htype, hstack⟩ := JsonParser.decodeUnicodeChar_frame hjc
      have hescaped := (decodeUnicodeChar_escaped hjc).trans h.escaped
      have hdone := h.done
      rw [← hstack] at hdone
      rw [hstring] at htype
      simp only [orFalse, Option.map_some]
      refine agree_some ⟨by simp only [hm'.surrogate], hm'.type, hm'.escaped, hm'.surrogate,
        hm'.count, hm'.buffer, hm'.top, hm'.stack, hm'.room⟩ ?_
      have hnone : jc'.type ≠ .none := by simp [htype]
      split
      all_goals
        exact .outside (by rw [htype]; rfl) hescaped hdone (fun hn => absurd hn hnone)
          (fun hs => absurd htype hs) rfl

theorem agree_point (hm : m.Refines jc) (h : jc.Taken c class') (hc : nextClass c = some class')
    (htype : jc.type = .integer) (hES : jc.state ≠ .ES) (hpoint : class' = .point) :
    Agree (m.perform callback ctx .DF) (jc.perform callback ctx .DF) := by
  have hnumber : m.type ∉ [JsonType.false, .true, .null, .string] := by simp [hm.type, htype]
  obtain ⟨front, digits, hbuffer, -⟩ := h.pushed hES (Or.inl (by simp [htype]))
  obtain ⟨rest, hm'⟩ := hm.buffer
  have h46 : c = 46 := (nextClass_byte hc).2.2.2 hpoint
  have hindex : (m.parseBufferCount : Int) - 1 = (front ++ digits).length := by
    simp only [hm.count, hbuffer, List.length_append, List.length_singleton, Nat.cast_add,
      Nat.cast_one]
    omega
  have hcells : m.parseBuffer = (front ++ digits).map some ++ some 46 :: some 0 :: rest := by
    simp [hm', hbuffer, h46]
  have hload := Block.load_append (front ++ digits) 46 (some 0 :: rest)
  have hstore := Block.store_append (front ++ digits) 46 (some 46) (some 0 :: rest)
  rw [← hcells, ← hindex] at hload hstore
  simp only [JsonParserStruct.perform, JsonParser.perform, assert_of hnumber, hload, hstore,
    Option.bind_eq_bind, Option.bind_some]
  refine agree_some ((hm.withType .float).withState .FX) (.outside rfl h.escaped h.done (by simp) ?_ rfl)
  exact fun _ => h.nonzero (by simp [htype])

/-- The parser that `pop` and a change of the state leave in front of the next byte. -/
theorem sound_pop {jc jc' : JsonParser} {mode : JsonMode} (hpop : jc.pop mode = some jc')
    (hmode : mode ≠ .done) (hdone : .done ∈ jc.stack) (hescaped : jc.escaped = false)
    (hbuffer : jc.parseBuffer = []) {type : JsonType} {state : JsonState}
    (htyped : typed state type = true) (hstate : escapeRead state = (0, 0)) :
    { jc' with type, state }.Sound := by
  obtain ⟨hdone', hjc'⟩ := JsonParser.pop_done hpop hmode hdone
  rw [hjc']
  exact .outside htyped hescaped hdone' (fun _ => hbuffer) (by simp [hbuffer]) hstate

theorem agree_begin (hm : m.Refines jc) (h : jc.Taken c class') {mode : JsonMode}
    {state : JsonState} (htyped : typed state .none = true) (hstate : escapeRead state = (0, 0))
    (htype : jc.type = .none) (hES : jc.state ≠ .ES) (hwhite : class'.isWhite = false)
    {event : JsonEvent} :
    Agree
      (m.popBack.bind fun m => JsonParserStruct.call callback ctx event fun ctx =>
        (m.push mode).bind fun m => (assert (m.type = .none)).bind fun _ =>
          some (some { m with state }, ctx))
      (JsonParser.call callback ctx event fun ctx =>
        some (some { jc.popBack.push mode with state }, ctx)) := by
  obtain ⟨m₁, hpop, hm₁⟩ := hm.popBack (h.nonempty hES (Or.inr hwhite))
  obtain ⟨m₂, hpush, hm₂⟩ := hm₁.push mode
  have hnone : m₂.type = .none := hm₂.type.trans htype
  rw [hpop, Option.bind_some]
  apply agree_call
  intro ctx
  simp only [hpush, Option.bind_some, assert_of hnone]
  have hbuffer : jc.popBack.parseBuffer = [] := by simp [JsonParser.popBack, h.fresh htype hwhite]
  refine agree_some (hm₂.withState state) (.outside ?_ h.escaped ?_ (fun _ => hbuffer) ?_ hstate)
  · exact htype ▸ htyped
  · exact List.mem_cons_of_mem mode h.done
  · exact fun _ => by simp [JsonParser.push, hbuffer]

/-- The end of an array or of an object that is not empty. -/
theorem agree_end (hm : m.Refines jc) (h : jc.Taken c class') {mode : JsonMode}
    (hmode : mode ≠ .done) (hES : jc.state ≠ .ES) (hwhite : class'.isWhite = false)
    {event : JsonEvent} :
    Agree
      (m.popBack.bind fun m => m.parseParseBuffer callback ctx fun m ctx =>
        JsonParserStruct.call callback ctx event fun ctx =>
          (m.pop mode).bind fun r => orFalse ctx r fun m => some { m with type := .none, state := .OK })
      (jc.popBack.parseParseBuffer callback ctx fun jc ctx =>
        JsonParser.call callback ctx event fun ctx =>
          some ((jc.pop mode).map fun jc => { jc with type := .none, state := .OK }, ctx)) := by
  obtain ⟨m₁, hpop, hm₁⟩ := hm.popBack (h.nonempty hES (Or.inr hwhite))
  rw [hpop, Option.bind_some]
  apply agree_parse hm₁ h.nonzero_popBack
  intro m₂ ctx hm₂
  apply agree_call
  intro ctx
  apply agree_pop hm₂ mode
  intro m₃ jc₃ hm₃ hpop₃
  exact ⟨_, rfl, (hm₃.withType .none).withState .OK,
    sound_pop hpop₃ hmode h.done h.escaped rfl rfl rfl⟩

theorem agree_stringEnd (hm : m.Refines jc) (h : jc.Taken c class') (hstate : jc.state = .ST)
    (hwhite : class'.isWhite = false) :
    Agree (m.perform callback ctx .stringEnd) (jc.perform callback ctx .stringEnd) := by
  have hstring : jc.type = .string := by
    have htyped := h.typed
    rw [hstate] at htyped
    simpa [typed] using htyped
  obtain ⟨m₁, hpop, hm₁⟩ := hm.popBack (h.nonempty (by simp [hstate]) (Or.inr hwhite))
  have hassert : m₁.type = .string := hm₁.type.trans hstring
  simp only [JsonParserStruct.perform, JsonParser.perform, hpop, Option.bind_eq_bind,
    Option.bind_some]
  cases hstack : jc.stack with
  | nil =>
    have hdone := h.done
    rw [hstack] at hdone
    cases hdone
  | cons top stack =>
    have hload := hm₁.load_top hstack
    rw [hload, Option.bind_some]
    cases top with
    | done => exact agree_false
    | key =>
      simp only [assert_of hassert, Option.bind_some, hm₁.read]
      apply agree_call
      intro ctx
      obtain ⟨m₂, hclear, hm₂⟩ := ((hm₁.withType .none).withState .CO).clear
      simp only [hclear, Option.bind_some]
      exact agree_some hm₂ (.outside rfl h.escaped h.done (fun _ => rfl) (fun _ => List.not_mem_nil) rfl)
    | array | object =>
      simp only [assert_of hassert, Option.bind_some]
      apply agree_parse hm₁ h.nonzero_popBack
      intro m₂ ctx hm₂
      exact agree_some ((hm₂.withType .none).withState .OK)
        (.outside rfl h.escaped h.done (fun _ => rfl) (fun _ => List.not_mem_nil) rfl)

/-- A comma turns an object back to its keys. -/
theorem agree_comma (hm : m.Refines jc) (h : jc.Taken c class') (htype : jc.type ≠ .string)
    (hES : jc.state ≠ .ES) (hwhite : class'.isWhite = false) :
    Agree (m.perform callback ctx .comma) (jc.perform callback ctx .comma) := by
  obtain ⟨m₁, hpop, hm₁⟩ := hm.popBack (h.nonempty hES (Or.inr hwhite))
  simp only [JsonParserStruct.perform, JsonParser.perform, hpop, Option.bind_eq_bind,
    Option.bind_some]
  apply agree_parse hm₁ h.nonzero_popBack
  intro m₂ ctx hm₂
  have hassert : m₂.type ≠ .string := by
    rw [hm₂.type]
    exact htype
  split
  next stack hstack =>
    rw [hm₂.load_top hstack, Option.bind_some]
    apply agree_pop hm₂ .object
    intro m₃ jc₃ hm₃ hpop₃
    obtain ⟨hdone, hjc₃⟩ := JsonParser.pop_done hpop₃ (by decide) h.done
    obtain ⟨m₄, hpush, hm₄⟩ := hm₃.push .key
    have hassert' : m₄.type ≠ .string := by
      rw [hm₄.type, hjc₃]
      exact htype
    refine ⟨_, by simp only [hpush, Option.bind_some, assert_of hassert']; rfl,
      (hm₄.withType .none).withState .KE, ?_⟩
    rw [hjc₃]
    exact .outside rfl h.escaped (List.mem_cons_of_mem _ hdone) (fun _ => rfl) (fun _ => List.not_mem_nil) rfl
  next stack hstack =>
    rw [hm₂.load_top hstack, Option.bind_some]
    simp only [assert_of hassert, Option.bind_some]
    exact agree_some ((hm₂.withType .none).withState .VA)
      (.outside rfl h.escaped h.done (fun _ => rfl) (fun _ => List.not_mem_nil) rfl)
  next hobject harray =>
    cases hstack : jc.popBack.clear.stack with
    | nil => exact absurd h.done (by rw [show jc.stack = [] from hstack]; simp)
    | cons top stack =>
      rw [hm₂.load_top hstack, Option.bind_some]
      cases top with
      | done | key => exact agree_false
      | object => exact absurd hstack (hobject stack)
      | array => exact absurd hstack (harray stack)

theorem agree_colon (hm : m.Refines jc) (h : jc.Taken c class') (htype : jc.type = .none)
    (hES : jc.state ≠ .ES) (hwhite : class'.isWhite = false) :
    Agree (m.perform callback ctx .colon) (jc.perform callback ctx .colon) := by
  obtain ⟨m₁, hpop, hm₁⟩ := hm.popBack (h.nonempty hES (Or.inr hwhite))
  have hbuffer : jc.popBack.parseBuffer = [] := by simp [JsonParser.popBack, h.fresh htype hwhite]
  simp only [JsonParserStruct.perform, JsonParser.perform, hpop, Option.bind_eq_bind,
    Option.bind_some]
  apply agree_pop hm₁ .key
  intro m₂ jc₂ hm₂ hpop₂
  obtain ⟨hdone, hjc₂⟩ := JsonParser.pop_done hpop₂ (by decide) h.done
  obtain ⟨m₃, hpush, hm₃⟩ := hm₂.push .object
  have hassert : m₃.type = .none := by
    rw [hm₃.type, hjc₂]
    exact htype
  refine ⟨_, by simp only [hpush, Option.bind_some, assert_of hassert]; rfl,
    hm₃.withState .VA, ?_⟩
  rw [hjc₂]
  refine .outside ?_ h.escaped (List.mem_cons_of_mem _ hdone) (fun _ => hbuffer) ?_ rfl
  · simp [JsonParser.push, JsonParser.popBack, htype, typed]
  · exact fun _ => by simp [JsonParser.push, hbuffer]

theorem agree_emptyObjectEnd (hm : m.Refines jc) (h : jc.Taken c class') (htype : jc.type = .none) :
    Agree (m.perform callback ctx .emptyObjectEnd) (jc.perform callback ctx .emptyObjectEnd) := by
  obtain ⟨m₁, hclear, hm₁⟩ := hm.clear
  simp only [JsonParserStruct.perform, JsonParser.perform, hclear, Option.bind_eq_bind,
    Option.bind_some]
  apply agree_call
  intro ctx
  apply agree_pop hm₁ .key
  intro m₂ jc₂ hm₂ hpop₂
  refine ⟨_, rfl, hm₂.withState .OK, ?_⟩
  obtain ⟨hdone, hjc₂⟩ := JsonParser.pop_done hpop₂ (by decide) h.done
  rw [hjc₂]
  have htyped : typed .OK jc.type = true := by rw [htype]; rfl
  exact .outside htyped h.escaped hdone (fun _ => rfl) (fun _ => List.not_mem_nil) rfl

theorem agree_perform (hm : m.Refines jc) (h : jc.Taken c class') (hc : nextClass c = some class')
    {action : JsonAction} (hsafe : safeAction jc.state jc.type class' action = true) :
    Agree (m.perform callback ctx action) (jc.perform callback ctx action) := by
  have hread : ∀ type state, typed state type = true → escapeRead state = (0, 0) →
      type ≠ .none → jc.type ≠ .string →
      Agree (some (some { m with type, state }, ctx)) (some (some { jc with type, state }, ctx)) :=
    fun type state htyped hescape hnone hstring =>
      agree_some ((hm.withType type).withState state) (.outside htyped h.escaped h.done
        (fun hn => absurd hn hnone) (fun _ => h.nonzero hstring) hescape)
  cases action with
  | goto state => exact agree_some (hm.withState state) (h.goto hc hsafe)
  | UC =>
    simp only [safeAction, Bool.and_eq_true, decide_eq_true_eq] at hsafe
    exact agree_unicode hm h hc hsafe.1 hsafe.2
  | EX =>
    have hstate : jc.state = .ST := by simpa [safeAction] using hsafe
    have htyped := h.typed
    rw [hstate] at htyped
    have hstring : jc.type = .string := by simpa [typed] using htyped
    have hne := h.nonempty (by simp [hstate]) (Or.inl (by simp [hstring]))
    exact agree_some ((hm.withEscaped true).withState .ES)
      ⟨htyped, rfl, h.done, fun hn => by simp [hstring] at hn, h.nonzero, jc.parseBuffer, [],
        by simp, List.length_pos_iff.mpr hne, rfl, (by simp)⟩
  | MX | ZX | IX =>
    simp only [safeAction, Bool.and_eq_true, decide_eq_true_eq] at hsafe
    exact hread _ _ rfl rfl (by decide) (by simp [hsafe.1.1])
  | NU | FA | TR =>
    simp only [safeAction, Bool.and_eq_true, decide_eq_true_eq] at hsafe
    simp only [JsonParserStruct.perform, JsonParser.perform, hm.type, assert_of hsafe.1.1]
    exact hread _ _ rfl rfl (by decide) (by simp [hsafe.1.1])
  | DE =>
    simp only [safeAction, Bool.and_eq_true, decide_eq_true_eq] at hsafe
    have hnumber : jc.type ∉ [JsonType.false, .true, .null, .string] := by simp [hsafe.1]
    simp only [JsonParserStruct.perform, JsonParser.perform, hm.type, assert_of hnumber]
    exact hread _ _ rfl rfl (by decide) (by simp [hsafe.1])
  | DF =>
    simp only [safeAction, Bool.and_eq_true, decide_eq_true_eq] at hsafe
    exact agree_point hm h hc hsafe.1.1 hsafe.1.2 hsafe.2
  | SB =>
    simp only [safeAction, Bool.and_eq_true, decide_eq_true_eq] at hsafe
    obtain ⟨m', hclear, hm'⟩ := hm.clear
    have hassert : m'.type = .none := hm'.type.trans hsafe.1.1
    simp only [JsonParserStruct.perform, JsonParser.perform, hclear, assert_of hassert,
      Option.bind_eq_bind, Option.bind_some]
    exact agree_some ((hm'.withType .string).withState .ST)
      (.outside rfl h.escaped h.done (by simp) (by simp) rfl)
  | CB | error => exact agree_false
  | emptyObjectEnd =>
    simp only [safeAction, Bool.and_eq_true, decide_eq_true_eq] at hsafe
    exact agree_emptyObjectEnd hm h hsafe.1.1
  | objectEnd | arrayEnd =>
    simp only [safeAction, Bool.and_eq_true, decide_eq_true_eq, Bool.not_eq_true'] at hsafe
    exact agree_end hm h (by decide) hsafe.1.2 hsafe.2
  | objectBegin | arrayBegin =>
    simp only [safeAction, Bool.and_eq_true, decide_eq_true_eq, Bool.not_eq_true'] at hsafe
    exact agree_begin hm h rfl rfl hsafe.1.1 hsafe.1.2 hsafe.2
  | stringEnd =>
    simp only [safeAction, Bool.and_eq_true, decide_eq_true_eq, Bool.not_eq_true'] at hsafe
    exact agree_stringEnd hm h hsafe.1 hsafe.2
  | comma =>
    simp only [safeAction, Bool.and_eq_true, decide_eq_true_eq, Bool.not_eq_true'] at hsafe
    exact agree_comma hm h hsafe.1.1 hsafe.1.2 hsafe.2
  | colon =>
    simp only [safeAction, Bool.and_eq_true, decide_eq_true_eq, Bool.not_eq_true'] at hsafe
    exact agree_colon hm h hsafe.1.1 hsafe.1.2 hsafe.2

theorem agree_char (h : Holds m jc) (c : Byte) :
    Agree (m.char callback ctx c) (jc.char callback ctx c) := by
  obtain ⟨hm, hsound⟩ := h
  unfold JsonParserStruct.char JsonParser.char
  cases hc : nextClass c with
  | none => exact agree_false
  | some class' =>
    obtain ⟨r, hr, hrel⟩ := hm.addChar hsound.nonempty c class'
    simp only [hr, Option.bind_eq_bind, Option.bind_some]
    cases hjc : jc.addChar c class' with
    | none =>
      rw [hjc] at hrel
      cases hrel
      exact agree_false
    | some jc' =>
      rw [hjc] at hrel
      cases hrel with
      | some hm' =>
        have htaken := hsound.addChar hc hjc
        simp only [hm'.state]
        exact agree_perform hm' htaken hc (safeAction_transition htaken.typed class')

theorem agree_feed (h : Holds m jc) (s : List Byte) :
    Agree (m.feed callback ctx s) (jc.feed callback ctx s) := by
  induction s generalizing m jc ctx with
  | nil => exact agree_some h.1 h.2
  | cons c s ih =>
    have hchar : Agree (m.char callback ctx c) (jc.char callback ctx c) := agree_char h c
    rw [JsonParserStruct.feed, JsonParser.feed]
    generalize m.char callback ctx c = r at hchar ⊢
    generalize jc.char callback ctx c = r' at hchar ⊢
    cases hchar with
    | none => exact .none
    | @some p p' hp =>
      obtain ⟨r, ctx⟩ := p
      obtain ⟨r', ctx'⟩ := p'
      obtain ⟨hrel, rfl⟩ := hp
      cases hrel with
      | none => exact agree_false
      | some hholds => exact ih hholds

theorem done_eq (h : m.Refines jc) : m.done = some jc.done := by
  obtain ⟨r, hr, hrel⟩ := h.pop .done
  unfold JsonParserStruct.done JsonParser.done
  rw [h.state, hr]
  generalize jc.pop .done = r' at hrel ⊢
  by_cases hstate : jc.state = .OK
  · rw [if_pos hstate]
    cases hrel <;> simp [hstate]
  · simp [hstate]

theorem reportAll_isSome (h : ∀ ctx event, (callback ctx event).isSome = true)
    (events : List JsonEvent) : (reportAll callback ctx events).isSome = true := by
  induction events generalizing ctx with
  | nil => rfl
  | cons event events ih =>
    obtain ⟨⟨b, ctx'⟩, hcall⟩ := Option.isSome_iff_exists.mp (h ctx event)
    cases b with
    | false => simp [reportAll, hcall]
    | true => simpa [reportAll, hcall] using ih

/-- On every text and whatever the callback, no `assert` of the parser fails and all it reads and
writes lies inside its stack and its buffer, however they have grown. -/
theorem parse_in_bounds (callback : σ → JsonEvent → Option (Bool × σ)) (ctx : σ) (s : List Byte) :
    JsonParserStruct.parse callback ctx s = JsonParser.parse callback ctx s ∧
      ((∀ ctx event, (callback ctx event).isSome = true) →
        (JsonParserStruct.parse callback ctx s).isSome = true) := by
  obtain ⟨m, hnew, hm⟩ := new_refines
  have hsound : JsonParser.new.Sound :=
    .outside rfl rfl (by simp [JsonParser.new]) (fun _ => rfl) (fun _ => List.not_mem_nil) rfl
  have hfeed : Agree (m.feed callback ctx s) (JsonParser.new.feed callback ctx s) :=
    agree_feed ⟨hm, hsound⟩ s
  have heq : JsonParserStruct.parse callback ctx s = JsonParser.parse callback ctx s := by
    simp only [JsonParserStruct.parse, JsonParser.parse, hnew, Option.bind_eq_bind,
      Option.bind_some]
    generalize m.feed callback ctx s = r at hfeed ⊢
    generalize JsonParser.new.feed callback ctx s = r' at hfeed ⊢
    cases hfeed with
    | none => rfl
    | @some p p' hp =>
      obtain ⟨r, ctx⟩ := p
      obtain ⟨r', ctx'⟩ := p'
      obtain ⟨hrel, rfl⟩ := hp
      cases hrel with
      | none => rfl
      | some hholds => simp [done_eq hholds.1]
  refine ⟨heq, fun htotal => ?_⟩
  have hsome : (reportAll callback ctx (JsonParser.new.run s).1).isSome = true :=
    reportAll_isSome htotal _
  obtain ⟨⟨b, ctx'⟩, hreport⟩ := Option.isSome_iff_exists.mp hsome
  rw [heq, JsonParser.parse, feed_eq, hreport]
  cases b <;> rfl

end

end Tnode
