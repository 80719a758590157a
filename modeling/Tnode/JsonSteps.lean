import Tnode.JsonParser

namespace Tnode

namespace JsonParser

/-- What an action reports, and the parser after it. -/
def plan (jc : JsonParser) : JsonAction → List JsonEvent × Option JsonParser
  | .goto state => ([], some { jc with state })
  | .UC =>
    ([], jc.decodeUnicodeChar.map fun jc =>
      { jc with state := if jc.utf16HighSurrogate ≠ 0 then .D1 else .ST })
  | .EX => ([], some { jc with escaped := true, state := .ES })
  | .MX => ([], some { jc with type := .integer, state := .MI })
  | .ZX => ([], some { jc with type := .integer, state := .ZE })
  | .IX => ([], some { jc with type := .integer, state := .IT })
  | .DE => ([], some { jc with type := .float, state := .E1 })
  | .DF => ([], some { jc with type := .float, state := .FX })
  | .SB => ([], some { jc.clear with type := .string, state := .ST })
  | .NU => ([], some { jc with type := .null, state := .N1 })
  | .FA => ([], some { jc with type := .false, state := .F1 })
  | .TR => ([], some { jc with type := .true, state := .T1 })
  | .CB | .error => ([], none)
  | .emptyObjectEnd =>
    ([.objectEnd], (jc.clear.pop .key).map fun jc => { jc with state := .OK })
  | .objectEnd =>
    (jc.popBack.pending.toList ++ [.objectEnd],
      (jc.clear.pop .object).map fun jc => { jc with type := .none, state := .OK })
  | .arrayEnd =>
    (jc.popBack.pending.toList ++ [.arrayEnd],
      (jc.clear.pop .array).map fun jc => { jc with type := .none, state := .OK })
  | .objectBegin => ([.objectBegin], some { jc.popBack.push .key with state := .OB })
  | .arrayBegin => ([.arrayBegin], some { jc.popBack.push .array with state := .AR })
  | .stringEnd =>
    match jc.stack with
    | .key :: _ =>
      ([.key jc.popBack.parseBuffer], some { jc.clear with type := .none, state := .CO })
    | .array :: _ | .object :: _ =>
      (jc.popBack.pending.toList, some { jc.clear with type := .none, state := .OK })
    | _ => ([], none)
  | .comma =>
    (jc.popBack.pending.toList,
      match jc.stack with
      | .object :: stack => some { jc.clear with stack := .key :: stack, type := .none, state := .KE }
      | .array :: _ => some { jc.clear with type := .none, state := .VA }
      | _ => none)
  | .colon =>
    ([], (jc.popBack.pop .key).map fun jc => { jc.push .object with state := .VA })

/-- What `JSON_parser_char` reports, and the parser after it, if no callback returns zero. -/
def step (jc : JsonParser) (c : Byte) : List JsonEvent × Option JsonParser :=
  match nextClass c with
  | none => ([], none)
  | some class' =>
    match jc.addChar c class' with
    | none => ([], none)
    | some jc => jc.plan (stateTransitionTable jc.state class')

def run (jc : JsonParser) : List Byte → List JsonEvent × Option JsonParser
  | [] => ([], some jc)
  | c :: s =>
    match jc.step c with
    | (events, some jc) => (events ++ (jc.run s).1, (jc.run s).2)
    | (events, none) => (events, none)

end JsonParser

/-- The result when the calls of the callback have been made. -/
def settle {σ : Type} (r : Option JsonParser) :
    Option (Bool × σ) → Option (Option JsonParser × σ)
  | some (true, ctx) => some (r, ctx)
  | some (false, ctx) => some (none, ctx)
  | none => none

section

variable {σ : Type} (callback : σ → JsonEvent → Option (Bool × σ)) (ctx : σ)

variable {callback} {ctx} {events : List JsonEvent} {r : Option JsonParser}

theorem call_eq {k : σ → Option (Option JsonParser × σ)}
    (h : ∀ ctx, k ctx = settle r (reportAll callback ctx events)) (event : JsonEvent) :
    JsonParser.call callback ctx event k = settle r (reportAll callback ctx (event :: events)) := by
  unfold JsonParser.call
  rw [reportAll]
  split
  next hc => rw [hc, h]
  next hc => simp [hc, settle]
  next hc => simp [hc, settle]

theorem parseParseBuffer_eq {jc : JsonParser}
    {k : JsonParser → σ → Option (Option JsonParser × σ)}
    (h : ∀ ctx, k jc.clear ctx = settle r (reportAll callback ctx events)) :
    jc.parseParseBuffer callback ctx k =
      settle r (reportAll callback ctx (jc.pending.toList ++ events)) := by
  unfold JsonParser.parseParseBuffer
  cases jc.pending with
  | none => exact h ctx
  | some event => exact call_eq h event

variable (callback) (ctx)

/-- Whatever the callback, an action makes its reports and then moves the parser. -/
theorem perform_eq (jc : JsonParser) (action : JsonAction) :
    jc.perform callback ctx action =
      settle (jc.plan action).2 (reportAll callback ctx (jc.plan action).1) := by
  obtain ⟨state, type, escaped, surrogate, stack, buffer⟩ := jc
  cases action with
  | emptyObjectEnd | objectBegin | arrayBegin =>
    simp only [JsonParser.perform, JsonParser.plan]
    apply call_eq
    exact fun _ => rfl
  | objectEnd | arrayEnd =>
    simp only [JsonParser.perform, JsonParser.plan]
    apply parseParseBuffer_eq
    intro ctx
    apply call_eq
    exact fun _ => rfl
  | stringEnd =>
    rcases stack with _ | ⟨mode, stack⟩
    · rfl
    · cases mode with
      | done => rfl
      | key =>
        simp only [JsonParser.perform, JsonParser.plan]
        apply call_eq
        exact fun _ => rfl
      | array | object =>
        simp only [JsonParser.perform, JsonParser.plan]
        rw [← List.append_nil (Option.toList _)]
        apply parseParseBuffer_eq
        exact fun _ => rfl
  | comma =>
    simp only [JsonParser.perform, JsonParser.plan]
    rw [← List.append_nil (Option.toList _)]
    apply parseParseBuffer_eq
    intro ctx
    rcases stack with _ | ⟨mode, stack⟩
    · rfl
    · cases mode <;> rfl
  | _ => rfl

theorem char_eq (jc : JsonParser) (c : Byte) :
    jc.char callback ctx c = settle (jc.step c).2 (reportAll callback ctx (jc.step c).1) := by
  unfold JsonParser.char JsonParser.step
  cases nextClass c with
  | none => rfl
  | some class' =>
    simp only
    cases jc.addChar c class' with
    | none => rfl
    | some jc => exact perform_eq callback ctx jc _

theorem feed_eq (jc : JsonParser) (s : List Byte) :
    jc.feed callback ctx s = settle (jc.run s).2 (reportAll callback ctx (jc.run s).1) := by
  induction s generalizing jc ctx with
  | nil => rfl
  | cons c s ih =>
    rw [JsonParser.feed, char_eq, JsonParser.run]
    rcases hstep : jc.step c with ⟨events, _ | jc'⟩
    · cases hr : reportAll callback ctx events with
      | none => rfl
      | some r =>
        obtain ⟨b, ctx'⟩ := r
        cases b <;> rfl
    · simp only [reportAll_append]
      cases hr : reportAll callback ctx events with
      | none => rfl
      | some r =>
        obtain ⟨b, ctx'⟩ := r
        cases b with
        | false => rfl
        | true => exact ih ctx' jc'

end

end Tnode
