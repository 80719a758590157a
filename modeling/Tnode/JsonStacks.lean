import Tnode.JsonDecode

namespace Tnode

/-- A callback that also writes down each of its calls, with the context it finds, and ends the
feeding where its behaviour is undefined. -/
def watch {σ : Type} (callback : σ → JsonEvent → Option (Bool × σ)) :
    σ × List (σ × JsonEvent) → JsonEvent → Option (Bool × σ × List (σ × JsonEvent))
  | (ctx, log), event =>
    match callback ctx event with
    | some (b, ctx') => some (b, ctx', log ++ [(ctx, event)])
    | none => some (false, ctx, log ++ [(ctx, event)])

/-- The calls of `_json_parser_cb` that `luaT_json_parser_decode` makes. -/
def decodeCalls (L : List LuaValue) (jsonstr : List Byte) : List (JsonParserCtx × JsonEvent) :=
  match JsonParser.new.feed (watch jsonParserCb) (.create L, []) (jsonstr.takeWhile isFed) with
  | some (_, _, log) => log
  | none => []

theorem reportAll_watch {σ : Type} (callback : σ → JsonEvent → Option (Bool × σ)) (ctx : σ)
    (log : List (σ × JsonEvent)) (events : List JsonEvent) :
    ∃ b ctx', reportAll (watch callback) (ctx, log) events =
      some (b, ctx', log ++ calls callback ctx events) := by
  induction events generalizing ctx log with
  | nil => exact ⟨true, ctx, by rw [calls, List.append_nil]; rfl⟩
  | cons event events ih =>
    rw [reportAll, watch, calls]
    cases hc : callback ctx event with
    | none => exact ⟨false, ctx, rfl⟩
    | some r =>
      obtain ⟨b, ctx'⟩ := r
      cases b with
      | false => exact ⟨false, ctx', rfl⟩
      | true =>
        obtain ⟨b, ctx'', hrest⟩ := ih ctx' (log ++ [(ctx, event)])
        refine ⟨b, ctx'', ?_⟩
        simpa using hrest

theorem decodeCalls_eq (L : List LuaValue) (s : List Byte) :
    decodeCalls L s =
      calls jsonParserCb (.create L) (JsonParser.new.run (s.takeWhile isFed)).1 := by
  obtain ⟨b, ctx, hreport⟩ :=
    reportAll_watch jsonParserCb (.create L) [] (JsonParser.new.run (s.takeWhile isFed)).1
  rw [decodeCalls, feed_eq, hreport, List.nil_append]
  cases b <;> rfl

/-- Every end of an array or an object finds the stacks non-empty exactly if no stray bracket
is fed: no `]` where no array is open that the table does not reject before the callback, and no
bracket behind the document. -/
theorem stacks_found_iff (L : List LuaValue) (s : List Byte) :
    (∀ call ∈ decodeCalls L s, call.1.StacksFound call.2) ↔
      JsonParser.new.Straight (s.takeWhile isFed) := by
  rw [decodeCalls_eq]
  constructor
  · intro hfound
    by_contra hs
    obtain ⟨-, call, hmem, hnot⟩ := JsonParser.new_fits.feed_stray hs L
    exact hnot (hfound call hmem)
  · intro hs
    apply calls_found
    obtain ⟨ctx, hfeed, -⟩ := JsonParser.new_fits.feed_straight hs L
    intro hnone
    rw [feed_eq, show JsonPrefix.ctx L .start = .create L from rfl, hnone] at hfeed
    cases hfeed

/-- The second bracket of `[]]` is handed to the callback when both stacks are empty. -/
theorem surplus_bracket_pops_empty :
    ¬ ∀ L s, ∀ call ∈ decodeCalls L s, call.1.StacksFound call.2 := by
  intro h
  have hcall : (decodeCalls [] [91, 93, 93])[2]? =
      some (⟨[.table []], 0, .none, [], 1, []⟩, .arrayEnd) := rfl
  exact (h [] [91, 93, 93] _ (List.mem_of_getElem? hcall)).1 rfl

end Tnode
