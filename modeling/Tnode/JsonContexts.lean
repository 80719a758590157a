import Tnode.JsonText

namespace Tnode

namespace JsonParserCtx

/-- The context with an array open whose elements so far are `done`. -/
def openArray (ctx : JsonParserCtx) (done : List Json) : JsonParserCtx :=
  { ctx.pushIndex with
    L := .table (storeElements 1 done []) :: ctx.pushIndex.L
    stateStack := ctx.pushIndex.curState :: ctx.pushIndex.stateStack
    curState := .inArray
    arrayStack := schar ctx.pushIndex.arrayIdx :: ctx.pushIndex.arrayStack
    arrayIdx := indexAfter 1 done }

/-- The context with an object open whose members so far are `done`. -/
def openObject (ctx : JsonParserCtx) (done : List (List Byte × Json)) : JsonParserCtx :=
  { ctx.pushIndex with
    L := .table (storeMembers done []) :: ctx.pushIndex.L
    stateStack := ctx.pushIndex.curState :: ctx.pushIndex.stateStack
    curState := .inTable
    arrayIdx := if memberArray done then schar ctx.pushIndex.arrayIdx else ctx.pushIndex.arrayIdx }

def withKey (ctx : JsonParserCtx) (k : List Byte) : JsonParserCtx :=
  { ctx with L := .string k :: ctx.L, keyLvl := ctx.keyLvl + 1 }

end JsonParserCtx

def outerCtx (L : List LuaValue) : List JsonFrame → JsonParserCtx
  | [] => .create L
  | .array done :: outer => (outerCtx L outer).openArray done
  | .member done k :: outer => ((outerCtx L outer).openObject done).withKey k

/-- The context of the callback after the reports of a part of a document. -/
def JsonPrefix.ctx (L : List LuaValue) : JsonPrefix → JsonParserCtx
  | .start => .create L
  | .value frame outer => outerCtx L (frame :: outer)
  | .key done outer => (outerCtx L outer).openObject done
  | .complete d => { JsonParserCtx.create L with L := d.decoded :: L, arrayIdx := d.restored 1 }

theorem report_openArray (ctx : JsonParserCtx) (done : List Json) :
    reportAll jsonParserCb ctx (.arrayBegin :: elementEvents done) =
      some (true, ctx.openArray done) := by
  simp only [reportAll, jsonParserCb]
  exact reportElements done _ rfl rfl rfl

theorem report_openObject (ctx : JsonParserCtx) (done : List (List Byte × Json)) :
    reportAll jsonParserCb ctx (.objectBegin :: memberEvents done) =
      some (true, ctx.openObject done) := by
  simp only [reportAll, jsonParserCb]
  exact reportMembers done _ rfl rfl

theorem report_outer (L : List LuaValue) (outer : List JsonFrame) :
    reportAll jsonParserCb (.create L) (outerEvents outer) = some (true, outerCtx L outer) := by
  induction outer with
  | nil => rfl
  | cons frame outer ih =>
    rw [outerEvents, reportAll_append_of ih]
    cases frame with
    | array done => exact report_openArray _ done
    | member done k =>
      rw [JsonFrame.events, ← List.cons_append, reportAll_append_of (report_openObject _ done)]
      rfl

theorem Fits.report {p : JsonPrefix} {modes : List JsonMode} {phase : JsonPhase}
    (h : Fits p modes phase) (L : List LuaValue) :
    reportAll jsonParserCb (.create L) p.events = some (true, p.ctx L) := by
  cases h with
  | start => rfl
  | array | member | colon => exact report_outer L _
  | key | behind =>
    rw [JsonPrefix.events, reportAll_append_of (report_outer L _)]
    exact report_openObject _ _
  | complete hd => exact Json.report_create hd L

/-- The calls for what comes next, seen from the part that has been reported. -/
theorem Fits.report_next {p p' : JsonPrefix} {modes modes' : List JsonMode}
    {phase phase' : JsonPhase} (h : Fits p modes phase) (h' : Fits p' modes' phase')
    {events : List JsonEvent} (hevents : p'.events = p.events ++ events) (L : List LuaValue) :
    reportAll jsonParserCb (p.ctx L) events = some (true, p'.ctx L) := by
  rw [← h'.report L, hevents, reportAll_append_of (h.report L)]

theorem pushIndex_suffix (ctx : JsonParserCtx) : ctx.L <:+ ctx.pushIndex.L := by
  unfold JsonParserCtx.pushIndex
  split
  next => exact List.suffix_cons _ _
  next => exact List.suffix_rfl

theorem outerCtx_suffix (L : List LuaValue) (outer : List JsonFrame) :
    L <:+ (outerCtx L outer).L := by
  induction outer with
  | nil => exact List.suffix_rfl
  | cons frame outer ih =>
    have hpush := ih.trans (pushIndex_suffix (outerCtx L outer))
    cases frame with
    | array done => exact hpush.trans (List.suffix_cons _ _)
    | member done k => exact (hpush.trans (List.suffix_cons _ _)).trans (List.suffix_cons _ _)

theorem Fits.ctx_suffix {p : JsonPrefix} {modes : List JsonMode} {phase : JsonPhase}
    (_ : Fits p modes phase) (L : List LuaValue) : L <:+ (p.ctx L).L := by
  cases p with
  | start => exact List.suffix_rfl
  | value frame outer => exact outerCtx_suffix L (frame :: outer)
  | key done outer =>
    exact ((outerCtx_suffix L outer).trans (pushIndex_suffix _)).trans (List.suffix_cons _ _)
  | complete d => exact List.suffix_cons _ _

theorem int32_indexAfter {idx : Int} (h : int32 idx = idx) (elements : List Json) :
    int32 (indexAfter idx elements) = indexAfter idx elements := by
  induction elements generalizing idx with
  | nil => exact h
  | cons e elements ih => exact ih (e.int32_restored (int32_int32 _))

/-- A value on top of an open part of a document can be assigned. -/
theorem close_outer (L : List LuaValue) (outer : List JsonFrame) (v : LuaValue) (idx : Int)
    (arrayStack : List Int) :
    ∃ ctx, ({ (outerCtx L outer).pushIndex with
        L := v :: (outerCtx L outer).pushIndex.L
        arrayIdx := idx
        arrayStack := arrayStack } : JsonParserCtx).close = some (true, ctx) ∧ L <:+ ctx.L := by
  cases outer with
  | nil => exact ⟨_, rfl, List.suffix_cons _ _⟩
  | cons frame outer =>
    have hsuffix := (outerCtx_suffix L outer).trans (pushIndex_suffix _)
    cases frame with
    | array done =>
      have hidx : int32 (indexAfter 1 done) = indexAfter 1 done := int32_indexAfter rfl done
      have hs : ((outerCtx L outer).openArray done).curState = .inArray := rfl
      rw [outerCtx, JsonParserCtx.pushIndex_inArray hs]
      exact ⟨_, JsonParserCtx.close_inArray hs rfl (pushinteger_int32 hidx),
        hsuffix.trans (List.suffix_cons _ _)⟩
    | member done k =>
      have hs : (((outerCtx L outer).openObject done).withKey k).curState = .inTable := rfl
      have hne : (((outerCtx L outer).openObject done).withKey k).curState ≠ .inArray := by
        rw [hs]
        decide
      rw [outerCtx, JsonParserCtx.pushIndex_of_ne hne]
      exact ⟨_, JsonParserCtx.close_inTable hs rfl rfl rfl,
        hsuffix.trans (List.suffix_cons _ _)⟩

namespace JsonParser

/-- The action that the table gives for a byte. -/
def action? (jc : JsonParser) (c : Byte) : Option JsonAction :=
  (nextClass c).bind fun class' =>
    (jc.addChar c class').map fun jc => stateTransitionTable jc.state class'

/-- A bracket that closes an array where none is open, or anything behind the document. -/
def strayAction (stack : List JsonMode) : JsonAction → Bool
  | .arrayEnd => .array ∉ stack
  | .objectEnd => stack = [.done]
  | _ => false

def stray (jc : JsonParser) (c : Byte) : Bool := (jc.action? c).any (strayAction jc.stack)

/-- No byte is stray when its turn comes. -/
def Straight (jc : JsonParser) : List Byte → Prop
  | [] => True
  | c :: s => jc.stray c = false ∧ ∀ jc', (jc.step c).2 = some jc' → jc'.Straight s

end JsonParser

theorem arrayStack_outer (L : List LuaValue) (outer : List JsonFrame) :
    (outerCtx L outer).pushIndex.arrayStack = [] ↔ .array ∉ outerModes outer := by
  have hpush : ∀ ctx : JsonParserCtx, ctx.pushIndex.arrayStack = ctx.arrayStack := by
    intro ctx
    unfold JsonParserCtx.pushIndex
    split <;> rfl
  rw [hpush]
  induction outer with
  | nil => simp [outerCtx, JsonParserCtx.create, outerModes]
  | cons frame outer ih =>
    cases frame with
    | array done =>
      simp [outerCtx, JsonParserCtx.openArray, outerModes, JsonFrame.mode]
    | member done k =>
      simp only [outerCtx, JsonParserCtx.withKey, JsonParserCtx.openObject, hpush, ih]
      simp [outerModes, JsonFrame.mode]

/-- A brace that closes an array is handled like a bracket. -/
theorem objectEnd_of_array (L : List LuaValue) (done : List Json) (outer : List JsonFrame) :
    ∃ ctx, jsonParserCb ((JsonPrefix.value (.array done) outer).ctx L) .objectEnd =
      some (true, ctx) ∧ L <:+ ctx.L :=
  close_outer L outer _ _ _

/-- A bracket that closes an object takes the index back that another array saved. -/
theorem arrayEnd_of_object (L : List LuaValue) (done : List (List Byte × Json))
    {outer : List JsonFrame} (h : .array ∈ outerModes outer) :
    ∃ ctx, jsonParserCb ((JsonPrefix.key done outer).ctx L) .arrayEnd = some (true, ctx) ∧
      L <:+ ctx.L := by
  cases hs : (outerCtx L outer).pushIndex.arrayStack with
  | nil => exact absurd h ((arrayStack_outer L outer).mp hs)
  | cons idx arrayStack =>
    obtain ⟨ctx, hclose, hsuffix⟩ := close_outer L outer (.table (storeMembers done [])) idx arrayStack
    refine ⟨ctx, ?_, hsuffix⟩
    simp only [JsonPrefix.ctx, JsonParserCtx.openObject, jsonParserCb, hs]
    exact hclose

theorem arrayEnd_of_object_none (L : List LuaValue) (done : List (List Byte × Json))
    {outer : List JsonFrame} (h : .array ∉ outerModes outer) :
    jsonParserCb ((JsonPrefix.key done outer).ctx L) .arrayEnd = none := by
  have hs := (arrayStack_outer L outer).mpr h
  simp only [JsonPrefix.ctx, JsonParserCtx.openObject, jsonParserCb, hs]

/-- `_json_parser_cb` finds the stacks it takes the top of non-empty. -/
def JsonParserCtx.StacksFound (ctx : JsonParserCtx) : JsonEvent → Prop
  | .arrayEnd => ctx.stateStack ≠ [] ∧ ctx.arrayStack ≠ []
  | .objectEnd => ctx.stateStack ≠ []
  | _ => True

theorem stacksFound_of_returns {ctx : JsonParserCtx} {event : JsonEvent}
    (h : jsonParserCb ctx event ≠ none) : ctx.StacksFound event := by
  cases event with
  | arrayEnd =>
    constructor
    · intro hs
      exact h (by simp only [jsonParserCb, hs])
    · intro hs
      apply h
      simp only [jsonParserCb, hs]
      split
      next he => cases he
      next => rfl
  | objectEnd =>
    intro hs
    exact h (by simp only [jsonParserCb, hs])
  | _ => trivial

theorem calls_found {ctx : JsonParserCtx} {events : List JsonEvent}
    (h : reportAll jsonParserCb ctx events ≠ none) :
    ∀ call ∈ calls jsonParserCb ctx events, call.1.StacksFound call.2 := by
  induction events generalizing ctx with
  | nil => simp [calls]
  | cons event events ih =>
    intro call hmem
    rw [reportAll] at h
    rw [calls] at hmem
    rcases List.mem_cons.mp hmem with rfl | hmem
    · apply stacksFound_of_returns
      intro hnone
      simp [hnone] at h
    · split at hmem
      next ctx' hc =>
        rw [hc] at h
        exact ih h call hmem
      next => simp at hmem

theorem Fits.call_last {p p' : JsonPrefix} {modes' : List JsonMode} {phase' : JsonPhase}
    (h' : Fits p' modes' phase') {events : List JsonEvent} {event : JsonEvent}
    (hevents : p.events ++ events = p'.events ++ [event]) (L : List LuaValue) :
    (p'.ctx L, event) ∈ calls jsonParserCb (.create L) (p.events ++ events) := by
  rw [hevents, calls_append_of (h'.report L)]
  exact List.mem_append_right _ List.mem_cons_self

theorem Fits.report_last {p p' : JsonPrefix} {modes modes' : List JsonMode}
    {phase phase' : JsonPhase} (h : Fits p modes phase) (h' : Fits p' modes' phase')
    {events : List JsonEvent} {event : JsonEvent}
    (hevents : p.events ++ events = p'.events ++ [event]) (L : List LuaValue) :
    reportAll jsonParserCb (p.ctx L) events = jsonParserCb (p'.ctx L) event := by
  rw [← reportAll_append_of (h.report L), hevents, reportAll_append_of (h'.report L),
    reportAll_single]

namespace JsonParser

theorem Fits.of_addChar {jc jc' : JsonParser} {p : JsonPrefix} {c : Byte} {class' : JsonClass}
    (h : jc.Fits p) (hadd : jc.addChar c class' = some jc') : jc'.Fits p := by
  obtain ⟨phase, hphase, hfits⟩ := h
  obtain ⟨hstate, htype, hstack⟩ := addChar_frame hadd
  exact ⟨phase, by rw [hstate, htype, hphase], by rw [hstack]; exact hfits⟩

end JsonParser

theorem Fits.report_objectEnd {p : JsonPrefix} {modes : List JsonMode} (h : Fits p modes .done)
    (hne : ∀ stack, modes ≠ .object :: stack) (L : List LuaValue) :
    (JsonParser.strayAction modes .objectEnd = false ∧
        ∃ ctx, jsonParserCb (p.ctx L) .objectEnd = some (true, ctx) ∧ L <:+ ctx.L) ∨
      (JsonParser.strayAction modes .objectEnd = true ∧
        jsonParserCb (p.ctx L) .objectEnd = none ∧ ¬(p.ctx L).StacksFound .objectEnd) := by
  cases h with
  | @array done outer _ _ =>
    exact .inl ⟨by simp [JsonParser.strayAction], objectEnd_of_array L done outer⟩
  | complete hd => exact .inr ⟨rfl, rfl, fun hfound => hfound rfl⟩
  | behind => exact absurd rfl (hne _)
  | member hm => simp at hm
  | key hkey => simp at hkey

theorem Fits.report_arrayEnd {p : JsonPrefix} {modes : List JsonMode} (h : Fits p modes .done)
    (hne : ∀ stack, modes ≠ .array :: stack) (L : List LuaValue) :
    (JsonParser.strayAction modes .arrayEnd = false ∧
        ∃ ctx, jsonParserCb (p.ctx L) .arrayEnd = some (true, ctx) ∧ L <:+ ctx.L) ∨
      (JsonParser.strayAction modes .arrayEnd = true ∧
        jsonParserCb (p.ctx L) .arrayEnd = none ∧ ¬(p.ctx L).StacksFound .arrayEnd) := by
  cases h with
  | array => exact absurd rfl (hne _)
  | complete hd => exact .inr ⟨rfl, rfl, fun hfound => hfound.1 rfl⟩
  | @behind done outer =>
    by_cases hmem : .array ∈ outerModes outer
    · exact .inl ⟨by simp [JsonParser.strayAction, hmem], arrayEnd_of_object L done hmem⟩
    · refine .inr ⟨by simp [JsonParser.strayAction, hmem], arrayEnd_of_object_none L done hmem, ?_⟩
      exact fun hfound => hfound.2 ((arrayStack_outer L outer).mpr hmem)
  | member hm => simp at hm
  | key hkey => simp at hkey

namespace JsonParser

/-- The calls for an action: they leave the part of the document that is reported then, or a
context over the old stack where the parser rejects; a stray bracket is undefined behaviour. -/
theorem Fits.report_plan {jc : JsonParser} {p : JsonPrefix} (h : jc.Fits p) (L : List LuaValue)
    (class' : JsonClass) {action : JsonAction}
    (haction : stateTransitionTable jc.state class' = action) {events : List JsonEvent}
    {r : Option JsonParser} (hplan : jc.plan action = (events, r)) :
    (strayAction jc.stack action = false ∧ ∃ ctx,
        reportAll jsonParserCb (p.ctx L) events = some (true, ctx) ∧ L <:+ ctx.L ∧
        ∀ jc', r = some jc' → ∃ p', p'.events = p.events ++ events ∧ jc'.Fits p' ∧
          ctx = p'.ctx L) ∨
      (strayAction jc.stack action = true ∧ r = none ∧
        reportAll jsonParserCb (p.ctx L) events = none ∧
        ∃ call ∈ calls jsonParserCb (.create L) (p.events ++ events), ¬call.1.StacksFound call.2) := by
  obtain ⟨phase, hphase, hfits⟩ := h
  have hact := actionOf_transition hphase class'
  rw [haction] at hact
  cases r with
  | some jc' =>
    obtain ⟨p', hevents, phase', hphase', hfits'⟩ := hfits.plan hphase hact hplan
    refine .inl ⟨?_, p'.ctx L, hfits.report_next hfits' hevents L, hfits'.ctx_suffix L, ?_⟩
    · cases action with
      | objectEnd =>
        obtain ⟨_, hpop, _⟩ := Option.map_eq_some_iff.mp (Prod.mk.inj hplan).2
        obtain ⟨stack, hstack, _⟩ := pop_eq_some hpop
        have hmodes : jc.stack = .object :: stack := hstack
        simp [strayAction, hmodes]
      | arrayEnd =>
        obtain ⟨_, hpop, _⟩ := Option.map_eq_some_iff.mp (Prod.mk.inj hplan).2
        obtain ⟨stack, hstack, _⟩ := pop_eq_some hpop
        have hmodes : jc.stack = .array :: stack := hstack
        simp [strayAction, hmodes]
      | _ => rfl
    · intro jc'' he
      cases he
      exact ⟨p', hevents, ⟨phase', hphase', hfits'⟩, rfl⟩
  | none =>
    rcases hfits.plan_none hphase hact hplan with rfl | ⟨p', hevents, hfits', rfl, hne⟩ |
      ⟨p', hevents, hfits', rfl, hne⟩
    · refine .inl ⟨?_, p.ctx L, rfl, hfits.ctx_suffix L, fun _ he => by cases he⟩
      cases action with
      | objectEnd | arrayEnd => exact absurd (Prod.mk.inj hplan).1 (by simp)
      | _ => rfl
    · rw [hfits.report_last hfits' hevents L]
      rcases hfits'.report_objectEnd hne L with
        ⟨hstray, ctx, hcall, hsuffix⟩ | ⟨hstray, hcall, hfound⟩
      · exact .inl ⟨hstray, ctx, hcall, hsuffix, fun _ he => by cases he⟩
      · exact .inr ⟨hstray, rfl, hcall, _, hfits'.call_last hevents L, hfound⟩
    · rw [hfits.report_last hfits' hevents L]
      rcases hfits'.report_arrayEnd hne L with
        ⟨hstray, ctx, hcall, hsuffix⟩ | ⟨hstray, hcall, hfound⟩
      · exact .inl ⟨hstray, ctx, hcall, hsuffix, fun _ he => by cases he⟩
      · exact .inr ⟨hstray, rfl, hcall, _, hfits'.call_last hevents L, hfound⟩

theorem Fits.report_step {jc : JsonParser} {p : JsonPrefix} (h : jc.Fits p) (L : List LuaValue)
    (c : Byte) :
    (jc.stray c = false ∧ ∃ ctx,
        reportAll jsonParserCb (p.ctx L) (jc.step c).1 = some (true, ctx) ∧ L <:+ ctx.L ∧
        ∀ jc', (jc.step c).2 = some jc' → ∃ p', p'.events = p.events ++ (jc.step c).1 ∧
          jc'.Fits p' ∧ ctx = p'.ctx L) ∨
      (jc.stray c = true ∧ (jc.step c).2 = none ∧
        reportAll jsonParserCb (p.ctx L) (jc.step c).1 = none ∧
        ∃ call ∈ calls jsonParserCb (.create L) (p.events ++ (jc.step c).1),
          ¬call.1.StacksFound call.2) := by
  have hsuffix : L <:+ (p.ctx L).L := by
    obtain ⟨_, _, hfits⟩ := h
    exact hfits.ctx_suffix L
  cases hclass : nextClass c with
  | none =>
    refine .inl ⟨by simp [stray, action?, hclass], p.ctx L, ?_, hsuffix, ?_⟩
    · simp [step, hclass, reportAll]
    · simp [step, hclass]
  | some class' =>
    cases hadd : jc.addChar c class' with
    | none =>
      refine .inl ⟨by simp [stray, action?, hclass, hadd], p.ctx L, ?_, hsuffix, ?_⟩
      · simp [step, hclass, hadd, reportAll]
      · simp [step, hclass, hadd]
    | some jc₁ =>
      have hstep : jc.step c = jc₁.plan (stateTransitionTable jc₁.state class') := by
        simp [step, hclass, hadd]
      have hstray : jc.stray c =
          strayAction jc₁.stack (stateTransitionTable jc₁.state class') := by
        simp [stray, action?, hclass, hadd, (addChar_frame hadd).2.2]
      rw [hstep, hstray]
      exact (h.of_addChar hadd).report_plan L class' rfl rfl

theorem new_fits : new.Fits .start := ⟨.start, rfl, .start⟩

/-- Fed without stray brackets, the parser and the callback go on together. -/
theorem Fits.feed_straight {jc : JsonParser} {p : JsonPrefix} (h : jc.Fits p) {s : List Byte}
    (hs : jc.Straight s) (L : List LuaValue) :
    ∃ ctx, jc.feed jsonParserCb (p.ctx L) s = some ((jc.run s).2, ctx) ∧ L <:+ ctx.L ∧
      ∀ jc', (jc.run s).2 = some jc' → ∃ p', p'.events = p.events ++ (jc.run s).1 ∧ jc'.Fits p' ∧
        ctx = p'.ctx L := by
  induction s generalizing jc p with
  | nil =>
    refine ⟨p.ctx L, rfl, ?_, ?_⟩
    · obtain ⟨_, _, hfits⟩ := h
      exact hfits.ctx_suffix L
    · intro jc' he
      cases he
      exact ⟨p, (List.append_nil _).symm, h, rfl⟩
  | cons c s ih =>
    obtain ⟨hstray, hrest⟩ := hs
    rcases h.report_step L c with ⟨_, ctx, hcalls, hsuffix, hfits⟩ | ⟨hstray', _, _⟩
    · rw [feed, char_eq, hcalls, settle]
      rcases hstep : jc.step c with ⟨events, _ | jc'⟩
      · refine ⟨ctx, ?_, hsuffix, ?_⟩
        · simp only [run, hstep]
        · intro jc' he
          rw [run, hstep] at he
          cases he
      · obtain ⟨p', hevents, hfits', rfl⟩ := hfits jc' (by rw [hstep])
        obtain ⟨ctx', hfeed, hsuffix', hfits''⟩ := ih hfits' (hrest jc' (by rw [hstep]))
        refine ⟨ctx', ?_, hsuffix', ?_⟩
        · simp only [run, hstep]
          exact hfeed
        · intro jc'' he
          rw [run, hstep] at he
          obtain ⟨p'', hevents', hfits₂, hctx⟩ := hfits'' jc'' he
          refine ⟨p'', ?_, hfits₂, hctx⟩
          rw [hevents', hevents, hstep, run, hstep, List.append_assoc]
    · rw [hstray] at hstray'
      cases hstray'

/-- A stray bracket is fed to a callback that takes the top of an empty stack. -/
theorem Fits.feed_stray {jc : JsonParser} {p : JsonPrefix} (h : jc.Fits p) {s : List Byte}
    (hs : ¬jc.Straight s) (L : List LuaValue) :
    jc.feed jsonParserCb (p.ctx L) s = none ∧
      ∃ call ∈ calls jsonParserCb (.create L) (p.events ++ (jc.run s).1),
        ¬call.1.StacksFound call.2 := by
  induction s generalizing jc p with
  | nil => exact absurd trivial hs
  | cons c s ih =>
    rw [feed, char_eq, run]
    rcases h.report_step L c with ⟨hstray, ctx, hcalls, _, hfits⟩ | ⟨_, hnone, hcalls, hfound⟩
    · have hrest : ∃ jc', (jc.step c).2 = some jc' ∧ ¬jc'.Straight s := by
        by_contra hno
        apply hs
        refine ⟨hstray, fun jc' he => ?_⟩
        by_contra hns
        exact hno ⟨jc', he, hns⟩
      obtain ⟨jc', hstep, hns⟩ := hrest
      obtain ⟨p', hevents, hfits', rfl⟩ := hfits jc' hstep
      have hrec := ih hfits' hns
      rcases hjc : jc.step c with ⟨events, r⟩
      rw [hjc] at hstep hcalls hevents
      cases hstep
      rw [hevents, List.append_assoc] at hrec
      rw [hcalls]
      exact hrec
    · rcases hjc : jc.step c with ⟨events, r⟩
      rw [hjc] at hnone hcalls hfound
      cases hnone
      rw [hcalls]
      exact ⟨rfl, hfound⟩

/-- A stray bracket is rejected, so a text that is not has none. -/
theorem Fits.straight {jc jc' : JsonParser} {p : JsonPrefix} (h : jc.Fits p) {s : List Byte}
    (hrun : (jc.run s).2 = some jc') : jc.Straight s := by
  induction s generalizing jc p with
  | nil => trivial
  | cons c s ih =>
    rw [run] at hrun
    rcases h.report_step [] c with ⟨hstray, ctx, _, _, hfits⟩ | ⟨_, hnone, _⟩
    · refine ⟨hstray, ?_⟩
      intro jc₁ hstep
      obtain ⟨p', _, hfits', _⟩ := hfits jc₁ hstep
      rcases hjc : jc.step c with ⟨events, r⟩
      rw [hjc] at hstep hrun
      cases hstep
      exact ih hfits' hrun
    · rcases hjc : jc.step c with ⟨events, r⟩
      rw [hjc] at hnone hrun
      cases hnone
      cases hrun

end JsonParser

end Tnode
