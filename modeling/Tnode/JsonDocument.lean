import Tnode.JsonCallback

namespace Tnode

inductive Json
  | null
  | boolean (b : Bool)
  | integer (n : Int)
  | float (x : Double)
  | string (s : List Byte)
  | array (elements : List Json)
  | object (members : List (List Byte × Json))

mutual

/-- The reports about a document, in its order. -/
def Json.events : Json → List JsonEvent
  | .null => [.null]
  | .boolean b => [if b then .true else .false]
  | .integer n => [.integer n]
  | .float x => [.float x]
  | .string s => [.string s]
  | .array elements => .arrayBegin :: (elementEvents elements ++ [.arrayEnd])
  | .object members => .objectBegin :: (memberEvents members ++ [.objectEnd])

def elementEvents : List Json → List JsonEvent
  | [] => []
  | e :: elements => e.events ++ elementEvents elements

def memberEvents : List (List Byte × Json) → List JsonEvent
  | [] => []
  | (k, e) :: members => .key k :: (e.events ++ memberEvents members)

end

mutual

/-- An array is or occurs in the document. -/
def Json.hasArray : Json → Bool
  | .array _ => true
  | .object members => memberArray members
  | _ => false

def memberArray : List (List Byte × Json) → Bool
  | [] => false
  | (_, e) :: members => e.hasArray || memberArray members

end

def Json.IsContainer : Json → Prop
  | .array _ | .object _ => True
  | _ => False

/-- What becomes of the index of the array around a value: an array in it saves the index as
a `char`. -/
def Json.restored (d : Json) (idx : Int) : Int := if d.hasArray then schar idx else idx

theorem representable_int32 (n : Int) : binary64.Representable (int32 n) := by
  apply representable_of_small
  have hbounds := int32_bounds n
  rw [abs_lt]
  omega

/-- The key `lua_pushinteger` makes of an index. -/
def indexKey (idx : Int) : LuaKey := .number (.finite (int32 idx) (representable_int32 idx))

mutual

/-- The value the callback leaves for a document. -/
def Json.decoded : Json → LuaValue
  | .null => .nil
  | .boolean b => .boolean b
  | .integer n => pushinteger n
  | .float x => .number x
  | .string s => jsonParserSpecialType s
  | .array elements => .table (storeElements 1 elements [])
  | .object members => .table (storeMembers members [])

/-- The elements of an array stored from the index `idx` on. -/
def storeElements (idx : Int) : List Json → LuaTable → LuaTable
  | [], t => t
  | e :: elements, t =>
    storeElements (e.restored (int32 (idx + 1))) elements (settable t (indexKey idx) e.decoded)

def storeMembers : List (List Byte × Json) → LuaTable → LuaTable
  | [], t => t
  | (k, e) :: members, t => storeMembers members (settable t (.string k) e.decoded)

end

/-- The index behind the elements of an array. -/
def indexAfter (idx : Int) : List Json → Int
  | [] => idx
  | e :: elements => indexAfter (e.restored (int32 (idx + 1))) elements

theorem int32_int32 (n : Int) : int32 (int32 n) = int32 n := Int.bmod_bmod

theorem int32_schar (n : Int) : int32 (schar n) = schar n := by
  have hle := Int.le_bmod (x := n) (m := 2 ^ 8) (by decide)
  have hlt := Int.bmod_lt (x := n) (m := 2 ^ 8) (by decide)
  unfold int32 schar
  rw [Int.bmod_def]
  split <;> omega

theorem schar_schar (n : Int) : schar (schar n) = schar n := Int.bmod_bmod

theorem Json.int32_restored (d : Json) {idx : Int} (h : int32 idx = idx) :
    int32 (d.restored idx) = d.restored idx := by
  unfold Json.restored
  split
  next => exact int32_schar idx
  next => exact h

theorem Json.restored_members (e : Json) (k : List Byte) (members : List (List Byte × Json))
    (idx : Int) :
    (if memberArray members then schar (e.restored idx) else e.restored idx) =
      if memberArray ((k, e) :: members) then schar idx else idx := by
  simp only [Json.restored, memberArray]
  by_cases he : e.hasArray = true <;> by_cases hm : memberArray members = true <;>
    simp [he, hm, schar_schar]

theorem pushinteger_int32 {idx : Int} (h : int32 idx = idx) :
    (pushinteger idx).key? = some (indexKey idx) := by
  have hbounds := int32_eq_self_iff.mp h
  have hr := representable_int32 idx
  have hp : pushinteger idx = .number (.finite idx (by rwa [h] at hr)) :=
    pushinteger_of_representable (by omega) _
  simp only [hp, LuaValue.key?, indexKey, h]

theorem reportAll_single {σ : Type} (callback : σ → JsonEvent → Option (Bool × σ)) (ctx : σ)
    (event : JsonEvent) : reportAll callback ctx [event] = callback ctx event := by
  rw [reportAll]
  split
  next ctx' h =>
    rw [h]
    rfl
  next => rfl

namespace JsonParserCtx

/-- The context when the value `d` stands on top, before it is assigned. -/
def holding (ctx : JsonParserCtx) (d : Json) : JsonParserCtx :=
  { ctx.pushIndex with
    L := d.decoded :: ctx.pushIndex.L
    arrayIdx := d.restored ctx.pushIndex.arrayIdx }

/-- A scalar may be reported here. -/
def TakesScalar (ctx : JsonParserCtx) : Prop :=
  ctx.curState = .inArray ∨ ctx.curState = .inTable ∧ 0 < ctx.keyLvl

theorem scalar_eq_close {ctx : JsonParserCtx} (h : ctx.TakesScalar) (v : LuaValue) :
    ctx.scalar v = { ctx.pushIndex with L := v :: ctx.pushIndex.L }.close := by
  rcases h with h | ⟨h, hk⟩
  · simp [scalar, close, pushIndex, h]
  · simp [scalar, close, pushIndex, h, hk]

theorem close_inArray {ctx : JsonParserCtx} {v k : LuaValue} {k' : LuaKey} {t : LuaTable}
    {L : List LuaValue} (hs : ctx.curState = .inArray) (hL : ctx.L = v :: k :: .table t :: L)
    (hk : k.key? = some k') :
    ctx.close = some (true, { ctx with L := .table (settable t k' v) :: L }) := by
  simp [close, hs, assign, hL, luaSettable, hk]

theorem close_inTable {ctx : JsonParserCtx} {v k : LuaValue} {k' : LuaKey} {t : LuaTable}
    {L : List LuaValue} {n : Nat} (hs : ctx.curState = .inTable)
    (hL : ctx.L = v :: k :: .table t :: L) (hk : k.key? = some k') (hn : ctx.keyLvl = n + 1) :
    ctx.close = some (true, { ctx with L := .table (settable t k' v) :: L, keyLvl := n }) := by
  simp [close, hs, assign, hL, luaSettable, hk, hn]

theorem pushIndex_inArray {ctx : JsonParserCtx} (hs : ctx.curState = .inArray) :
    ctx.pushIndex =
      { ctx with L := pushinteger ctx.arrayIdx :: ctx.L, arrayIdx := int32 (ctx.arrayIdx + 1) } :=
  if_pos hs

theorem pushIndex_of_ne {ctx : JsonParserCtx} (hs : ctx.curState ≠ .inArray) :
    ctx.pushIndex = ctx := if_neg hs

theorem holding_close_inArray {ctx : JsonParserCtx} {t : LuaTable} {L : List LuaValue} (d : Json)
    (hs : ctx.curState = .inArray) (hL : ctx.L = .table t :: L)
    (hidx : int32 ctx.arrayIdx = ctx.arrayIdx) :
    (ctx.holding d).close = some (true, { ctx with
      L := .table (settable t (indexKey ctx.arrayIdx) d.decoded) :: L
      arrayIdx := d.restored (int32 (ctx.arrayIdx + 1)) }) := by
  rw [holding, pushIndex_inArray hs]
  exact close_inArray hs (by simp only [hL]) (pushinteger_int32 hidx)

theorem holding_close_inTable {ctx : JsonParserCtx} {k : List Byte} {t : LuaTable}
    {L : List LuaValue} {n : Nat} (d : Json) (hs : ctx.curState = .inTable)
    (hL : ctx.L = .string k :: .table t :: L) (hn : ctx.keyLvl = n + 1) :
    (ctx.holding d).close = some (true, { ctx with
      L := .table (settable t (.string k) d.decoded) :: L
      keyLvl := n
      arrayIdx := d.restored ctx.arrayIdx }) := by
  have hne : ctx.curState ≠ .inArray := by
    rw [hs]
    decide
  rw [holding, pushIndex_of_ne hne]
  exact close_inTable hs (congrArg (d.decoded :: ·) hL) rfl hn

theorem holding_close_none {ctx : JsonParserCtx} (d : Json) (hs : ctx.curState = .none) :
    (ctx.holding d).close = some (true, { ctx with
      L := d.decoded :: ctx.L
      arrayIdx := d.restored ctx.arrayIdx }) := by
  simp [close, holding, pushIndex, hs]

end JsonParserCtx

mutual

/-- A value is built on the stack and then assigned like a scalar. -/
theorem Json.report : ∀ (d : Json) (ctx : JsonParserCtx), d.IsContainer ∨ ctx.TakesScalar →
    reportAll jsonParserCb ctx d.events = (ctx.holding d).close
  | .null, ctx, h | .boolean true, ctx, h | .boolean false, ctx, h | .integer _, ctx, h
  | .float _, ctx, h | .string _, ctx, h => by
    have ht : ctx.TakesScalar := h.resolve_left id
    simp only [Json.events, reportAll_single]
    exact JsonParserCtx.scalar_eq_close ht _
  | .array elements, ctx, _ => by
    simp only [Json.events, reportAll, jsonParserCb]
    rw [reportAll_append_of (reportElements elements _ rfl rfl rfl), reportAll_single]
    rfl
  | .object members, ctx, _ => by
    simp only [Json.events, reportAll, jsonParserCb]
    rw [reportAll_append_of (reportMembers members _ rfl rfl), reportAll_single]
    rfl

theorem reportElements : ∀ (elements : List Json) (ctx : JsonParserCtx) {t : LuaTable}
    {L : List LuaValue}, ctx.curState = .inArray → ctx.L = .table t :: L →
    int32 ctx.arrayIdx = ctx.arrayIdx →
    reportAll jsonParserCb ctx (elementEvents elements) = some (true, { ctx with
      L := .table (storeElements ctx.arrayIdx elements t) :: L
      arrayIdx := indexAfter ctx.arrayIdx elements })
  | [], ctx, t, L, hs, hL, hidx => by
    simp [elementEvents, reportAll, storeElements, indexAfter, ← hL]
  | e :: elements, ctx, t, L, hs, hL, hidx => by
    have he := e.report ctx (.inr (.inl hs))
    rw [JsonParserCtx.holding_close_inArray e hs hL hidx] at he
    have hidx' := e.int32_restored (int32_int32 (ctx.arrayIdx + 1))
    have hrest := reportElements elements { ctx with
      L := .table (settable t (indexKey ctx.arrayIdx) e.decoded) :: L
      arrayIdx := e.restored (int32 (ctx.arrayIdx + 1)) } hs rfl hidx'
    rw [elementEvents, reportAll_append_of he, hrest, storeElements, indexAfter]

theorem reportMembers : ∀ (members : List (List Byte × Json)) (ctx : JsonParserCtx) {t : LuaTable}
    {L : List LuaValue}, ctx.curState = .inTable → ctx.L = .table t :: L →
    reportAll jsonParserCb ctx (memberEvents members) = some (true, { ctx with
      L := .table (storeMembers members t) :: L
      arrayIdx := if memberArray members then schar ctx.arrayIdx else ctx.arrayIdx })
  | [], ctx, t, L, hs, hL => by
    simp [memberEvents, reportAll, storeMembers, memberArray, ← hL]
  | (k, e) :: members, ctx, t, L, hs, hL => by
    let named : JsonParserCtx := { ctx with L := .string k :: ctx.L, keyLvl := ctx.keyLvl + 1 }
    have hstate : named.curState = .inTable := hs
    have htop : named.L = .string k :: .table t :: L := congrArg _ hL
    have he := e.report named (.inr (.inr ⟨hs, Nat.succ_pos _⟩))
    rw [JsonParserCtx.holding_close_inTable e hstate htop rfl] at he
    have hrest := reportMembers members { ctx with
      L := .table (settable t (.string k) e.decoded) :: L
      arrayIdx := e.restored ctx.arrayIdx } hs rfl
    have hcall : reportAll jsonParserCb ctx (memberEvents ((k, e) :: members)) =
        reportAll jsonParserCb named (e.events ++ memberEvents members) := rfl
    have hidx := e.restored_members k members ctx.arrayIdx
    rw [hcall, reportAll_append_of he, hrest, storeMembers, ← hidx]

end

theorem Json.report_create {d : Json} (h : d.IsContainer) (L : List LuaValue) :
    reportAll jsonParserCb (.create L) d.events =
      some (true, { JsonParserCtx.create L with L := d.decoded :: L, arrayIdx := d.restored 1 }) := by
  have hs : (JsonParserCtx.create L).curState = .none := rfl
  rw [d.report _ (.inl h), JsonParserCtx.holding_close_none d hs]
  rfl

end Tnode
