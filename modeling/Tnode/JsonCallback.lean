import Tnode.Descriptor

namespace Tnode

/-- What the parser reports: a type with the value that goes with it. -/
inductive JsonEvent
  | arrayBegin
  | arrayEnd
  | objectBegin
  | objectEnd
  | integer (n : Int)
  | float (x : Double)
  | null
  | true
  | false
  | string (s : List Byte)
  | key (s : List Byte)
deriving DecidableEq

/-- `json_paser_state`. -/
inductive JsonPaserState
  | none
  | inArray
  | inTable
deriving DecidableEq, Repr

/-- `luaT_json_parser_ctx`; `L` is the stack of the interpreter, its top first. It has no bound here,
as the callback does not ask for one. -/
structure JsonParserCtx where
  L : List LuaValue
  keyLvl : Nat
  curState : JsonPaserState
  stateStack : List JsonPaserState
  arrayIdx : Int
  arrayStack : List Int

def JsonParserCtx.create (L : List LuaValue) : JsonParserCtx := ⟨L, 0, .none, [], 1, []⟩

/-- A number kept as an `int`. -/
def int32 (n : Int) : Int := n.bmod (2 ^ 32)

theorem int32_bounds (n : Int) : -2 ^ 31 ≤ int32 n ∧ int32 n < 2 ^ 31 := by
  have hle := Int.le_bmod (x := n) (m := 2 ^ 32) (by decide)
  have hlt := Int.bmod_lt (x := n) (m := 2 ^ 32) (by decide)
  unfold int32
  omega

theorem int32_eq_self_iff {n : Int} : int32 n = n ↔ -2 ^ 31 ≤ n ∧ n < 2 ^ 31 := by
  have hbounds := int32_bounds n
  constructor
  · intro h
    omega
  · intro h
    exact Int.bmod_eq_of_le (by omega) (by omega)

/-- A number kept as a `char`, which is signed. -/
def schar (n : Int) : Int := n.bmod (2 ^ 8)

def isspace (c : Byte) : Bool := c = 32 || (9 ≤ c && c ≤ 13)

/-- The value of a hexadecimal digit. -/
def xdigit (c : Byte) : Option Nat :=
  if 48 ≤ c ∧ c ≤ 57 then some (c.toNat - 48)
  else if 65 ≤ c ∧ c ≤ 70 then some (c.toNat - 55)
  else if 97 ≤ c ∧ c ≤ 102 then some (c.toNat - 87)
  else none

def ULONG_MAX : Nat := 2 ^ 64 - 1

/-- The sign that may stand in front of a number. -/
def signed : List Byte → Bool × List Byte
  | 43 :: s => (false, s)
  | 45 :: s => (true, s)
  | s => (false, s)

/-- The prefix `0x` counts as one only in front of a digit. -/
def skip0x : List Byte → List Byte
  | 48 :: x :: d :: s =>
    if (x = 120 ∨ x = 88) ∧ (xdigit d).isSome then d :: s else 48 :: x :: d :: s
  | s => s

/-- `strtoull(s, nullptr, 16)`. -/
def strtoull16 (s : List Byte) : Nat :=
  let (negative, digits) := signed (s.dropWhile isspace)
  let n := ((skip0x digits).map xdigit |>.takeWhile Option.isSome).foldl
    (fun n d => 16 * n + d.getD 0) 0
  if ULONG_MAX < n then ULONG_MAX else if negative then (2 ^ 64 - n) % 2 ^ 64 else n

/-- The text behind the pointer `strchr(s, c)`; there is none for a null pointer. -/
def strchr (s : List Byte) (c : Byte) : List Byte := (cstr s).dropWhile (· ≠ c)

/-- The value that `_json_parser_special_type` assigns. -/
def jsonParserSpecialType (value : List Byte) : LuaValue :=
  if bytes "function" <+: value then
    match strchr value 58 with
    | _ :: p =>
      if strtoull16 p ≠ 0 ∧ strtoull16 p ≠ ULONG_MAX then .cfunction (strtoull16 p)
      else .string value
    | [] => .string value
  else .string value

/-- The key a value is as an index; `none` stands for the values that are not used as one. -/
def LuaValue.key? : LuaValue → Option LuaKey
  | .boolean b => some (.boolean b)
  | .number .nan => none
  | .number .negZero => some (.number (.finite 0 binary64.representable_zero))
  | .number x => some (.number x)
  | .string s => some (.string s)
  | _ => none

/-- `lua_settable(L, -3)`; `none` is an error of the interpreter. -/
def luaSettable : List LuaValue → Option (List LuaValue)
  | v :: k :: .table t :: L => k.key?.map fun k => .table (settable t k v) :: L
  | _ => none

namespace JsonParserCtx

/-- The start of an element of an array: its index is pushed. -/
def pushIndex (ctx : JsonParserCtx) : JsonParserCtx :=
  if ctx.curState = .inArray then
    { ctx with L := pushinteger ctx.arrayIdx :: ctx.L, arrayIdx := int32 (ctx.arrayIdx + 1) }
  else ctx

/-- The assignment of the value on top; `none` is undefined behaviour. -/
def assign (ctx : JsonParserCtx) : Option JsonParserCtx :=
  (luaSettable ctx.L).map fun L => { ctx with L }

/-- The cases of `_json_parser_cb` that report a scalar, which becomes `v`. -/
def scalar (ctx : JsonParserCtx) (v : LuaValue) : Option (Bool × JsonParserCtx) :=
  match ctx.curState with
  | .inTable =>
    if 0 < ctx.keyLvl then
      ({ ctx with L := v :: ctx.L, keyLvl := ctx.keyLvl - 1 } : JsonParserCtx).assign.map (true, ·)
    else some (false, ctx)
  | .inArray =>
    ({ ctx.pushIndex with L := v :: ctx.pushIndex.L } : JsonParserCtx).assign.map (true, ·)
  | .none => some (false, ctx)

/-- The end of an array or an object, after the state around it has been restored. -/
def close (ctx : JsonParserCtx) : Option (Bool × JsonParserCtx) :=
  match ctx.curState with
  | .inTable =>
    if 0 < ctx.keyLvl then { ctx with keyLvl := ctx.keyLvl - 1 }.assign.map (true, ·)
    else some (false, ctx)
  | .inArray => ctx.assign.map (true, ·)
  | .none => some (true, ctx)

end JsonParserCtx

/-- `_json_parser_cb`: what it returns and what it leaves; `none` is undefined behaviour. -/
def jsonParserCb (jpctx : JsonParserCtx) : JsonEvent → Option (Bool × JsonParserCtx)
  | .arrayBegin =>
    let ctx := jpctx.pushIndex
    some (true, { ctx with
      L := .table [] :: ctx.L
      stateStack := ctx.curState :: ctx.stateStack
      curState := .inArray
      arrayStack := schar ctx.arrayIdx :: ctx.arrayStack
      arrayIdx := 1 })
  | .arrayEnd =>
    match jpctx.stateStack, jpctx.arrayStack with
    | state :: stateStack, idx :: arrayStack =>
      { jpctx with curState := state, stateStack, arrayIdx := idx, arrayStack }.close
    | _, _ => none
  | .objectBegin =>
    let ctx := jpctx.pushIndex
    some (true, { ctx with
      L := .table [] :: ctx.L
      stateStack := ctx.curState :: ctx.stateStack
      curState := .inTable })
  | .objectEnd =>
    match jpctx.stateStack with
    | state :: stateStack => { jpctx with curState := state, stateStack }.close
    | [] => none
  | .integer n => jpctx.scalar (pushinteger n)
  | .float x => jpctx.scalar (.number x)
  | .null => jpctx.scalar .nil
  | .true => jpctx.scalar (.boolean true)
  | .false => jpctx.scalar (.boolean false)
  | .string s => jpctx.scalar (jsonParserSpecialType s)
  | .key s => some (true, { jpctx with L := .string s :: jpctx.L, keyLvl := jpctx.keyLvl + 1 })

/-- The calls of a callback, up to the first that returns zero. -/
def reportAll {σ : Type} (callback : σ → JsonEvent → Option (Bool × σ)) :
    σ → List JsonEvent → Option (Bool × σ)
  | ctx, [] => some (true, ctx)
  | ctx, event :: events =>
    match callback ctx event with
    | some (true, ctx) => reportAll callback ctx events
    | r => r

theorem reportAll_append {σ : Type} (callback : σ → JsonEvent → Option (Bool × σ)) (ctx : σ)
    (events events' : List JsonEvent) :
    reportAll callback ctx (events ++ events') =
      match reportAll callback ctx events with
      | some (true, ctx) => reportAll callback ctx events'
      | r => r := by
  induction events generalizing ctx with
  | nil => rfl
  | cons event events ih =>
    rw [List.cons_append, reportAll, reportAll]
    split
    next ctx' h => exact ih ctx'
    next h =>
      split
      next ctx' h' => exact absurd h' (h ctx')
      next => rfl

theorem reportAll_append_of {σ : Type} {callback : σ → JsonEvent → Option (Bool × σ)}
    {ctx ctx' : σ} {events : List JsonEvent} (h : reportAll callback ctx events = some (true, ctx'))
    (events' : List JsonEvent) :
    reportAll callback ctx (events ++ events') = reportAll callback ctx' events' := by
  rw [reportAll_append, h]

/-- The calls of a callback, each with the context it finds, up to the first that does not
return non-zero. -/
def calls {σ : Type} (callback : σ → JsonEvent → Option (Bool × σ)) :
    σ → List JsonEvent → List (σ × JsonEvent)
  | _, [] => []
  | ctx, event :: events =>
    (ctx, event) ::
      match callback ctx event with
      | some (true, ctx) => calls callback ctx events
      | _ => []

theorem calls_append_of {σ : Type} {callback : σ → JsonEvent → Option (Bool × σ)}
    {ctx ctx' : σ} {events : List JsonEvent} (h : reportAll callback ctx events = some (true, ctx'))
    (events' : List JsonEvent) :
    calls callback ctx (events ++ events') = calls callback ctx events ++ calls callback ctx' events' := by
  induction events generalizing ctx with
  | nil =>
    cases h
    rfl
  | cons event events ih =>
    rw [reportAll] at h
    rw [List.cons_append, calls, calls]
    split at h
    next ctx₁ hc =>
      rw [ih h, List.cons_append]
    next hne =>
      exact absurd h (hne ctx')

end Tnode
