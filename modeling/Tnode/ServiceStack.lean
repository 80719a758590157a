import Tnode.Sequences
import Tnode.Transitions
import Mathlib.Data.List.GetD

namespace Tnode

open Transitions

namespace ServiceStack

/-- The Lua stack of a service, its top first. -/
abbrev Stack := List LuaValue

def isFunction : LuaValue → Bool
  | .cfunction _ => true
  | _ => false

/-- `luaT_Value`. -/
inductive LuaTValue
  | nil
  | bool (b : Bool)
  | integer (n : Int)
  | number (x : Double)
  | string (s : List Byte)

/-- What the script makes of a protected call: the global `__G_TRACKBACK__` at the time, and the
error or the result. -/
structure ProtectedCall where
  traceback : LuaValue
  result : Except LuaValue LuaValue

/-- `lua_insert(L, -k)`. -/
def luaInsert (k : Nat) : Stack → Stack
  | [] => []
  | x :: L => L.take (k - 1) ++ x :: L.drop (k - 1)

/-- `lua_pcall(L, args, 1, traceback)`. -/
def luaPcall (args : Nat) (call : ProtectedCall) (L : Stack) : Stack :=
  match call.result with
  | .ok v => v :: L.drop (args + 1)
  | .error e => e :: L.drop (args + 1)

/-- `isInteger`. -/
def isInteger (x : Double) : Bool :=
  match x with
  | .negZero => true
  | x => binary64.round (castInteger x) = x

section

variable (lua : Lua)

/-- The part of `luaT_pcall` that reads the return value. -/
def returnValue : LuaValue → LuaTValue
  | .boolean b => .bool b
  | .number x => if isInteger x then .integer (castInteger x) else .number x
  | .string s =>
    match lua.strscan s with
    | some x => if isInteger x then .integer (castInteger x) else .number x
    | none => .string (cstr s)
  | _ => .nil

/-- `luaT_pcall`: what it returns, the value in `ret`, and the stack. -/
def luaTPcall (args : Nat) (call : ProtectedCall) (L : Stack) : Bool × LuaTValue × Stack :=
  if isFunction (L.getD args .nil) then
    let L := call.traceback :: L
    if isFunction (L.getD 0 .nil) then
      let L := luaPcall args call (luaInsert (args + 2) L)
      match call.result with
      | .error _ => (false, .nil, L.drop 2)
      | .ok _ => (true, returnValue lua (L.getD 0 .nil), (L.drop 1).drop 1)
    else
      let L := luaPcall args call (L.drop 1)
      match call.result with
      | .error _ => (false, .nil, L.drop 1)
      | .ok _ => (true, returnValue lua (L.getD 0 .nil), L.drop 1)
  else (false, .nil, L.drop (args + 1))

/-- `luaT_execString`; `chunk` is what `luaL_loadstring` pushes, the function or a message. -/
def luaTExecString (chunk : LuaValue) (call : ProtectedCall) (L : Stack) : Bool × Stack :=
  let (rc, _, L) := luaTPcall lua 0 call (chunk :: L)
  (rc, L)

/-- `luaT_cleanup`. -/
def luaTCleanup (_ : Stack) : Stack := []

/-- A message to route: the global `dispatch` at the time, and its call. -/
structure Routed where
  entityid : Nat
  msgid : Nat
  dispatch : LuaValue
  call : ProtectedCall

/-- A message to handle: the global `msgParser` at the time, the table that `decode` pushes or
what it leaves behind when it fails, and the call. -/
structure Handled where
  fd : Nat
  entityid : Nat
  msgid : Nat
  msgParser : LuaValue
  decoded : Except Stack LuaTable
  call : ProtectedCall

def illegalService : Nat := 2 ^ 32 - 1

/-- `Service::dispatch`. -/
def dispatch (m : Routed) (L : Stack) : Nat × Stack :=
  let L := m.dispatch :: L
  if isFunction (L.getD 0 .nil) then
    match luaTPcall lua 2 m.call (pushinteger m.msgid :: pushinteger m.entityid :: L) with
    | (false, _, L) => (illegalService, L)
    | (true, ret, L) =>
      match ret with
      | .integer n => ((n % 2 ^ 32).toNat, luaTCleanup L)
      | _ => (illegalService, luaTCleanup L)
  else (illegalService, L)

/-- `Service::msgParser`. -/
def msgParser (m : Handled) (L : Stack) : Bool × Stack :=
  let L := m.msgParser :: L
  if isFunction (L.getD 0 .nil) then
    let L := pushinteger m.msgid :: pushinteger m.entityid :: pushinteger m.fd :: L
    match m.decoded with
    | .ok t =>
      let (rc, _, L) := luaTPcall lua 4 m.call (.table t :: L)
      (rc, luaTCleanup L)
    | .error slots => (false, luaTCleanup (slots ++ L))
  else (false, L)

end

/-- A call that a message leads to on the service. -/
inductive Call
  | dispatch (m : Routed)
  | msgParser (m : Handled)

def Call.handler : Call → LuaValue
  | .dispatch m => m.dispatch
  | .msgParser m => m.msgParser

def Call.stack (lua : Lua) : Call → Stack → Stack
  | .dispatch m, L => (ServiceStack.dispatch lua m L).2
  | .msgParser m, L => (ServiceStack.msgParser lua m L).2

def step (lua : Lua) (L : Stack) (c : Call) : Option Stack := some (c.stack lua L)

/-- `luaT_pcall` leaves what was below the function and its arguments, on every exit. -/
theorem luaTPcall_stack (lua : Lua) (args : Nat) (call : ProtectedCall) (L : Stack) :
    (luaTPcall lua args call L).2.2 = L.drop (args + 1) := by
  unfold luaTPcall
  split
  next hfun =>
    have hlt : args < L.length := by
      by_contra hge
      rw [List.getD_eq_default _ _ (by omega)] at hfun
      cases hfun
    have hinsert : (luaInsert (args + 2) (call.traceback :: L)).drop (args + 1) =
        call.traceback :: L.drop (args + 1) := by
      have hlen : (L.take (args + 1)).length = args + 1 := by
        rw [List.length_take]
        omega
      exact List.drop_left' hlen
    simp only [luaPcall]
    split
    next => cases call.result <;> simp [hinsert]
    next => cases call.result <;> simp
  next => rfl

theorem luaTExecString_stack (lua : Lua) (chunk : LuaValue) (call : ProtectedCall) (L : Stack) :
    (luaTExecString lua chunk call L).2 = L := luaTPcall_stack lua 0 call (chunk :: L)

/-- The heights at which `luaT_pcall`, where it is called, and the function itself return. -/
def Call.returnHeights (lua : Lua) (c : Call) (L : Stack) : List Nat :=
  match c with
  | .dispatch m =>
    if isFunction m.dispatch then
      [(luaTPcall lua 2 m.call (pushinteger m.msgid :: pushinteger m.entityid :: m.dispatch ::
        L)).2.2.length, (c.stack lua L).length]
    else [(c.stack lua L).length]
  | .msgParser m =>
    match isFunction m.msgParser, m.decoded with
    | true, .ok t =>
      [(luaTPcall lua 4 m.call (.table t :: pushinteger m.msgid :: pushinteger m.entityid ::
        pushinteger m.fd :: m.msgParser :: L)).2.2.length, (c.stack lua L).length]
    | _, _ => [(c.stack lua L).length]

theorem dispatch_stack {lua : Lua} {m : Routed} (h : isFunction m.dispatch = true) :
    (dispatch lua m []).2 = [] := by
  have hpcall := luaTPcall_stack lua 2 m.call
    (pushinteger m.msgid :: pushinteger m.entityid :: [m.dispatch])
  unfold dispatch
  simp only [List.getD_cons_zero, h, if_true]
  split
  next heq =>
    rw [heq] at hpcall
    exact hpcall
  next =>
    split
    next => rfl
    next => rfl

theorem msgParser_stack {lua : Lua} {m : Handled} (h : isFunction m.msgParser = true) (L : Stack) :
    (msgParser lua m L).2 = [] := by
  unfold msgParser
  simp only [List.getD_cons_zero, h, if_true]
  split
  next => rfl
  next => rfl

/-- With a function in the global an empty stack stays empty. -/
theorem stack_of_function {lua : Lua} {c : Call} (h : isFunction c.handler = true) :
    c.stack lua [] = [] := by
  cases c with
  | dispatch m => exact dispatch_stack h
  | msgParser m => exact msgParser_stack h []

/-- Anything else in the global is left on the stack. -/
theorem stack_of_not_function {lua : Lua} {c : Call} (h : isFunction c.handler = false)
    (L : Stack) : c.stack lua L = c.handler :: L := by
  cases c with
  | dispatch m =>
    have hm : isFunction m.dispatch = false := h
    simp [Call.stack, dispatch, hm, Call.handler]
  | msgParser m =>
    have hm : isFunction m.msgParser = false := h
    simp [Call.stack, msgParser, hm, Call.handler]

theorem stack_mem_returnHeights (lua : Lua) (c : Call) (L : Stack) :
    (c.stack lua L).length ∈ c.returnHeights lua L := by
  unfold Call.returnHeights
  split
  next =>
    split
    next => simp
    next => simp
  next =>
    split
    next => simp
    next => simp

theorem returnHeights_of_function {lua : Lua} {c : Call} (h : isFunction c.handler = true) :
    ∀ k ∈ c.returnHeights lua [], k = 0 := by
  have hstack : c.stack lua [] = [] := stack_of_function h
  intro k hk
  unfold Call.returnHeights at hk
  split at hk
  next m =>
    split at hk
    next =>
      rw [luaTPcall_stack, hstack] at hk
      simpa using hk
    next =>
      rw [hstack] at hk
      simpa using hk
  next m =>
    split at hk
    next =>
      rw [luaTPcall_stack, hstack] at hk
      simpa using hk
    next =>
      rw [hstack] at hk
      simpa using hk

/-- On a service that has run its entry script every call returns at the base level exactly when
the global that it asks for holds a function each time. -/
theorem base_level_iff (lua : Lua) (chunk : LuaValue) (entry : ProtectedCall) (calls : List Call) :
    Along (step lua) (fun L c => ∀ k ∈ c.returnHeights lua L, k = L.length)
        (luaTExecString lua chunk entry []).2 calls ↔
      ∀ c ∈ calls, isFunction c.handler = true := by
  rw [luaTExecString_stack]
  induction calls with
  | nil => simp [Along]
  | cons c calls ih =>
    rw [List.forall_mem_cons]
    constructor
    · intro h
      obtain ⟨hc, hrest⟩ := h
      have hheight := hc _ (stack_mem_returnHeights lua c [])
      cases hfun : isFunction c.handler with
      | false =>
        rw [stack_of_not_function hfun] at hheight
        cases hheight
      | true =>
        have hstep : step lua [] c = some [] := congrArg some (stack_of_function hfun)
        exact ⟨rfl, ih.mp (hrest [] hstep)⟩
    · intro h
      obtain ⟨hfun, hrest⟩ := h
      refine ⟨returnHeights_of_function hfun, fun L hL => ?_⟩
      have hstack : c.stack lua [] = L := Option.some.inj hL
      rw [stack_of_function hfun] at hstack
      rw [← hstack]
      exact ih.mpr hrest

/-- Each call that finds no function makes the stack higher by one. -/
theorem run_replicate (lua : Lua) {c : Call} (h : isFunction c.handler = false) (k : Nat)
    (L : Stack) : run (step lua) L (List.replicate k c) = some (List.replicate k c.handler ++ L) := by
  induction k generalizing L with
  | zero => rfl
  | succ k ih =>
    have hstep : step lua L c = some (c.handler :: L) := congrArg some (stack_of_not_function h L)
    rw [List.replicate_succ, run, hstep, Option.bind_some, ih, List.replicate_succ']
    simp

/-- A message to route while there is no global `dispatch`. -/
def unrouted : Call := .dispatch ⟨1, 1, .nil, ⟨.nil, .ok .nil⟩⟩

theorem missing_dispatch_leaks :
    ¬Along (step sortingLua) (fun L c => ∀ k ∈ c.returnHeights sortingLua L, k = L.length) []
        [unrouted] ∧
      ∀ k, run (step sortingLua) [] (List.replicate k unrouted) =
        some (List.replicate k .nil) := by
  constructor
  · intro h
    have hheight := h.1 1 (stack_mem_returnHeights sortingLua unrouted [])
    cases hheight
  · intro k
    have hrun := run_replicate sortingLua (rfl : isFunction unrouted.handler = false) k []
    rw [List.append_nil] at hrun
    exact hrun

end ServiceStack

end Tnode
