import Tnode.FloatFormat
import Tnode.ByteBuffer
import Mathlib.Data.List.TakeWhile

namespace Tnode

open FloatFormat

def binary64 : Format := ⟨53, -1074, 971, by decide, by decide⟩

def binary32 : Format := ⟨24, -149, 104, by decide, by decide⟩

abbrev Double := Value binary64

abbrev Single := Value binary32

inductive LuaKey
  | number (x : Double)
  | boolean (b : Bool)
  | string (s : List Byte)
deriving DecidableEq

inductive LuaValue
  | nil
  | boolean (b : Bool)
  | number (x : Double)
  | string (s : List Byte)
  | table (entries : List (LuaKey × LuaValue))
  | cfunction (address : Nat)
  | userdata (address : Nat)

abbrev LuaTable := List (LuaKey × LuaValue)

def LuaValue.isNil : LuaValue → Bool
  | .nil => true
  | _ => false

def gettable : LuaTable → LuaKey → LuaValue
  | [], _ => .nil
  | (k', v) :: t, k => if k' = k then v else gettable t k

/-- `lua_settable`; assigning `nil` removes the key. -/
def settable : LuaTable → LuaKey → LuaValue → LuaTable
  | [], k, v => if v.isNil then [] else [(k, v)]
  | (k', v') :: t, k, v =>
    if k' = k then if v.isNil then t else (k, v) :: t
    else (k', v') :: settable t k v

/-- What the interpreter decides: the order in which `lua_next` visits a table, and the
conversions between numbers and strings. -/
structure Lua where
  next : LuaTable → LuaTable
  next_perm : ∀ t, (next t).Perm t
  num2str : Double → List Byte
  strscan : List Byte → Option Double

/-- The bytes a `const char*` stands for. -/
def cstr (s : List Byte) : List Byte := s.takeWhile (· ≠ 0)

/-- The number for a `lua_Integer`, which has 64 bits. -/
def ofInteger (n : Int) : Double := binary64.round (n.bmod (2 ^ 64))

def pushinteger (n : Int) : LuaValue := .number (ofInteger n)

def pushstring (s : List Byte) : LuaValue := .string (cstr s)

/-- The cast of a number to `lua_Integer`; out of range it gives the smallest one. -/
def castInteger (x : Double) : Int :=
  match x.trunc with
  | some n => if -2 ^ 63 ≤ n ∧ n < 2 ^ 63 then n else -2 ^ 63
  | none => -2 ^ 63

def Lua.tointeger (lua : Lua) : LuaValue → Int
  | .number x => castInteger x
  | .string s => ((lua.strscan s).map castInteger).getD 0
  | _ => 0

def Lua.tonumber (lua : Lua) : LuaValue → Double
  | .number x => x
  | .string s => (lua.strscan s).getD (.finite 0 binary64.representable_zero)
  | _ => .finite 0 binary64.representable_zero

def toboolean : LuaValue → Bool
  | .nil => false
  | .boolean b => b
  | _ => true

/-- `lua_tostring`, up to the first NUL; there is no string for a value that is neither a
string nor a number. -/
def Lua.tostring (lua : Lua) : LuaValue → Option (List Byte)
  | .string s => some (cstr s)
  | .number x => some (cstr (lua.num2str x))
  | _ => none

theorem cstr_eq_self_iff {s : List Byte} : cstr s = s ↔ 0 ∉ s := by
  rw [cstr, List.takeWhile_eq_self_iff]
  constructor
  · intro h hz
    simpa using h 0 hz
  · intro h b hb
    have hne : b ≠ 0 := fun he => h (he ▸ hb)
    simpa using hne

theorem cstr_append {p s : List Byte} (h : ∀ x ∈ p, x ≠ 0) : cstr (p ++ s) = p ++ cstr s :=
  List.takeWhile_append_of_pos (by simpa using h)

@[simp] theorem cstr_cstr (s : List Byte) : cstr (cstr s) = cstr s := List.takeWhile_idem

theorem bmod_of_int64 {n : Int} (h : -2 ^ 63 ≤ n ∧ n < 2 ^ 63) : n.bmod (2 ^ 64) = n := by
  rw [Int.bmod_def]
  split <;> omega

/-- A 64-bit integer comes back from a Lua number exactly when it is a `double`. -/
theorem tointeger_pushinteger_iff (lua : Lua) {n : Int} (h : -2 ^ 63 ≤ n ∧ n < 2 ^ 63) :
    lua.tointeger (pushinteger n) = n ↔ binary64.Representable n := by
  have hmin : binary64.Representable ((-2 ^ 63 : Int) : ℚ) :=
    ⟨-1, 63, by decide, by decide, by decide, by norm_num⟩
  rw [← Format.trunc_round_iff]
  simp only [pushinteger, ofInteger, Lua.tointeger, castInteger, bmod_of_int64 h]
  constructor
  · intro hn
    split at hn
    next k hk =>
      split at hn
      next => rw [hk, hn]
      next =>
        rw [← hn]
        exact (Format.trunc_round_iff _).mpr hmin
    next =>
      rw [← hn]
      exact (Format.trunc_round_iff _).mpr hmin
  · intro hn
    simp only [hn]
    rw [if_pos h]

theorem representable_of_small {n : Int} (h : |n| < 2 ^ 53) : binary64.Representable n :=
  Format.representable_int h (by decide) (by decide)

theorem pushinteger_of_representable {n : Int} (h : -2 ^ 63 ≤ n ∧ n < 2 ^ 63)
    (hr : binary64.Representable n) : pushinteger n = .number (.finite n hr) := by
  rw [pushinteger, ofInteger, bmod_of_int64 h, Format.round_of_representable hr]

theorem convert_convert_single (x : Single) :
    (x.convert binary64).convert binary32 = x :=
  Value.convert_convert (by decide) (by decide) (by decide) x

theorem gettable_settable (t : LuaTable) (k : LuaKey) {v : LuaValue} (hv : v.isNil = false) :
    gettable (settable t k v) k = v := by
  induction t with
  | nil => simp [settable, gettable, hv]
  | cons e t ih =>
    obtain ⟨k', v'⟩ := e
    by_cases hk : k' = k
    · simp [settable, gettable, hk, hv]
    · simp [settable, gettable, hk, ih]

theorem gettable_settable_ne (t : LuaTable) {k k' : LuaKey} (h : k' ≠ k) (v : LuaValue) :
    gettable (settable t k v) k' = gettable t k' := by
  induction t with
  | nil =>
    cases hv : v.isNil <;> simp [settable, gettable, hv, h.symm]
  | cons e t ih =>
    obtain ⟨k'', v''⟩ := e
    by_cases hk : k'' = k
    · subst hk
      cases hv : v.isNil <;> simp [settable, gettable, hv, h.symm]
    · by_cases hk' : k'' = k'
      · rw [settable, if_neg hk, gettable, gettable, if_pos hk', if_pos hk']
      · rw [settable, if_neg hk, gettable, gettable, if_neg hk', if_neg hk', ih]

end Tnode
