import Tnode.MessageParser

namespace Tnode

open FloatFormat

/-- A scalar that a Lua value can carry: a 64-bit integer that is a `double`, and a string
without NUL. -/
def Scalar.Survives : Scalar → Prop
  | .int64 v => binary64.Representable v
  | .uint64 v => binary64.Representable (v.bmod (2 ^ 64))
  | .string v => 0 ∉ v
  | _ => True

theorem castInteger_range (x : Double) : -2 ^ 63 ≤ castInteger x ∧ castInteger x < 2 ^ 63 := by
  unfold castInteger
  split
  · split
    next h => exact h
    next => omega
  · omega

theorem pushinteger_bmod (n : Int) : pushinteger (n.bmod (2 ^ 64)) = pushinteger n := by
  simp only [pushinteger, ofInteger, Int.bmod_bmod]

theorem tointeger_of_small (lua : Lua) {n : Int} (h : |n| < 2 ^ 53) :
    lua.tointeger (pushinteger n) = n := by
  have habs := abs_lt.mp h
  exact (tointeger_pushinteger_iff lua (by omega)).mpr (representable_of_small h)

theorem bmod_of_int32 {n : Int} (h : -2 ^ 31 ≤ n ∧ n < 2 ^ 31) : n.bmod (2 ^ 32) = n := by
  rw [Int.bmod_def]
  split <;> omega

theorem small_of_int32 {n : Int} (h : -2 ^ 31 ≤ n ∧ n < 2 ^ 31) : |n| < 2 ^ 53 :=
  abs_lt.mpr (by omega)

theorem uint64_iff (lua : Lua) {v : Int} (h : 0 ≤ v ∧ v < 2 ^ 64) :
    lua.tointeger (pushinteger v) % 2 ^ 64 = v ↔ binary64.Representable (v.bmod (2 ^ 64)) := by
  have hs : -2 ^ 63 ≤ v.bmod (2 ^ 64) ∧ v.bmod (2 ^ 64) < 2 ^ 63 := by
    rw [Int.bmod_def]
    split <;> omega
  have hr : -2 ^ 63 ≤ lua.tointeger (pushinteger v) ∧ lua.tointeger (pushinteger v) < 2 ^ 63 :=
    castInteger_range _
  rw [← tointeger_pushinteger_iff lua hs, pushinteger_bmod]
  rw [Int.bmod_def]
  split <;> omega

/-- A scalar of a field's type is read back from what was pushed for it exactly when a Lua
value can carry it. -/
theorem readScalar_pushScalar_iff (lua : Lua) {type : CppType} {s : Scalar} (h : s.Of type) :
    readScalar lua type (pushScalar s) = .ok s ↔ s.Survives := by
  cases type with
  | int32 =>
    cases s with
    | int32 v =>
      simp only [readScalar, pushScalar, tointeger_of_small lua (small_of_int32 h),
        bmod_of_int32 h, Scalar.Survives]
    | _ => exact h.elim
  | int64 =>
    cases s with
    | int64 v => simp [readScalar, pushScalar, tointeger_pushinteger_iff lua h, Scalar.Survives]
    | _ => exact h.elim
  | uint32 =>
    cases s with
    | uint32 v =>
      have hv : 0 ≤ v ∧ v < 2 ^ 32 := h
      have hsmall : |v| < 2 ^ 53 := abs_lt.mpr (by omega)
      have hmod : v % 2 ^ 32 = v := by omega
      simp only [readScalar, pushScalar, tointeger_of_small lua hsmall, hmod, Scalar.Survives]
    | _ => exact h.elim
  | uint64 =>
    cases s with
    | uint64 v =>
      simp only [readScalar, pushScalar, Except.ok.injEq, Scalar.uint64.injEq, uint64_iff lua h,
        Scalar.Survives]
    | _ => exact h.elim
  | double =>
    cases s with
    | double v => simp [readScalar, pushScalar, Lua.tonumber, Scalar.Survives]
    | _ => exact h.elim
  | float =>
    cases s with
    | float v =>
      simp [readScalar, pushScalar, Lua.tonumber, convert_convert_single, Scalar.Survives]
    | _ => exact h.elim
  | bool =>
    cases s with
    | bool v => simp [readScalar, pushScalar, toboolean, Scalar.Survives]
    | _ => exact h.elim
  | enum declared =>
    cases s with
    | enum v =>
      obtain ⟨hv, hdeclared⟩ := h
      simp only [readScalar, pushScalar, tointeger_of_small lua (small_of_int32 hv),
        bmod_of_int32 hv, Scalar.Survives, iff_true]
      split
      next values => rw [if_pos (hdeclared values rfl)]
      next => rfl
    | _ => exact h.elim
  | string =>
    cases s with
    | string v =>
      simp [readScalar, pushScalar, pushstring, Lua.tostring, cstr_eq_self_iff, Scalar.Survives]
    | _ => exact h.elim
  | message ty => cases s <;> exact h.elim

end Tnode
