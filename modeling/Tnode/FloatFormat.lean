import Mathlib.Data.Int.Log
import Mathlib.Data.Rat.Floor
import Mathlib.Tactic.Linarith
import Mathlib.Tactic.FieldSimp
import Mathlib.Tactic.Positivity

namespace FloatFormat

/-- A binary floating-point format: the number of bits of a significand and the range of
the exponent of its last bit. -/
structure Format where
  prec : ℕ
  emin : ℤ
  emax : ℤ
  prec_pos : 0 < prec
  emin_le_emax : emin ≤ emax

def Format.Representable (F : Format) (q : ℚ) : Prop :=
  ∃ m e : ℤ, |m| < 2 ^ F.prec ∧ F.emin ≤ e ∧ e ≤ F.emax ∧ q = m * 2 ^ e

/-- The numbers of a format; `finite 0` is the positive zero, and every NaN is the one `nan`. -/
inductive Value (F : Format)
  | finite (q : ℚ) (h : F.Representable q)
  | negZero
  | infinite (negative : Bool)
  | nan
deriving DecidableEq

/-- The nearest integer, and the even one of two that are equally near. -/
def roundHalfEven (x : ℚ) : ℤ :=
  if x - ⌊x⌋ < 1 / 2 then ⌊x⌋
  else if 1 / 2 < x - ⌊x⌋ then ⌊x⌋ + 1
  else if ⌊x⌋ % 2 = 0 then ⌊x⌋ else ⌊x⌋ + 1

variable (F G : Format)

/-- The exponent of the last bit that the format keeps of a number. -/
def Format.exponent (q : ℚ) : ℤ := max F.emin (Int.log 2 |q| - (F.prec - 1))

/-- The significand and the exponent after rounding, with the carry into the next binade. -/
def Format.significand (q : ℚ) : ℤ × ℤ :=
  let m := roundHalfEven (q / 2 ^ F.exponent q)
  if |m| = 2 ^ F.prec then (m / 2, F.exponent q + 1) else (m, F.exponent q)

theorem Format.representable_zero : F.Representable 0 :=
  ⟨0, F.emin, by simp, le_rfl, F.emin_le_emax, by simp⟩

def Format.round (q : ℚ) : Value F :=
  if q = 0 then .finite 0 F.representable_zero
  else if (F.significand q).1 = 0 ∧ q < 0 then .negZero
  else if h : |(F.significand q).1| < 2 ^ F.prec ∧ F.emin ≤ (F.significand q).2 ∧
      (F.significand q).2 ≤ F.emax then
    .finite ((F.significand q).1 * 2 ^ (F.significand q).2) ⟨_, _, h.1, h.2.1, h.2.2, rfl⟩
  else .infinite (q < 0)

def Value.convert {F : Format} (G : Format) : Value F → Value G
  | .finite q _ => G.round q
  | .negZero => .negZero
  | .infinite negative => .infinite negative
  | .nan => .nan

def Value.trunc {F : Format} : Value F → Option ℤ
  | .finite q _ => some (q.num.tdiv q.den)
  | .negZero => some 0
  | .infinite _ | .nan => none

@[simp] theorem roundHalfEven_intCast (n : ℤ) : roundHalfEven n = n := by
  simp [roundHalfEven]

variable {F G}

theorem two_zpow_pos (e : ℤ) : (0 : ℚ) < 2 ^ e := zpow_pos (by norm_num) e

theorem Format.Representable.scaled {q : ℚ} (h : F.Representable q) (hq : q ≠ 0) :
    ∃ n : ℤ, q / 2 ^ F.exponent q = n ∧ n ≠ 0 ∧ |n| < 2 ^ F.prec ∧ F.exponent q ≤ F.emax := by
  obtain ⟨m, e, hm, hmin, hmax, rfl⟩ := h
  have hlog : Int.log 2 |(m * 2 ^ e : ℚ)| < F.prec + e := by
    apply (Int.lt_zpow_iff_log_lt (by norm_num) (abs_pos.mpr hq)).mp
    have hm' : |(m : ℚ)| < 2 ^ F.prec := by exact_mod_cast hm
    rw [abs_mul, abs_of_pos (two_zpow_pos e)]
    push_cast
    rw [zpow_add₀ (by norm_num : (2 : ℚ) ≠ 0), zpow_natCast]
    exact mul_lt_mul_of_pos_right hm' (two_zpow_pos e)
  have he : F.exponent (m * 2 ^ e) ≤ e := max_le hmin (by omega)
  obtain ⟨k, hk⟩ := Int.eq_ofNat_of_zero_le (sub_nonneg.mpr he)
  have hn : (m * 2 ^ e : ℚ) / 2 ^ F.exponent (m * 2 ^ e) = ((m * 2 ^ k : ℤ) : ℚ) := by
    rw [mul_div_assoc, ← zpow_sub₀ (by norm_num : (2 : ℚ) ≠ 0), hk, zpow_natCast]
    push_cast
    rfl
  refine ⟨_, hn, ?_, ?_, he.trans hmax⟩
  · intro hz
    rw [hz, Int.cast_zero] at hn
    exact hq ((div_eq_zero_iff.mp hn).resolve_right (two_zpow_pos _).ne')
  · have hlt : |(m * 2 ^ e : ℚ)| < 2 ^ (Int.log 2 |(m * 2 ^ e : ℚ)| + 1) := by
      simpa using Int.lt_zpow_succ_log_self (by norm_num : 1 < 2) |(m * 2 ^ e : ℚ)|
    have hexp : Int.log 2 |(m * 2 ^ e : ℚ)| + 1 ≤ F.prec + F.exponent (m * 2 ^ e) := by
      have := le_max_right F.emin (Int.log 2 |(m * 2 ^ e : ℚ)| - (F.prec - 1))
      unfold Format.exponent
      omega
    have hle : (2 : ℚ) ^ (Int.log 2 |(m * 2 ^ e : ℚ)| + 1) ≤
        2 ^ F.prec * 2 ^ F.exponent (m * 2 ^ e) := by
      rw [← zpow_natCast, ← zpow_add₀ (by norm_num : (2 : ℚ) ≠ 0)]
      exact zpow_le_zpow_right₀ (by norm_num) hexp
    have habs : |(m * 2 ^ e : ℚ) / 2 ^ F.exponent (m * 2 ^ e)| < 2 ^ F.prec := by
      rw [abs_div, abs_of_pos (two_zpow_pos (F.exponent (m * 2 ^ e))),
        div_lt_iff₀ (two_zpow_pos _)]
      exact hlt.trans_le hle
    rw [hn] at habs
    exact_mod_cast habs

theorem Format.round_of_representable {q : ℚ} (h : F.Representable q) :
    F.round q = .finite q h := by
  by_cases hq : q = 0
  · subst hq
    simp [Format.round]
  · obtain ⟨n, hn, hnz, hlt, hmax⟩ := h.scaled hq
    have hs : F.significand q = (n, F.exponent q) := by
      simp only [Format.significand, hn, roundHalfEven_intCast]
      rw [if_neg (ne_of_lt hlt)]
    have hv : (n : ℚ) * 2 ^ F.exponent q = q := by
      rw [← hn, div_mul_cancel₀ _ (two_zpow_pos _).ne']
    have hmin : F.emin ≤ F.exponent q := le_max_left _ _
    simp only [Format.round, hs, hq, hnz, hlt, hmin, hmax, if_false, false_and, and_self, dif_pos]
    congr 1

theorem Format.significand_value (q : ℚ) :
    ((F.significand q).1 : ℚ) * 2 ^ (F.significand q).2 =
      roundHalfEven (q / 2 ^ F.exponent q) * 2 ^ F.exponent q := by
  by_cases hc : |roundHalfEven (q / 2 ^ F.exponent q)| = 2 ^ F.prec
  · have hs : F.significand q =
        (roundHalfEven (q / 2 ^ F.exponent q) / 2, F.exponent q + 1) := by
      simp only [Format.significand, hc, if_true]
    have heven : (2 : ℤ) ∣ roundHalfEven (q / 2 ^ F.exponent q) := by
      rw [← dvd_abs, hc]
      exact dvd_pow_self 2 F.prec_pos.ne'
    obtain ⟨k, hk⟩ := heven
    rw [hs, hk, Int.mul_ediv_cancel_left k (by norm_num), zpow_add₀ (by norm_num : (2 : ℚ) ≠ 0)]
    push_cast
    ring
  · have hs : F.significand q = (roundHalfEven (q / 2 ^ F.exponent q), F.exponent q) := by
      simp only [Format.significand, hc, if_false]
    rw [hs]

theorem Value.trunc_finite_intCast {n : ℤ} (h : F.Representable n) :
    (Value.finite (n : ℚ) h).trunc = some n := by
  simp [Value.trunc]

theorem Format.exponent_le_significand (q : ℚ) : F.exponent q ≤ (F.significand q).2 := by
  simp only [Format.significand]
  split
  · exact Int.le_add_one le_rfl
  · exact le_rfl

theorem Format.significand_int (z : ℤ) :
    ∃ n : ℤ, ((F.significand z).1 : ℚ) * 2 ^ (F.significand z).2 = n := by
  by_cases he : 0 ≤ (F.significand z).2
  · obtain ⟨k, hk⟩ := Int.eq_ofNat_of_zero_le he
    refine ⟨(F.significand z).1 * 2 ^ k, ?_⟩
    rw [hk, zpow_natCast]
    push_cast
    rfl
  · have hexp := F.exponent_le_significand z
    obtain ⟨k, hk⟩ := Int.eq_ofNat_of_zero_le (by omega : 0 ≤ -F.exponent z)
    have hscale : (z : ℚ) / 2 ^ F.exponent z = ((z * 2 ^ k : ℤ) : ℚ) := by
      rw [div_eq_mul_inv, ← zpow_neg, hk, zpow_natCast]
      push_cast
      rfl
    refine ⟨z, ?_⟩
    rw [F.significand_value, hscale, roundHalfEven_intCast, ← hscale,
      div_mul_cancel₀ _ (two_zpow_pos _).ne']

/-- An integer survives rounding and truncation exactly when the format represents it. -/
theorem Format.trunc_round_iff (z : ℤ) : (F.round z).trunc = some z ↔ F.Representable z := by
  constructor
  · intro h
    by_cases hz : (z : ℚ) = 0
    · rw [hz]
      exact F.representable_zero
    · unfold Format.round at h
      rw [if_neg hz] at h
      split at h
      next =>
        exact absurd (by simpa [Value.trunc, eq_comm] using h : z = 0) (by exact_mod_cast hz)
      next =>
        split at h
        next hfit =>
          obtain ⟨n, hn⟩ := F.significand_int z
          have hrep : F.Representable n := hn ▸ ⟨_, _, hfit.1, hfit.2.1, hfit.2.2, rfl⟩
          simp only [hn, Value.trunc_finite_intCast hrep, Option.some.injEq] at h
          rw [← h]
          exact hrep
        next => simp [Value.trunc] at h
  · intro h
    rw [F.round_of_representable h, Value.trunc_finite_intCast]

theorem Format.Representable.mono {q : ℚ} (h : F.Representable q) (hp : F.prec ≤ G.prec)
    (hmin : G.emin ≤ F.emin) (hmax : F.emax ≤ G.emax) : G.Representable q := by
  obtain ⟨m, e, hm, he, he', rfl⟩ := h
  exact ⟨m, e, hm.trans_le (pow_le_pow_right₀ (by norm_num) hp), hmin.trans he, he'.trans hmax, rfl⟩

/-- Widening and narrowing again gives the number back. -/
theorem Value.convert_convert (hp : F.prec ≤ G.prec) (hmin : G.emin ≤ F.emin)
    (hmax : F.emax ≤ G.emax) (x : Value F) : (x.convert G).convert F = x := by
  cases x with
  | finite q h =>
    simp only [Value.convert, G.round_of_representable (h.mono hp hmin hmax),
      F.round_of_representable h]
  | negZero => rfl
  | infinite negative => rfl
  | nan => rfl

theorem Format.representable_int {z : ℤ} (h : |z| < 2 ^ F.prec) (hmin : F.emin ≤ 0)
    (hmax : 0 ≤ F.emax) : F.Representable z :=
  ⟨z, 0, h, hmin, hmax, by simp⟩

/-- An odd number that the format represents needs no more bits than a significand has. -/
theorem Format.abs_lt_of_odd {n : ℤ} (h : F.Representable n) (hodd : n % 2 = 1) :
    |n| < 2 ^ F.prec := by
  obtain ⟨m, e, hm, _, _, hn⟩ := h
  by_cases he : 0 < e
  · obtain ⟨k, hk⟩ := Int.eq_ofNat_of_zero_le (by omega : 0 ≤ e - 1)
    have hz : e = (k : ℤ) + 1 := by omega
    have heven : n = m * 2 ^ k * 2 := by
      rw [hz, zpow_add₀ (by norm_num), zpow_natCast, zpow_one, ← mul_assoc] at hn
      exact_mod_cast hn
    omega
  · obtain ⟨k, hk⟩ := Int.eq_ofNat_of_zero_le (by omega : 0 ≤ -e)
    have hm' : n * 2 ^ k = m := by
      have hz : e = -(k : ℤ) := by omega
      rw [hz, zpow_neg, zpow_natCast, eq_mul_inv_iff_mul_eq₀ (by positivity)] at hn
      exact_mod_cast hn
    have hone : (1 : ℤ) ≤ 2 ^ k := one_le_pow₀ (by norm_num)
    calc |n| ≤ |n| * 2 ^ k := le_mul_of_one_le_right (abs_nonneg n) hone
      _ = |m| := by rw [← hm', abs_mul, abs_of_pos (by positivity : (0 : ℤ) < 2 ^ k)]
      _ < 2 ^ F.prec := hm

end FloatFormat
