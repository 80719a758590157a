import Mathlib.Data.Nat.Bitwise
import Mathlib.Data.List.Basic

namespace Utf8

/-- The text of some characters. -/
def Valid (s : List UInt8) : Prop := ∃ cs : List Char, s = cs.flatMap String.utf8EncodeChar

/-- A code point is not one of a surrogate. -/
theorem code_point (c : Char) : (c.toNat < 0xD800 ∨ 0xE000 ≤ c.toNat) ∧ c.toNat < 0x110000 := by
  have hv : c.toNat < 0xD800 ∨ 0xDFFF < c.toNat ∧ c.toNat < 0x110000 := c.valid
  omega

theorem exists_char {n : Nat} (h : n < 0xD800 ∨ 0xDFFF < n ∧ n < 0x110000) :
    ∃ c : Char, c.toNat = n := by
  have hv : n.isValidChar := h
  refine ⟨Char.ofNat n, ?_⟩
  rw [Char.ofNat, dif_pos hv]
  rfl

section

variable {c : Char}

theorem encodeChar_one (h : c.toNat < 0x80) : String.utf8EncodeChar c = [UInt8.ofNat c.toNat] := by
  have hv : c.val.toNat < 0x80 := h
  simp only [String.utf8EncodeChar, Char.toNat]
  rw [if_pos (by omega)]

theorem encodeChar_two (h : 0x80 ≤ c.toNat) (h' : c.toNat < 0x800) :
    String.utf8EncodeChar c =
      [UInt8.ofNat (c.toNat / 64 + 0xC0), UInt8.ofNat (c.toNat % 64 + 0x80)] := by
  have hv : c.toNat = c.val.toNat := rfl
  have hmod : c.val.toNat / 64 % 32 = c.val.toNat / 64 := by omega
  simp only [String.utf8EncodeChar, hv]
  rw [if_neg (by omega), if_pos (by omega), hmod]

theorem encodeChar_three (h : 0x800 ≤ c.toNat) (h' : c.toNat < 0x10000) :
    String.utf8EncodeChar c =
      [UInt8.ofNat (c.toNat / 4096 + 0xE0), UInt8.ofNat (c.toNat / 64 % 64 + 0x80),
        UInt8.ofNat (c.toNat % 64 + 0x80)] := by
  have hv : c.toNat = c.val.toNat := rfl
  have hmod : c.val.toNat / 4096 % 16 = c.val.toNat / 4096 := by omega
  simp only [String.utf8EncodeChar, hv]
  rw [if_neg (by omega), if_neg (by omega), if_pos (by omega), hmod]

theorem encodeChar_four (h : 0x10000 ≤ c.toNat) :
    String.utf8EncodeChar c =
      [UInt8.ofNat (c.toNat / 262144 + 0xF0), UInt8.ofNat (c.toNat / 4096 % 64 + 0x80),
        UInt8.ofNat (c.toNat / 64 % 64 + 0x80), UInt8.ofNat (c.toNat % 64 + 0x80)] := by
  have hv : c.toNat = c.val.toNat := rfl
  have hlt : c.val.toNat < 0x110000 := (code_point c).2
  have hmod : c.val.toNat / 262144 % 8 = c.val.toNat / 262144 := by omega
  simp only [String.utf8EncodeChar, hv]
  rw [if_neg (by omega), if_neg (by omega), if_neg (by omega), hmod]

end

theorem toNat_ofNat {n : Nat} (h : n < 256) : (UInt8.ofNat n).toNat = n := by
  rw [UInt8.toNat_ofNat']
  exact Nat.mod_eq_of_lt h

theorem encodeChar_low {c : Char} (h : c.toNat < 0x10000) :
    ∀ x ∈ String.utf8EncodeChar c, x < 0xF0 := by
  have hlt : ∀ n : Nat, n < 0xF0 → UInt8.ofNat n < 0xF0 := by
    intro n hn
    rw [UInt8.lt_iff_toNat_lt, toNat_ofNat (by omega)]
    exact hn
  by_cases h1 : c.toNat < 0x80
  · rw [encodeChar_one h1]
    simp only [List.forall_mem_cons]
    exact ⟨hlt _ (by omega), by simp⟩
  by_cases h2 : c.toNat < 0x800
  · rw [encodeChar_two (by omega) h2]
    simp only [List.forall_mem_cons]
    exact ⟨hlt _ (by omega), hlt _ (by omega), by simp⟩
  · rw [encodeChar_three (by omega) h]
    simp only [List.forall_mem_cons]
    exact ⟨hlt _ (by omega), hlt _ (by omega), hlt _ (by omega), by simp⟩

theorem encodeChar_high {c : Char} (h : 0x10000 ≤ c.toNat) :
    ∃ x ∈ String.utf8EncodeChar c, 0xF0 ≤ x := by
  have hlt := (code_point c).2
  rw [encodeChar_four h]
  refine ⟨_, List.mem_cons_self, ?_⟩
  rw [UInt8.le_iff_toNat_le, toNat_ofNat (by omega)]
  exact Nat.le_add_left _ _

theorem encodeChar_nonzero {c : Char} (h : c.toNat ≠ 0) :
    ∀ x ∈ String.utf8EncodeChar c, x ≠ 0 := by
  have hne : ∀ n : Nat, n ≠ 0 → n < 256 → UInt8.ofNat n ≠ 0 := by
    intro n hn hlt he
    apply hn
    rw [← toNat_ofNat hlt, he]
    rfl
  have hlt := (code_point c).2
  by_cases h1 : c.toNat < 0x80
  · rw [encodeChar_one h1]
    simp only [List.forall_mem_cons]
    exact ⟨hne _ h (by omega), by simp⟩
  by_cases h2 : c.toNat < 0x800
  · rw [encodeChar_two (by omega) h2]
    simp only [List.forall_mem_cons]
    exact ⟨hne _ (by omega) (by omega), hne _ (by omega) (by omega), by simp⟩
  by_cases h3 : c.toNat < 0x10000
  · rw [encodeChar_three (by omega) h3]
    simp only [List.forall_mem_cons]
    exact ⟨hne _ (by omega) (by omega), hne _ (by omega) (by omega),
      hne _ (by omega) (by omega), by simp⟩
  · rw [encodeChar_four (by omega)]
    simp only [List.forall_mem_cons]
    exact ⟨hne _ (by omega) (by omega), hne _ (by omega) (by omega),
      hne _ (by omega) (by omega), hne _ (by omega) (by omega), by simp⟩

/-- Bits put in front of others. -/
theorem shiftLeft_or {x y i : Nat} (h : y < 2 ^ i) : x <<< i ||| y = 2 ^ i * x + y := by
  rw [← Nat.shiftLeft_add_eq_or_of_lt h, Nat.shiftLeft_eq, Nat.mul_comm]

/-- A mask of `k` bits above the lowest `n`. -/
theorem and_shifted_mask (x n k : Nat) : x &&& (2 ^ k - 1) * 2 ^ n = x / 2 ^ n % 2 ^ k * 2 ^ n := by
  have hpos : 0 < 2 ^ n := Nat.two_pow_pos n
  have hlow : (x &&& (2 ^ k - 1) * 2 ^ n) % 2 ^ n = 0 := by
    rw [Nat.and_mod_two_pow, Nat.mul_mod_left, Nat.and_zero]
  have hhigh : (x &&& (2 ^ k - 1) * 2 ^ n) / 2 ^ n = x / 2 ^ n % 2 ^ k := by
    rw [Nat.and_div_two_pow, Nat.mul_div_cancel _ hpos, Nat.and_two_pow_sub_one_eq_mod]
  rw [← Nat.div_add_mod' (x &&& (2 ^ k - 1) * 2 ^ n) (2 ^ n), hlow, hhigh, Nat.add_zero]

end Utf8
