import Tnode.JsonEncode
import Tnode.JsonParser

namespace Tnode

theorem high_byte {b : Byte} (h : 128 ≤ b.toNat) :
    b ≠ 0 ∧ isCopied b = false ∧ shortEscape b = none :=
  @forall_byte_lt (fun b => 128 ≤ b.toNat → b ≠ 0 ∧ isCopied b = false ∧ shortEscape b = none) 256
    (by decide +kernel) b b.toNat_lt h

theorem jsonUtf8Cont_eq {buf : List Byte} {idx n : Nat} (hn : n < 64)
    (h : buf[idx]? = some (UInt8.ofNat (n + 0x80))) : jsonUtf8Cont buf idx = some n := by
  have hget : jsonUtf8Get buf idx = n + 0x80 := by
    rw [jsonUtf8Get, List.getD_eq_getElem?_getD, h, Option.getD_some, Utf8.toNat_ofNat (by omega)]
  have hmask : (n + 0x80) &&& 0xC0 = (n + 0x80) / 64 % 4 * 64 := Utf8.and_shifted_mask _ 6 2
  have hlow : (n + 0x80) &&& 0x3F = (n + 0x80) % 64 := Nat.and_two_pow_sub_one_eq_mod _ 6
  rw [jsonUtf8Cont, hget, hmask, hlow, if_pos (by omega)]
  congr 1
  omega

theorem lead_masks (n : Nat) :
    n &&& 0x80 = n / 128 % 2 * 128 ∧ n &&& 0xE0 = n / 32 % 8 * 32 ∧
      n &&& 0xF0 = n / 16 % 16 * 16 ∧ n &&& 0xF8 = n / 8 % 32 * 8 :=
  ⟨Utf8.and_shifted_mask _ 7 1, Utf8.and_shifted_mask _ 5 3, Utf8.and_shifted_mask _ 4 4,
    Utf8.and_shifted_mask _ 3 5⟩

theorem decodeSingle_two {n : Nat} (h : 0x80 ≤ n) (h' : n < 0x800) (rest : List Byte) :
    jsonUtf8DecodeSingle (UInt8.ofNat (n / 64 + 0xC0) :: UInt8.ofNat (n % 64 + 0x80) :: rest) =
      some (n, 2) := by
  obtain ⟨h80, hE0, _, _⟩ := lead_masks (n / 64 + 0xC0)
  have hlow : (n / 64 + 0xC0) &&& 0x1F = (n / 64 + 0xC0) % 32 := Nat.and_two_pow_sub_one_eq_mod _ 5
  have hjoin : ((n / 64 + 0xC0) % 32) <<< 6 ||| n % 64 = n := by
    rw [Utf8.shiftLeft_or (by omega)]
    omega
  have hlead : jsonUtf8Get (UInt8.ofNat (n / 64 + 0xC0) :: UInt8.ofNat (n % 64 + 0x80) :: rest) 0 =
      n / 64 + 0xC0 := Utf8.toNat_ofNat (by omega)
  have hcont := @jsonUtf8Cont_eq
    (UInt8.ofNat (n / 64 + 0xC0) :: UInt8.ofNat (n % 64 + 0x80) :: rest) 1 (n % 64) (by omega) rfl
  rw [jsonUtf8DecodeSingle, hlead, h80, hE0, hlow, hcont]
  simp only [List.length_cons]
  rw [if_neg (by omega), if_neg (by omega), if_pos (by omega), if_neg (by omega)]
  simp only [Option.bind_eq_bind, Option.bind_some, hjoin]
  rw [if_pos h]

theorem decodeSingle_three {n : Nat} (h : 0x800 ≤ n) (h' : n < 0x10000)
    (hs : n < 0xD800 ∨ 0xE000 ≤ n) (rest : List Byte) :
    jsonUtf8DecodeSingle (UInt8.ofNat (n / 4096 + 0xE0) :: UInt8.ofNat (n / 64 % 64 + 0x80) ::
      UInt8.ofNat (n % 64 + 0x80) :: rest) = some (n, 3) := by
  generalize hbuf : UInt8.ofNat (n / 4096 + 0xE0) :: UInt8.ofNat (n / 64 % 64 + 0x80) ::
    UInt8.ofNat (n % 64 + 0x80) :: rest = buf
  obtain ⟨h80, hE0, hF0, _⟩ := lead_masks (n / 4096 + 0xE0)
  have hlow : (n / 4096 + 0xE0) &&& 0x0F = (n / 4096 + 0xE0) % 16 :=
    Nat.and_two_pow_sub_one_eq_mod _ 4
  have hjoin : ((n / 4096 + 0xE0) % 16) <<< 12 ||| (n / 64 % 64) <<< 6 ||| n % 64 = n := by
    rw [Nat.lor_assoc, Utf8.shiftLeft_or (x := n / 64 % 64) (by omega), Utf8.shiftLeft_or (by omega)]
    omega
  have hlead : jsonUtf8Get buf 0 = n / 4096 + 0xE0 := by
    subst hbuf
    exact Utf8.toNat_ofNat (by omega)
  have hcont1 : jsonUtf8Cont buf 1 = some (n / 64 % 64) :=
    jsonUtf8Cont_eq (by omega) (by subst hbuf; rfl)
  have hcont2 : jsonUtf8Cont buf 2 = some (n % 64) :=
    jsonUtf8Cont_eq (by omega) (by subst hbuf; rfl)
  have hlen : 3 ≤ buf.length := by
    subst hbuf
    simp
  rw [jsonUtf8DecodeSingle, hlead, h80, hE0, hF0, hlow, hcont1, hcont2]
  rw [if_neg (by omega), if_neg (by omega), if_neg (by omega), if_pos (by omega),
    if_neg (by omega)]
  simp only [Option.bind_eq_bind, Option.bind_some, hjoin]
  rw [if_pos (by omega)]

theorem decodeSingle_four {n : Nat} (h : 0x10000 ≤ n) (h' : n < 0x110000) (rest : List Byte) :
    jsonUtf8DecodeSingle (UInt8.ofNat (n / 262144 + 0xF0) :: UInt8.ofNat (n / 4096 % 64 + 0x80) ::
      UInt8.ofNat (n / 64 % 64 + 0x80) :: UInt8.ofNat (n % 64 + 0x80) :: rest) = some (n, 4) := by
  generalize hbuf : UInt8.ofNat (n / 262144 + 0xF0) :: UInt8.ofNat (n / 4096 % 64 + 0x80) ::
    UInt8.ofNat (n / 64 % 64 + 0x80) :: UInt8.ofNat (n % 64 + 0x80) :: rest = buf
  obtain ⟨h80, hE0, hF0, hF8⟩ := lead_masks (n / 262144 + 0xF0)
  have hlow : (n / 262144 + 0xF0) &&& 0x0F = (n / 262144 + 0xF0) % 16 :=
    Nat.and_two_pow_sub_one_eq_mod _ 4
  have hjoin : ((n / 262144 + 0xF0) % 16) <<< 18 ||| (n / 4096 % 64) <<< 12 |||
      (n / 64 % 64) <<< 6 ||| n % 64 = n := by
    rw [Nat.lor_assoc, Utf8.shiftLeft_or (x := n / 64 % 64) (by omega), Nat.lor_assoc,
      Utf8.shiftLeft_or (x := n / 4096 % 64) (by omega), Utf8.shiftLeft_or (by omega)]
    omega
  have hlead : jsonUtf8Get buf 0 = n / 262144 + 0xF0 := by
    subst hbuf
    exact Utf8.toNat_ofNat (by omega)
  have hcont1 : jsonUtf8Cont buf 1 = some (n / 4096 % 64) :=
    jsonUtf8Cont_eq (by omega) (by subst hbuf; rfl)
  have hcont2 : jsonUtf8Cont buf 2 = some (n / 64 % 64) :=
    jsonUtf8Cont_eq (by omega) (by subst hbuf; rfl)
  have hcont3 : jsonUtf8Cont buf 3 = some (n % 64) :=
    jsonUtf8Cont_eq (by omega) (by subst hbuf; rfl)
  have hlen : 4 ≤ buf.length := by
    subst hbuf
    simp
  rw [jsonUtf8DecodeSingle, hlead, h80, hE0, hF0, hF8, hlow, hcont1, hcont2, hcont3]
  rw [if_neg (by omega), if_neg (by omega), if_neg (by omega), if_neg (by omega),
    if_pos (by omega), if_neg (by omega)]
  simp only [Option.bind_eq_bind, Option.bind_some, hjoin]
  rw [if_pos (by omega)]

theorem decodeSingle_char {c : Char} (h : 0x80 ≤ c.toNat) (rest : List Byte) :
    ∃ b tail, String.utf8EncodeChar c = b :: tail ∧ 128 ≤ b.toNat ∧
      jsonUtf8DecodeSingle (b :: tail ++ rest) = some (c.toNat, tail.length + 1) := by
  obtain ⟨hs, hlt⟩ := Utf8.code_point c
  by_cases h2 : c.toNat < 0x800
  · refine ⟨_, _, Utf8.encodeChar_two h h2, ?_, decodeSingle_two h h2 rest⟩
    rw [Utf8.toNat_ofNat (by omega)]
    omega
  by_cases h3 : c.toNat < 0x10000
  · refine ⟨_, _, Utf8.encodeChar_three (by omega) h3, ?_, decodeSingle_three (by omega) h3 hs rest⟩
    rw [Utf8.toNat_ofNat (by omega)]
    omega
  · refine ⟨_, _, Utf8.encodeChar_four (by omega), ?_, decodeSingle_four (by omega) hlt rest⟩
    rw [Utf8.toNat_ofNat (by omega)]
    omega

/-- `s` is a `\u` with the digits of `u`. -/
inductive IsUnit (u : Nat) : List Byte → Prop
  | digits {d1 d2 d3 d4 : Byte} (h : ∀ d ∈ [d1, d2, d3, d4], d ∈ hexdigits)
    (value : [d1, d2, d3, d4].foldl (fun u d => 16 * u + hexValue d) 0 = u) :
    IsUnit u [92, 117, d1, d2, d3, d4]

/-- What is written for a character other than NUL. -/
inductive Escape (c : Char) : List Byte → Prop
  | copied {b : Byte} (char : String.utf8EncodeChar c = [b]) (copied : isCopied b = true) :
    Escape c [b]
  | short {b letter : Byte} (char : String.utf8EncodeChar c = [b])
    (short : shortEscape b = some letter) : Escape c [92, letter]
  | unit {s : List Byte} (bound : c.toNat < 0x10000) (unit : IsUnit c.toNat s) : Escape c s
  | units {s s' : List Byte} (bound : 0x10000 ≤ c.toNat) (high : IsUnit (c.toNat / 65536) s)
    (low : IsUnit (c.toNat % 65536) s') : Escape c (s ++ s')

theorem hexdigit_spec {x : Nat} (h : x < 16) :
    ∃ d, hexdigits[x]? = some d ∧ d ∈ hexdigits ∧ hexValue d = x := by
  have hall : ∀ x : Fin 16, hexdigits[x.1]?.any
      (fun d => decide (d ∈ hexdigits) && decide (hexValue d = x.1)) = true := by decide +kernel
  have hx := hall ⟨x, h⟩
  rw [Option.any_eq_true] at hx
  obtain ⟨d, hd, hspec⟩ := hx
  rw [Bool.and_eq_true, decide_eq_true_eq, decide_eq_true_eq] at hspec
  exact ⟨d, hd, hspec.1, hspec.2⟩

theorem escapeUnit_spec {u : Nat} (h : u < 65536) : ∃ s, escapeUnit u = some s ∧ IsUnit u s := by
  obtain ⟨d1, h1, hm1, hv1⟩ := @hexdigit_spec (u / 4096) (by omega)
  obtain ⟨d2, h2, hm2, hv2⟩ := @hexdigit_spec (u % 4096 / 256) (by omega)
  obtain ⟨d3, h3, hm3, hv3⟩ := @hexdigit_spec (u % 4096 % 256 / 16) (by omega)
  obtain ⟨d4, h4, hm4, hv4⟩ := @hexdigit_spec (u % 4096 % 256 % 16) (by omega)
  refine ⟨[92, 117, d1, d2, d3, d4], ?_, .digits ?_ ?_⟩
  · rw [escapeUnit, h1, h2, h3, h4]
    rfl
  · simp [hm1, hm2, hm3, hm4]
  · simp only [List.foldl_cons, List.foldl_nil, hv1, hv2, hv3, hv4]
    omega

theorem escapeUnits_spec (c : Char) :
    ∃ s, escapeUnits c.toNat = some s ∧ Escape c s := by
  have hlt := (Utf8.code_point c).2
  have hshift : c.toNat >>> 16 = c.toNat / 65536 := Nat.shiftRight_eq_div_pow _ 16
  have hmask : c.toNat &&& 0x0000ffff = c.toNat % 65536 := Nat.and_two_pow_sub_one_eq_mod _ 16
  obtain ⟨low, hlow, hlow'⟩ := @escapeUnit_spec (c.toNat % 65536) (by omega)
  obtain ⟨high, hhigh, hhigh'⟩ := @escapeUnit_spec (c.toNat / 65536) (by omega)
  rw [escapeUnits, hshift, hmask, hlow]
  by_cases hc : c.toNat < 0x10000
  · have hzero : c.toNat / 65536 = 0 := by omega
    have hself : c.toNat % 65536 = c.toNat := by omega
    rw [hself] at hlow'
    rw [if_neg (by simp [hzero])]
    exact ⟨low, rfl, .unit hc hlow'⟩
  · rw [if_pos (by omega), hhigh]
    exact ⟨high ++ low, rfl, .units (by omega) hhigh' hlow'⟩

theorem escapeChars_nul (rest : List Byte) : escapeChars (0 :: rest) = some [] := by
  rw [escapeChars, if_pos rfl]

/-- A character is escaped, and then those behind it. -/
theorem escapeChars_char {c : Char} (hc : c.toNat ≠ 0) {rest s : List Byte}
    (h : escapeChars rest = some s) :
    ∃ e, Escape c e ∧ escapeChars (String.utf8EncodeChar c ++ rest) = some (e ++ s) := by
  obtain ⟨e, he, hescape⟩ := escapeUnits_spec c
  by_cases hlow : c.toNat < 0x80
  · have hchar := Utf8.encodeChar_one hlow
    generalize hb : UInt8.ofNat c.toNat = b at hchar
    have hn : b.toNat = c.toNat := by
      rw [← hb]
      exact Utf8.toNat_ofNat (by omega)
    have hne : b ≠ 0 := by
      rintro rfl
      exact hc hn.symm
    rw [hchar, List.singleton_append, escapeChars, if_neg hne]
    split
    next hcopied => exact ⟨[b], .copied hchar hcopied, by rw [h]; rfl⟩
    next =>
      split
      next letter hshort => exact ⟨[92, letter], .short hchar hshort, by rw [h]; rfl⟩
      next =>
        have hget : jsonUtf8Get (b :: rest) 0 = c.toNat := hn
        have hmask : c.toNat &&& 0x80 = c.toNat / 128 % 2 * 128 := (lead_masks _).1
        have hsingle : jsonUtf8DecodeSingle (b :: rest) = some (c.toNat, 1) := by
          rw [jsonUtf8DecodeSingle, hget, hmask, List.length_cons]
          rw [if_neg (by omega), if_pos (by omega)]
        refine ⟨e, hescape, ?_⟩
        rw [hsingle]
        simp only [he, Nat.sub_self, List.drop_zero, h, Option.bind_eq_bind, Option.bind_some]
        rfl
  · obtain ⟨b, tail, hchar, hb, hsingle⟩ := decodeSingle_char (by omega : 0x80 ≤ c.toNat) rest
    obtain ⟨hne, hcopied, hshort⟩ := high_byte hb
    refine ⟨e, hescape, ?_⟩
    rw [hchar, List.cons_append, escapeChars, if_neg hne, if_neg (by simp [hcopied]), hshort]
    rw [List.cons_append] at hsingle
    simp only [hsingle, he, Nat.add_sub_cancel, List.drop_left, h, Option.bind_eq_bind,
      Option.bind_some]
    rfl

end Tnode
