import Tnode.Descriptor

namespace Tnode

def base64Chars : List Byte :=
  bytes "ABCDEFGHIJKLMNOPQRSTUVWXYZabcdefghijklmnopqrstuvwxyz0123456789+/"

def isalnum (c : Byte) : Bool :=
  (48 ≤ c && c ≤ 57) || (65 ≤ c && c ≤ 90) || (97 ≤ c && c ≤ 122)

def isBase64 (c : Byte) : Bool := isalnum c || c = 43 || c = 47

/-- `char_array_4` as it is filled from the three bytes of `char_array_3`. -/
def charArray4 (a b c : Byte) : List Byte :=
  [(a &&& 0xfc) >>> 2, ((a &&& 0x03) <<< 4) + ((b &&& 0xf0) >>> 4),
    ((b &&& 0x0f) <<< 2) + ((c &&& 0xc0) >>> 6), c &&& 0x3f]

/-- `char_array_3` as it is filled from the four values of `char_array_4`. -/
def charArray3 (a b c d : Byte) : List Byte :=
  [(a <<< 2) + ((b &&& 0x30) >>> 4), ((b &&& 0xf) <<< 4) + ((c &&& 0x3c) >>> 2),
    ((c &&& 0x3) <<< 6) + d]

/-- `base64_chars[i]`. -/
def base64Char (i : Byte) : Byte := base64Chars.getD i.toNat 0

/-- `base64_chars.find(c)` in an `unsigned char`; `npos` becomes 255. -/
def base64Find (c : Byte) : Byte := UInt8.ofNat ((base64Chars.idxOf? c).getD 255)

/-- `base64_encode`: three bytes a round, then the one or two that are left. -/
def base64Encode : List Byte → List Byte
  | a :: b :: c :: rest => (charArray4 a b c).map base64Char ++ base64Encode rest
  | [a, b] => ((charArray4 a b 0).take 3).map base64Char ++ [61]
  | [a] => ((charArray4 a 0 0).take 2).map base64Char ++ [61, 61]
  | [] => []

/-- The loop of `base64_decode` over the characters before the first that is `=` or no
character of the code, and what it does with the up to three left over. -/
def base64DecodeChars : List Byte → List Byte
  | a :: b :: c :: d :: rest =>
    charArray3 (base64Find a) (base64Find b) (base64Find c) (base64Find d) ++
      base64DecodeChars rest
  | [a, b, c] => (charArray3 (base64Find a) (base64Find b) (base64Find c) (base64Find 0)).take 2
  | [a, b] => (charArray3 (base64Find a) (base64Find b) (base64Find 0) (base64Find 0)).take 1
  | [_] => []
  | [] => []

def base64Decode (encoded : List Byte) : List Byte :=
  base64DecodeChars (encoded.takeWhile fun c => c ≠ 61 && isBase64 c)

theorem base64Char_spec {i : Byte} (h : i.toNat < 64) :
    base64Find (base64Char i) = i ∧ isBase64 (base64Char i) = true ∧ base64Char i ≠ 61 ∧
      base64Char i ≠ 0 :=
  @forall_byte_lt (fun i => base64Find (base64Char i) = i ∧ isBase64 (base64Char i) = true ∧
    base64Char i ≠ 61 ∧ base64Char i ≠ 0) 64 (by decide +kernel) i h

/-- A byte is cut into its upper six and lower two bits, or its upper and lower four, or its
upper two and lower six. -/
theorem byte_split62 (b : Byte) :
    ((b &&& 0xfc) >>> 2).toNat < 64 ∧ (b &&& 3).toNat < 4 ∧
      ((b &&& 0xfc) >>> 2) <<< 2 + (b &&& 3) = b :=
  @forall_byte_lt (fun b => ((b &&& 0xfc) >>> 2).toNat < 64 ∧ (b &&& 3).toNat < 4 ∧
    ((b &&& 0xfc) >>> 2) <<< 2 + (b &&& 3) = b) 256 (by decide +kernel) b b.toNat_lt

theorem byte_split44 (b : Byte) :
    ((b &&& 0xf0) >>> 4).toNat < 16 ∧ (b &&& 0xf).toNat < 16 ∧
      ((b &&& 0xf0) >>> 4) <<< 4 + (b &&& 0xf) = b :=
  @forall_byte_lt (fun b => ((b &&& 0xf0) >>> 4).toNat < 16 ∧ (b &&& 0xf).toNat < 16 ∧
    ((b &&& 0xf0) >>> 4) <<< 4 + (b &&& 0xf) = b) 256 (by decide +kernel) b b.toNat_lt

theorem byte_split26 (b : Byte) :
    ((b &&& 0xc0) >>> 6).toNat < 4 ∧ (b &&& 0x3f).toNat < 64 ∧
      ((b &&& 0xc0) >>> 6) <<< 6 + (b &&& 0x3f) = b :=
  @forall_byte_lt (fun b => ((b &&& 0xc0) >>> 6).toNat < 4 ∧ (b &&& 0x3f).toNat < 64 ∧
    ((b &&& 0xc0) >>> 6) <<< 6 + (b &&& 0x3f) = b) 256 (by decide +kernel) b b.toNat_lt

theorem sixBits_join24 {x y : Byte} (hx : x.toNat < 4) (hy : y.toNat < 16) :
    (x <<< 4 + y).toNat < 64 ∧ (x <<< 4 + y &&& 0x30) >>> 4 = x ∧ (x <<< 4 + y) &&& 0xf = y := by
  have hall : ∀ m : Fin 4, ∀ n : Fin 16, (fun x y : Byte =>
      (x <<< 4 + y).toNat < 64 ∧ (x <<< 4 + y &&& 0x30) >>> 4 = x ∧ (x <<< 4 + y) &&& 0xf = y)
        (UInt8.ofNat m) (UInt8.ofNat n) := by decide +kernel
  simpa using hall ⟨x.toNat, hx⟩ ⟨y.toNat, hy⟩

theorem sixBits_join42 {x y : Byte} (hx : x.toNat < 16) (hy : y.toNat < 4) :
    (x <<< 2 + y).toNat < 64 ∧ (x <<< 2 + y &&& 0x3c) >>> 2 = x ∧ (x <<< 2 + y) &&& 0x3 = y := by
  have hall : ∀ m : Fin 16, ∀ n : Fin 4, (fun x y : Byte =>
      (x <<< 2 + y).toNat < 64 ∧ (x <<< 2 + y &&& 0x3c) >>> 2 = x ∧ (x <<< 2 + y) &&& 0x3 = y)
        (UInt8.ofNat m) (UInt8.ofNat n) := by decide +kernel
  simpa using hall ⟨x.toNat, hx⟩ ⟨y.toNat, hy⟩

/-- The four values are six bits each and give the three bytes back. -/
theorem charArray4_spec (a b c : Byte) :
    ∃ w x y z, charArray4 a b c = [w, x, y, z] ∧
      w.toNat < 64 ∧ x.toNat < 64 ∧ y.toNat < 64 ∧ z.toNat < 64 ∧ charArray3 w x y z = [a, b, c] := by
  obtain ⟨hw, ha, haw⟩ := byte_split62 a
  obtain ⟨hb, hb', hbx⟩ := byte_split44 b
  obtain ⟨hc, hz, hcz⟩ := byte_split26 c
  obtain ⟨hx, hxa, hxb⟩ := sixBits_join24 ha hb
  obtain ⟨hy, hyb, hyc⟩ := sixBits_join42 hb' hc
  refine ⟨_, _, _, _, rfl, hw, hx, hy, hz, ?_⟩
  rw [charArray3, hxa, hxb, hyb, hyc, haw, hbx, hcz]

theorem zero_notMem_base64Encode (s : List Byte) : 0 ∉ base64Encode s := by
  fun_induction base64Encode s with
  | case1 a b c rest ih =>
    obtain ⟨w, x, y, z, he, hw, hx, hy, hz, _⟩ := charArray4_spec a b c
    have hcs := (base64Char_spec hw).2.2.2
    have hxs := (base64Char_spec hx).2.2.2
    have hys := (base64Char_spec hy).2.2.2
    have hzs := (base64Char_spec hz).2.2.2
    simp [he, ih, hcs.symm, hxs.symm, hys.symm, hzs.symm]
  | case2 a b =>
    obtain ⟨w, x, y, z, he, hw, hx, hy, _, _⟩ := charArray4_spec a b 0
    have hcs := (base64Char_spec hw).2.2.2
    have hxs := (base64Char_spec hx).2.2.2
    have hys := (base64Char_spec hy).2.2.2
    simp [he, hcs.symm, hxs.symm, hys.symm]
  | case3 a =>
    obtain ⟨w, x, y, z, he, hw, hx, _, _, _⟩ := charArray4_spec a 0 0
    have hcs := (base64Char_spec hw).2.2.2
    have hxs := (base64Char_spec hx).2.2.2
    simp [he, hcs.symm, hxs.symm]
  | case4 => simp

/-- The two routines of `base64.cpp` invert each other on all bytes. -/
theorem base64Decode_base64Encode (s : List Byte) : base64Decode (base64Encode s) = s := by
  unfold base64Decode
  fun_induction base64Encode s with
  | case1 a b c rest ih =>
    obtain ⟨w, x, y, z, he, hw, hx, hy, hz, h3⟩ := charArray4_spec a b c
    obtain ⟨hfw, hcw, hew, _⟩ := base64Char_spec hw
    obtain ⟨hfx, hcx, hex, _⟩ := base64Char_spec hx
    obtain ⟨hfy, hcy, hey, _⟩ := base64Char_spec hy
    obtain ⟨hfz, hcz, hez, _⟩ := base64Char_spec hz
    rw [he]
    simpa [hcw, hew, hcx, hex, hcy, hey, hcz, hez, base64DecodeChars, hfw, hfx, hfy, hfz, h3]
      using ih
  | case2 a b =>
    obtain ⟨w, x, y, z, he, hw, hx, hy, _, h3⟩ := charArray4_spec a b 0
    obtain ⟨hfw, hcw, hew, _⟩ := base64Char_spec hw
    obtain ⟨hfx, hcx, hex, _⟩ := base64Char_spec hx
    obtain ⟨hfy, hcy, hey, _⟩ := base64Char_spec hy
    have htake : (charArray3 w x y (base64Find 0)).take 2 = (charArray3 w x y z).take 2 := rfl
    rw [he]
    simp [hcw, hew, hcx, hex, hcy, hey, base64DecodeChars, hfw, hfx, hfy, htake, h3]
  | case3 a =>
    obtain ⟨w, x, y, z, he, hw, hx, _, _, h3⟩ := charArray4_spec a 0 0
    obtain ⟨hfw, hcw, hew, _⟩ := base64Char_spec hw
    obtain ⟨hfx, hcx, hex, _⟩ := base64Char_spec hx
    have htake : (charArray3 w x (base64Find 0) (base64Find 0)).take 1 =
        (charArray3 w x y z).take 1 := rfl
    rw [he]
    simp [hcw, hew, hcx, hex, base64DecodeChars, hfw, hfx, htake, h3]
  | case4 => rfl

end Tnode
