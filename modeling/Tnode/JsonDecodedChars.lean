import Tnode.JsonEscapes

namespace Tnode

theorem jsonUtf8Cont_some {buf : List Byte} {idx n : Nat} (h : jsonUtf8Cont buf idx = some n) :
    n < 64 ∧ buf[idx]? = some (UInt8.ofNat (n + 0x80)) := by
  have hget : jsonUtf8Get buf idx < 256 := (buf.getD idx 0).toNat_lt
  have hmask : jsonUtf8Get buf idx &&& 0xC0 = jsonUtf8Get buf idx / 64 % 4 * 64 :=
    Utf8.and_shifted_mask _ 6 2
  have hlow : jsonUtf8Get buf idx &&& 0x3F = jsonUtf8Get buf idx % 64 :=
    Nat.and_two_pow_sub_one_eq_mod _ 6
  rw [jsonUtf8Cont, hmask, hlow] at h
  split at h
  next hc =>
    cases h
    have hval : jsonUtf8Get buf idx = jsonUtf8Get buf idx % 64 + 0x80 := by omega
    refine ⟨Nat.mod_lt _ (by omega), ?_⟩
    cases he : buf[idx]? with
    | none =>
      rw [jsonUtf8Get, List.getD_eq_getElem?_getD, he] at hval
      exact absurd hval (by decide)
    | some x =>
      have hx : jsonUtf8Get buf idx = x.toNat := by
        rw [jsonUtf8Get, List.getD_eq_getElem?_getD, he]
        rfl
      rw [← hval, hx, UInt8.ofNat_toNat]
  next => simp at h

theorem get_eq {buf : List Byte} {x : Nat} (hlen : 1 ≤ buf.length)
    (h : jsonUtf8Get buf 0 = x) : buf[0]? = some (UInt8.ofNat x) := by
  rw [← h, jsonUtf8Get, List.getD_eq_getElem?_getD, List.getElem?_eq_getElem hlen]
  simp

/-- `buf` begins with the text of the character `o`, of `len` bytes. -/
def BeginsWith (buf : List Byte) (o len : Nat) : Prop :=
  ∃ c : Char, c.toNat = o ∧ String.utf8EncodeChar c <+: buf ∧ len = (String.utf8EncodeChar c).length

theorem beginsWith_of_encode {buf bytes : List Byte} {c : Char} {o : Nat} (hc : c.toNat = o)
    (henc : String.utf8EncodeChar c = bytes)
    (hget : ∀ i (hi : i < bytes.length), buf[i]? = some bytes[i]) :
    BeginsWith buf o bytes.length := by
  refine ⟨c, hc, ?_, by rw [henc]⟩
  rw [henc, List.prefix_iff_getElem?]
  exact hget

section

variable {buf : List Byte} {x c1 c2 c3 : Nat} (hbyte : x < 256)
  (h0 : buf[0]? = some (UInt8.ofNat x))
  (h1 : c1 < 64 ∧ buf[1]? = some (UInt8.ofNat (c1 + 0x80)))
  (h2 : c2 < 64 ∧ buf[2]? = some (UInt8.ofNat (c2 + 0x80)))
  (h3 : c3 < 64 ∧ buf[3]? = some (UInt8.ofNat (c3 + 0x80)))

include h0

theorem beginsWith_one (hx : x < 128) : BeginsWith buf x 1 := by
  obtain ⟨c, hc⟩ := Utf8.exists_char (show x < 0xD800 ∨ _ by left; omega)
  have henc := Utf8.encodeChar_one (show c.toNat < 0x80 by omega)
  rw [hc] at henc
  apply beginsWith_of_encode hc henc
  intro i hi
  rcases i with _ | i
  · exact h0
  · exact absurd hi (by simp only [List.length_cons, List.length_nil]; omega)

include hbyte h1

theorem beginsWith_two (hx : x / 32 % 8 * 32 = 0xC0) (hmin : 128 ≤ (x % 32) <<< 6 ||| c1) :
    BeginsWith buf ((x % 32) <<< 6 ||| c1) 2 := by
  have ho := @Utf8.shiftLeft_or (x % 32) c1 6 h1.1
  rw [ho] at hmin ⊢
  obtain ⟨c, hc⟩ := Utf8.exists_char (show 2 ^ 6 * (x % 32) + c1 < 0xD800 ∨ _ by left; omega)
  have henc := Utf8.encodeChar_two (show 0x80 ≤ c.toNat by omega) (by omega)
  have hlead : c.toNat / 64 + 0xC0 = x := by omega
  have hcont : c.toNat % 64 = c1 := by omega
  rw [hlead, hcont] at henc
  apply beginsWith_of_encode hc henc
  intro i hi
  rcases i with _ | _ | i
  · exact h0
  · exact h1.2
  · exact absurd hi (by simp only [List.length_cons, List.length_nil]; omega)

include h2

theorem beginsWith_three (hx : x / 16 % 16 * 16 = 0xE0)
    (hmin : 2048 ≤ (x % 16) <<< 12 ||| c1 <<< 6 ||| c2 ∧
      ((x % 16) <<< 12 ||| c1 <<< 6 ||| c2 < 55296 ∨ 57343 < (x % 16) <<< 12 ||| c1 <<< 6 ||| c2)) :
    BeginsWith buf ((x % 16) <<< 12 ||| c1 <<< 6 ||| c2) 3 := by
  have h1lt := h1.1
  have h2lt := h2.1
  have ho : (x % 16) <<< 12 ||| c1 <<< 6 ||| c2 = 2 ^ 12 * (x % 16) + (2 ^ 6 * c1 + c2) := by
    rw [Nat.lor_assoc, Utf8.shiftLeft_or (x := c1) h2lt, Utf8.shiftLeft_or (by omega)]
  rw [ho] at hmin ⊢
  obtain ⟨c, hc⟩ := Utf8.exists_char (n := 2 ^ 12 * (x % 16) + (2 ^ 6 * c1 + c2)) (by omega)
  have henc := Utf8.encodeChar_three (show 0x800 ≤ c.toNat by omega) (by omega)
  have hlead : c.toNat / 4096 + 0xE0 = x := by omega
  have hmid : c.toNat / 64 % 64 = c1 := by omega
  have hcont : c.toNat % 64 = c2 := by omega
  rw [hlead, hmid, hcont] at henc
  apply beginsWith_of_encode hc henc
  intro i hi
  rcases i with _ | _ | _ | i
  · exact h0
  · exact h1.2
  · exact h2.2
  · exact absurd hi (by simp only [List.length_cons, List.length_nil]; omega)

include h3

theorem beginsWith_four (hx : x / 8 % 32 * 8 = 0xF0)
    (hmin : 65536 ≤ (x % 16) <<< 18 ||| c1 <<< 12 ||| c2 <<< 6 ||| c3 ∧
      (x % 16) <<< 18 ||| c1 <<< 12 ||| c2 <<< 6 ||| c3 ≤ 1114111) :
    BeginsWith buf ((x % 16) <<< 18 ||| c1 <<< 12 ||| c2 <<< 6 ||| c3) 4 := by
  have h1lt := h1.1
  have h2lt := h2.1
  have h3lt := h3.1
  have ho : (x % 16) <<< 18 ||| c1 <<< 12 ||| c2 <<< 6 ||| c3 =
      2 ^ 18 * (x % 16) + (2 ^ 12 * c1 + (2 ^ 6 * c2 + c3)) := by
    rw [Nat.lor_assoc, Utf8.shiftLeft_or (x := c2) h3lt, Nat.lor_assoc,
      Utf8.shiftLeft_or (x := c1) (by omega), Utf8.shiftLeft_or (by omega)]
  rw [ho] at hmin ⊢
  obtain ⟨c, hc⟩ := Utf8.exists_char (n := 2 ^ 18 * (x % 16) + (2 ^ 12 * c1 + (2 ^ 6 * c2 + c3)))
    (by omega)
  have henc := Utf8.encodeChar_four (show 0x10000 ≤ c.toNat by omega)
  have hlead : c.toNat / 262144 + 0xF0 = x := by omega
  have hhigh : c.toNat / 4096 % 64 = c1 := by omega
  have hmid : c.toNat / 64 % 64 = c2 := by omega
  have hcont : c.toNat % 64 = c3 := by omega
  rw [hlead, hhigh, hmid, hcont] at henc
  apply beginsWith_of_encode hc henc
  intro i hi
  rcases i with _ | _ | _ | _ | i
  · exact h0
  · exact h1.2
  · exact h2.2
  · exact h3.2
  · exact absurd hi (by simp only [List.length_cons, List.length_nil]; omega)

end

/-- What `json_utf8_decode_single` accepts is the text of a character. -/
theorem decodeSingle_some {buf : List Byte} {o len : Nat}
    (h : jsonUtf8DecodeSingle buf = some (o, len)) : BeginsWith buf o len := by
  obtain ⟨x, hx⟩ : ∃ x, jsonUtf8Get buf 0 = x := ⟨_, rfl⟩
  have hbyte : x < 256 := by
    rw [← hx]
    exact (buf.getD 0 0).toNat_lt
  obtain ⟨h80, hE0, hF0, hF8⟩ := lead_masks x
  have h1F : x &&& 0x1F = x % 32 := Nat.and_two_pow_sub_one_eq_mod _ 5
  have h0F : x &&& 0x0F = x % 16 := Nat.and_two_pow_sub_one_eq_mod _ 4
  unfold jsonUtf8DecodeSingle at h
  simp only [hx, h80, hE0, hF0, hF8, h1F, h0F] at h
  split at h
  next => simp at h
  next hlen =>
  have h0 := get_eq (by omega) hx
  split at h
  next hlow =>
    obtain ⟨ho, hl⟩ := Prod.mk.inj (Option.some.inj h)
    subst ho hl
    exact beginsWith_one h0 (by omega)
  next =>
  split at h
  next htwo =>
    split at h
    next => simp at h
    next =>
      obtain ⟨c1, hc1, h⟩ := Option.bind_eq_some_iff.mp h
      split at h
      next hmin =>
        cases h
        exact beginsWith_two hbyte h0 (jsonUtf8Cont_some hc1) htwo hmin
      next => simp at h
  next =>
  split at h
  next hthree =>
    split at h
    next => simp at h
    next =>
      obtain ⟨c1, hc1, h⟩ := Option.bind_eq_some_iff.mp h
      obtain ⟨c2, hc2, h⟩ := Option.bind_eq_some_iff.mp h
      split at h
      next hmin =>
        cases h
        exact beginsWith_three hbyte h0 (jsonUtf8Cont_some hc1) (jsonUtf8Cont_some hc2) hthree hmin
      next => simp at h
  next =>
  split at h
  next hfour =>
    split at h
    next => simp at h
    next =>
      obtain ⟨c1, hc1, h⟩ := Option.bind_eq_some_iff.mp h
      obtain ⟨c2, hc2, h⟩ := Option.bind_eq_some_iff.mp h
      obtain ⟨c3, hc3, h⟩ := Option.bind_eq_some_iff.mp h
      split at h
      next hmin =>
        cases h
        exact beginsWith_four hbyte h0 (jsonUtf8Cont_some hc1) (jsonUtf8Cont_some hc2)
          (jsonUtf8Cont_some hc3) hfour hmin
      next => simp at h
  next => simp at h

theorem decodeSingle_encoded (c : Char) (rest : List Byte) :
    jsonUtf8DecodeSingle (String.utf8EncodeChar c ++ rest) =
      some (c.toNat, (String.utf8EncodeChar c).length) := by
  by_cases hlow : c.toNat < 0x80
  · have hchar := Utf8.encodeChar_one hlow
    have hget : jsonUtf8Get (UInt8.ofNat c.toNat :: rest) 0 = c.toNat := Utf8.toNat_ofNat (by omega)
    have hmask : c.toNat &&& 0x80 = c.toNat / 128 % 2 * 128 := (lead_masks _).1
    rw [hchar, List.singleton_append, jsonUtf8DecodeSingle, hget, hmask, List.length_cons]
    rw [if_neg (by omega), if_pos (by omega)]
    rfl
  · obtain ⟨b, tail, hchar, -, hsingle⟩ := decodeSingle_char (by omega : 0x80 ≤ c.toNat) rest
    rw [hchar, hsingle]
    rfl

end Tnode
