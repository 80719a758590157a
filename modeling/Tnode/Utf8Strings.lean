import Tnode.Utf8Groups
import Tnode.JsonDecodedChars

namespace Tnode

open Utf8

/-- The loop of `isUTF8String` over the bytes that are left, with so many bytes 10bbbbbb still to
follow. -/
def utf8Loop : Nat → List Byte → Bool
  | 0, [] => true
  | _ + 1, [] => false
  | n + 1, b :: s => if b.toNat &&& 0xC0 ≠ 0x80 then false else utf8Loop n s
  | 0, b :: s =>
    let c := b.toNat
    if c ≤ 0x7f then utf8Loop 0 s
    else if c &&& 0xE0 = 0xC0 then utf8Loop 1 s
    else if c = 0xed ∧ s.head?.any (fun next => next.toNat &&& 0xa0 = 0xa0) = true then false
    else if c &&& 0xF0 = 0xE0 then utf8Loop 2 s
    else if c &&& 0xF8 = 0xF0 then utf8Loop 3 s
    else false

/-- What `isUTF8String` looks at: `ix` is the length as an `int`. -/
def lookedAt (string : List Byte) : List Byte := string.take (int32 string.length).toNat

def isUTF8String (string : List Byte) : Bool := utf8Loop 0 (lookedAt string)

/-- The string splits into characters that `json_utf8_decode_single` accepts. -/
inductive Splits : List Byte → Prop
  | nil : Splits []
  | cons {s o len} (hd : jsonUtf8DecodeSingle s = some (o, len)) (hs : Splits (s.drop len)) : Splits s

theorem splits_iff_valid {s : List Byte} : Splits s ↔ Valid s := by
  constructor
  · intro h
    induction h with
    | nil => exact ⟨[], rfl⟩
    | @cons s o len hd _ ih =>
      obtain ⟨c, _, ⟨rest, rfl⟩, rfl⟩ := decodeSingle_some hd
      rw [List.drop_left] at ih
      exact (valid_append_char c rest).mpr ih
  · intro h
    obtain ⟨cs, rfl⟩ := h
    induction cs with
    | nil => exact .nil
    | cons c cs ih =>
      rw [List.flatMap_cons]
      apply Splits.cons (decodeSingle_encoded c _)
      rw [List.drop_left]
      exact ih

/-- The masks of `isUTF8String` as ranges. -/
theorem byte_class (b : Byte) :
    (b.toNat &&& 0xC0 = 0x80 ↔ Tail b) ∧
    (b.toNat &&& 0xE0 = 0xC0 ↔ 0xC0 ≤ b.toNat ∧ b.toNat < 0xE0) ∧
    (b.toNat &&& 0xF0 = 0xE0 ↔ 0xE0 ≤ b.toNat ∧ b.toNat < 0xF0) ∧
    (b.toNat &&& 0xF8 = 0xF0 ↔ 0xF0 ≤ b.toNat ∧ b.toNat < 0xF8) ∧
    (Tail b → (b.toNat &&& 0xa0 = 0xa0 ↔ 0xA0 ≤ b.toNat)) := by
  have hbyte : b.toNat < 256 := b.toNat_lt
  have hC0 : b.toNat &&& 0xC0 = b.toNat / 64 % 4 * 64 := and_shifted_mask _ 6 2
  obtain ⟨_, hE0, hF0, hF8⟩ := lead_masks b.toNat
  have hsurrogate : Tail b → (b.toNat &&& 0xa0 = 0xa0 ↔ 0xA0 ≤ b.toNat) := by
    unfold Tail
    exact @forall_byte_lt (fun b => 0x80 ≤ b.toNat ∧ b.toNat < 0xC0 →
      (b.toNat &&& 0xa0 = 0xa0 ↔ 0xA0 ≤ b.toNat)) 256 (by decide +kernel) b hbyte
  unfold Tail
  rw [hC0, hE0, hF0, hF8]
  exact ⟨by omega, by omega, by omega, by omega, hsurrogate⟩

theorem utf8Loop_succ {n : Nat} {s : List Byte} :
    utf8Loop (n + 1) s = true ↔ ∃ b t, s = b :: t ∧ Tail b ∧ utf8Loop n t = true := by
  cases s with
  | nil => simp [utf8Loop]
  | cons b t =>
    have htail := (byte_class b).1
    rw [utf8Loop]
    by_cases h : b.toNat &&& 0xC0 = 0x80
    · rw [if_neg (not_not.mpr h)]
      exact ⟨fun hloop => ⟨b, t, rfl, htail.mp h, hloop⟩, fun ⟨_, _, heq, _, hloop⟩ => by
        cases heq
        exact hloop⟩
    · rw [if_pos h]
      refine iff_of_false Bool.false_ne_true ?_
      intro hex
      obtain ⟨_, _, heq, hb, _⟩ := hex
      cases heq
      exact h (htail.mpr hb)

/-- A turn of the loop takes a group. -/
theorem utf8Loop_takes {b : Byte} {s : List Byte} (h : utf8Loop 0 (b :: s) = true) :
    ∃ g t, b :: s = g ++ t ∧ Group g ∧ utf8Loop 0 t = true := by
  obtain ⟨_, htwo, hthree, hfour, _⟩ := byte_class b
  rw [utf8Loop] at h
  split at h
  next hlow => exact ⟨[b], s, rfl, .one (by omega), h⟩
  next =>
    split at h
    next hlead =>
      obtain ⟨y, t, rfl, hy, ht⟩ := utf8Loop_succ.mp h
      exact ⟨[b, y], t, rfl, .two (htwo.mp hlead) hy, ht⟩
    next =>
      split at h
      next => cases h
      next hsur =>
        split at h
        next hlead =>
          obtain ⟨y, _, rfl, hy, h⟩ := utf8Loop_succ.mp h
          obtain ⟨z, t, rfl, hz, ht⟩ := utf8Loop_succ.mp h
          refine ⟨[b, y, z], t, rfl, .three (hthree.mp hlead) ?_ hy hz, ht⟩
          intro hed
          have hmask := (byte_class y).2.2.2.2 hy
          by_contra hge
          apply hsur
          refine ⟨hed, ?_⟩
          simpa using hmask.mpr (Nat.le_of_not_lt hge)
        next =>
          split at h
          next hlead =>
            obtain ⟨y, _, rfl, hy, h⟩ := utf8Loop_succ.mp h
            obtain ⟨z, _, rfl, hz, h⟩ := utf8Loop_succ.mp h
            obtain ⟨w, t, rfl, hw, ht⟩ := utf8Loop_succ.mp h
            exact ⟨[b, y, z, w], t, rfl, .four (hfour.mp hlead) hy hz hw, ht⟩
          next => cases h

section
variable {b : Byte} {s : List Byte}

theorem utf8Loop_one (h : b.toNat < 0x80) : utf8Loop 0 (b :: s) = utf8Loop 0 s := by
  rw [utf8Loop, if_pos (by omega)]

theorem utf8Loop_two (h : 0xC0 ≤ b.toNat ∧ b.toNat < 0xE0) : utf8Loop 0 (b :: s) = utf8Loop 1 s := by
  rw [utf8Loop, if_neg (by omega), if_pos ((byte_class b).2.1.mpr h)]

theorem utf8Loop_three {y : Byte} (h : 0xE0 ≤ b.toNat ∧ b.toNat < 0xF0) (hhead : s.head? = some y)
    (hy : Tail y) (hs : b.toNat = 0xED → y.toNat < 0xA0) : utf8Loop 0 (b :: s) = utf8Loop 2 s := by
  obtain ⟨_, htwo, hthree, _⟩ := byte_class b
  have hmask := (byte_class y).2.2.2.2 hy
  have hsurrogate : ¬(b.toNat = 0xed ∧
      s.head?.any (fun next => next.toNat &&& 0xa0 = 0xa0) = true) := by
    rw [hhead]
    intro hboth
    have hge : 0xA0 ≤ y.toNat := hmask.mp (by simpa using hboth.2)
    have hlt := hs hboth.1
    omega
  have hnot : ¬(b.toNat &&& 0xE0 = 0xC0) := by
    rw [htwo]
    omega
  rw [utf8Loop, if_neg (by omega), if_neg hnot, if_neg hsurrogate, if_pos (hthree.mpr h)]

theorem utf8Loop_four (h : 0xF0 ≤ b.toNat ∧ b.toNat < 0xF8) :
    utf8Loop 0 (b :: s) = utf8Loop 3 s := by
  obtain ⟨_, htwo, hthree, hfour, _⟩ := byte_class b
  have hnot : ¬(b.toNat &&& 0xE0 = 0xC0) := by
    rw [htwo]
    omega
  have hnot' : ¬(b.toNat &&& 0xF0 = 0xE0) := by
    rw [hthree]
    omega
  have hed : ¬b.toNat = 0xed := by omega
  rw [utf8Loop, if_neg (by omega), if_neg hnot, if_neg (fun hboth => hed hboth.1), if_neg hnot',
    if_pos (hfour.mpr h)]

end

theorem utf8Loop_group {g s : List Byte} (hg : Group g) (hs : utf8Loop 0 s = true) :
    utf8Loop 0 (g ++ s) = true := by
  cases hg with
  | one hx => exact (utf8Loop_one hx).trans hs
  | @two x y hx hy =>
    have hrest : utf8Loop 1 (y :: s) = true := utf8Loop_succ.mpr ⟨y, s, rfl, hy, hs⟩
    exact (utf8Loop_two hx).trans hrest
  | @three x y z hx hsur hy hz =>
    have hlast : utf8Loop 1 (z :: s) = true := utf8Loop_succ.mpr ⟨z, s, rfl, hz, hs⟩
    have hrest : utf8Loop 2 (y :: z :: s) = true := utf8Loop_succ.mpr ⟨y, _, rfl, hy, hlast⟩
    exact (utf8Loop_three hx rfl hy hsur).trans hrest
  | @four x y z w hx hy hz hw =>
    have hlast : utf8Loop 1 (w :: s) = true := utf8Loop_succ.mpr ⟨w, s, rfl, hw, hs⟩
    have hmid : utf8Loop 2 (z :: w :: s) = true := utf8Loop_succ.mpr ⟨z, _, rfl, hz, hlast⟩
    have hrest : utf8Loop 3 (y :: z :: w :: s) = true := utf8Loop_succ.mpr ⟨y, _, rfl, hy, hmid⟩
    exact (utf8Loop_four hx).trans hrest

/-- The loop accepts exactly groups. -/
theorem utf8Loop_iff {s : List Byte} : utf8Loop 0 s = true ↔ Groups s := by
  constructor
  · intro h
    induction hn : s.length using Nat.strongRecOn generalizing s with
    | _ n ih =>
      cases s with
      | nil => exact .nil
      | cons b s =>
        obtain ⟨g, t, heq, hg, ht⟩ := utf8Loop_takes h
        obtain ⟨x, rest, hcons, _⟩ := hg.length
        have hlen := congrArg List.length heq
        rw [List.length_append, hn] at hlen
        have hpos : 0 < g.length := by
          rw [hcons, List.length_cons]
          omega
        rw [heq]
        exact .cons hg (ih t.length (by omega) ht rfl)
  · intro h
    induction h with
    | nil => rfl
    | cons hg _ ih => exact utf8Loop_group hg ih

theorem lookedAt_short {s : List Byte} (h : s.length < 2 ^ 31) : lookedAt s = s := by
  rw [lookedAt, int32_eq_self_iff.mpr (by omega), Int.toNat_natCast]
  exact List.take_length

/-- `isUTF8String` takes the string for well-formed, and for one that `json_utf8_decode_single`
reads to its end, exactly when it is. -/
def Classified (s : List Byte) : Prop :=
  (isUTF8String s = true ↔ Valid s) ∧ (isUTF8String s = true ↔ Splits s)

theorem classified_iff_groups {s : List Byte} : Classified s ↔ (Groups (lookedAt s) ↔ Valid s) := by
  rw [Classified, splits_iff_valid, and_self, isUTF8String, utf8Loop_iff]

/-- Below 2^31 bytes only an overlong form or a number above U+10FFFF deceives `isUTF8String`; from
there on the part that it looks at decides. -/
theorem isUTF8String_classified_iff (s : List Byte) :
    Classified s ↔ if s.length < 2 ^ 31 then ¬Slack s else
      (Valid s ∧ Groups (lookedAt s)) ∨ (¬Valid s ∧ ¬Groups (lookedAt s)) := by
  rw [classified_iff_groups]
  split
  next h =>
    rw [lookedAt_short h]
    exact groups_iff_valid_iff
  next =>
    rw [and_comm, and_comm (a := ¬Valid s)]
    exact iff_iff_and_or_not_and_not

/-- The overlong form of NUL passes. -/
theorem overlong_passes : ¬Classified [0xC0, 0x80] := by
  have hslack : Slack [0xC0, 0x80] :=
    Slack.here (Group.two (by decide) (by unfold Tail; decide)) (Excess.two (by decide)) .nil
  intro h
  have hcond := (isUTF8String_classified_iff _).mp h
  rw [if_pos (by decide)] at hcond
  exact hcond hslack

end Tnode
