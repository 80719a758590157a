import Tnode.Utf8

namespace Utf8

/-- A continuation byte. -/
def Tail (x : UInt8) : Prop := 0x80 ≤ x.toNat ∧ x.toNat < 0xC0

/-- A lead byte and the continuation bytes that it announces, no surrogate. -/
inductive Group : List UInt8 → Prop
  | one {x} (hx : x.toNat < 0x80) : Group [x]
  | two {x y} (hx : 0xC0 ≤ x.toNat ∧ x.toNat < 0xE0) (hy : Tail y) : Group [x, y]
  | three {x y z} (hx : 0xE0 ≤ x.toNat ∧ x.toNat < 0xF0) (hs : x.toNat = 0xED → y.toNat < 0xA0)
      (hy : Tail y) (hz : Tail z) : Group [x, y, z]
  | four {x y z w} (hx : 0xF0 ≤ x.toNat ∧ x.toNat < 0xF8) (hy : Tail y) (hz : Tail z) (hw : Tail w) :
      Group [x, y, z, w]

/-- A group that is an overlong form or stands for a number above U+10FFFF. -/
inductive Excess : List UInt8 → Prop
  | two {x y} (hx : x.toNat < 0xC2) : Excess [x, y]
  | three {x y z} (hx : x.toNat = 0xE0) (hy : y.toNat < 0xA0) : Excess [x, y, z]
  | four {x y z w} (hx : x.toNat = 0xF0) (hy : y.toNat < 0x90) : Excess [x, y, z, w]
  | above {x y z w} (hx : 0xF4 ≤ x.toNat) (hy : x.toNat = 0xF4 → 0x90 ≤ y.toNat) :
      Excess [x, y, z, w]

/-- Groups one behind the other. -/
inductive Groups : List UInt8 → Prop
  | nil : Groups []
  | cons {g s} (hg : Group g) (hs : Groups s) : Groups (g ++ s)

/-- Groups of which one is excess. -/
inductive Slack : List UInt8 → Prop
  | here {g s} (hg : Group g) (he : Excess g) (hs : Groups s) : Slack (g ++ s)
  | behind {g s} (hg : Group g) (hs : Slack s) : Slack (g ++ s)

theorem ofNat_eq {x : UInt8} {n : Nat} (h : x.toNat = n) : UInt8.ofNat n = x := by
  rw [← h, UInt8.ofNat_toNat]

/-- A group that is not excess is a character. -/
theorem Group.char {g : List UInt8} (h : Group g) (he : ¬Excess g) :
    ∃ c : Char, g = String.utf8EncodeChar c := by
  cases h with
  | @one x hx =>
    obtain ⟨c, hc⟩ := exists_char (show x.toNat < 0xD800 ∨ _ by left; omega)
    refine ⟨c, ?_⟩
    rw [encodeChar_one (by omega), ofNat_eq hc.symm]
  | @two x y hx hy =>
    have hmin : ¬x.toNat < 0xC2 := fun hlt => he (.two hlt)
    obtain ⟨hy, hy'⟩ := hy
    obtain ⟨c, hc⟩ := exists_char (n := (x.toNat - 0xC0) * 64 + (y.toNat - 0x80)) (by omega)
    refine ⟨c, ?_⟩
    have hx' : x.toNat = c.toNat / 64 + 0xC0 := by omega
    have hy'' : y.toNat = c.toNat % 64 + 0x80 := by omega
    rw [encodeChar_two (by omega) (by omega), ofNat_eq hx', ofNat_eq hy'']
  | @three x y z hx hs hy hz =>
    have hmin : x.toNat = 0xE0 → ¬y.toNat < 0xA0 := fun hxe hlt => he (.three hxe hlt)
    obtain ⟨hy, hy'⟩ := hy
    obtain ⟨hz, hz'⟩ := hz
    obtain ⟨c, hc⟩ := exists_char
      (n := (x.toNat - 0xE0) * 4096 + (y.toNat - 0x80) * 64 + (z.toNat - 0x80)) (by omega)
    refine ⟨c, ?_⟩
    have hx' : x.toNat = c.toNat / 4096 + 0xE0 := by omega
    have hy'' : y.toNat = c.toNat / 64 % 64 + 0x80 := by omega
    have hz'' : z.toNat = c.toNat % 64 + 0x80 := by omega
    rw [encodeChar_three (by omega) (by omega), ofNat_eq hx', ofNat_eq hy'', ofNat_eq hz'']
  | @four x y z w hx hy hz hw =>
    have hmin : x.toNat = 0xF0 → ¬y.toNat < 0x90 := fun hxe hlt => he (.four hxe hlt)
    have hmax : 0xF4 ≤ x.toNat → x.toNat = 0xF4 ∧ y.toNat < 0x90 := by
      intro hle
      by_contra hno
      exact he (.above hle fun heq => Nat.le_of_not_lt fun hlt => hno ⟨heq, hlt⟩)
    obtain ⟨hy, hy'⟩ := hy
    obtain ⟨hz, hz'⟩ := hz
    obtain ⟨hw, hw'⟩ := hw
    obtain ⟨c, hc⟩ := exists_char (n := (x.toNat - 0xF0) * 262144 + (y.toNat - 0x80) * 4096 +
      (z.toNat - 0x80) * 64 + (w.toNat - 0x80)) (by omega)
    refine ⟨c, ?_⟩
    have hx' : x.toNat = c.toNat / 262144 + 0xF0 := by omega
    have hy'' : y.toNat = c.toNat / 4096 % 64 + 0x80 := by omega
    have hz'' : z.toNat = c.toNat / 64 % 64 + 0x80 := by omega
    have hw'' : w.toNat = c.toNat % 64 + 0x80 := by omega
    rw [encodeChar_four (by omega), ofNat_eq hx', ofNat_eq hy'', ofNat_eq hz'', ofNat_eq hw'']

theorem tail_ofNat {n : Nat} (h : n < 64) : Tail (UInt8.ofNat (n + 0x80)) := by
  rw [Tail, toNat_ofNat (by omega)]
  omega

theorem group_char (c : Char) : Group (String.utf8EncodeChar c) := by
  have hcode := code_point c
  by_cases h1 : c.toNat < 0x80
  · rw [encodeChar_one h1]
    apply Group.one
    rw [toNat_ofNat (by omega)]
    exact h1
  by_cases h2 : c.toNat < 0x800
  · rw [encodeChar_two (by omega) h2]
    apply Group.two
    · rw [toNat_ofNat (by omega)]
      omega
    · exact tail_ofNat (by omega)
  by_cases h3 : c.toNat < 0x10000
  · rw [encodeChar_three (by omega) h3]
    apply Group.three
    · rw [toNat_ofNat (by omega)]
      omega
    · rw [toNat_ofNat (by omega), toNat_ofNat (by omega)]
      omega
    · exact tail_ofNat (by omega)
    · exact tail_ofNat (by omega)
  · rw [encodeChar_four (by omega)]
    apply Group.four
    · rw [toNat_ofNat (by omega)]
      omega
    · exact tail_ofNat (by omega)
    · exact tail_ofNat (by omega)
    · exact tail_ofNat (by omega)

theorem not_excess_char (c : Char) : ¬Excess (String.utf8EncodeChar c) := by
  have hcode := code_point c
  intro h
  by_cases h1 : c.toNat < 0x80
  · rw [encodeChar_one h1] at h
    cases h
  by_cases h2 : c.toNat < 0x800
  · rw [encodeChar_two (by omega) h2] at h
    cases h with
    | two hx =>
      rw [toNat_ofNat (by omega)] at hx
      omega
  by_cases h3 : c.toNat < 0x10000
  · rw [encodeChar_three (by omega) h3] at h
    cases h with
    | three hx hy =>
      rw [toNat_ofNat (by omega)] at hx hy
      omega
  · rw [encodeChar_four (by omega)] at h
    cases h with
    | four hx hy =>
      rw [toNat_ofNat (by omega)] at hx hy
      omega
    | above hx hy =>
      rw [toNat_ofNat (by omega)] at hx hy
      rw [toNat_ofNat (by omega)] at hy
      omega

/-- How long a group with this lead byte is. -/
def groupLength (x : UInt8) : Nat :=
  if x.toNat < 0x80 then 1 else if x.toNat < 0xE0 then 2 else if x.toNat < 0xF0 then 3 else 4

theorem Group.length {g : List UInt8} (h : Group g) :
    ∃ x t, g = x :: t ∧ g.length = groupLength x := by
  cases h with
  | @one x hx => exact ⟨x, _, rfl, by rw [groupLength, if_pos hx]; rfl⟩
  | @two x y hx => exact ⟨x, _, rfl, by rw [groupLength, if_neg (by omega), if_pos hx.2]; rfl⟩
  | @three x y z hx =>
    refine ⟨x, _, rfl, ?_⟩
    rw [groupLength, if_neg (by omega), if_neg (by omega), if_pos hx.2]
    rfl
  | @four x y z w hx =>
    refine ⟨x, _, rfl, ?_⟩
    rw [groupLength, if_neg (by omega), if_neg (by omega), if_neg (by omega)]
    rfl

/-- The lead byte tells where a group ends. -/
theorem Group.unique {g g' s s' : List UInt8} (h : Group g) (h' : Group g')
    (heq : g ++ s = g' ++ s') : g = g' ∧ s = s' := by
  obtain ⟨x, t, hg, hlen⟩ := h.length
  obtain ⟨x', t', hg', hlen'⟩ := h'.length
  have hx : x = x' := by
    rw [hg, hg', List.cons_append, List.cons_append] at heq
    exact (List.cons.inj heq).1
  rw [hx, ← hlen'] at hlen
  exact List.append_inj heq hlen

theorem Valid.groups {s : List UInt8} (h : Valid s) : Groups s := by
  obtain ⟨cs, rfl⟩ := h
  induction cs with
  | nil => exact .nil
  | cons c cs ih => exact .cons (group_char c) ih

/-- The first group of a well-formed string is a character. -/
theorem Valid.of_group {g s : List UInt8} (hg : Group g) (h : Valid (g ++ s)) :
    (∃ c : Char, g = String.utf8EncodeChar c) ∧ Valid s := by
  obtain ⟨cs, hcs⟩ := h
  cases cs with
  | nil =>
    obtain ⟨x, t, rfl, _⟩ := hg.length
    simp at hcs
  | cons c cs =>
    rw [List.flatMap_cons] at hcs
    obtain ⟨rfl, rfl⟩ := hg.unique (group_char c) hcs
    exact ⟨⟨c, rfl⟩, cs, rfl⟩

/-- A character in front of some bytes is text exactly if they are. -/
theorem valid_append_char (c : Char) (s : List UInt8) :
    Valid (String.utf8EncodeChar c ++ s) ↔ Valid s := by
  constructor
  · intro h
    exact (h.of_group (group_char c)).2
  · intro h
    obtain ⟨cs, rfl⟩ := h
    exact ⟨c :: cs, List.flatMap_cons.symm⟩

theorem Valid.not_slack {s : List UInt8} (h : Valid s) : ¬Slack s := by
  intro hslack
  induction hslack with
  | here hg he _ =>
    obtain ⟨⟨c, rfl⟩, _⟩ := h.of_group hg
    exact not_excess_char c he
  | behind hg _ ih => exact ih (h.of_group hg).2

theorem Slack.groups {s : List UInt8} (h : Slack s) : Groups s := by
  induction h with
  | here hg _ hs => exact .cons hg hs
  | behind hg _ ih => exact .cons hg ih

/-- Groups one behind the other are well-formed unless one of them is excess. -/
theorem Groups.valid_or_slack {s : List UInt8} (h : Groups s) : Valid s ∨ Slack s := by
  induction h with
  | nil => exact Or.inl ⟨[], rfl⟩
  | @cons g s hg hs ih =>
    by_cases he : Excess g
    · exact Or.inr (.here hg he hs)
    · obtain ⟨c, rfl⟩ := hg.char he
      rcases ih with ⟨cs, rfl⟩ | hslack
      · exact Or.inl ⟨c :: cs, rfl⟩
      · exact Or.inr (.behind hg hslack)

/-- Whoever takes groups for well-formed is wrong about those with an excess one. -/
theorem groups_iff_valid_iff {s : List UInt8} : (Groups s ↔ Valid s) ↔ ¬Slack s := by
  constructor
  · intro h hslack
    exact (h.mp hslack.groups).not_slack hslack
  · intro h
    exact ⟨fun hs => hs.valid_or_slack.resolve_right h, Valid.groups⟩

end Utf8
