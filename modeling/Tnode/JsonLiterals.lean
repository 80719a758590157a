import Tnode.JsonCallback
import Tnode.Utf8

namespace Tnode

/-- The byte that a letter behind a backslash stands for. -/
def escapedByte (letter : Byte) : Option Byte :=
  match letter.toNat with
  | 34 => some 34
  | 47 => some 47
  | 92 => some 92
  | 98 => some 8
  | 102 => some 12
  | 110 => some 10
  | 114 => some 13
  | 116 => some 9
  | _ => none

/-- `s` is a `\u` with four hexadecimal digits, whose number is `u`. -/
inductive CodeUnit (u : Nat) : List Byte → Prop
  | digits {d1 d2 d3 d4 : Byte} {n1 n2 n3 n4 : Nat} (h1 : xdigit d1 = some n1)
    (h2 : xdigit d2 = some n2) (h3 : xdigit d3 = some n3) (h4 : xdigit d4 = some n4)
    (value : u = 4096 * n1 + 256 * n2 + 16 * n3 + n4) : CodeUnit u [92, 117, d1, d2, d3, d4]

/-- A piece of a string literal of JSON and the bytes it stands for: a byte of the text itself, an
escape of one letter, or one or two numbers of UTF-16 that stand for a character. -/
inductive LiteralPiece : List Byte → List Byte → Prop
  | raw {c : Byte} (control : 32 ≤ c) (quote : c ≠ 34) (backslash : c ≠ 92) : LiteralPiece [c] [c]
  | short {letter b : Byte} (h : escapedByte letter = some b) : LiteralPiece [92, letter] [b]
  | unit {c : Char} {s : List Byte} (h : CodeUnit c.toNat s) :
    LiteralPiece s (String.utf8EncodeChar c)
  | pair {c : Char} {u u' : Nat} {s s' : List Byte} (high : 0xD800 ≤ u ∧ u < 0xDC00)
    (low : 0xDC00 ≤ u' ∧ u' < 0xE000) (h : CodeUnit u s) (h' : CodeUnit u' s')
    (char : c.toNat = 0x10000 + 1024 * (u - 0xD800) + (u' - 0xDC00)) :
    LiteralPiece (s ++ s') (String.utf8EncodeChar c)

/-- The text between the quotes of a literal stands for the bytes. -/
inductive LiteralMeans : List Byte → List Byte → Prop
  | empty : LiteralMeans [] []
  | piece {p b e b' : List Byte} (h : LiteralPiece p b) (rest : LiteralMeans e b') :
    LiteralMeans (p ++ e) (b ++ b')

/-- A literal is the key of a member or a value. -/
inductive Literal
  | key (b : List Byte)
  | value (b : List Byte)
deriving DecidableEq

/-- White space of JSON. -/
def isWhite (c : Byte) : Bool := c = 32 || c = 9 || c = 10 || c = 13

/-- The next byte behind white space is a colon. -/
def ColonNext (s : List Byte) : Prop := (s.dropWhile isWhite).head? = some 58

/-- The literals of a text in their order. -/
inductive Literals : List Byte → List Literal → Prop
  | finished : Literals [] []
  | other {c : Byte} {s : List Byte} {ls : List Literal} (h : c ≠ 34) (rest : Literals s ls) :
    Literals (c :: s) ls
  | key {e b s : List Byte} {ls : List Literal} (h : LiteralMeans e b) (colon : ColonNext s)
    (rest : Literals s ls) : Literals (34 :: (e ++ 34 :: s)) (.key b :: ls)
  | value {e b s : List Byte} {ls : List Literal} (h : LiteralMeans e b) (colon : ¬ColonNext s)
    (rest : Literals s ls) : Literals (34 :: (e ++ 34 :: s)) (.value b :: ls)

theorem CodeUnit.unique {u u' : Nat} {p p' s s' : List Byte} (h : CodeUnit u p)
    (h' : CodeUnit u' p') (heq : p ++ s = p' ++ s') : u = u' ∧ p = p' ∧ s = s' := by
  cases h with
  | digits h1 h2 h3 h4 value =>
    cases h' with
    | digits h1' h2' h3' h4' value' =>
      simp only [List.cons_append, List.nil_append, List.cons.injEq] at heq
      obtain ⟨-, -, rfl, rfl, rfl, rfl, rfl⟩ := heq
      rw [h1] at h1'
      rw [h2] at h2'
      rw [h3] at h3'
      rw [h4] at h4'
      cases h1'
      cases h2'
      cases h3'
      cases h4'
      exact ⟨value.trans value'.symm, rfl, rfl⟩

theorem CodeUnit.front {u : Nat} {p : List Byte} (h : CodeUnit u p) :
    ∃ q, p = 92 :: 117 :: q := by
  cases h
  exact ⟨_, rfl⟩

theorem char_toNat_inj {c c' : Char} (h : c.toNat = c'.toNat) : c = c' :=
  Char.ext (UInt32.toNat_inj.mp h)

/-- A text has one piece in front. -/
theorem LiteralPiece.unique {p p' b b' s s' : List Byte} (h : LiteralPiece p b)
    (h' : LiteralPiece p' b') (heq : p ++ s = p' ++ s') : p = p' ∧ b = b' ∧ s = s' := by
  cases h with
  | raw _ _ hraw =>
    cases h' with
    | raw =>
      cases heq
      exact ⟨rfl, rfl, rfl⟩
    | short => exact absurd (List.cons.inj heq).1 hraw
    | unit hunit =>
      obtain ⟨q, rfl⟩ := hunit.front
      exact absurd (List.cons.inj heq).1 hraw
    | pair _ _ hunit =>
      obtain ⟨q, rfl⟩ := hunit.front
      exact absurd (List.cons.inj heq).1 hraw
  | short hshort =>
    cases h' with
    | raw _ _ hraw => exact absurd (List.cons.inj heq).1.symm hraw
    | short hshort' =>
      cases heq
      rw [hshort] at hshort'
      cases hshort'
      exact ⟨rfl, rfl, rfl⟩
    | unit hunit =>
      obtain ⟨q, rfl⟩ := hunit.front
      cases heq
      cases hshort
    | pair _ _ hunit =>
      obtain ⟨q, rfl⟩ := hunit.front
      cases heq
      cases hshort
  | @unit c _ hunit =>
    cases h' with
    | raw _ _ hraw =>
      obtain ⟨q, rfl⟩ := hunit.front
      exact absurd (List.cons.inj heq).1.symm hraw
    | short hshort =>
      obtain ⟨q, rfl⟩ := hunit.front
      cases heq
      cases hshort
    | unit hunit' =>
      obtain ⟨hu, rfl, rfl⟩ := hunit.unique hunit' heq
      rw [char_toNat_inj hu]
      exact ⟨rfl, rfl, rfl⟩
    | pair high _ hunit' =>
      -- a character is no half of a pair
      rw [List.append_assoc] at heq
      have hu := (hunit.unique hunit' heq).1
      have hc := (Utf8.code_point c).1
      omega
  | @pair c u u' t t' high low hunit hlow hchar =>
    cases h' with
    | raw _ _ hraw =>
      obtain ⟨q, rfl⟩ := hunit.front
      exact absurd (List.cons.inj heq).1.symm hraw
    | short hshort =>
      obtain ⟨q, rfl⟩ := hunit.front
      cases heq
      cases hshort
    | @unit c' _ hunit' =>
      rw [List.append_assoc] at heq
      have hu := (hunit.unique hunit' heq).1
      have hc := (Utf8.code_point c').1
      omega
    | pair _ _ hunit' hlow' hchar' =>
      rw [List.append_assoc, List.append_assoc] at heq
      obtain ⟨rfl, rfl, hrest⟩ := hunit.unique hunit' heq
      obtain ⟨rfl, rfl, rfl⟩ := hlow.unique hlow' hrest
      rw [char_toNat_inj (hchar.trans hchar'.symm)]
      exact ⟨rfl, rfl, rfl⟩

/-- No piece begins with the quote. -/
theorem LiteralPiece.front {p b : List Byte} (h : LiteralPiece p b) :
    ∃ c q, p = c :: q ∧ c ≠ 34 := by
  cases h with
  | @raw c _ quote _ => exact ⟨c, [], rfl, quote⟩
  | @short letter => exact ⟨92, [letter], rfl, by decide⟩
  | unit h =>
    obtain ⟨q, rfl⟩ := h.front
    exact ⟨_, _, rfl, by decide⟩
  | pair _ _ h _ _ =>
    obtain ⟨q, rfl⟩ := h.front
    exact ⟨_, _, rfl, by decide⟩

theorem LiteralMeans.unique {e e' b b' s s' : List Byte} (h : LiteralMeans e b)
    (h' : LiteralMeans e' b') (heq : e ++ 34 :: s = e' ++ 34 :: s') : b = b' ∧ s = s' := by
  induction h generalizing e' b' with
  | empty =>
    cases h' with
    | empty =>
      cases heq
      exact ⟨rfl, rfl⟩
    | piece hp _ =>
      obtain ⟨c, q, rfl, hc⟩ := hp.front
      exact absurd (List.cons.inj heq).1.symm hc
  | piece hp _ ih =>
    cases h' with
    | empty =>
      obtain ⟨c, q, rfl, hc⟩ := hp.front
      exact absurd (List.cons.inj heq).1 hc
    | piece hp' hrest' =>
      rw [List.append_assoc, List.append_assoc] at heq
      obtain ⟨-, rfl, hrest⟩ := hp.unique hp' heq
      obtain ⟨rfl, rfl⟩ := ih hrest' hrest
      exact ⟨rfl, rfl⟩

/-- The literals of a text are determined by it. -/
theorem Literals.unique {s : List Byte} {ls ls' : List Literal} (h : Literals s ls)
    (h' : Literals s ls') : ls = ls' := by
  induction h generalizing ls' with
  | finished =>
    cases h'
    rfl
  | other hc _ ih =>
    cases h' with
    | other _ hrest => exact ih hrest
    | key => exact absurd rfl hc
    | value => exact absurd rfl hc
  | key hmeans hcolon _ ih =>
    generalize heq : (34 : Byte) :: _ = t at h'
    cases h' with
    | finished => cases heq
    | other hc _ => exact absurd (List.cons.inj heq).1.symm hc
    | key hmeans' _ hrest =>
      obtain ⟨rfl, rfl⟩ := hmeans.unique hmeans' (List.cons.inj heq).2
      rw [ih hrest]
    | value hmeans' hcolon' _ =>
      obtain ⟨-, rfl⟩ := hmeans.unique hmeans' (List.cons.inj heq).2
      exact absurd hcolon hcolon'
  | value hmeans hcolon _ ih =>
    generalize heq : (34 : Byte) :: _ = t at h'
    cases h' with
    | finished => cases heq
    | other hc _ => exact absurd (List.cons.inj heq).1.symm hc
    | key hmeans' hcolon' _ =>
      obtain ⟨-, rfl⟩ := hmeans.unique hmeans' (List.cons.inj heq).2
      exact absurd hcolon' hcolon
    | value hmeans' _ hrest =>
      obtain ⟨rfl, rfl⟩ := hmeans.unique hmeans' (List.cons.inj heq).2
      rw [ih hrest]

end Tnode
