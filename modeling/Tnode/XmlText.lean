import Tnode.XmlParse
import Tnode.Utf8
import Mathlib.Data.Nat.ModEq

namespace Tnode

open JsonParser

inductive XmlRef
  | amp | apos | quot | gt | lt
deriving DecidableEq, Repr

namespace XmlRef

def wire : XmlRef → List Byte
  | amp => bytes "&amp;"
  | apos => bytes "&apos;"
  | quot => bytes "&quot;"
  | gt => bytes "&gt;"
  | lt => bytes "&lt;"

def byte : XmlRef → Byte
  | amp => 38
  | apos => 39
  | quot => 34
  | gt => 62
  | lt => 60

end XmlRef

/-- The code that the digits of a reference stand for. -/
def digitsCode (base : Nat) (digits : List Byte) : Nat :=
  digits.foldl (fun code digit => code * base + (xdigit digit).getD 0) 0

/-- What a value or a text is written with: bytes, and references to characters by name or by
number. -/
inductive XmlPiece
  | raw (c : Byte)
  | named (ref : XmlRef)
  | decimal (digits : List Byte) (c : Char)
  | hex (digits : List Byte) (c : Char)

namespace XmlPiece

def wire : XmlPiece → List Byte
  | raw c => [c]
  | named ref => ref.wire
  | decimal digits _ => bytes "&#" ++ (digits ++ [59])
  | hex digits _ => bytes "&#x" ++ (digits ++ [59])

def value : XmlPiece → List Byte
  | raw c => [c]
  | named ref => [ref.byte]
  | decimal _ c => String.utf8EncodeChar c
  | hex _ c => String.utf8EncodeChar c

/-- The bytes are among those that `pred` lets through, and the digits are those of the character. -/
def WellFormed (pred : Byte → Bool) : XmlPiece → Prop
  | raw c => pred c = true ∧ c ≠ 38
  | named _ => True
  | decimal digits c =>
    (∀ d ∈ digits, isdigit d = true) ∧ digitsCode 10 digits = c.toNat ∧ c.toNat ≠ 0
  | hex digits c =>
    (∀ d ∈ digits, (xdigit d).isSome = true) ∧ digitsCode 16 digits = c.toNat ∧ c.toNat ≠ 0

instance (pred : Byte → Bool) (piece : XmlPiece) : Decidable (piece.WellFormed pred) :=
  match piece with
  | raw c => inferInstanceAs (Decidable (pred c = true ∧ c ≠ 38))
  | named _ => isTrue trivial
  | decimal digits c => inferInstanceAs (Decidable ((∀ d ∈ digits, isdigit d = true) ∧
      digitsCode 10 digits = c.toNat ∧ c.toNat ≠ 0))
  | hex digits c => inferInstanceAs (Decidable ((∀ d ∈ digits, (xdigit d).isSome = true) ∧
      digitsCode 16 digits = c.toNat ∧ c.toNat ≠ 0))

end XmlPiece

def piecesWire (pieces : List XmlPiece) : List Byte := pieces.flatMap XmlPiece.wire

def piecesValue (pieces : List XmlPiece) : List Byte := pieces.flatMap XmlPiece.value

/-- An attribute, with the spaces around its equals sign and behind it. -/
structure XmlAttribute where
  name : List Byte
  before : List Byte
  after : List Byte
  quote : Byte
  value : List XmlPiece
  gap : List Byte

def Spaces (s : List Byte) : Prop := ∀ c ∈ s, isXmlSpace c = true

instance (s : List Byte) : Decidable (Spaces s) :=
  inferInstanceAs (Decidable (∀ c ∈ s, isXmlSpace c = true))

namespace XmlAttribute

def wire (a : XmlAttribute) : List Byte :=
  a.name ++ (a.before ++ 61 :: (a.after ++ a.quote :: (piecesWire a.value ++ a.quote :: a.gap)))

def entry (a : XmlAttribute) : List Byte × List Byte := (a.name, piecesValue a.value)

structure WellFormed (a : XmlAttribute) : Prop where
  name : a.name ≠ [] ∧ ∀ c ∈ a.name, isAttributeName c = true
  spaces : Spaces a.before ∧ Spaces a.after ∧ Spaces a.gap
  quote : a.quote = 39 ∨ a.quote = 34
  value : ∀ p ∈ a.value, p.WellFormed (isAttributeData a.quote)

end XmlAttribute

/-- `mark` does not begin in `s`, when it stands behind it. -/
def Without (mark s : List Byte) : Prop := ∀ k < s.length, ¬mark <+: (s ++ mark).drop k

instance (mark s : List Byte) : Decidable (Without mark s) :=
  inferInstanceAs (Decidable (∀ k < s.length, ¬mark <+: (s ++ mark).drop k))

mutual

/-- What begins with `<`. A closing name is any name: the parser does not compare it. -/
inductive XmlMarkup
  | element (name gap : List Byte) (attributes : List XmlAttribute) (child : XmlContent)
      (closing closingGap : List Byte)
  | empty (name gap : List Byte) (attributes : List XmlAttribute)
  | cdata (s : List Byte)
  | comment (s : List Byte)
  | instruction (s : List Byte)
  | doctype (gap : Byte) (s : List Byte)

inductive XmlContent
  | nil
  | gap (s : List Byte) (next : XmlContent)
  | text (pieces : List XmlPiece) (next : XmlContent)
  | markup (m : XmlMarkup) (next : XmlContent)

end

def closingTag (closing closingGap : List Byte) : List Byte :=
  60 :: 47 :: (closing ++ (closingGap ++ [62]))

mutual

/-- The text of a piece of markup behind its `<`. -/
def XmlMarkup.inner : XmlMarkup → List Byte
  | .element name gap attributes child closing closingGap =>
    name ++ (gap ++ (attributes.flatMap XmlAttribute.wire ++
      62 :: (child.wire ++ closingTag closing closingGap)))
  | .empty name gap attributes =>
    name ++ (gap ++ (attributes.flatMap XmlAttribute.wire ++ [47, 62]))
  | .cdata s => bytes "![CDATA[" ++ (s ++ bytes "]]>")
  | .comment s => bytes "!--" ++ (s ++ bytes "-->")
  | .instruction s => 63 :: (s ++ bytes "?>")
  | .doctype gap s => bytes "!DOCTYPE" ++ gap :: (s ++ [62])

def XmlContent.wire : XmlContent → List Byte
  | .nil => []
  | .gap s next => s ++ next.wire
  | .text pieces next => piecesWire pieces ++ next.wire
  | .markup m next => 60 :: (m.inner ++ next.wire)

end

mutual

def XmlMarkup.node : XmlMarkup → ParsedNode
  | .element name _ attributes child _ _ =>
    .element name (attributes.map XmlAttribute.entry) child.tree
  | .empty name _ attributes => .element name (attributes.map XmlAttribute.entry) .nil
  | .cdata _ => .data
  | .comment _ => .null
  | .instruction _ => .null
  | .doctype _ _ => .null

/-- The tree that is written. -/
def XmlContent.tree : XmlContent → XmlNode
  | .nil => .nil
  | .gap _ next => next.tree
  | .text _ next => .data next.tree
  | .markup m next => m.node.append next.tree

end

/-- The name of an element, with the spaces and attributes behind it. -/
structure OpensElement (name gap : List Byte) (attributes : List XmlAttribute) : Prop where
  name : name ≠ [] ∧ (∀ c ∈ name, isNodeName c = true) ∧ name.head? ≠ some 33
  gap : Spaces gap ∧ (attributes ≠ [] → gap ≠ [])
  attributes : ∀ a ∈ attributes, a.WellFormed

/-- What can stand behind a text. -/
def XmlContent.EndsText : XmlContent → Prop
  | .nil => True
  | .markup _ _ => True
  | _ => False

mutual

def XmlMarkup.WellFormed : XmlMarkup → Prop
  | .element name gap attributes child closing closingGap =>
    OpensElement name gap attributes ∧ child.WellFormed ∧ (∀ c ∈ closing, isNodeName c = true) ∧
      Spaces closingGap
  | .empty name gap attributes => OpensElement name gap attributes
  | .cdata s => Without (bytes "]]>") s
  | .comment s => Without (bytes "-->") s
  | .instruction s => Without (bytes "?>") s
  | .doctype gap s => isXmlSpace gap = true ∧ ∀ c ∈ s, c ≠ 62 ∧ c ≠ 91

/-- A text is not made of spaces alone, and takes in what stands behind it up to the next `<`. -/
def XmlContent.WellFormed : XmlContent → Prop
  | .nil => True
  | .gap s next => Spaces s ∧ next.WellFormed
  | .text pieces next => (∀ p ∈ pieces, p.WellFormed isText) ∧ ¬Spaces (piecesWire pieces) ∧
      next.EndsText ∧ next.WellFormed
  | .markup m next => m.WellFormed ∧ next.WellFormed

end

section

variable {p : Byte → Bool} {xs ys : List Byte}

theorem takeWhile_run (h : ∀ c ∈ xs, p c = true) (hstop : ys.head?.any p = false) :
    (xs ++ ys).takeWhile p = xs := by
  rw [List.takeWhile_append_of_pos h]
  cases ys with
  | nil => simp
  | cons y ys =>
    have hy : ¬p y = true := by simpa using hstop
    rw [List.takeWhile_cons_of_neg hy, List.append_nil]

theorem dropWhile_run (h : ∀ c ∈ xs, p c = true) (hstop : ys.head?.any p = false) :
    (xs ++ ys).dropWhile p = ys := by
  rw [List.dropWhile_append_of_pos h]
  cases ys with
  | nil => rfl
  | cons y ys =>
    have hy : ¬p y = true := by simpa using hstop
    rw [List.dropWhile_cons_of_neg hy]

end

theorem low_bits (x : Nat) : UInt8.ofNat ((x ||| 0x80) &&& 0xBF) = UInt8.ofNat (x % 64 + 0x80) := by
  have hall : ∀ n : Fin 256, ((n.1 ||| 0x80) &&& 0xBF) = n.1 % 64 + 0x80 := by decide +kernel
  have hx := hall ⟨x % 2 ^ 8, Nat.mod_lt x (by decide)⟩
  have hmod : x % 2 ^ 8 % 64 = x % 64 := by omega
  apply UInt8.toNat.inj
  rw [UInt8.toNat_ofNat', UInt8.toNat_ofNat', Nat.and_mod_two_pow, Nat.or_mod_two_pow]
  simp only [hmod] at hx
  change (x % 2 ^ 8 ||| 0x80) &&& 0xBF = (x % 64 + 0x80) % 2 ^ 8
  omega

/-- A lead byte. -/
theorem lead_bits {x : Nat} (mark : Nat) (h : x < 2 ^ 5 ∧ mark = 0xC0 ∨ x < 2 ^ 4 ∧ mark = 0xE0 ∨
    x < 2 ^ 3 ∧ mark = 0xF0) : x ||| mark = x + mark := by
  have hall : ∀ n : Fin 32, (n.1 < 2 ^ 5 → n.1 ||| 0xC0 = n.1 + 0xC0) ∧
      (n.1 < 2 ^ 4 → n.1 ||| 0xE0 = n.1 + 0xE0) ∧ (n.1 < 2 ^ 3 → n.1 ||| 0xF0 = n.1 + 0xF0) := by
    decide +kernel
  obtain ⟨h5, h4, h3⟩ := hall ⟨x, by omega⟩
  rcases h with ⟨h, rfl⟩ | ⟨h, rfl⟩ | ⟨h, rfl⟩
  · exact h5 h
  · exact h4 h
  · exact h3 h

/-- `insert_coded_character` writes UTF-8. -/
theorem insertCodedCharacter_char (c : Char) :
    insertCodedCharacter c.toNat = some (String.utf8EncodeChar c) := by
  have hlt := (Utf8.code_point c).2
  have hshift : c.toNat >>> 6 = c.toNat / 64 := Nat.shiftRight_eq_div_pow ..
  have hshift2 : (c.toNat / 64) >>> 6 = c.toNat / 4096 := by
    rw [Nat.shiftRight_eq_div_pow]
    omega
  have hshift3 : (c.toNat / 4096) >>> 6 = c.toNat / 262144 := by
    rw [Nat.shiftRight_eq_div_pow]
    omega
  unfold insertCodedCharacter
  simp only [hshift, hshift2, hshift3, low_bits]
  split
  next h => rw [Utf8.encodeChar_one h]
  next h1 =>
    split
    next h => rw [Utf8.encodeChar_two (by omega) h, lead_bits 0xC0 (by omega)]
    next h2 =>
      split
      next h => rw [Utf8.encodeChar_three (by omega) h, lead_bits 0xE0 (by omega)]
      next h3 => rw [Utf8.encodeChar_four (by omega), lead_bits 0xF0 (by omega)]

theorem refDigits_run (base : Nat) {digits : List Byte} (h : ∀ d ∈ digits, (xdigit d).isSome = true)
    (src : List Byte) (hstop : src.head?.any (fun d => (xdigit d).isSome) = false) (code : Nat) :
    refDigits base (code % 2 ^ 64) (digits ++ src) =
      (digits.foldl (fun code digit => code * base + (xdigit digit).getD 0) code % 2 ^ 64, src) := by
  induction digits generalizing code with
  | nil =>
    cases src with
    | nil => rfl
    | cons c src =>
      have hc : xdigit c = none := by simpa using hstop
      simp [refDigits, hc]
  | cons d digits ih =>
    obtain ⟨digit, hd⟩ := Option.isSome_iff_exists.mp (h d List.mem_cons_self)
    have hmod : (code % 2 ^ 64 * base + digit) % 2 ^ 64 = (code * base + digit) % 2 ^ 64 := by
      simp [Nat.add_mod, Nat.mul_mod]
    rw [List.cons_append, refDigits, hd]
    dsimp only
    rw [hmod, ih (fun d hd => h d (List.mem_cons_of_mem _ hd)), List.foldl_cons, hd, Option.getD_some]

theorem codedRef_run {base : Nat} {digits : List Byte} {c : Char}
    (h : ∀ d ∈ digits, (xdigit d).isSome = true) (hcode : digitsCode base digits = c.toNat)
    (src : List Byte) :
    codedRef base (digits ++ 59 :: src) = some (String.utf8EncodeChar c, src) := by
  have hlt := (Utf8.code_point c).2
  have hdigits := refDigits_run base h (59 :: src) rfl 0
  have hmod : c.toNat % 2 ^ 64 = c.toNat := Nat.mod_eq_of_lt (by omega)
  rw [← digitsCode, hcode, hmod, Nat.zero_mod] at hdigits
  rw [codedRef, hdigits]
  simp [insertCodedCharacter_char]

theorem xdigit_of_isdigit {d : Byte} (h : isdigit d = true) : (xdigit d).isSome = true ∧ d ≠ 120 := by
  have hall : ∀ n : Fin 256, isdigit (UInt8.ofNat n) = true →
      (xdigit (UInt8.ofNat n)).isSome = true ∧ UInt8.ofNat n ≠ 120 := by decide +kernel
  have hd := hall ⟨d.toNat, d.toNat_lt⟩
  rw [UInt8.ofNat_toNat] at hd
  exact hd h

theorem not_prefix_of_ne {c : Byte} (h : c ≠ 38) (s src : List Byte) : ¬38 :: s <+: c :: src := by
  intro hp
  exact h (List.cons_prefix_cons.mp hp).1.symm

theorem bytes_refs : bytes "&amp;" = [38, 97, 109, 112, 59] ∧
    bytes "&apos;" = [38, 97, 112, 111, 115, 59] ∧ bytes "&quot;" = [38, 113, 117, 111, 116, 59] ∧
    bytes "&gt;" = [38, 103, 116, 59] ∧ bytes "&lt;" = [38, 108, 116, 59] ∧
    bytes "&#x" = [38, 35, 120] ∧ bytes "&#" = [38, 35] := by decide

/-- A turn of the loop reads a piece. -/
theorem expandTurn_piece {pred : Byte → Bool} {piece : XmlPiece} (h : piece.WellFormed pred)
    (src : List Byte) : expandTurn (piece.wire ++ src) = some (piece.value, src) := by
  obtain ⟨hamp, hapos, hquot, hgt, hlt, hx, hnum⟩ := bytes_refs
  unfold expandTurn
  rw [hamp, hapos, hquot, hgt, hlt, hx, hnum]
  cases piece with
  | raw c =>
    have hno := not_prefix_of_ne h.2
    simp [XmlPiece.wire, XmlPiece.value, hno]
  | named ref =>
    cases ref <;> simp [XmlPiece.wire, XmlPiece.value, XmlRef.wire, XmlRef.byte, hamp, hapos, hquot,
      hgt, hlt, List.cons_prefix_cons]
  | decimal digits c =>
    obtain ⟨hdigits, hcode, hne⟩ := h
    cases digits with
    | nil => exact absurd hcode.symm hne
    | cons d digits =>
      have hd := (xdigit_of_isdigit (hdigits d List.mem_cons_self)).2
      have href := codedRef_run (fun d hd => (xdigit_of_isdigit (hdigits d hd)).1) hcode src
      simp [XmlPiece.wire, XmlPiece.value, hnum, List.cons_prefix_cons, Ne.symm hd] at href ⊢
      exact href
  | hex digits c =>
    obtain ⟨hdigits, hcode, _⟩ := h
    have href := codedRef_run hdigits hcode src
    simp [XmlPiece.wire, XmlPiece.value, hx, List.cons_prefix_cons] at href ⊢
    exact href

theorem XmlPiece.wire_head {pred : Byte → Bool} (hamp : pred 38 = true) (piece : XmlPiece)
    (h : piece.WellFormed pred) : ∃ c s, piece.wire = c :: s ∧ pred c = true := by
  obtain ⟨hamp', hapos, hquot, hgt, hlt, hx, hnum⟩ := bytes_refs
  cases piece with
  | raw c => exact ⟨c, [], rfl, h.1⟩
  | named ref => cases ref <;> exact ⟨38, _, by assumption, hamp⟩
  | decimal digits c => exact ⟨38, 35 :: (digits ++ [59]), by rw [wire, hnum]; rfl, hamp⟩
  | hex digits c => exact ⟨38, 35 :: 120 :: (digits ++ [59]), by rw [wire, hx]; rfl, hamp⟩

/-- The loop reads pieces up to a byte at which it stops. -/
theorem expandLoop_pieces {pred : Byte → Bool} (hamp : pred 38 = true) {pieces : List XmlPiece}
    (h : ∀ p ∈ pieces, p.WellFormed pred) {src : List Byte} (hstop : src.head?.any pred = false)
    {n : Nat} (hn : (piecesWire pieces ++ src).length < n) :
    expandLoop pred n (piecesWire pieces ++ src) = .ok (piecesValue pieces, src) := by
  induction pieces generalizing n with
  | nil =>
    cases n with
    | zero => exact absurd hn (Nat.not_lt_zero _)
    | succ n => simp [piecesWire, piecesValue, expandLoop, hstop]
  | cons piece pieces ih =>
    cases n with
    | zero => exact absurd hn (Nat.not_lt_zero _)
    | succ n =>
      have hpiece := h piece List.mem_cons_self
      have hwire : piecesWire (piece :: pieces) ++ src = piece.wire ++ (piecesWire pieces ++ src) := by
        rw [piecesWire, List.flatMap_cons, List.append_assoc]
        rfl
      obtain ⟨c, s, hwire', hc⟩ := piece.wire_head hamp hpiece
      have hlength := congrArg List.length hwire'
      rw [List.length_cons] at hlength
      rw [hwire] at hn ⊢
      rw [List.length_append] at hn
      have hrest := ih (fun p hp => h p (List.mem_cons_of_mem _ hp)) (n := n) (by omega)
      have hhead : (piece.wire ++ (piecesWire pieces ++ src)).head?.any pred = true := by
        rw [hwire']
        exact hc
      rw [expandLoop, if_pos hhead, expandTurn_piece hpiece]
      simp [hrest, piecesValue]

/-- What is skipped at once is what the loop would have copied. -/
theorem skipAndExpand_eq {pred predPure : Byte → Bool}
    (hpure : ∀ c, predPure c = (pred c && c ≠ 38)) (text : List Byte) :
    skipAndExpand pred predPure text = expandLoop pred (text.length + 1) text := by
  induction text with
  | nil => simp [skipAndExpand, expandLoop]
  | cons c text ih =>
    cases hc : predPure c with
    | false =>
      have hdrop : (c :: text).dropWhile predPure = c :: text :=
        List.dropWhile_cons_of_neg (by simp [hc])
      have htake : (c :: text).takeWhile predPure = [] := List.takeWhile_cons_of_neg (by simp [hc])
      rw [skipAndExpand, hdrop, htake]
      exact bind_pure _
    | true =>
      have hboth := hpure c
      rw [hc] at hboth
      obtain ⟨hpred, hne⟩ : pred c = true ∧ c ≠ 38 := by simpa using hboth.symm
      have hturn : expandTurn (c :: text) = some ([c], text) :=
        expandTurn_piece (show (XmlPiece.raw c).WellFormed pred from ⟨hpred, hne⟩) text
      have hloop : expandLoop pred (text.length + 1 + 1) (c :: text) =
          (expandLoop pred (text.length + 1) text).map fun r => (c :: r.1, r.2) := by
        rw [expandLoop, if_pos (show (c :: text).head?.any pred = true from hpred), hturn]
        cases hrest : expandLoop pred (text.length + 1) text <;> simp [hrest, Except.map]
      rw [List.length_cons, hloop, ← ih, skipAndExpand, skipAndExpand,
        List.dropWhile_cons_of_pos hc, List.takeWhile_cons_of_pos hc]
      cases expandLoop pred ((text.dropWhile predPure).length + 1) (text.dropWhile predPure) <;> rfl

theorem skipAndExpand_pieces {pred predPure : Byte → Bool}
    (hpure : ∀ c, predPure c = (pred c && c ≠ 38)) (hamp : pred 38 = true)
    {pieces : List XmlPiece} (h : ∀ p ∈ pieces, p.WellFormed pred)
    {src : List Byte} (hstop : src.head?.any pred = false) :
    skipAndExpand pred predPure (piecesWire pieces ++ src) = .ok (piecesValue pieces, src) := by
  rw [skipAndExpand_eq hpure]
  exact expandLoop_pieces hamp h hstop (Nat.lt_succ_self _)

theorem isText_amp : isText 38 = true := rfl

theorem isAttributeData_amp {quote : Byte} (h : quote = 39 ∨ quote = 34) :
    isAttributeData quote 38 = true := by
  rcases h with rfl | rfl <;> rfl

theorem isXmlSpace_iff {c : Byte} : isXmlSpace c = true ↔ c = 9 ∨ c = 10 ∨ c = 13 ∨ c = 32 := by
  simp [isXmlSpace, or_assoc]

theorem isAttributeName_stops {c : Byte} (h : isAttributeName c = true) :
    isXmlSpace c = false ∧ isNodeName c = true := by
  simp only [isAttributeName, Bool.and_eq_true] at h
  have hnode := h.1.1.1
  refine ⟨?_, hnode⟩
  simp only [isNodeName, Bool.and_eq_true, Bool.not_eq_true'] at hnode
  exact hnode.1.1.1.2

theorem isXmlSpace_stops {c : Byte} (h : isXmlSpace c = true) :
    isAttributeName c = false ∧ isNodeName c = false := by
  simp [isAttributeName, isNodeName, h]

/-- Behind spaces. -/
theorem dropSpaces {s : List Byte} (h : Spaces s) (src : List Byte)
    (hstop : src.head?.any isXmlSpace = false) :
    (s ++ src).dropWhile isXmlSpace = src := dropWhile_run h hstop

/-- A byte that is no part of a name ends it, also behind spaces. -/
theorem head_spaces {p : Byte → Bool} {s src : List Byte} (h : Spaces s)
    (hp : ∀ c, isXmlSpace c = true → p c = false) (hsrc : src.head?.any p = false) :
    (s ++ src).head?.any p = false := by
  cases s with
  | nil => exact hsrc
  | cons c s => exact hp c (h c List.mem_cons_self)

theorem head_flatMap_wire {attributes : List XmlAttribute} (h : ∀ a ∈ attributes, a.WellFormed)
    {src : List Byte} : (attributes.flatMap XmlAttribute.wire ++ src).head?.any isXmlSpace =
      (attributes.isEmpty && src.head?.any isXmlSpace) := by
  cases attributes with
  | nil => rfl
  | cons a attributes =>
    obtain ⟨hne, hname⟩ := (h a List.mem_cons_self).name
    obtain ⟨c, name, hc⟩ := List.exists_cons_of_ne_nil hne
    rw [hc] at hname
    have hspace := (isAttributeName_stops (hname c List.mem_cons_self)).1
    simp [XmlAttribute.wire, hc, hspace]

theorem XmlAttribute.WellFormed.cstr_value {a : XmlAttribute} (h : a.WellFormed) :
    cstr (piecesValue a.value) = piecesValue a.value := by
  apply cstr_eq_self_iff.mpr
  intro hz
  obtain ⟨p, hp, hz⟩ := List.mem_flatMap.mp hz
  have hwell := h.value p hp
  cases p with
  | raw c =>
    cases List.mem_singleton.mp hz
    exact absurd hwell.1 (by simp [isAttributeData])
  | named ref => cases ref <;> simp [XmlPiece.value, XmlRef.byte] at hz
  | decimal digits c => exact Utf8.encodeChar_nonzero hwell.2.2 0 hz rfl
  | hex digits c => exact Utf8.encodeChar_nonzero hwell.2.2 0 hz rfl

/-- The loop reads attributes up to the end of the tag. -/
theorem parseNodeAttributes_wire {attributes : List XmlAttribute} (h : ∀ a ∈ attributes, a.WellFormed)
    {src : List Byte} (hstop : src.head?.any isAttributeName = false ∧ src.head?.any isXmlSpace = false)
    {n : Nat} (hn : (attributes.flatMap XmlAttribute.wire ++ src).length < n) :
    parseNodeAttributes n (attributes.flatMap XmlAttribute.wire ++ src) =
      .ok (attributes.map XmlAttribute.entry, src) := by
  induction attributes generalizing n with
  | nil =>
    cases n with
    | zero => exact absurd hn (Nat.not_lt_zero _)
    | succ n => simp [parseNodeAttributes, hstop.1]
  | cons a attributes ih =>
    cases n with
    | zero => exact absurd hn (Nat.not_lt_zero _)
    | succ n =>
      have ha := h a List.mem_cons_self
      have hattrs : ∀ b ∈ attributes, b.WellFormed := fun b hb => h b (List.mem_cons_of_mem a hb)
      obtain ⟨hne, hname⟩ := ha.name
      obtain ⟨hbefore, hafter, hgap⟩ := ha.spaces
      have hwire : (a :: attributes).flatMap XmlAttribute.wire ++ src =
          a.name ++ (a.before ++ 61 :: (a.after ++ a.quote :: (piecesWire a.value ++ a.quote ::
            (a.gap ++ (attributes.flatMap XmlAttribute.wire ++ src))))) := by
        simp [XmlAttribute.wire]
      have hlength := congrArg List.length hwire
      simp only [List.length_append, List.length_cons] at hlength
      rw [List.length_append] at hn
      have hih := ih hattrs (n := n) (by rw [List.length_append]; omega)
      have hhead : (a.name ++ (a.before ++ 61 :: (a.after ++ a.quote :: (piecesWire a.value ++ a.quote ::
          (a.gap ++ (attributes.flatMap XmlAttribute.wire ++ src)))))).head?.any isAttributeName =
            true := by
        obtain ⟨c, name, hc⟩ := List.exists_cons_of_ne_nil hne
        rw [hc] at hname ⊢
        exact hname c List.mem_cons_self
      have hnostop : ∀ t, (a.before ++ 61 :: t).head?.any isAttributeName = false := fun t =>
        head_spaces hbefore (fun c hc => (isXmlSpace_stops hc).1) rfl
      have hquote : isXmlSpace a.quote = false ∧ isAttributeData a.quote a.quote = false := by
        rcases ha.quote with hq | hq <;> rw [hq] <;> exact ⟨rfl, rfl⟩
      have hbehind : (attributes.flatMap XmlAttribute.wire ++ src).head?.any isXmlSpace = false := by
        rw [head_flatMap_wire hattrs, hstop.2, Bool.and_false]
      have hvalue : skipAndExpand (isAttributeData a.quote) (isAttributeDataPure a.quote)
          (piecesWire a.value ++ a.quote :: (a.gap ++ (attributes.flatMap XmlAttribute.wire ++ src))) =
            .ok (piecesValue a.value,
              a.quote :: (a.gap ++ (attributes.flatMap XmlAttribute.wire ++ src))) :=
        skipAndExpand_pieces (fun c => rfl) (isAttributeData_amp ha.quote) ha.value (by
          simpa using hquote.2)
      rw [hwire, parseNodeAttributes, if_pos hhead, dropWhile_run hname (hnostop _),
        takeWhile_run hname (hnostop _), dropSpaces hbefore _ rfl]
      simp [dropSpaces hafter (a.quote :: (piecesWire a.value ++ a.quote ::
        (a.gap ++ (attributes.flatMap XmlAttribute.wire ++ src)))) (by simpa using hquote.1),
        ha.quote, hvalue, dropSpaces hgap _ hbehind, hih, XmlAttribute.entry, ha.cstr_value]

theorem Without.tail {mark s : List Byte} {c : Byte} (h : Without mark (c :: s)) : Without mark s :=
  fun k hk => h (k + 1) (Nat.succ_lt_succ hk)

theorem Without.drop {mark s : List Byte} (h : Without mark s) (k : Nat) :
    Without mark (s.drop k) := by
  induction k generalizing s with
  | zero => exact h
  | succ k ih =>
    cases s with
    | nil => exact h
    | cons c s => exact ih h.tail

/-- The loops stop at the first `mark`. -/
theorem skipBehind_run {mark s : List Byte} (hmark : mark ≠ []) (h : Without mark s)
    (rest : List Byte) : skipBehind mark (s ++ (mark ++ rest)) = some rest := by
  induction s with
  | nil =>
    obtain ⟨c, t, rfl⟩ := List.exists_cons_of_ne_nil hmark
    rw [List.nil_append, List.cons_append, skipBehind, ← List.cons_append,
      if_pos (List.prefix_append _ _), List.drop_left]
  | cons c s ih =>
    have hno : ¬mark <+: c :: (s ++ (mark ++ rest)) := by
      intro hp
      refine h 0 (Nat.succ_pos _) ?_
      refine @List.prefix_of_prefix_length_le _ _ _ (c :: (s ++ (mark ++ rest))) hp ?_ ?_
      · exact ⟨rest, by simp⟩
      · simp
        omega
    rw [List.cons_append, skipBehind, if_neg hno, ih h.tail]

theorem skipDoctype_run {s : List Byte} (h : ∀ c ∈ s, c ≠ 62 ∧ c ≠ 91) (rest : List Byte) :
    skipDoctype 0 (s ++ 62 :: rest) = some rest := by
  induction s with
  | nil => simp [skipDoctype]
  | cons c s ih =>
    obtain ⟨hend, hopen⟩ := h c List.mem_cons_self
    rw [List.cons_append, skipDoctype, if_neg hend, if_neg hopen,
      ih fun d hd => h d (List.mem_cons_of_mem c hd)]

theorem bytes_marks : bytes "!--" = [33, 45, 45] ∧ bytes "![CDATA[" = [33, 91, 67, 68, 65, 84, 65, 91] ∧
    bytes "!DOCTYPE" = [33, 68, 79, 67, 84, 89, 80, 69] ∧ bytes "-->" = [45, 45, 62] ∧
    bytes "]]>" = [93, 93, 62] ∧ bytes "?>" = [63, 62] ∧ bytes "xml" = [120, 109, 108] := by decide

/-- Behind an XML declaration or a processing instruction. -/
theorem parseMarkup_instruction {s : List Byte} (h : Without (bytes "?>") s) (rest : List Byte) :
    parseMarkup (63 :: (s ++ (bytes "?>" ++ rest))) = some (.null, rest) := by
  have hmark : bytes "?>" ≠ [] := by decide
  rw [parseMarkup, if_pos (List.head?_cons ..)]
  dsimp only
  split
  next hxml =>
    have hlong : 4 ≤ s.length := by
      obtain ⟨_, _, _, _, _, hend, hx⟩ := bytes_marks
      obtain ⟨hname, hspace⟩ := hxml
      rw [hend, hx] at *
      rcases s with _ | ⟨a, _ | ⟨b, _ | ⟨c, _ | ⟨d, s⟩⟩⟩⟩
      · simp at hname
        exact absurd hname.1 (by decide)
      · simp at hname
        exact absurd hname.2.1 (by decide)
      · simp at hname
        exact absurd hname.2.2 (by decide)
      · simp [isXmlSpace] at hspace
      · simp
    have hdrop : (63 :: (s ++ (bytes "?>" ++ rest))).drop 1 = s ++ (bytes "?>" ++ rest) := rfl
    rw [hdrop, List.drop_append_of_le_length hlong, skipBehind_run hmark (h.drop 4)]
    rfl
  next =>
    have hdrop : (63 :: (s ++ (bytes "?>" ++ rest))).drop 1 = s ++ (bytes "?>" ++ rest) := rfl
    rw [hdrop, skipBehind_run hmark h]
    rfl

section

variable {s : List Byte} (rest : List Byte)

theorem parseMarkup_comment (h : Without (bytes "-->") s) :
    parseMarkup (bytes "!--" ++ (s ++ (bytes "-->" ++ rest))) = some (.null, rest) := by
  have hrun := skipBehind_run (by decide) h rest
  obtain ⟨hcomment, _, _, hmark, _⟩ := bytes_marks
  rw [hmark] at hrun ⊢
  rw [parseMarkup, hcomment]
  exact congrArg (Option.map fun src => (ParsedNode.null, src)) hrun

theorem parseMarkup_cdata (h : Without (bytes "]]>") s) :
    parseMarkup (bytes "![CDATA[" ++ (s ++ (bytes "]]>" ++ rest))) = some (.data, rest) := by
  have hrun := skipBehind_run (by decide) h rest
  obtain ⟨hcomment, hcdata, _, _, hmark, _⟩ := bytes_marks
  rw [hmark] at hrun ⊢
  rw [parseMarkup, hcomment, hcdata]
  exact congrArg (Option.map fun src => (ParsedNode.data, src)) hrun

theorem parseMarkup_doctype {gap : Byte} (hgap : isXmlSpace gap = true)
    (h : ∀ c ∈ s, c ≠ 62 ∧ c ≠ 91) :
    parseMarkup (bytes "!DOCTYPE" ++ gap :: (s ++ 62 :: rest)) = some (.null, rest) := by
  have hrun := skipDoctype_run h rest
  obtain ⟨hcomment, hcdata, hdoctype, _⟩ := bytes_marks
  simp [parseMarkup, hcomment, hcdata, hdoctype, List.cons_prefix_cons, hgap, hrun]

end

theorem parseNode_markup {text : List Byte} (h : text.head? = some 63 ∨ text.head? = some 33)
    (n : Nat) : parseNode (n + 1) text = orParseError (parseMarkup text) := by
  rw [parseNode, if_pos h]

section

variable {name gap : List Byte} {attributes : List XmlAttribute}

/-- What `parse_element` reads of a tag up to its `>` or `/`. -/
theorem OpensElement.reads (h : OpensElement name gap attributes) (tail : List Byte)
    {text : List Byte}
    (htail : tail.head? = some 62 ∨ tail.head? = some 47)
    (htext : text = name ++ (gap ++ (attributes.flatMap XmlAttribute.wire ++ tail))) :
    ¬(text.head? = some 63 ∨ text.head? = some 33) ∧ text.head?.any isNodeName = true ∧
      text.takeWhile isNodeName = name ∧
      (text.dropWhile isNodeName).dropWhile isXmlSpace =
        attributes.flatMap XmlAttribute.wire ++ tail ∧
      parseNodeAttributes ((attributes.flatMap XmlAttribute.wire ++ tail).length + 1)
        (attributes.flatMap XmlAttribute.wire ++ tail) =
          .ok (attributes.map XmlAttribute.entry, tail) := by
  obtain ⟨hne, hname, hbang⟩ := h.name
  obtain ⟨hgap, hsep⟩ := h.gap
  have hstops : ∀ p : Byte → Bool, p 62 = false → p 47 = false → tail.head?.any p = false := by
    intro p h62 h47
    rcases htail with ht | ht <;> rw [ht]
    · exact h62
    · exact h47
  have hbehind : (attributes.flatMap XmlAttribute.wire ++ tail).head?.any isXmlSpace = false := by
    rw [head_flatMap_wire h.attributes, hstops isXmlSpace rfl rfl, Bool.and_false]
  have hnostop : (gap ++ (attributes.flatMap XmlAttribute.wire ++ tail)).head?.any isNodeName =
      false := by
    cases gap with
    | nil =>
      cases attributes with
      | nil => exact hstops isNodeName rfl rfl
      | cons a attributes => exact absurd rfl (hsep (List.cons_ne_nil a attributes))
    | cons c gap => exact (isXmlSpace_stops (hgap c List.mem_cons_self)).2
  subst htext
  refine ⟨?_, ?_, takeWhile_run hname hnostop, ?_, ?_⟩
  · obtain ⟨c, name, rfl⟩ := List.exists_cons_of_ne_nil hne
    have hc := hname c List.mem_cons_self
    rintro (hq | hb)
    · cases Option.some.inj hq
      exact absurd hc (by decide)
    · exact hbang hb
  · obtain ⟨c, name, rfl⟩ := List.exists_cons_of_ne_nil hne
    exact hname c List.mem_cons_self
  · rw [dropWhile_run hname hnostop, dropSpaces hgap _ hbehind]
  · exact parseNodeAttributes_wire h.attributes
      ⟨hstops isAttributeName rfl rfl, hstops isXmlSpace rfl rfl⟩ (Nat.lt_succ_self _)

theorem parseNode_empty (h : OpensElement name gap attributes) (rest : List Byte) (n : Nat) :
    parseNode (n + 1) (name ++ (gap ++ (attributes.flatMap XmlAttribute.wire ++ 47 :: 62 :: rest))) =
      .ok (.element name (attributes.map XmlAttribute.entry) .nil, rest) := by
  obtain ⟨hhead, hname, htake, hdrop, hattributes⟩ :=
    h.reads (47 :: 62 :: rest) (Or.inr rfl) rfl
  rw [parseNode, if_neg hhead, if_pos hname, htake, hdrop]
  dsimp only
  rw [hattributes]
  simp

theorem parseNode_element (h : OpensElement name gap attributes) {src rest : List Byte} {n : Nat}
    {child : XmlNode} (hchild : parseNodeContents n src = .ok (child, rest)) :
    parseNode (n + 1) (name ++ (gap ++ (attributes.flatMap XmlAttribute.wire ++ 62 :: src))) =
      .ok (.element name (attributes.map XmlAttribute.entry) child, rest) := by
  obtain ⟨hhead, hname, htake, hdrop, hattributes⟩ := h.reads (62 :: src) (Or.inl rfl) rfl
  rw [parseNode, if_neg hhead, if_pos hname, htake, hdrop]
  dsimp only
  rw [hattributes]
  simp [hchild]

end

theorem parseNodeContents_close {closing closingGap : List Byte}
    (h : ∀ c ∈ closing, isNodeName c = true) (hgap : Spaces closingGap) (rest : List Byte) (n : Nat) :
    parseNodeContents (n + 1) (closingTag closing closingGap ++ rest) = .ok (.nil, rest) := by
  have htag : closingTag closing closingGap ++ rest =
      60 :: 47 :: (closing ++ (closingGap ++ 62 :: rest)) := by simp [closingTag]
  have hstop : (closingGap ++ 62 :: rest).head?.any isNodeName = false :=
    head_spaces hgap (fun c hc => (isXmlSpace_stops hc).2) rfl
  have hdrop : (closingTag closing closingGap ++ rest).dropWhile isXmlSpace =
      60 :: 47 :: (closing ++ (closingGap ++ 62 :: rest)) := by
    rw [htag]
    exact List.dropWhile_cons_of_neg (by decide)
  rw [parseNodeContents, hdrop]
  simp [dropWhile_run h hstop, dropSpaces hgap (62 :: rest) rfl]

theorem isXmlSpace_pure {c : Byte} (h : isXmlSpace c = true) : isTextPure c = true := by
  rcases isXmlSpace_iff.mp h with rfl | rfl | rfl | rfl <;> rfl

/-- Spaces in front do not matter, also where a text takes them in. -/
theorem parseNodeContents_gap {s : List Byte} (h : Spaces s) (text : List Byte) (n : Nat) :
    parseNodeContents n (s ++ text) = parseNodeContents n text := by
  cases n with
  | zero => rw [parseNodeContents, parseNodeContents]
  | succ n =>
    have hpure : ∀ c ∈ s, isTextPure c = true := fun c hc => isXmlSpace_pure (h c hc)
    have hskip : skipAndExpand isText isTextPure (s ++ text) =
        (skipAndExpand isText isTextPure text).map fun r => (s ++ r.1, r.2) := by
      rw [skipAndExpand, skipAndExpand, List.dropWhile_append_of_pos hpure,
        List.takeWhile_append_of_pos hpure]
      cases expandLoop isText ((text.dropWhile isTextPure).length + 1)
          (text.dropWhile isTextPure) with
      | error e => rfl
      | ok r => simp [Except.map]
    rw [parseNodeContents, parseNodeContents, List.dropWhile_append_of_pos h, hskip]
    cases skipAndExpand isText isTextPure text <;> rfl

theorem piecesWire_ne {pieces : List XmlPiece} (h : ∀ p ∈ pieces, p.WellFormed isText) :
    ∀ c ∈ piecesWire pieces, c ≠ 60 := by
  intro c hc
  obtain ⟨p, hp, hc⟩ := List.mem_flatMap.mp hc
  have hwell := h p hp
  rintro rfl
  cases p with
  | raw c =>
    cases List.mem_singleton.mp hc
    exact absurd hwell.1 (by decide)
  | named ref => cases ref <;> exact absurd hc (by decide)
  | decimal digits c =>
    have hb : (60 : Byte) ∉ bytes "&#" := by decide
    simp only [XmlPiece.wire, List.mem_append, List.mem_singleton, hb, false_or] at hc
    rcases hc with hc | hc
    · exact absurd (hwell.1 60 hc) (by decide)
    · exact absurd hc (by decide)
  | hex digits c =>
    have hb : (60 : Byte) ∉ bytes "&#x" := by decide
    simp only [XmlPiece.wire, List.mem_append, List.mem_singleton, hb, false_or] at hc
    rcases hc with hc | hc
    · exact absurd (hwell.1 60 hc) (by decide)
    · exact absurd hc (by decide)

theorem dropWhile_not_spaces {s : List Byte} (h : ¬Spaces s) (src : List Byte) :
    ∃ c t, (s ++ src).dropWhile isXmlSpace = c :: t ∧ c ∈ s := by
  induction s with
  | nil => exact absurd (fun c hc => absurd hc List.not_mem_nil) h
  | cons c s ih =>
    by_cases hc : isXmlSpace c = true
    · have hrest : ¬Spaces s := fun hs => h (List.forall_mem_cons.mpr ⟨hc, hs⟩)
      obtain ⟨d, t, hdrop, hd⟩ := ih hrest
      exact ⟨d, t, by rw [List.cons_append, List.dropWhile_cons_of_pos hc, hdrop],
        List.mem_cons_of_mem c hd⟩
    · exact ⟨c, s ++ src, List.dropWhile_cons_of_neg hc, List.mem_cons_self⟩

/-- A text, up to the `<` behind it. -/
theorem parseNodeContents_text {pieces : List XmlPiece} (h : ∀ p ∈ pieces, p.WellFormed isText)
    (hspaces : ¬Spaces (piecesWire pieces)) {src rest : List Byte} (hsrc : src.head? = some 60)
    {nodes : XmlNode} {n : Nat} (hnodes : parseNodeContents n src = .ok (nodes, rest)) :
    parseNodeContents (n + 1) (piecesWire pieces ++ src) = .ok (.data nodes, rest) := by
  have hread : skipAndExpand isText isTextPure (piecesWire pieces ++ src) =
      .ok (piecesValue pieces, src) :=
    skipAndExpand_pieces (fun c => rfl) isText_amp h (by rw [hsrc]; rfl)
  obtain ⟨c, t, hdrop, hmem⟩ := dropWhile_not_spaces hspaces src
  have hc : c ≠ 60 := piecesWire_ne h c hmem
  rw [parseNodeContents, hdrop, hread]
  split
  next heq => cases heq
  next heq => exact absurd (List.cons.inj heq).1 hc
  next heq => exact absurd (List.cons.inj heq).1 hc
  next => simp [hnodes]

/-- Markup that is no closing tag. -/
theorem parseNodeContents_markup {c : Byte} {inner src rest : List Byte} (hc : c ≠ 47)
    {node : ParsedNode} {nodes : XmlNode} {n : Nat}
    (hnode : parseNode n (c :: inner) = .ok (node, src))
    (hnodes : parseNodeContents n src = .ok (nodes, rest)) :
    parseNodeContents (n + 1) (60 :: c :: inner) = .ok (node.append nodes, rest) := by
  have hdrop : (60 :: c :: inner).dropWhile isXmlSpace = 60 :: c :: inner :=
    List.dropWhile_cons_of_neg (by decide)
  rw [parseNodeContents, hdrop]
  split
  next heq => cases heq
  next heq => exact absurd (List.cons.inj (List.cons.inj heq).2).1 hc
  next heq =>
    cases (List.cons.inj heq).2
    simp [hnode, hnodes]
  next hno => exact absurd rfl (hno (c :: inner))

theorem XmlMarkup.inner_head (m : XmlMarkup) (h : m.WellFormed) :
    ∃ c t, m.inner = c :: t ∧ c ≠ 47 := by
  have hname : ∀ {name gap attributes}, OpensElement name gap attributes →
      ∃ c t, name = c :: t ∧ c ≠ 47 := by
    intro name gap attributes hopen
    obtain ⟨hne, hall, _⟩ := hopen.name
    obtain ⟨c, t, rfl⟩ := List.exists_cons_of_ne_nil hne
    refine ⟨c, t, rfl, ?_⟩
    rintro rfl
    exact absurd (hall 47 List.mem_cons_self) (by decide)
  cases m with
  | element name gap attributes child closing closingGap =>
    obtain ⟨c, t, rfl, hc⟩ := hname h.1
    exact ⟨c, _, rfl, hc⟩
  | empty name gap attributes =>
    obtain ⟨c, t, rfl, hc⟩ := hname h
    exact ⟨c, _, rfl, hc⟩
  | cdata s => exact ⟨33, _, rfl, by decide⟩
  | comment s => exact ⟨33, _, rfl, by decide⟩
  | instruction s => exact ⟨63, _, rfl, by decide⟩
  | doctype gap s => exact ⟨33, _, rfl, by decide⟩

theorem XmlContent.EndsText.head {next : XmlContent} (h : next.EndsText) {tail : List Byte}
    (htail : tail.head? = some 60) : (next.wire ++ tail).head? = some 60 := by
  cases next with
  | nil => exact htail
  | markup m next => rfl
  | gap s next => exact h.elim
  | text pieces next => exact h.elim

mutual

theorem XmlMarkup.parse : (m : XmlMarkup) → m.WellFormed → ∀ (n : Nat) (rest : List Byte),
    (m.inner ++ rest).length < n → parseNode n (m.inner ++ rest) = .ok (m.node, rest)
  | _, _, 0, _, hn => absurd hn (Nat.not_lt_zero _)
  | .element name gap attributes child closing closingGap, h, n + 1, rest, hn => by
    obtain ⟨hopen, hchild, hclosing, hgap⟩ := h
    have hinner : (XmlMarkup.element name gap attributes child closing closingGap).inner ++ rest =
        name ++ (gap ++ (attributes.flatMap XmlAttribute.wire ++
          62 :: (child.wire ++ (closingTag closing closingGap ++ rest)))) := by
      simp [XmlMarkup.inner]
    rw [hinner] at hn ⊢
    refine parseNode_element hopen (XmlContent.parse child hchild hclosing hgap n rest ?_)
    simp only [List.length_append, List.length_cons] at hn ⊢
    omega
  | .empty name gap attributes, h, n + 1, rest, _ => by
    have hinner : (XmlMarkup.empty name gap attributes).inner ++ rest =
        name ++ (gap ++ (attributes.flatMap XmlAttribute.wire ++ 47 :: 62 :: rest)) := by
      simp [XmlMarkup.inner]
    rw [hinner]
    exact parseNode_empty h rest n
  | .cdata s, h, n + 1, rest, _ => by
    rw [parseNode_markup (Or.inr rfl), XmlMarkup.inner, List.append_assoc, List.append_assoc]
    exact congrArg orParseError (parseMarkup_cdata rest h)
  | .comment s, h, n + 1, rest, _ => by
    rw [parseNode_markup (Or.inr rfl), XmlMarkup.inner, List.append_assoc, List.append_assoc]
    exact congrArg orParseError (parseMarkup_comment rest h)
  | .instruction s, h, n + 1, rest, _ => by
    rw [parseNode_markup (Or.inl rfl), XmlMarkup.inner, List.cons_append, List.append_assoc]
    exact congrArg orParseError (parseMarkup_instruction h rest)
  | .doctype gap s, h, n + 1, rest, _ => by
    rw [parseNode_markup (Or.inr rfl), XmlMarkup.inner, List.append_assoc, List.cons_append,
      List.append_assoc]
    exact congrArg orParseError (parseMarkup_doctype rest h.1 h.2)

theorem XmlContent.parse : (x : XmlContent) → x.WellFormed → ∀ {closing closingGap : List Byte},
    (∀ c ∈ closing, isNodeName c = true) → Spaces closingGap → ∀ (n : Nat) (rest : List Byte),
    (x.wire ++ (closingTag closing closingGap ++ rest)).length < n →
    parseNodeContents n (x.wire ++ (closingTag closing closingGap ++ rest)) = .ok (x.tree, rest)
  | _, _, _, _, _, _, 0, _, hn => absurd hn (Nat.not_lt_zero _)
  | .nil, _, _, _, hclosing, hgap, n + 1, rest, _ => parseNodeContents_close hclosing hgap rest n
  | .gap s next, h, closing, closingGap, hclosing, hgap, n + 1, rest, hn => by
    rw [XmlContent.wire, List.append_assoc] at hn ⊢
    rw [parseNodeContents_gap h.1]
    refine XmlContent.parse next h.2 hclosing hgap (n + 1) rest ?_
    rw [List.length_append] at hn
    omega
  | .text pieces next, h, closing, closingGap, hclosing, hgap, n + 1, rest, hn => by
    obtain ⟨hpieces, hspaces, hends, hnext⟩ := h
    have hne : 0 < (piecesWire pieces).length := by
      apply List.length_pos_of_ne_nil
      intro hnil
      rw [hnil] at hspaces
      exact hspaces fun c hc => absurd hc List.not_mem_nil
    rw [XmlContent.wire, List.append_assoc] at hn ⊢
    rw [List.length_append] at hn
    exact parseNodeContents_text hpieces hspaces (hends.head rfl)
      (XmlContent.parse next hnext hclosing hgap n rest (by omega))
  | .markup m next, h, closing, closingGap, hclosing, hgap, n + 1, rest, hn => by
    obtain ⟨hm, hnext⟩ := h
    rw [XmlContent.wire, List.cons_append, List.append_assoc] at hn ⊢
    rw [List.length_cons, List.length_append] at hn
    obtain ⟨c, t, hinner, hc⟩ := m.inner_head hm
    have hnode := XmlMarkup.parse m hm n (next.wire ++ (closingTag closing closingGap ++ rest)) (by
      rw [List.length_append]
      omega)
    rw [hinner] at hnode ⊢
    exact parseNodeContents_markup hc hnode
      (XmlContent.parse next hnext hclosing hgap n rest (by omega))

end

/-- Outside of the elements there is no text. -/
def XmlContent.NoText : XmlContent → Prop
  | .nil => True
  | .gap _ next => next.NoText
  | .text _ _ => False
  | .markup _ next => next.NoText

/-- A document as it is written to a file. -/
structure XmlText where
  bom : Bool
  content : XmlContent
  wellFormed : content.WellFormed
  noText : content.NoText
  noNul : 0 ∉ content.wire

namespace XmlText

def wire (x : XmlText) : List Byte :=
  if x.bom then 0xEF :: 0xBB :: 0xBF :: x.content.wire else x.content.wire

end XmlText

end Tnode
