import Tnode.JsonDecodedChars
import Tnode.Utf8Groups

namespace Tnode

/-- `json_utf8_decode_single` on memory: the indices it reads at, and what it returns. -/
def decodeSingleAt (buf : Nat → Byte) (buflenLeft : Int) : List Nat × Option (Nat × Nat) :=
  let get := fun idx => (buf idx).toNat
  let cont := fun idx => if get idx &&& 0xC0 = 0x80 then some (get idx &&& 0x3F) else none
  if buflenLeft < 1 then ([], none)
  else if get 0 &&& 0x80 = 0 then ([0], some (get 0, 1))
  else if get 0 &&& 0xE0 = 0xC0 then
    if buflenLeft < 2 then ([0], none)
    else ([0, 1], do
      let c1 ← cont 1
      let oChar := ((get 0 &&& 0x1F) <<< 6) ||| c1
      if 128 ≤ oChar then some (oChar, 2) else none)
  else if get 0 &&& 0xF0 = 0xE0 then
    if buflenLeft < 3 then ([0], none)
    else ([0, 1, 2], do
      let c1 ← cont 1
      let c2 ← cont 2
      let oChar := ((get 0 &&& 0x0F) <<< 12) ||| (c1 <<< 6) ||| c2
      if 2048 ≤ oChar ∧ (oChar < 55296 ∨ 57343 < oChar) then some (oChar, 3) else none)
  else if get 0 &&& 0xF8 = 0xF0 then
    if buflenLeft < 4 then ([0], none)
    else ([0, 1, 2, 3], do
      let c1 ← cont 1
      let c2 ← cont 2
      let c3 ← cont 3
      let oChar := ((get 0 &&& 0x0F) <<< 18) ||| (c1 <<< 12) ||| (c2 <<< 6) ||| c3
      if 65536 ≤ oChar ∧ oChar ≤ 1114111 then some (oChar, 4) else none)
  else ([0], none)

/-- A turn of the loop of `create_json_escapes`: where `b` stands, `srclen_left`, by how much the
turn moves `b` on, where `json_utf8_decode_single` reads, and the indices into `hexdigits`. -/
structure EscapeTurn where
  offset : Nat
  srclenLeft : Int
  length : Nat
  reads : List Nat
  digits : List Nat
deriving DecidableEq, Repr

/-- The bytes that a turn consumes. -/
def EscapeTurn.consumed (turn : EscapeTurn) : List Nat :=
  (List.range turn.length).map (turn.offset + ·)

/-- `d1` to `d4`. -/
def unitDigits (u : Nat) : List Nat :=
  [u / 4096, u % 4096 / 256, u % 4096 % 256 / 16, u % 4096 % 256 % 16]

def escapeTurn (mem : Nat → Byte) (b : Nat) (srclenLeft : Int) : EscapeTurn :=
  if isCopied (mem b) then ⟨b, srclenLeft, 1, [], []⟩
  else
    match shortEscape (mem b) with
    | some _ => ⟨b, srclenLeft, 1, [], []⟩
    | none =>
      match decodeSingleAt (fun i => mem (b + i)) srclenLeft with
      | (reads, some (oChar, oLen)) =>
        ⟨b, srclenLeft, oLen, reads,
          (if oChar >>> 16 ≠ 0 then unitDigits (oChar >>> 16) else []) ++
            unitDigits (oChar &&& 0x0000ffff)⟩
      | (reads, none) =>
        ⟨b, srclenLeft, 1, reads, unitDigits (schar (mem b).toNat % 2 ^ 32).toNat⟩

/-- The loop: it ends at the first NUL. `none` is a loop of more turns than `fuel`. -/
def escapeTurns (mem : Nat → Byte) : (fuel b : Nat) → (srclenLeft : Int) → Option (List EscapeTurn)
  | 0, _, _ => none
  | fuel + 1, b, srclenLeft =>
    if mem b = 0 then some []
    else
      let turn := escapeTurn mem b srclenLeft
      (escapeTurns mem fuel (b + turn.length) (srclenLeft - turn.length)).map (turn :: ·)

/-- The memory at a string of the interpreter: its bytes, a NUL, and what stands behind. -/
def memoryOf (s : List Byte) (behind : Nat → Byte) (i : Nat) : Byte :=
  if i < s.length then s.getD i 0 else if i = s.length then 0 else behind i

/-- The turns that `create_json_escapes` makes when `srclen` is the length of the string. -/
def createTurns (s : List Byte) (behind : Nat → Byte) : Option (List EscapeTurn) :=
  escapeTurns (memoryOf s behind) (s.length + 1) 0 s.length

theorem decodeSingleAt_reads (buf : Nat → Byte) (left : Int) :
    ∀ i ∈ (decodeSingleAt buf left).1, (i : Int) < left := by
  unfold decodeSingleAt
  dsimp only
  split
  next => simp
  next h1 =>
    split
    next => simp; omega
    next =>
      split
      next =>
        split
        next => simp; omega
        next => simp; omega
      next =>
        split
        next =>
          split
          next => simp; omega
          next => simp; omega
        next =>
          split
          next =>
            split
            next => simp; omega
            next => simp; omega
          next => simp; omega

/-- What is behind the bytes that are left does not matter. -/
theorem decodeSingleAt_congr {mem mem' : Nat → Byte} {left : Int}
    (h : ∀ i : Nat, (i : Int) < left → mem i = mem' i) :
    decodeSingleAt mem left = decodeSingleAt mem' left := by
  unfold decodeSingleAt
  dsimp only
  by_cases h1 : left < 1
  · simp only [h1, if_true]
  have e0 : mem 0 = mem' 0 := h 0 (by omega)
  simp only [h1, if_false, e0]
  by_cases h2 : left < 2
  · have h3 : left < 3 := by omega
    have h4 : left < 4 := by omega
    simp only [h2, h3, h4, if_true]
  have e1 : mem 1 = mem' 1 := h 1 (by omega)
  simp only [h2, if_false, e1]
  by_cases h3 : left < 3
  · have h4 : left < 4 := by omega
    simp only [h3, h4, if_true]
  have e2 : mem 2 = mem' 2 := h 2 (by omega)
  simp only [h3, if_false, e2]
  by_cases h4 : left < 4
  · simp only [h4, if_true]
  have e3 : mem 3 = mem' 3 := h 3 (by omega)
  simp only [h4, if_false, e3]

theorem decodeSingleAt_list (buf : List Byte) :
    (decodeSingleAt (fun i => buf.getD i 0) buf.length).2 = jsonUtf8DecodeSingle buf := by
  have hlt : ∀ n : Nat, ((buf.length : Int) < n) = (buf.length < n) := by
    intro n
    simp
  have h1 := hlt 1
  have h2 := hlt 2
  have h3 := hlt 3
  have h4 := hlt 4
  simp only [Nat.cast_ofNat, Nat.cast_one] at h1 h2 h3 h4
  unfold decodeSingleAt jsonUtf8DecodeSingle jsonUtf8Cont jsonUtf8Get
  simp only [h1, h2, h3, h4, apply_ite Prod.snd]

theorem unitDigits_lt {u : Nat} (h : u < 65536) : ∀ d ∈ unitDigits u, d < 16 := by
  simp only [unitDigits, List.forall_mem_cons]
  refine ⟨by omega, by omega, by omega, by omega, by simp⟩

/-- A byte that begins no character is taken for a number far behind the table. -/
theorem unitDigits_high {x : Byte} (h : 128 ≤ x.toNat) :
    ∃ d ∈ unitDigits (schar x.toNat % 2 ^ 32).toNat, ¬d < 16 :=
  @forall_byte_lt (fun x => 128 ≤ x.toNat →
    ∃ d ∈ unitDigits (schar x.toNat % 2 ^ 32).toNat, ¬d < 16) 256 (by decide +kernel) x x.toNat_lt h

/-- What a turn of the loop at the text `r` does. -/
structure TurnSpec (b : Nat) (r : List Byte) (turn : EscapeTurn) : Prop where
  offset : turn.offset = b
  pos : 0 < turn.length
  reads : ∀ i ∈ turn.reads, (i : Int) < turn.srclenLeft
  text : ∃ p rest, r = p ++ rest ∧ p.length = turn.length ∧ cstr r = p ++ cstr rest ∧
    ((∀ d ∈ turn.digits, d < 16) ∧ Utf8.Valid (cstr rest) ↔ Utf8.Valid (cstr r))

/-- A turn that moves on by a character, and takes its digits from the table. -/
theorem turnSpec_char {b : Nat} {r rest : List Byte} {turn : EscapeTurn} {c : Char}
    (hoffset : turn.offset = b) (hreads : ∀ i ∈ turn.reads, (i : Int) < turn.srclenLeft)
    (hr : r = String.utf8EncodeChar c ++ rest) (hc : c.toNat ≠ 0)
    (hlen : turn.length = (String.utf8EncodeChar c).length)
    (hdigits : ∀ d ∈ turn.digits, d < 16) : TurnSpec b r turn := by
  have hcstr : cstr r = String.utf8EncodeChar c ++ cstr rest := by
    rw [hr, cstr_append (Utf8.encodeChar_nonzero hc)]
  have hpos := c.utf8Size_pos
  have hsize := String.length_utf8EncodeChar c
  refine ⟨hoffset, by omega, hreads, _, rest, hr, hlen.symm, hcstr, ?_⟩
  rw [hcstr, Utf8.valid_append_char]
  exact and_iff_right hdigits

theorem exists_ascii {x : Byte} (h : x.toNat < 128) :
    ∃ c : Char, c.toNat = x.toNat ∧ String.utf8EncodeChar c = [x] := by
  obtain ⟨c, hc⟩ := Utf8.exists_char (show x.toNat < 0xD800 ∨ _ by left; omega)
  refine ⟨c, hc, ?_⟩
  rw [Utf8.encodeChar_one (by omega), hc, UInt8.ofNat_toNat]

theorem toNat_ne_zero {x : Byte} (h : x ≠ 0) : x.toNat ≠ 0 := by
  intro hx
  exact h (UInt8.toNat_inj.mp hx)

theorem turnSpec_ascii {b : Nat} {x : Byte} {rest : List Byte} {turn : EscapeTurn}
    (hoffset : turn.offset = b) (hreads : ∀ i ∈ turn.reads, (i : Int) < turn.srclenLeft)
    (hx : x ≠ 0) (hlow : x.toNat < 128) (hlen : turn.length = 1)
    (hdigits : ∀ d ∈ turn.digits, d < 16) : TurnSpec b (x :: rest) turn := by
  obtain ⟨c, hc, henc⟩ := exists_ascii hlow
  have hr : x :: rest = String.utf8EncodeChar c ++ rest := by rw [henc]; rfl
  have hne := toNat_ne_zero hx
  exact turnSpec_char hoffset hreads hr (by omega) (by rw [hlen, henc]; rfl) hdigits

/-- A turn at a byte that begins no character. -/
theorem turnSpec_bad {b : Nat} {x : Byte} {rest : List Byte} {turn : EscapeTurn}
    (hoffset : turn.offset = b) (hreads : ∀ i ∈ turn.reads, (i : Int) < turn.srclenLeft)
    (hx : 128 ≤ x.toNat) (hbad : jsonUtf8DecodeSingle (x :: rest) = none) (hlen : turn.length = 1)
    (hdigits : ∃ d ∈ turn.digits, ¬d < 16) : TurnSpec b (x :: rest) turn := by
  have hne : x ≠ 0 := (high_byte hx).1
  have hcstr : cstr (x :: rest) = [x] ++ cstr rest :=
    @cstr_append [x] rest (by simpa using hne)
  refine ⟨hoffset, by omega, hreads, [x], rest, rfl, hlen.symm, hcstr, ?_⟩
  constructor
  · rintro ⟨hall, -⟩
    obtain ⟨d, hd, hnot⟩ := hdigits
    exact absurd (hall d hd) hnot
  · rintro ⟨cs, hcs⟩
    cases cs with
    | nil =>
      rw [hcstr] at hcs
      simp at hcs
    | cons c cs =>
      rw [List.flatMap_cons] at hcs
      have hbuf : x :: rest =
          String.utf8EncodeChar c ++ (cs.flatMap String.utf8EncodeChar ++
            (x :: rest).dropWhile (· ≠ 0)) := by
        rw [← List.append_assoc, ← hcs]
        exact List.takeWhile_append_dropWhile.symm
      rw [hbuf, decodeSingle_encoded] at hbad
      simp at hbad

/-- `json_utf8_decode_single` in the loop finds what stands at the front of the text. -/
theorem decodeSingleAt_eq {mem : Nat → Byte} {b : Nat} {r : List Byte}
    (hmem : ∀ i, i < r.length → mem (b + i) = r.getD i 0) :
    (decodeSingleAt (fun i => mem (b + i)) r.length).2 = jsonUtf8DecodeSingle r := by
  rw [← decodeSingleAt_list, decodeSingleAt_congr]
  intro i hi
  exact hmem i (by omega)

/-- What is copied or escaped by one letter is ASCII. -/
theorem ascii_of_short {x : Byte} (h : isCopied x = true ∨ ∃ y, shortEscape x = some y) :
    x.toNat < 128 := by
  by_contra hhigh
  obtain ⟨-, hcopied, hshort⟩ := high_byte (show 128 ≤ x.toNat by omega)
  rcases h with h | ⟨y, h⟩
  · rw [hcopied] at h
    cases h
  · rw [hshort] at h
    cases h

theorem charDigits_lt {o : Nat} (ho : o < 0x110000) :
    ∀ d ∈ (if o >>> 16 ≠ 0 then unitDigits (o >>> 16) else []) ++ unitDigits (o &&& 0x0000ffff),
      d < 16 := by
  have hshift : o >>> 16 = o / 65536 := Nat.shiftRight_eq_div_pow _ 16
  have hmask : o &&& 0x0000ffff = o % 65536 := Nat.and_two_pow_sub_one_eq_mod _ 16
  intro d hd
  rw [hshift, hmask] at hd
  rcases List.mem_append.mp hd with hd | hd
  · split at hd
    next => exact unitDigits_lt (show o / 65536 < 65536 by omega) d hd
    next => simp at hd
  · exact unitDigits_lt (show o % 65536 < 65536 by omega) d hd

theorem turn_spec {mem : Nat → Byte} {b : Nat} {x : Byte} {rest : List Byte} (hx : x ≠ 0)
    (hmem : ∀ i, i < (x :: rest).length → mem (b + i) = (x :: rest).getD i 0) :
    TurnSpec b (x :: rest) (escapeTurn mem b (x :: rest).length) := by
  have hb : mem b = x := hmem 0 (by simp)
  have hdec := decodeSingleAt_eq hmem
  have hreads := decodeSingleAt_reads (fun i => mem (b + i)) (x :: rest).length
  unfold escapeTurn
  rw [hb]
  split
  next hcopied =>
    exact turnSpec_ascii rfl (by simp) hx (ascii_of_short (Or.inl hcopied)) rfl (by simp)
  next =>
    split
    next y hshort =>
      exact turnSpec_ascii rfl (by simp) hx (ascii_of_short (Or.inr ⟨y, hshort⟩)) rfl (by simp)
    next =>
      split
      next reads o len hat =>
        rw [hat] at hdec hreads
        obtain ⟨c, hc, ⟨tail, hprefix⟩, hlen⟩ := decodeSingle_some hdec.symm
        have hbound := (Utf8.code_point c).2
        have hne : c.toNat ≠ 0 := by
          intro hzero
          have henc := Utf8.encodeChar_one (show c.toNat < 0x80 by omega)
          rw [henc, hzero] at hprefix
          exact hx (List.cons.inj hprefix).1.symm
        exact turnSpec_char rfl hreads hprefix.symm hne hlen (charDigits_lt (by omega))
      next reads hat =>
        rw [hat] at hdec hreads
        have hhigh : 128 ≤ x.toNat := by
          by_contra hlow
          obtain ⟨c, -, henc⟩ := exists_ascii (show x.toNat < 128 by omega)
          have hd := decodeSingle_encoded c rest
          rw [henc, List.singleton_append, ← hdec] at hd
          cases hd
        exact turnSpec_bad rfl hreads hhigh hdec.symm rfl (unitDigits_high hhigh)

/-- The turns of the loop from a place in the string on. -/
theorem turns_spec {mem : Nat → Byte} (fuel : Nat) {b : Nat} {r : List Byte}
    (hfuel : r.length < fuel) (hmem : ∀ i, i ≤ r.length → mem (b + i) = r.getD i 0) :
    ∃ turns, escapeTurns mem fuel b r.length = some turns ∧
      (∀ turn ∈ turns, ∀ i ∈ turn.reads, (i : Int) < turn.srclenLeft) ∧
      turns.flatMap EscapeTurn.consumed = (List.range (cstr r).length).map (b + ·) ∧
      ((∀ turn ∈ turns, ∀ d ∈ turn.digits, d < 16) ↔ Utf8.Valid (cstr r)) := by
  induction fuel generalizing b r with
  | zero => omega
  | succ fuel ih =>
    have hb := hmem 0 (Nat.zero_le _)
    rw [Nat.add_zero] at hb
    have hstop : mem b = 0 → cstr r = [] → ∃ turns,
        escapeTurns mem (fuel + 1) b r.length = some turns ∧
        (∀ turn ∈ turns, ∀ i ∈ turn.reads, (i : Int) < turn.srclenLeft) ∧
        turns.flatMap EscapeTurn.consumed = (List.range (cstr r).length).map (b + ·) ∧
        ((∀ turn ∈ turns, ∀ d ∈ turn.digits, d < 16) ↔ Utf8.Valid (cstr r)) := by
      intro hzero hcstr
      refine ⟨[], by rw [escapeTurns, if_pos hzero], by simp, by simp [hcstr], ?_⟩
      rw [hcstr]
      exact iff_of_true (by simp) ⟨[], rfl⟩
    cases r with
    | nil => exact hstop hb rfl
    | cons x rest =>
      by_cases hx : x = 0
      · exact hstop (by rw [hb, hx]; rfl) (by rw [hx]; rfl)
      have hturn := turn_spec hx (fun i hi => hmem i (by omega))
      obtain ⟨p, tail, hr, hp, hcstr, hvalid⟩ := hturn.text
      generalize hdef : escapeTurn mem b (x :: rest).length = turn at *
      have hpos := hturn.pos
      have hlen : (x :: rest).length = turn.length + tail.length := by
        rw [hr, List.length_append, hp]
      obtain ⟨turns, hturns, hreads, hconsumed, hdigits⟩ := @ih (b + turn.length) tail (by omega) (by
        intro i hi
        rw [Nat.add_assoc, hmem (turn.length + i) (by omega), hr, ← hp,
          List.getD_append_right _ _ _ _ (by omega), Nat.add_sub_cancel_left])
      have hleft : ((x :: rest).length : Int) - turn.length = tail.length := by omega
      refine ⟨turn :: turns, ?_, ?_, ?_, ?_⟩
      · rw [escapeTurns, if_neg (by rw [hb]; exact hx)]
        simp only [hdef, hleft, hturns, Option.map_some]
      · exact List.forall_mem_cons.mpr ⟨hturn.reads, hreads⟩
      · have hshift : (b + ·) ∘ (turn.length + ·) = (b + turn.length + ·) :=
          funext fun i => (Nat.add_assoc b turn.length i).symm
        rw [List.flatMap_cons, hconsumed, EscapeTurn.consumed, hturn.offset, hcstr,
          List.length_append, hp, List.range_add, List.map_append, List.map_map, hshift]
      · rw [List.forall_mem_cons, hdigits]
        exact hvalid

/-- Every index into `hexdigits` is one of the table, `json_utf8_decode_single` reads only what
is left, and the turns consume the bytes up to the first NUL one after the other. -/
def EscapesInBounds (s : List Byte) (behind : Nat → Byte) : Prop :=
  ∃ turns, createTurns s behind = some turns ∧
    (∀ turn ∈ turns, ∀ d ∈ turn.digits, d < 16) ∧
    (∀ turn ∈ turns, ∀ i ∈ turn.reads, (i : Int) < turn.srclenLeft) ∧
    turns.flatMap EscapeTurn.consumed = List.range (cstr s).length

/-- Only the indices into `hexdigits` can be wrong, and they are right exactly for text. -/
theorem escapes_in_bounds_iff (s : List Byte) (behind : Nat → Byte) :
    (∃ turns, createTurns s behind = some turns ∧
      (∀ turn ∈ turns, ∀ i ∈ turn.reads, (i : Int) < turn.srclenLeft) ∧
      turns.flatMap EscapeTurn.consumed = List.range (cstr s).length) ∧
    (EscapesInBounds s behind ↔ Utf8.Valid (cstr s)) := by
  have hmem : ∀ i, i ≤ s.length → memoryOf s behind (0 + i) = s.getD i 0 := by
    intro i hi
    rw [Nat.zero_add, memoryOf]
    split
    next => rfl
    next hlt =>
      have he : i = s.length := by omega
      rw [if_pos he, List.getD_eq_getElem?_getD, List.getElem?_eq_none (by omega)]
      rfl
  obtain ⟨turns, hturns, hreads, hconsumed, hdigits⟩ := turns_spec (s.length + 1) (by omega) hmem
  have hconsumed' : turns.flatMap EscapeTurn.consumed = List.range (cstr s).length := by
    rw [hconsumed]
    simp
  refine ⟨⟨turns, hturns, hreads, hconsumed'⟩, ?_⟩
  constructor
  · rintro ⟨turns', hturns', hall, -⟩
    have heq : turns = turns' := Option.some.inj (hturns.symm.trans hturns')
    exact hdigits.mp (heq ▸ hall)
  · intro hvalid
    exact ⟨turns, hturns, hdigits.mpr hvalid, hreads, hconsumed'⟩

/-- The byte `0xFF` alone is looked up more than a million places behind the table. -/
theorem stray_byte_out_of_bounds : ¬ ∀ s behind, EscapesInBounds s behind := by
  intro h
  obtain ⟨turns, hturns, hall, -⟩ := h [0xFF] (fun _ => 0)
  have he : createTurns [0xFF] (fun _ => 0) = some [⟨0, 1, 1, [0], [1048575, 15, 15, 15]⟩] := by
    decide +kernel
  rw [he] at hturns
  cases hturns
  exact absurd (hall _ List.mem_cons_self 1048575 List.mem_cons_self) (by decide)

end Tnode
