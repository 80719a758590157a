import Tnode.JsonEscapes
import Tnode.JsonDecode
import Tnode.JsonLiterals

namespace Tnode

namespace JsonParser

/-- The parser inside a string. -/
def inString (stack : List JsonMode) (buffer : List Byte) : JsonParser :=
  ⟨.ST, .string, false, 0, stack, buffer⟩

/-- The parser inside a string, behind the first half `u` of a pair of surrogates. -/
def half (u : Nat) (stack : List JsonMode) (buffer : List Byte) : JsonParser :=
  ⟨.D1, .string, false, u, stack, buffer⟩

theorem run_append_of {jc jc' : JsonParser} {s : List Byte} {events : List JsonEvent}
    (h : jc.run s = (events, some jc')) (s' : List Byte) :
    jc.run (s ++ s') = (events ++ (jc'.run s').1, (jc'.run s').2) := by
  induction s generalizing jc events with
  | nil =>
    cases h
    rfl
  | cons c s ih =>
    rw [run] at h
    rw [List.cons_append, run]
    rcases hstep : jc.step c with ⟨events₁, _ | jc₁⟩
    · rw [hstep] at h
      cases h
    · rw [hstep] at h
      obtain ⟨hevents, hjc'⟩ := Prod.mk.inj h
      have hrest := ih (Prod.ext rfl hjc')
      simp only [hrest, ← hevents, List.append_assoc]

theorem run_append_none {jc : JsonParser} {s : List Byte} (h : (jc.run s).2 = none)
    (s' : List Byte) : (jc.run (s ++ s')).2 = none := by
  rw [run_append, h, Option.bind_none]

theorem step_class {jc : JsonParser} {c : Byte} {class' : JsonClass}
    (hclass : nextClass c = some class') (hescaped : jc.escaped = false) (htype : jc.type ≠ .none) :
    jc.step c = (jc.pushBack c).plan (stateTransitionTable jc.state class') := by
  have hadd : jc.addChar c class' = some (jc.pushBack c) := by
    simp [addChar, hescaped, htype]
  rw [step, hclass]
  simp only [hadd]
  rfl

theorem run_goto {jc : JsonParser} {c : Byte} {class' : JsonClass} {state : JsonState}
    (hclass : nextClass c = some class') (hescaped : jc.escaped = false) (htype : jc.type ≠ .none)
    (htable : stateTransitionTable jc.state class' = .goto state) (s : List Byte) :
    jc.run (c :: s) = { jc.pushBack c with state }.run s := by
  rw [run, step_class hclass hescaped htype, htable]
  rfl

/-- The byte behind the backslash. -/
theorem run_escape {c : Byte} {class' : JsonClass} {state : JsonState} {stack : List JsonMode}
    {buffer written : List Byte} (hclass : nextClass c = some class')
    (hadd : (⟨.ES, .string, true, 0, stack, buffer ++ [92]⟩ : JsonParser).addEscapedChar c =
      some ⟨.ES, .string, false, 0, stack, buffer ++ written⟩)
    (htable : stateTransitionTable .ES class' = .goto state) (s : List Byte) :
    (inString stack buffer).run (92 :: c :: s) =
      (⟨state, .string, false, 0, stack, buffer ++ written⟩ : JsonParser).run s := by
  have hback : (inString stack buffer).step 92 =
      ([], some ⟨.ES, .string, true, 0, stack, buffer ++ [92]⟩) :=
    step_class (rfl : nextClass 92 = some .backs) rfl (by simp [inString])
  have hletter : (⟨.ES, .string, true, 0, stack, buffer ++ [92]⟩ : JsonParser).step c =
      ([], some ⟨state, .string, false, 0, stack, buffer ++ written⟩) := by
    rw [step, hclass]
    simp only [addChar, if_true, hadd, htable]
    rfl
  rw [run, hback]
  simp only [run, hletter, List.nil_append]

theorem run_error {jc : JsonParser} {c : Byte} {class' : JsonClass}
    (hclass : nextClass c = some class') (hescaped : jc.escaped = false) (htype : jc.type ≠ .none)
    (htable : stateTransitionTable jc.state class' = .error) (s : List Byte) :
    (jc.run (c :: s)).2 = none := by
  rw [run, step_class hclass hescaped htype, htable]
  rfl

end JsonParser

/-- A byte that is copied stays in a string, and none of them goes on with a pair. -/
theorem copied_class {b : Byte} (h : isCopied b = true) :
    isFed b = true ∧ b < 0xF0 ∧ ∃ class', nextClass b = some class' ∧
      stateTransitionTable .ST class' = .goto .ST ∧ stateTransitionTable .D1 class' = .error := by
  have hall := @forall_byte_lt (fun b => isCopied b = true → isFed b = true ∧ b < 0xF0 ∧
    (nextClass b).any (fun class' => decide (stateTransitionTable .ST class' = .goto .ST) &&
      decide (stateTransitionTable .D1 class' = .error)) = true) 256 (by decide +kernel) b
      b.toNat_lt h
  obtain ⟨hfed, hlow, hany⟩ := hall
  rw [Option.any_eq_true] at hany
  obtain ⟨class', hclass, hrows⟩ := hany
  rw [Bool.and_eq_true, decide_eq_true_eq, decide_eq_true_eq] at hrows
  exact ⟨hfed, hlow, class', hclass, hrows.1, hrows.2⟩

/-- The letter of an escape, which reads as the byte again. -/
theorem short_class {b letter : Byte} (h : shortEscape b = some letter) :
    isFed letter = true ∧ b < 0xF0 ∧
      (∀ jc : JsonParser, { jc with escaped := true }.addEscapedChar letter =
        some ({ jc with escaped := false }.popBack.pushBack b)) ∧
      ∃ class', nextClass letter = some class' ∧ stateTransitionTable .ES class' = .goto .ST ∧
        stateTransitionTable .D2 class' = .error := by
  unfold shortEscape at h
  split at h <;> cases h
  all_goals
    next hb =>
      have hself : b = UInt8.ofNat b.toNat := by simp
      rw [hb] at hself
      subst hself
      exact ⟨by decide, by decide, fun _ => rfl, _, rfl, rfl, rfl⟩

theorem xdigit_class {d : Byte} {n : Nat} (h : xdigit d = some n) :
    isFed d = true ∧ hexValue d = n ∧ ∃ class', nextClass d = some class' ∧
      ∀ next : JsonAction, hexDigit next class' = next := by
  have hall := @forall_byte_lt (fun d => ∀ n ∈ xdigit d, isFed d = true ∧ hexValue d = n ∧
    (nextClass d).any (fun class' => class' ∈ [JsonClass.zero, .digit, .lowA, .lowB, .lowC, .lowD,
      .lowE, .lowF, .abcdf, .e]) = true) 256 (by decide +kernel) d d.toNat_lt n h
  obtain ⟨hfed, hvalue, hany⟩ := hall
  rw [Option.any_eq_true] at hany
  obtain ⟨class', hclass, hmem⟩ := hany
  refine ⟨hfed, hvalue, class', hclass, ?_⟩
  intro next
  simp only [List.mem_cons, List.not_mem_nil, or_false, decide_eq_true_eq] at hmem
  rcases hmem with rfl | rfl | rfl | rfl | rfl | rfl | rfl | rfl | rfl | rfl <;> rfl

theorem xdigit_hexdigit {d : Byte} (h : d ∈ hexdigits) : xdigit d = some (hexValue d) := by
  have hall : ∀ d ∈ hexdigits, xdigit d = some (hexValue d) := by decide +kernel
  exact hall d h

theorem IsUnit.codeUnit {u : Nat} {s : List Byte} (h : IsUnit u s) : CodeUnit u s := by
  cases h with
  | digits h value =>
    simp only [List.forall_mem_cons] at h
    obtain ⟨h1, h2, h3, h4, _⟩ := h
    simp only [List.foldl_cons, List.foldl_nil] at value
    exact .digits (xdigit_hexdigit h1) (xdigit_hexdigit h2) (xdigit_hexdigit h3)
      (xdigit_hexdigit h4) (by omega)

theorem CodeUnit.lt {u : Nat} {s : List Byte} (h : CodeUnit u s) : u < 65536 := by
  have hdigit : ∀ {d : Byte} {n : Nat}, xdigit d = some n → n < 16 := by
    intro d n hd
    exact @forall_byte_lt (fun d => ∀ n ∈ xdigit d, n < 16) 256 (by decide +kernel) d d.toNat_lt n
      hd
  cases h with
  | digits h1 h2 h3 h4 value =>
    have hn1 := hdigit h1
    have hn2 := hdigit h2
    have hn3 := hdigit h3
    have hn4 := hdigit h4
    omega

/-- The bytes that `decode_unicode_char` writes for a unit that is no surrogate. -/
def unitBytes (u : Nat) : List Byte :=
  utf8Bytes u (if u < 0x80 then 0 else if u < 0x800 then 1 else 2)

theorem trail_eq (u : Nat) : (u &&& 0x3F) ||| 0x80 = u % 64 + 0x80 := by
  have hlow : u &&& 0x3F = u % 64 := Nat.and_two_pow_sub_one_eq_mod _ 6
  have hor : 1 <<< 7 ||| u % 64 = 2 ^ 7 * 1 + u % 64 := Utf8.shiftLeft_or (by omega)
  rw [hlow, Nat.lor_comm]
  exact hor.trans (by omega)

theorem unitBytes_char {c : Char} (h : c.toNat < 0x10000) :
    unitBytes c.toNat = String.utf8EncodeChar c := by
  have hshift : ∀ n : Nat, c.toNat >>> n = c.toNat / 2 ^ n := Nat.shiftRight_eq_div_pow _
  by_cases h1 : c.toNat < 0x80
  · rw [unitBytes, if_pos h1, Utf8.encodeChar_one h1]
    simp [utf8Bytes, utf8LeadBits]
  by_cases h2 : c.toNat < 0x800
  · have hlead : c.toNat / 64 ||| 0xC0 = c.toNat / 64 + 0xC0 := by
      have hor : 3 <<< 6 ||| c.toNat / 64 = 2 ^ 6 * 3 + c.toNat / 64 := Utf8.shiftLeft_or (by omega)
      rw [Nat.lor_comm]
      exact hor.trans (by omega)
    rw [unitBytes, if_neg h1, if_pos h2, Utf8.encodeChar_two (by omega) h2]
    simp [utf8Bytes, utf8LeadBits, hshift, trail_eq, hlead, List.range_succ]
  · have hlead : c.toNat / 4096 ||| 0xE0 = c.toNat / 4096 + 0xE0 := by
      have hor : 7 <<< 5 ||| c.toNat / 4096 = 2 ^ 5 * 7 + c.toNat / 4096 :=
        Utf8.shiftLeft_or (by omega)
      rw [Nat.lor_comm]
      exact hor.trans (by omega)
    rw [unitBytes, if_neg h1, if_neg h2, Utf8.encodeChar_three (by omega) h]
    simp [utf8Bytes, utf8LeadBits, hshift, trail_eq, hlead, List.range_succ]

theorem buffer_unit {u : Nat} {s : List Byte} (h : CodeUnit u s) (buffer : List Byte) :
    ((buffer ++ s).drop ((buffer ++ s).length - 4)).foldl (fun u d => 16 * u + hexValue d) 0 = u ∧
      (buffer ++ s).take ((buffer ++ s).length - 6) = buffer := by
  cases h with
  | @digits d1 d2 d3 d4 _ _ _ _ h1 h2 h3 h4 value =>
    have hlen : (buffer ++ [92, 117, d1, d2, d3, d4]).length - 4 = (buffer ++ [92, 117]).length := by
      simp
    have hsplit : buffer ++ [92, 117, d1, d2, d3, d4] = (buffer ++ [92, 117]) ++ [d1, d2, d3, d4] := by
      simp
    refine ⟨?_, by simp⟩
    rw [hlen, hsplit, List.drop_left]
    simp only [List.foldl_cons, List.foldl_nil, (xdigit_class h1).2.1, (xdigit_class h2).2.1,
      (xdigit_class h3).2.1, (xdigit_class h4).2.1]
    omega

theorem surrogate_masks (u : Nat) (h : u < 65536) :
    (u &&& 0xFC00 = 0xDC00 ↔ 0xDC00 ≤ u ∧ u < 0xE000) ∧
      (u &&& 0xFC00 = 0xD800 ↔ 0xD800 ≤ u ∧ u < 0xDC00) := by
  have hmask : u &&& 0xFC00 = u / 1024 % 64 * 1024 := Utf8.and_shifted_mask _ 10 6
  rw [hmask]
  omega

namespace JsonParser

/-- The parser behind a unit whose digits are in the buffer. -/
def unitRead (jc : JsonParser) : Option JsonParser :=
  jc.decodeUnicodeChar.map fun jc =>
    { jc with state := if jc.utf16HighSurrogate ≠ 0 then .D1 else .ST }

theorem run_digit {jc : JsonParser} {d : Byte} {n : Nat} (hd : xdigit d = some n)
    {state : JsonState} (hescaped : jc.escaped = false) (htype : jc.type ≠ .none)
    (htable : ∀ class', stateTransitionTable jc.state class' = hexDigit (.goto state) class')
    (s : List Byte) : jc.run (d :: s) = { jc.pushBack d with state }.run s := by
  obtain ⟨_, _, class', hclass, hrow⟩ := xdigit_class hd
  exact run_goto hclass hescaped htype ((htable class').trans (hrow _)) s

theorem run_lastDigit {jc : JsonParser} {d : Byte} {n : Nat} (hd : xdigit d = some n)
    (hescaped : jc.escaped = false) (htype : jc.type ≠ .none) (hstate : jc.state = .U4) :
    jc.run [d] = ([], (jc.pushBack d).unitRead) := by
  obtain ⟨_, _, class', hclass, hrow⟩ := xdigit_class hd
  have htable : stateTransitionTable jc.state class' = .UC := by
    rw [hstate]
    exact hrow _
  have hplan : (jc.pushBack d).plan .UC = ([], (jc.pushBack d).unitRead) := rfl
  rw [run, step_class hclass hescaped htype, htable, hplan]
  cases (jc.pushBack d).unitRead with
  | none => rfl
  | some jc' => rfl

theorem run_unit {u n : Nat} {s : List Byte} (h : CodeUnit u s) {stack : List JsonMode}
    {buffer : List Byte} {jc : JsonParser}
    (hjc : jc = half n stack buffer ∨ jc = inString stack buffer ∧ n = 0) :
    jc.run s = ([], (⟨.U4, .string, false, n, stack, buffer ++ s⟩ : JsonParser).unitRead) := by
  cases h with
  | @digits d1 d2 d3 d4 _ _ _ _ h1 h2 h3 h4 _ =>
    have hstart : ∀ s', jc.run (92 :: 117 :: s') =
        (⟨.U1, .string, false, n, stack, buffer ++ [92, 117]⟩ : JsonParser).run s' := by
      intro s'
      rcases hjc with rfl | ⟨rfl, rfl⟩
      · have h92 : ∀ s, (half n stack buffer).run (92 :: s) =
            (⟨.D2, .string, false, n, stack, buffer ++ [92]⟩ : JsonParser).run s :=
          run_goto (rfl : nextClass 92 = some .backs) rfl (by simp [half]) rfl
        have h117 : ∀ s, (⟨.D2, .string, false, n, stack, buffer ++ [92]⟩ : JsonParser).run (117 :: s) =
            (⟨.U1, .string, false, n, stack, buffer ++ [92] ++ [117]⟩ : JsonParser).run s :=
          run_goto (rfl : nextClass 117 = some .lowU) rfl (by simp) rfl
        rw [h92, h117, List.append_assoc, List.singleton_append]
      · apply run_escape (rfl : nextClass 117 = some .lowU) _ rfl
        simp [addEscapedChar, popBack, pushBack]
    have ht : JsonType.string ≠ .none := by decide
    rw [hstart, run_digit h1 rfl ht (fun _ => rfl), run_digit h2 rfl ht (fun _ => rfl),
      run_digit h3 rfl ht (fun _ => rfl), run_lastDigit h4 rfl ht rfl]
    simp [pushBack]

theorem unitRead_pair {u n : Nat} {s : List Byte} (h : CodeUnit u s) (hu : u < 65536)
    (hs : u < 0xDC00 ∨ 0xE000 ≤ u) (hn : n ≠ 0) (stack : List JsonMode) (buffer : List Byte) :
    (⟨.U4, .string, false, n, stack, buffer ++ s⟩ : JsonParser).unitRead = none := by
  obtain ⟨hvalue, _⟩ := buffer_unit h buffer
  obtain ⟨hlow, _⟩ := surrogate_masks u hu
  rw [unitRead, decodeUnicodeChar]
  simp only [hvalue, hlow]
  rw [if_pos hn, if_neg (by omega)]
  rfl

theorem unitRead_low {u : Nat} {s : List Byte} (h : CodeUnit u s) (hu : 0xDC00 ≤ u)
    (hu' : u < 0xE000) (stack : List JsonMode) (buffer : List Byte) :
    (⟨.U4, .string, false, 0, stack, buffer ++ s⟩ : JsonParser).unitRead = none := by
  obtain ⟨hvalue, _⟩ := buffer_unit h buffer
  obtain ⟨hlow, hhigh⟩ := surrogate_masks u (by omega)
  rw [unitRead, decodeUnicodeChar]
  simp only [hvalue, hlow, hhigh]
  rw [if_neg (by simp), if_neg (by omega), if_neg (by omega), if_neg (by omega), if_pos ⟨hu, hu'⟩]
  rfl

theorem unitRead_high {u : Nat} {s : List Byte} (h : CodeUnit u s) (hu : 0xD800 ≤ u)
    (hu' : u < 0xDC00) (stack : List JsonMode) (buffer : List Byte) :
    (⟨.U4, .string, false, 0, stack, buffer ++ s⟩ : JsonParser).unitRead =
      some (half u stack buffer) := by
  obtain ⟨hvalue, hbuffer⟩ := buffer_unit h buffer
  obtain ⟨_, hhigh⟩ := surrogate_masks u (by omega)
  have hne : u ≠ 0 := by omega
  rw [unitRead, decodeUnicodeChar]
  simp only [hvalue, hbuffer, hhigh]
  rw [if_neg (by simp), if_neg (by omega), if_neg (by omega), if_pos ⟨hu, hu'⟩]
  simp [half, hne]

theorem unitRead_plain {u : Nat} {s : List Byte} (h : CodeUnit u s) (hu : u < 65536)
    (hs : u < 0xD800 ∨ 0xE000 ≤ u) (stack : List JsonMode) (buffer : List Byte) :
    (⟨.U4, .string, false, 0, stack, buffer ++ s⟩ : JsonParser).unitRead =
      some (inString stack (buffer ++ unitBytes u)) := by
  obtain ⟨hvalue, hbuffer⟩ := buffer_unit h buffer
  obtain ⟨hlow, hhigh⟩ := surrogate_masks u hu
  rw [unitRead, decodeUnicodeChar]
  simp only [hvalue, hbuffer, hlow, hhigh]
  rw [if_neg (by simp)]
  unfold unitBytes
  split
  next => rfl
  next =>
    split
    next => rfl
    next =>
      rw [if_neg (by omega), if_neg (by omega)]
      rfl

end JsonParser

open JsonParser

/-- Inside a string the parser takes the text `e` for the bytes `b`. -/
def ReadsAs (e b : List Byte) : Prop :=
  ∀ stack buffer, (inString stack buffer).run e = ([], some (inString stack (buffer ++ b)))

/-- The parser does not get to the end of the literal. -/
def Refuses (e : List Byte) : Prop :=
  ∀ stack buffer, ((inString stack buffer).run (e ++ [34])).2 = none

theorem ReadsAs.append {e e' b b' : List Byte} (h : ReadsAs e b) (h' : ReadsAs e' b') :
    ReadsAs (e ++ e') (b ++ b') := by
  intro stack buffer
  rw [run_append_of (h stack buffer), h', List.append_assoc, List.nil_append]

theorem ReadsAs.run_append {e b : List Byte} (h : ReadsAs e b) (stack : List JsonMode)
    (buffer s : List Byte) :
    (inString stack buffer).run (e ++ s) = (inString stack (buffer ++ b)).run s := by
  rw [run_append_of (h stack buffer)]
  rfl

theorem CodeUnit.readsAs {u : Nat} {s : List Byte} (h : CodeUnit u s) (hu : u < 65536)
    (hs : u < 0xD800 ∨ 0xE000 ≤ u) : ReadsAs s (unitBytes u) := by
  intro stack buffer
  rw [run_unit h (.inr ⟨rfl, rfl⟩), unitRead_plain h hu hs]

theorem IsUnit.fed {u : Nat} {s : List Byte} (h : IsUnit u s) : ∀ x ∈ s, isFed x = true := by
  cases h with
  | digits h _ =>
    intro x hx
    rcases List.mem_cons.mp hx with rfl | hx
    · rfl
    rcases List.mem_cons.mp hx with rfl | hx
    · rfl
    · exact (xdigit_class (xdigit_hexdigit (h x hx))).1

theorem unitBytes_low {u : Nat} (hu : u < 65536) (hs : u < 0xD800 ∨ 0xE000 ≤ u) :
    ∀ x ∈ unitBytes u, x < 0xF0 := by
  have hvalid : u.isValidChar := by
    rcases hs with hs | hs
    · exact .inl hs
    · exact .inr ⟨by omega, by omega⟩
  have hn : (Char.ofNat u).toNat = u := by
    rw [Char.ofNat, dif_pos hvalid]
    rfl
  have hbytes := unitBytes_char (c := Char.ofNat u) (by omega)
  rw [hn] at hbytes
  rw [hbytes]
  exact Utf8.encodeChar_low (by omega)

section

variable {c : Char} {e : List Byte} (h : Escape c e)

include h

theorem Escape.fed : ∀ x ∈ e, isFed x = true := by
  cases h with
  | copied _ hcopied =>
    intro x hx
    rw [List.mem_singleton.mp hx]
    exact (copied_class hcopied).1
  | short _ hshort =>
    intro x hx
    rcases List.mem_cons.mp hx with rfl | hx
    · rfl
    · rw [List.mem_singleton.mp hx]
      exact (short_class hshort).1
  | unit _ hunit => exact hunit.fed
  | units _ hhigh hlow =>
    intro x hx
    rcases List.mem_append.mp hx with hx | hx
    · exact hhigh.fed x hx
    · exact hlow.fed x hx

/-- No character goes on with a pair. -/
theorem Escape.half_none {n : Nat} (hn : n ≠ 0) (stack : List JsonMode) (buffer s : List Byte) :
    ((half n stack buffer).run (e ++ s)).2 = none := by
  obtain ⟨hs, hlt⟩ := Utf8.code_point c
  have ht : JsonType.string ≠ .none := by decide
  cases h with
  | copied _ hcopied =>
    obtain ⟨_, _, class', hclass, _, hrow⟩ := copied_class hcopied
    exact run_error hclass rfl ht hrow s
  | short _ hshort =>
    obtain ⟨_, _, _, class', hclass, _, hrow⟩ := short_class hshort
    have hback : stateTransitionTable .D1 .backs = .goto .D2 := rfl
    rw [List.cons_append, run_goto (rfl : nextClass 92 = some .backs) rfl ht hback]
    exact run_error hclass rfl ht hrow s
  | unit hbound hunit =>
    apply run_append_none
    have hcode := hunit.codeUnit
    rw [run_unit hcode (.inl rfl), unitRead_pair hcode (by omega) (by omega) hn]
  | units hbound hhigh hlow =>
    apply run_append_none
    apply run_append_none
    have hcode := hhigh.codeUnit
    rw [run_unit hcode (.inl rfl), unitRead_pair hcode (by omega) (by omega) hn]

theorem Escape.readsAs (hc : c.toNat < 0x10000) : ReadsAs e (String.utf8EncodeChar c) := by
  have ht : JsonType.string ≠ .none := by decide
  cases h with
  | copied hchar hcopied =>
    obtain ⟨_, _, class', hclass, hrow, _⟩ := copied_class hcopied
    intro stack buffer
    rw [hchar, run_goto hclass rfl ht hrow]
    rfl
  | @short b letter hchar hshort =>
    obtain ⟨_, _, hadd, class', hclass, hrow, _⟩ := short_class hshort
    intro stack buffer
    have hletter := hadd ⟨.ES, .string, true, 0, stack, buffer ++ [92]⟩
    rw [hchar]
    apply run_escape hclass _ hrow
    simpa [popBack, pushBack] using hletter
  | unit _ hunit =>
    obtain ⟨hs, _⟩ := Utf8.code_point c
    have hreads := hunit.codeUnit.readsAs hc hs
    rwa [unitBytes_char hc] at hreads
  | units hbound => omega

/-- A character above U+FFFF is read as two others, or not at all. -/
theorem Escape.above (hc : 0x10000 ≤ c.toNat) :
    (∃ b, ReadsAs e b ∧ ∀ x ∈ b, x < 0xF0) ∨
      ∀ stack buffer, ((inString stack buffer).run e).2 = none ∨
        ∃ n buffer', n ≠ 0 ∧ (inString stack buffer).run e = ([], some (half n stack buffer')) := by
  obtain ⟨_, hlt⟩ := Utf8.code_point c
  cases h with
  | copied hchar hcopied =>
    obtain ⟨x, hx, hhigh⟩ := Utf8.encodeChar_high hc
    rw [hchar, List.mem_singleton] at hx
    subst hx
    exact absurd (copied_class hcopied).2.1 (UInt8.not_lt.mpr hhigh)
  | short hchar hshort =>
    obtain ⟨x, hx, hhigh⟩ := Utf8.encodeChar_high hc
    rw [hchar, List.mem_singleton] at hx
    subst hx
    exact absurd (short_class hshort).2.1 (UInt8.not_lt.mpr hhigh)
  | unit hbound => omega
  | units _ hhigh hlow =>
    have hcode := hlow.codeUnit
    have hfirst := hhigh.codeUnit.readsAs (by omega) (by omega)
    by_cases hs : c.toNat % 65536 < 0xD800 ∨ 0xE000 ≤ c.toNat % 65536
    · refine .inl ⟨_, hfirst.append (hcode.readsAs (by omega) hs), ?_⟩
      intro x hx
      rcases List.mem_append.mp hx with hx | hx
      · exact unitBytes_low (by omega) (by omega) x hx
      · exact unitBytes_low (by omega) hs x hx
    · refine .inr fun stack buffer => ?_
      rw [hfirst.run_append, run_unit hcode (.inr ⟨rfl, rfl⟩)]
      by_cases hd : c.toNat % 65536 < 0xDC00
      · rw [unitRead_high hcode (by omega) hd]
        exact .inr ⟨_, _, by omega, rfl⟩
      · exact .inl (unitRead_low hcode (by omega) (by omega) stack _)

end

/-- No NUL and no character above U+FFFF, whose first byte is 0xF0 or more. -/
def PlainText (s : List Byte) : Prop := ∀ x ∈ s, x ≠ 0 ∧ x < 0xF0

theorem plainText_utf8_iff {cs : List Char} :
    PlainText (cs.flatMap String.utf8EncodeChar) ↔
      ∀ c ∈ cs, c.toNat ≠ 0 ∧ c.toNat < 0x10000 := by
  simp only [PlainText, List.mem_flatMap, forall_exists_index, and_imp]
  constructor
  · intro h c hc
    constructor
    · intro hzero
      have hchar : (0 : Byte) ∈ String.utf8EncodeChar c := by
        rw [Utf8.encodeChar_one (by omega), hzero]
        exact List.mem_cons_self
      exact (h 0 c hc hchar).1 rfl
    · by_contra hbound
      obtain ⟨x, hx, hhigh⟩ := Utf8.encodeChar_high (c := c) (by omega)
      exact absurd (h x c hc hx).2 (UInt8.not_lt.mpr hhigh)
  · intro h x c hc hx
    obtain ⟨hzero, hbound⟩ := h c hc
    exact ⟨Utf8.encodeChar_nonzero hzero x hx, Utf8.encodeChar_low hbound x hx⟩

/-- What is known of the bytes that the text `s` is read back as. -/
structure Reread (s b : List Byte) : Prop where
  low : ∀ x ∈ b, x < 0xF0
  cut : (∀ x ∈ s, x < 0xF0) → b = cstr s

theorem Reread.eq_iff {s b : List Byte} (h : Reread s b) : b = s ↔ PlainText s := by
  constructor
  · rintro rfl
    have hz : 0 ∉ b := cstr_eq_self_iff.mp (h.cut h.low).symm
    intro x hx
    refine ⟨?_, h.low x hx⟩
    rintro rfl
    exact hz hx
  · intro hs
    have hz : 0 ∉ s := fun hmem => (hs 0 hmem).1 rfl
    rw [h.cut fun x hx => (hs x hx).2, cstr_eq_self_iff.mpr hz]

/-- What reading the escapes `e` of the text `s` makes of it. -/
def Rereads (s e : List Byte) : Prop :=
  (∃ x ∈ s, 0xF0 ≤ x) ∧ Refuses e ∨ ∃ b, ReadsAs e b ∧ Reread s b

/-- The escapes of a text in UTF-8. -/
structure Escapes (s e : List Byte) : Prop where
  escaped : escapeChars s = some e
  fed : ∀ x ∈ e, isFed x = true
  half : ∀ n stack buffer, n ≠ 0 → ((half n stack buffer).run (e ++ [34])).2 = none
  reread : Rereads s e

theorem escapes_of_end {s : List Byte} (h : escapeChars s = some []) (hs : cstr s = []) :
    Escapes s [] := by
  have ht : JsonType.string ≠ .none := by decide
  refine ⟨h, by simp, ?_, .inr ⟨[], ?_, by simp, fun _ => hs.symm⟩⟩
  · intro n stack buffer _
    exact run_error (rfl : nextClass 34 = some .quote) rfl ht rfl []
  · intro stack buffer
    simp [run]

section

variable {c : Char} {e s e' : List Byte} (h : Escape c e) (hs : Escapes s e')

include h hs

theorem rereads_below (hc : c.toNat ≠ 0) (hbound : c.toNat < 0x10000) :
    Rereads (String.utf8EncodeChar c ++ s) (e ++ e') := by
  have hreads := h.readsAs hbound
  rcases hs.reread with ⟨⟨x, hx, hhigh⟩, hrefuses⟩ | ⟨b, hb, hreread⟩
  · refine .inl ⟨⟨x, List.mem_append_right _ hx, hhigh⟩, ?_⟩
    intro stack buffer
    rw [List.append_assoc, hreads.run_append]
    exact hrefuses stack _
  · refine .inr ⟨_, hreads.append hb, ?_, ?_⟩
    · intro x hx
      rcases List.mem_append.mp hx with hx | hx
      · exact Utf8.encodeChar_low hbound x hx
      · exact hreread.low x hx
    · intro hlow
      rw [cstr_append (Utf8.encodeChar_nonzero hc),
        hreread.cut fun x hx => hlow x (List.mem_append_right _ hx)]

theorem rereads_above (hbound : 0x10000 ≤ c.toNat) :
    Rereads (String.utf8EncodeChar c ++ s) (e ++ e') := by
  obtain ⟨x, hx, hhigh⟩ := Utf8.encodeChar_high hbound
  have hmem : x ∈ String.utf8EncodeChar c ++ s := List.mem_append_left _ hx
  rcases h.above hbound with ⟨b, hb, hlow⟩ | hstops
  · rcases hs.reread with ⟨_, hrefuses⟩ | ⟨b', hb', hreread⟩
    · refine .inl ⟨⟨x, hmem, hhigh⟩, ?_⟩
      intro stack buffer
      rw [List.append_assoc, hb.run_append]
      exact hrefuses stack _
    · refine .inr ⟨_, hb.append hb', ?_, ?_⟩
      · intro y hy
        rcases List.mem_append.mp hy with hy | hy
        · exact hlow y hy
        · exact hreread.low y hy
      · intro hall
        exact absurd (hall x hmem) (UInt8.not_lt.mpr hhigh)
  · refine .inl ⟨⟨x, hmem, hhigh⟩, ?_⟩
    intro stack buffer
    rw [List.append_assoc]
    rcases hstops stack buffer with hnone | ⟨n, buffer', hn, hhalf⟩
    · exact run_append_none hnone _
    · rw [run_append_of hhalf]
      exact hs.half n stack buffer' hn

end

theorem escapes_utf8 (cs : List Char) : ∃ e, Escapes (cs.flatMap String.utf8EncodeChar) e := by
  induction cs with
  | nil => exact ⟨[], escapes_of_end (by rw [List.flatMap_nil, escapeChars]) rfl⟩
  | cons c cs ih =>
    obtain ⟨e', he'⟩ := ih
    rw [List.flatMap_cons]
    generalize cs.flatMap String.utf8EncodeChar = s at he' ⊢
    by_cases hc : c.toNat = 0
    · have hchar : String.utf8EncodeChar c = [0] := by
        rw [Utf8.encodeChar_one (by omega), hc]
        rfl
      rw [hchar]
      exact ⟨[], escapes_of_end (escapeChars_nul s) rfl⟩
    obtain ⟨e, he, hescaped⟩ := escapeChars_char hc he'.escaped
    refine ⟨e ++ e', hescaped, ?_, ?_, ?_⟩
    · intro x hx
      rcases List.mem_append.mp hx with hx | hx
      · exact he.fed x hx
      · exact he'.fed x hx
    · intro n stack buffer hn
      rw [List.append_assoc]
      exact he.half_none hn stack buffer _
    · by_cases hbound : c.toNat < 0x10000
      · exact rereads_below he he' hc hbound
      · exact rereads_above he he' (by omega)

end Tnode
