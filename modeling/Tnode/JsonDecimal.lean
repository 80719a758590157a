import Tnode.JsonReread
import Mathlib.Data.Nat.Digits.Defs

namespace Tnode

open JsonParser

def decimalDigits (n : Nat) : List Byte :=
  (Nat.digits 10 n).reverse.map fun d => UInt8.ofNat (48 + d)

/-- An integer in plain decimal. -/
def decimal (n : Int) : List Byte :=
  (if n < 0 then [45] else []) ++ if n = 0 then [48] else decimalDigits n.natAbs

theorem decimalDigits_append {n : Nat} (h : 0 < n) :
    decimalDigits n = decimalDigits (n / 10) ++ [UInt8.ofNat (48 + n % 10)] := by
  rw [decimalDigits, Nat.digits_def' (by decide) h, List.reverse_cons, List.map_append]
  rfl

theorem isdigit_ofNat {n : Nat} (h : n < 10) : isdigit (UInt8.ofNat (48 + n)) = true := by
  have hall : ∀ n : Fin 10, isdigit (UInt8.ofNat (48 + n)) = true := by decide
  exact hall ⟨n, h⟩

theorem decimalDigits_isdigit (n : Nat) : ∀ d ∈ decimalDigits n, isdigit d = true := by
  intro d hd
  obtain ⟨k, hk, rfl⟩ := List.mem_map.mp hd
  exact isdigit_ofNat (Nat.digits_lt_base (by decide) (List.mem_reverse.mp hk))

theorem digitsValue_decimalDigits (n : Nat) : digitsValue (decimalDigits n) = n := by
  rw [digitsValue, List.takeWhile_eq_self_iff.mpr (decimalDigits_isdigit n)]
  induction n using Nat.strongRecOn with
  | _ n ih =>
    by_cases h : n = 0
    · subst h
      rfl
    · have hrest := ih (n / 10) (by omega)
      rw [decimalDigits_append (by omega), List.foldl_append, hrest, List.foldl_cons, List.foldl_nil,
        Utf8.toNat_ofNat (by omega)]
      omega

theorem decimalDigits_head {n : Nat} (h : 0 < n) :
    ∃ d ds, decimalDigits n = d :: ds ∧ nextClass d = some .digit := by
  induction n using Nat.strongRecOn with
  | _ n ih =>
    rw [decimalDigits_append h]
    by_cases hten : n < 10
    · have hall : ∀ n : Fin 10, 0 < n.1 → nextClass (UInt8.ofNat (48 + n.1)) = some .digit := by
        decide +kernel
      have hzero : n / 10 = 0 := by omega
      have hself : n % 10 = n := by omega
      rw [hzero, hself]
      exact ⟨_, [], rfl, hall ⟨n, hten⟩ h⟩
    · obtain ⟨d, ds, hds, hclass⟩ := ih (n / 10) (by omega) (by omega)
      rw [hds]
      exact ⟨d, _, rfl, hclass⟩

theorem isdigit_class {d : Byte} (h : isdigit d = true) :
    isFed d = true ∧ isspace d = false ∧ d ≠ 43 ∧ d ≠ 45 ∧
      (nextClass d = some .zero ∨ nextClass d = some .digit) :=
  @forall_byte_lt (fun d => isdigit d = true → isFed d = true ∧ isspace d = false ∧ d ≠ 43 ∧
    d ≠ 45 ∧ (nextClass d = some .zero ∨ nextClass d = some .digit)) 256 (by decide +kernel) d
    d.toNat_lt h

theorem decimal_fed (n : Int) : ∀ x ∈ decimal n, isFed x = true := by
  intro x hx
  rcases List.mem_append.mp hx with hx | hx
  · split at hx
    next =>
      rw [List.mem_singleton.mp hx]
      rfl
    next => cases hx
  · split at hx
    next =>
      rw [List.mem_singleton.mp hx]
      rfl
    next => exact (isdigit_class (decimalDigits_isdigit _ x hx)).1

theorem signed_digits {d : Byte} (h : isdigit d = true) (s : List Byte) :
    signed ((d :: s).dropWhile isspace) = (false, d :: s) := by
  obtain ⟨_, hspace, hplus, hminus, _⟩ := isdigit_class h
  rw [List.dropWhile_cons_of_neg (by simp [hspace]), signed]
  · intro s' heq
    exact hplus (List.cons.inj heq).1
  · intro s' heq
    exact hminus (List.cons.inj heq).1

/-- The sign of a plain decimal, and its digits. -/
theorem signed_decimal (n : Int) : ∃ d ds, signed ((decimal n).dropWhile isspace) =
    (decide (n < 0), d :: ds) ∧ isdigit d = true ∧ digitsValue (d :: ds) = n.natAbs := by
  by_cases hzero : n = 0
  · subst hzero
    exact ⟨48, [], rfl, rfl, rfl⟩
  obtain ⟨d, ds, hds, _⟩ := @decimalDigits_head n.natAbs (by omega)
  have hvalue := digitsValue_decimalDigits n.natAbs
  have hd : isdigit d = true := by
    apply decimalDigits_isdigit n.natAbs
    rw [hds]
    exact List.mem_cons_self
  rw [hds] at hvalue
  refine ⟨d, ds, ?_, hd, hvalue⟩
  rw [decimal, if_neg hzero, hds]
  by_cases hneg : n < 0
  · rw [if_pos hneg, decide_eq_true hneg]
    rfl
  · rw [if_neg hneg, decide_eq_false hneg]
    exact signed_digits hd ds

theorem sscanfLong_decimal {n : Int} (h : |n| < 10 ^ 14) : sscanfLong (decimal n) = n := by
  obtain ⟨d, ds, hsigned, _, hvalue⟩ := signed_decimal n
  have hbounds := abs_lt.mp h
  rw [sscanfLong, hsigned]
  simp only [hvalue, decide_eq_true_eq, LONG_MIN, LONG_MAX]
  split <;> omega

/-- The parser where a value is to come. -/
def JsonParser.ready (stack : List JsonMode) : JsonParser := ⟨.VA, .none, false, 0, stack, []⟩

/-- The parser behind a value: what it still has to report, and that a comma or a brace makes it. -/
structure JsonParser.Behind (jc : JsonParser) (stack : List JsonMode) (rest : List JsonEvent) :
    Prop where
  escaped : jc.escaped = false
  surrogate : jc.utf16HighSurrogate = 0
  stack_eq : jc.stack = stack
  pending_eq : jc.pending.toList = rest
  comma : stateTransitionTable jc.state .comma = .comma
  brace : stateTransitionTable jc.state .rcurb = .objectEnd

theorem step_token {jc : JsonParser} {c : Byte} {class' : JsonClass}
    (hclass : nextClass c = some class') (hescaped : jc.escaped = false)
    (htoken : class' ≠ .space ∧ class' ≠ .white) :
    jc.step c = (jc.pushBack c).plan (stateTransitionTable jc.state class') := by
  have hadd : jc.addChar c class' = some (jc.pushBack c) := by
    simp [addChar, hescaped, htoken]
  rw [step, hclass]
  simp only [hadd]
  rfl

/-- The parser inside a number. -/
def JsonParser.inNumber (stack : List JsonMode) (buffer : List Byte) : JsonParser :=
  ⟨.IT, .integer, false, 0, stack, buffer⟩

theorem run_inNumber (stack : List JsonMode) {s : List Byte} (h : ∀ d ∈ s, isdigit d = true)
    (buffer : List Byte) :
    (inNumber stack buffer).run s = ([], some (inNumber stack (buffer ++ s))) := by
  have ht : JsonType.integer ≠ .none := by decide
  induction s generalizing buffer with
  | nil => simp [run]
  | cons d s ih =>
    obtain ⟨hd, hs⟩ := List.forall_mem_cons.mp h
    have hstep : (inNumber stack buffer).run (d :: s) = (inNumber stack (buffer ++ [d])).run s := by
      rcases (isdigit_class hd).2.2.2.2 with hclass | hclass
      · exact run_goto hclass rfl ht rfl s
      · exact run_goto hclass rfl ht rfl s
    rw [hstep, ih hs, List.append_assoc, List.singleton_append]

theorem behind_inNumber (stack : List JsonMode) (s : List Byte) :
    (inNumber stack s).Behind stack [.integer (sscanfLong s)] :=
  ⟨rfl, rfl, rfl, rfl, rfl, rfl⟩

/-- A number in decimal is read, up to its last report. -/
theorem run_decimal {n : Int} (h : |n| < 10 ^ 14) (stack : List JsonMode) :
    ∃ jc, (ready stack).run (decimal n) = ([], some jc) ∧ jc.Behind stack [.integer n] := by
  have hvalue := sscanfLong_decimal h
  by_cases hzero : n = 0
  · subst hzero
    exact ⟨_, rfl, rfl, rfl, rfl, rfl, rfl, rfl⟩
  refine ⟨inNumber stack (decimal n), ?_, by simpa [hvalue] using behind_inNumber stack (decimal n)⟩
  have hdigits := decimalDigits_isdigit n.natAbs
  obtain ⟨d, ds, hds, hclass⟩ := @decimalDigits_head n.natAbs (by omega)
  rw [hds] at hdigits
  have hrest := (List.forall_mem_cons.mp hdigits).2
  rw [decimal, if_neg hzero, hds]
  by_cases hneg : n < 0
  · have hminus : (ready stack).step 45 = ([], some ⟨.MI, .integer, false, 0, stack, [45]⟩) :=
      step_token (rfl : nextClass 45 = some .minus) rfl ⟨by decide, by decide⟩
    have hfirst : ∀ s, (⟨.MI, .integer, false, 0, stack, [45]⟩ : JsonParser).run (d :: s) =
        (inNumber stack [45, d]).run s := by
      have ht : JsonType.integer ≠ .none := by decide
      exact run_goto hclass rfl ht rfl
    rw [if_pos hneg, List.singleton_append, run, hminus]
    simp only [hfirst, run_inNumber stack hrest, List.nil_append]
    rfl
  · have hfirst : (ready stack).step d = ([], some (inNumber stack [d])) :=
      step_token hclass rfl ⟨by decide, by decide⟩
    rw [if_neg hneg, List.nil_append, run, hfirst]
    simp only [run_inNumber stack hrest, List.nil_append]
    rfl

end Tnode
