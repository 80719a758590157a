import Tnode.JsonReread

namespace Tnode

open JsonParser

/-- The literal in a report. -/
def JsonEvent.literal? : JsonEvent → Option Literal
  | .key b => some (.key b)
  | .string b => some (.value b)
  | _ => none

theorem utf8Bytes_char {c : Char} (h : 0x10000 ≤ c.toNat) :
    utf8Bytes c.toNat 3 = String.utf8EncodeChar c := by
  have hlt := (Utf8.code_point c).2
  have hshift : ∀ n : Nat, c.toNat >>> n = c.toNat / 2 ^ n := Nat.shiftRight_eq_div_pow _
  have hlead : c.toNat / 262144 ||| 0xF0 = c.toNat / 262144 + 0xF0 := by
    have hor : 15 <<< 4 ||| c.toNat / 262144 = 2 ^ 4 * 15 + c.toNat / 262144 :=
      Utf8.shiftLeft_or (by omega)
    rw [Nat.lor_comm]
    exact hor.trans (by omega)
  rw [Utf8.encodeChar_four h]
  simp [utf8Bytes, utf8LeadBits, hshift, trail_eq, hlead, List.range_succ]

/-- The second number of a pair completes the character. -/
theorem JsonParser.unitRead_second {c : Char} {u u' : Nat} {s : List Byte}
    (high : 0xD800 ≤ u ∧ u < 0xDC00) (low : 0xDC00 ≤ u' ∧ u' < 0xE000) (h : CodeUnit u' s)
    (hc : c.toNat = 0x10000 + 1024 * (u - 0xD800) + (u' - 0xDC00)) (stack : List JsonMode)
    (buffer : List Byte) :
    (⟨.U4, .string, false, u, stack, buffer ++ s⟩ : JsonParser).unitRead =
      some (inString stack (buffer ++ String.utf8EncodeChar c)) := by
  obtain ⟨hvalue, hbuffer⟩ := buffer_unit h buffer
  have hlow := (surrogate_masks u' (by omega)).1.mpr low
  have hmask : ∀ n, n &&& 0x3FF = n % 1024 := fun n => Nat.and_two_pow_sub_one_eq_mod n 10
  have hpoint : (u % 1024) <<< 10 + u' % 1024 + 0x10000 = c.toNat := by
    rw [Nat.shiftLeft_eq]
    omega
  rw [unitRead, decodeUnicodeChar]
  simp only [hvalue, hbuffer, hmask, hpoint]
  rw [if_pos (by omega), if_pos hlow, utf8Bytes_char (by omega)]
  simp [inString]

theorem raw_class {c : Byte} (control : 32 ≤ c) (quote : c ≠ 34) (backslash : c ≠ 92) :
    ∃ class', nextClass c = some class' ∧ stateTransitionTable .ST class' = .goto .ST := by
  have hall := @forall_byte_lt (fun c => 32 ≤ c → c ≠ 34 → c ≠ 92 → (nextClass c).any
    (fun class' => decide (stateTransitionTable .ST class' = .goto .ST)) = true) 256
    (by decide +kernel) c c.toNat_lt control quote backslash
  rw [Option.any_eq_true] at hall
  obtain ⟨class', hclass, hrow⟩ := hall
  exact ⟨class', hclass, of_decide_eq_true hrow⟩

theorem short_read {letter b : Byte} (h : escapedByte letter = some b) :
    (∀ jc : JsonParser, { jc with escaped := true }.addEscapedChar letter =
        some ({ jc with escaped := false }.popBack.pushBack b)) ∧
      ∃ class', nextClass letter = some class' ∧ stateTransitionTable .ES class' = .goto .ST := by
  unfold escapedByte at h
  split at h <;> cases h
  all_goals
    next hb =>
      have hself : letter = UInt8.ofNat letter.toNat := by simp
      rw [hb] at hself
      subst hself
      exact ⟨fun _ => rfl, _, rfl, rfl⟩

/-- The parser takes a piece of a literal for the bytes it stands for. -/
theorem LiteralPiece.readsAs {p b : List Byte} (h : LiteralPiece p b) : ReadsAs p b := by
  have ht : JsonType.string ≠ .none := by decide
  intro stack buffer
  cases h with
  | raw control quote backslash =>
    obtain ⟨class', hclass, hrow⟩ := raw_class control quote backslash
    rw [run_goto hclass rfl ht hrow]
    rfl
  | short h =>
    obtain ⟨hadd, class', hclass, hrow⟩ := short_read h
    have hletter := hadd ⟨.ES, .string, true, 0, stack, buffer ++ [92]⟩
    apply run_escape hclass _ hrow
    simpa [popBack, pushBack] using hletter
  | @unit c _ h =>
    have hlt := h.lt
    have hreads := h.readsAs hlt (Utf8.code_point c).1
    rw [unitBytes_char hlt] at hreads
    exact hreads stack buffer
  | pair high low h h' hc =>
    have hfirst := (run_unit h (.inr ⟨rfl, rfl⟩)).trans
      (congrArg _ (unitRead_high h high.1 high.2 stack buffer))
    rw [run_append_of hfirst, run_unit h' (.inl rfl), unitRead_second high low h' hc]
    rfl

theorem LiteralMeans.readsAs {e b : List Byte} (h : LiteralMeans e b) : ReadsAs e b := by
  induction h with
  | empty =>
    intro stack buffer
    simp [run]
  | piece hp _ ih => exact hp.readsAs.append ih

section

variable {jc' : JsonParser} (hok : jc'.state = .OK) {stack : List JsonMode} {buffer s : List Byte}
  {n : Nat}

include hok

end

/-- The states in which no string is read. -/
def outsideStates : List JsonState :=
  [.GO, .OK, .OB, .KE, .CO, .VA, .AR, .MI, .ZE, .IT, .FR, .E1, .E2, .E3, .T1, .T2, .T3, .F1, .F2,
    .F3, .F4, .N1, .N2, .N3, .FX]

/-- The parser reads no string. -/
structure JsonParser.Outside (jc : JsonParser) : Prop where
  state : jc.state ∈ outsideStates
  type : jc.type ≠ .string
  escaped : jc.escaped = false
  surrogate : jc.utf16HighSurrogate = 0

/-- The action neither begins nor ends a string. -/
def JsonAction.outside : JsonAction → Bool
  | .UC | .EX | .SB | .stringEnd => false
  | .goto state => state ∈ outsideStates
  | _ => true

namespace JsonParser

theorem pending_outside {jc : JsonParser} (h : jc.type ≠ .string) :
    jc.pending.toList.filterMap JsonEvent.literal? = [] := by
  unfold pending
  cases htype : jc.type with
  | string => exact absurd htype h
  | _ => rfl

theorem pop_some {jc jc' : JsonParser} {mode : JsonMode} (h : jc.pop mode = some jc') :
    ∃ stack, jc' = { jc with stack } := by
  unfold pop at h
  split at h
  next top stack _ =>
    split at h
    next => exact ⟨stack, (Option.some.inj h).symm⟩
    next => cases h
  next => cases h

namespace Outside

variable {jc jc' : JsonParser} {events : List JsonEvent} (h : jc.Outside)

include h

theorem plan {action : JsonAction} (ha : action.outside = true)
    (hplan : jc.plan action = (events, some jc')) :
    jc'.Outside ∧ events.filterMap JsonEvent.literal? = [] := by
  have hpending : jc.popBack.pending.toList.filterMap JsonEvent.literal? = [] :=
    pending_outside h.type
  cases action with
  | UC | EX | SB | stringEnd => cases ha
  | CB | error => cases hplan
  | goto state =>
    cases hplan
    exact ⟨⟨of_decide_eq_true ha, h.type, h.escaped, h.surrogate⟩, rfl⟩
  | IX | ZX | MX | DE | DF | NU | TR | FA =>
    cases hplan
    exact ⟨⟨by simp [outsideStates], by simp, h.escaped, h.surrogate⟩, rfl⟩
  | objectBegin | arrayBegin =>
    cases hplan
    exact ⟨⟨by simp [outsideStates], h.type, h.escaped, h.surrogate⟩, rfl⟩
  | emptyObjectEnd | colon =>
    obtain ⟨rfl, hnext⟩ := Prod.mk.inj hplan
    obtain ⟨jc₁, hpop, rfl⟩ := Option.map_eq_some_iff.mp hnext
    obtain ⟨stack, rfl⟩ := pop_some hpop
    exact ⟨⟨by simp [outsideStates], h.type, h.escaped, h.surrogate⟩, rfl⟩
  | objectEnd | arrayEnd =>
    obtain ⟨rfl, hnext⟩ := Prod.mk.inj hplan
    obtain ⟨jc₁, hpop, rfl⟩ := Option.map_eq_some_iff.mp hnext
    obtain ⟨stack, rfl⟩ := pop_some hpop
    refine ⟨⟨by simp [outsideStates], by simp, h.escaped, h.surrogate⟩, ?_⟩
    rw [List.filterMap_append, hpending]
    rfl
  | comma =>
    obtain ⟨rfl, hnext⟩ := Prod.mk.inj hplan
    refine ⟨?_, hpending⟩
    split at hnext <;> cases hnext
    all_goals exact ⟨by simp [outsideStates], by simp, h.escaped, h.surrogate⟩

theorem table {c : Byte} {class' : JsonClass} (hclass : nextClass c = some class') :
    (c ≠ 34 → (stateTransitionTable jc.state class').outside = true) ∧
      (c = 34 → stateTransitionTable jc.state class' = .SB ∨
        stateTransitionTable jc.state class' = .error) := by
  have hall : ∀ state ∈ outsideStates, ∀ c < 256, (nextClass (UInt8.ofNat c)).all (fun class' =>
      if c = 34 then decide (stateTransitionTable state class' = .SB ∨
        stateTransitionTable state class' = .error)
      else (stateTransitionTable state class').outside) = true := by decide +kernel
  have hrow := hall jc.state h.state c.toNat c.toNat_lt
  rw [UInt8.ofNat_toNat, hclass, Option.all_some] at hrow
  constructor
  · intro hc
    have hne : c.toNat ≠ 34 := fun h => hc (UInt8.toNat_inj.mp h)
    rwa [if_neg hne] at hrow
  · rintro rfl
    exact of_decide_eq_true hrow

/-- Before an action the byte may have been added to the buffer. -/
theorem addChar (c : Byte) (class' : JsonClass) :
    ∃ buffer, jc.addChar c class' = some { jc with parseBuffer := buffer } := by
  have hescaped : ¬jc.escaped = true := by simp [h.escaped]
  rw [JsonParser.addChar, if_neg hescaped]
  split
  next => exact ⟨_, rfl⟩
  next => exact ⟨_, rfl⟩

theorem step {c : Byte} (hc : c ≠ 34) (hstep : jc.step c = (events, some jc')) :
    jc'.Outside ∧ events.filterMap JsonEvent.literal? = [] := by
  rw [JsonParser.step] at hstep
  cases hclass : nextClass c with
  | none =>
    rw [hclass] at hstep
    cases hstep
  | some class' =>
    obtain ⟨buffer, hadd⟩ := h.addChar c class'
    have hout : ({ jc with parseBuffer := buffer } : JsonParser).Outside :=
      ⟨h.state, h.type, h.escaped, h.surrogate⟩
    simp only [hclass, hadd] at hstep
    exact hout.plan ((h.table hclass).1 hc) hstep

end Outside

/-- The parser behind a value or a key. -/
def past (state : JsonState) (stack : List JsonMode) : JsonParser :=
  ⟨state, .none, false, 0, stack, []⟩

end JsonParser

section

variable {jc' : JsonParser} (hok : jc'.state = .OK) {stack : List JsonMode} {s : List Byte}

include hok

end

end Tnode
