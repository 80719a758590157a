import Tnode.JsonMemorySteps
import Tnode.JsonText

namespace Tnode

/-- The types that go with a state. -/
def typed : JsonState → JsonType → Bool
  | .GO, type | .OB, type | .KE, type | .CO, type | .VA, type | .AR, type => type = .none
  | .ST, type | .ES, type | .U1, type | .U2, type | .U3, type | .U4, type | .D1, type
  | .D2, type => type = .string
  | .MI, type | .ZE, type | .IT, type => type = .integer
  | .FR, type | .E1, type | .E2, type | .E3, type | .FX, type => type = .float
  | .T1, type | .T2, type | .T3, type => type = .true
  | .F1, type | .F2, type | .F3, type | .F4, type => type = .false
  | .N1, type | .N2, type | .N3, type => type = .null
  | .OK, type => type ≠ .string

/-- How much of an escape is in the buffer: the bytes up to its digits, and the digits. -/
def escapeRead : JsonState → Nat × Nat
  | .ES | .D2 => (1, 0)
  | .U1 => (2, 0)
  | .U2 => (2, 1)
  | .U3 => (2, 2)
  | .U4 => (2, 3)
  | _ => (0, 0)

def JsonClass.isHex (class' : JsonClass) : Bool := hexDigit (.goto .U2) class' = .goto .U2

def JsonClass.isWhite (class' : JsonClass) : Bool := class' = .space || class' = .white

theorem JsonClass.isWhite_iff {class' : JsonClass} :
    class'.isWhite = true ↔ class' = .space ∨ class' = .white := by
  simp [isWhite]

/-- The steps inside an escape. -/
def escapeStep (class' : JsonClass) : JsonState → JsonState → Bool
  | state, .U1 => state = .ES && class' = .lowU || state = .D2
  | state, .U2 => state = .U1 && class'.isHex
  | state, .U3 => state = .U2 && class'.isHex
  | state, .U4 => state = .U3 && class'.isHex
  | state, .D2 => state = .D1
  | _, .ES => false
  | _, _ => true

/-- What the state and the class tell about the action that the table gives. -/
def safeAction (state : JsonState) (type : JsonType) (class' : JsonClass) : JsonAction → Bool
  | .goto state' =>
    typed state' type && escapeStep class' state state' && (type ≠ .none || class'.isWhite)
  | .UC => state = .U4 && class'.isHex
  | .EX => state = .ST
  | .MX | .ZX | .IX | .NU | .FA | .TR | .SB => type = .none && state ≠ .ES && !class'.isWhite
  | .DE => type = .integer && state ≠ .ES
  | .DF => type = .integer && state ≠ .ES && class' = .point
  | .emptyObjectEnd | .objectBegin | .arrayBegin | .colon =>
    type = .none && state ≠ .ES && !class'.isWhite
  | .objectEnd | .arrayEnd | .comma => type ≠ .string && state ≠ .ES && !class'.isWhite
  | .stringEnd => state = .ST && !class'.isWhite
  | .CB | .error => true

theorem safeAction_transition {state : JsonState} {type : JsonType}
    (h : typed state type = true) (class' : JsonClass) :
    safeAction state type class' (stateTransitionTable state class') = true := by
  have hall : ∀ state ∈ JsonState.all, ∀ type ∈ JsonType.all, ∀ class' ∈ JsonClass.all,
      typed state type = true →
        safeAction state type class' (stateTransitionTable state class') = true := by
    decide +kernel
  have hstate : state ∈ JsonState.all := by cases state <;> decide
  have htype : type ∈ JsonType.all := by cases type <;> decide
  have hclass : class' ∈ JsonClass.all := by cases class' <;> decide
  exact hall state hstate type htype class' hclass h

/-- What the class tells about the byte. -/
theorem nextClass_byte {c : Byte} {class' : JsonClass} (h : nextClass c = some class') :
    c ≠ 0 ∧ (class'.isHex = true → hexValue c < 16) ∧ (class' = .lowU → c = 117) ∧
      (class' = .point → c = 46) := by
  have hall : ∀ n < 256, ∀ class' ∈ nextClass (UInt8.ofNat n),
      UInt8.ofNat n ≠ 0 ∧ (class'.isHex = true → hexValue (UInt8.ofNat n) < 16) ∧
        (class' = .lowU → UInt8.ofNat n = 117) ∧ (class' = .point → UInt8.ofNat n = 46) := by
    decide +kernel
  have hc := hall c.toNat c.toNat_lt class'
  rw [UInt8.ofNat_toNat] at hc
  exact hc h

namespace JsonParser

/-- What holds of the parser between two bytes. -/
structure Sound (jc : JsonParser) : Prop where
  typed : typed jc.state jc.type = true
  escaped : jc.escaped = decide (jc.state = .ES)
  done : .done ∈ jc.stack
  empty : jc.type = .none → jc.parseBuffer = []
  nonzero : jc.type ≠ .string → 0 ∉ jc.parseBuffer
  escape : ∃ front digits, jc.parseBuffer = front ++ digits ∧
    (escapeRead jc.state).1 ≤ front.length ∧ digits.length = (escapeRead jc.state).2 ∧
    ∀ c ∈ digits, hexValue c < 16

/-- What holds of the parser when the byte `c` has been added to its buffer. -/
structure Taken (jc : JsonParser) (c : Byte) (class' : JsonClass) : Prop where
  typed : Tnode.typed jc.state jc.type = true
  escaped : jc.escaped = false
  done : .done ∈ jc.stack
  white : jc.type = .none → class'.isWhite = true → jc.parseBuffer = []
  fresh : jc.type = .none → class'.isWhite = false → jc.parseBuffer = [c]
  nonzero : jc.type ≠ .string → 0 ∉ jc.parseBuffer
  pushed : jc.state ≠ .ES → (jc.type ≠ .none ∨ class'.isWhite = false) →
    ∃ front digits, jc.parseBuffer = front ++ digits ++ [c] ∧
      (escapeRead jc.state).1 ≤ front.length ∧ digits.length = (escapeRead jc.state).2 ∧
      ∀ c ∈ digits, hexValue c < 16
  unicode : jc.state = .ES → c = 117 → 2 ≤ jc.parseBuffer.length

variable {jc jc' : JsonParser} {c : Byte} {class' : JsonClass}

theorem Sound.nonempty (h : jc.Sound) (hescaped : jc.escaped = true) : jc.parseBuffer ≠ [] := by
  obtain ⟨front, digits, hbuffer, hfront, -⟩ := h.escape
  have hstate : jc.state = .ES := by simpa [h.escaped] using hescaped
  rw [hstate] at hfront
  intro hnil
  rw [hnil] at hbuffer
  obtain ⟨rfl, -⟩ := List.append_eq_nil_iff.mp hbuffer.symm
  simp [escapeRead] at hfront

theorem addEscapedChar_buffer (h : jc.addEscapedChar c = some jc') :
    jc'.escaped = false ∧ (c = 117 → 2 ≤ jc'.parseBuffer.length) := by
  unfold addEscapedChar at h
  simp only at h
  split at h
  case h_9 =>
    cases h
    exact ⟨rfl, fun _ => by simp [pushBack]⟩
  case h_10 => cases h
  all_goals
    next hc =>
      cases h
      refine ⟨rfl, fun h117 => ?_⟩
      rw [h117] at hc
      cases hc

theorem Sound.addChar (h : jc.Sound) (hc : nextClass c = some class')
    (ha : jc.addChar c class' = some jc') : jc'.Taken c class' := by
  obtain ⟨hstate, htype, hstack⟩ := addChar_frame ha
  have htyped := h.typed
  rw [← hstate, ← htype] at htyped
  have hdone := h.done
  rw [← hstack] at hdone
  unfold JsonParser.addChar at ha
  by_cases hescaped : jc.escaped = true
  · have hES : jc.state = .ES := by simpa [h.escaped] using hescaped
    rw [if_pos hescaped] at ha
    obtain ⟨hfalse, htwo⟩ := addEscapedChar_buffer ha
    rw [hES] at hstate
    have hstring : jc'.type = .string := by
      rw [hstate] at htyped
      simpa [Tnode.typed] using htyped
    exact ⟨htyped, hfalse, hdone, fun hn => by simp [hstring] at hn,
      fun hn => by simp [hstring] at hn, fun hs => absurd hstring hs,
      fun hs => absurd hstate hs, fun _ => htwo⟩
  · have hES : jc.state ≠ .ES := by simpa [h.escaped] using hescaped
    rw [if_neg hescaped] at ha
    have hnonzero := (nextClass_byte hc).1
    split at ha
    next hpush =>
      cases ha
      refine ⟨htyped, by simpa [JsonParser.pushBack] using hescaped, hdone, ?_, ?_, ?_, ?_,
        fun hs => absurd hs hES⟩
      · intro hnone hwhite
        exact absurd (JsonClass.isWhite_iff.mp hwhite) (hpush.resolve_left fun hn => hn hnone)
      · intro hnone _
        simp [JsonParser.pushBack, h.empty hnone]
      · intro hs hmem
        rcases List.mem_append.mp hmem with hmem | hmem
        · exact h.nonzero hs hmem
        · exact hnonzero (List.mem_singleton.mp hmem).symm
      · intro _ _
        obtain ⟨front, digits, hbuffer, hrest⟩ := h.escape
        exact ⟨front, digits, by simp [JsonParser.pushBack, hbuffer], hrest⟩
    next hno =>
      cases ha
      rw [not_or, not_not, not_not] at hno
      have hwhite := JsonClass.isWhite_iff.mpr hno.2
      refine ⟨htyped, by simpa using hescaped, hdone, fun hn _ => h.empty hn,
        fun _ hw => by simp [hwhite] at hw, h.nonzero, ?_, fun hs => absurd hs hES⟩
      rintro _ (hn | hw)
      · exact absurd hno.1 hn
      · simp [hwhite] at hw

/-- Between two bytes, outside of an escape. -/
theorem Sound.outside (ht : Tnode.typed jc.state jc.type = true) (he : jc.escaped = false)
    (hd : .done ∈ jc.stack) (hempty : jc.type = .none → jc.parseBuffer = [])
    (hz : jc.type ≠ .string → 0 ∉ jc.parseBuffer) (hs : escapeRead jc.state = (0, 0)) :
    jc.Sound := by
  refine ⟨ht, ?_, hd, hempty, hz, jc.parseBuffer, [], by simp, by simp [hs], by simp [hs], nofun⟩
  have hES : jc.state ≠ .ES := by
    rintro hES
    rw [hES] at hs
    cases hs
  simp [he, hES]

/-- The escape that is being read grows by the byte. -/
theorem Taken.digit (h : jc.Taken c class') (hc : hexValue c < 16) (hstring : jc.type = .string)
    (hES : jc.state ≠ .ES) :
    ∃ front digits, jc.parseBuffer = front ++ digits ∧
      (escapeRead jc.state).1 ≤ front.length ∧ digits.length = (escapeRead jc.state).2 + 1 ∧
      ∀ c ∈ digits, hexValue c < 16 := by
  obtain ⟨front, digits, hbuffer, hfront, hlen, hdigits⟩ := h.pushed hES (Or.inl (by simp [hstring]))
  refine ⟨front, digits ++ [c], by rw [hbuffer, List.append_assoc], hfront, by simp [hlen], ?_⟩
  intro x hx
  rcases List.mem_append.mp hx with hx | hx
  · exact hdigits x hx
  · rw [List.mem_singleton.mp hx]
    exact hc

theorem Taken.next_digit (h : jc.Taken c class') (hc : nextClass c = some class')
    {old state : JsonState} (hold : jc.state = old) (hhex : class'.isHex = true)
    (htyped : ∀ type, Tnode.typed old type = true → type = .string) (hES : old ≠ .ES)
    (hES' : state ≠ .ES) (hstring : Tnode.typed state .string = true)
    (hread : escapeRead state = ((escapeRead old).1, (escapeRead old).2 + 1)) :
    { jc with state }.Sound := by
  subst hold
  have htype := htyped _ h.typed
  obtain ⟨front, digits, hbuffer, hfront, hlen, hdigits⟩ :=
    h.digit ((nextClass_byte hc).2.1 hhex) htype hES
  refine ⟨by rw [htype]; exact hstring, by simp [h.escaped, hES'], h.done,
    fun hn => by simp [htype] at hn, h.nonzero, front, digits, hbuffer, ?_, ?_, hdigits⟩
  · rw [hread]
    exact hfront
  · rw [hread]
    exact hlen

theorem Taken.goto (h : jc.Taken c class') (hc : nextClass c = some class') {state : JsonState}
    (hsafe : safeAction jc.state jc.type class' (.goto state) = true) :
    { jc with state }.Sound := by
  simp only [safeAction, Bool.and_eq_true] at hsafe
  obtain ⟨⟨htyped, hstep⟩, hwhite⟩ := hsafe
  have hempty : jc.type = .none → jc.parseBuffer = [] := by
    intro hn
    exact h.white hn (by simpa [hn] using hwhite)
  have houtside : escapeRead state = (0, 0) → { jc with state }.Sound := by
    intro hs
    exact .outside htyped h.escaped h.done hempty h.nonzero hs
  have hescaped : jc.escaped = false := h.escaped
  have hone : ∀ old, jc.state = old → old ≠ .ES → (∀ type, Tnode.typed old type = true →
      type = .string) → (escapeRead old).1 + 1 ≤ jc.parseBuffer.length := by
    rintro old rfl hES hold
    obtain ⟨front, digits, hbuffer, hfront, -⟩ := h.pushed hES (Or.inl (by simp [hold _ h.typed]))
    rw [hbuffer, List.length_append, List.length_append, List.length_singleton]
    omega
  cases state with
  | ES => cases hstep
  | U1 =>
    have hlen : 2 ≤ jc.parseBuffer.length := by
      rcases Bool.or_eq_true _ _ |>.mp hstep with hES | hD2
      · rw [Bool.and_eq_true, decide_eq_true_eq, decide_eq_true_eq] at hES
        exact h.unicode hES.1 ((nextClass_byte hc).2.2.1 hES.2)
      · exact hone .D2 (by simpa using hD2) (by decide) (by simp [Tnode.typed])
    exact ⟨htyped, hescaped, h.done, hempty, h.nonzero, jc.parseBuffer, [], by simp, hlen, rfl, nofun⟩
  | D2 =>
    have hlen := hone .D1 (by simpa [escapeStep] using hstep) (by decide) (by simp [Tnode.typed])
    exact ⟨htyped, hescaped, h.done, hempty, h.nonzero, jc.parseBuffer, [], by simp, hlen, rfl, nofun⟩
  | U2 | U3 | U4 =>
    simp only [escapeStep, Bool.and_eq_true, decide_eq_true_eq] at hstep
    exact h.next_digit hc hstep.1 hstep.2 (by simp [Tnode.typed]) (by decide) (by decide) rfl rfl
  | _ => exact houtside rfl

/-- The byte of an action is in the buffer. -/
theorem Taken.nonempty (h : jc.Taken c class') (hES : jc.state ≠ .ES)
    (hpush : jc.type ≠ .none ∨ class'.isWhite = false) : jc.parseBuffer ≠ [] := by
  obtain ⟨front, digits, hbuffer, -⟩ := h.pushed hES hpush
  simp [hbuffer]

theorem Taken.nonzero_popBack (h : jc.Taken c class') :
    jc.popBack.type ≠ .string → 0 ∉ jc.popBack.parseBuffer :=
  fun hs hmem => h.nonzero hs (List.mem_of_mem_dropLast hmem)

end JsonParser

end Tnode
