import Tnode.JsonDocument
import Tnode.JsonSteps

namespace Tnode

/-- An array or an object that is open where a value is to come. -/
inductive JsonFrame
  | array (done : List Json)
  | member (done : List (List Byte × Json)) (key : List Byte)

/-- What has been reported of a document: nothing, an open array or a key and what is around it,
an open object between members, or all of it. -/
inductive JsonPrefix
  | start
  | value (frame : JsonFrame) (outer : List JsonFrame)
  | key (done : List (List Byte × Json)) (outer : List JsonFrame)
  | complete (d : Json)

def JsonFrame.events : JsonFrame → List JsonEvent
  | .array done => .arrayBegin :: elementEvents done
  | .member done k => .objectBegin :: (memberEvents done ++ [.key k])

def outerEvents : List JsonFrame → List JsonEvent
  | [] => []
  | frame :: outer => outerEvents outer ++ frame.events

def JsonPrefix.events : JsonPrefix → List JsonEvent
  | .start => []
  | .value frame outer => outerEvents (frame :: outer)
  | .key done outer => outerEvents outer ++ .objectBegin :: memberEvents done
  | .complete d => d.events

/-- The document so far, when the value `d` ends inside `outer`. -/
def JsonPrefix.behind (d : Json) : List JsonFrame → JsonPrefix
  | [] => .complete d
  | .array done :: outer => .value (.array (done ++ [d])) outer
  | .member done k :: outer => .key (done ++ [(k, d)]) outer

def JsonFrame.mode : JsonFrame → JsonMode
  | .array _ => .array
  | .member _ _ => .object

/-- The modes on the stack of the parser. -/
def outerModes (outer : List JsonFrame) : List JsonMode := outer.map JsonFrame.mode ++ [.done]

/-- Where in the text the parser is. -/
inductive JsonPhase
  | start | openKey | nextKey | colon | value | first | string | scalar | done
deriving DecidableEq, Repr

def jsonPhase : JsonState → JsonType → Option JsonPhase
  | .GO, .none => some .start
  | .OB, .none => some .openKey
  | .KE, .none => some .nextKey
  | .CO, .none => some .colon
  | .VA, .none => some .value
  | .AR, .none => some .first
  | .OK, .none => some .done
  | .ST, .string | .ES, .string | .U1, .string | .U2, .string | .U3, .string | .U4, .string
  | .D1, .string | .D2, .string => some .string
  | _, .none | _, .string => none
  | .GO, _ | .OB, _ | .KE, _ | .CO, _ | .VA, _ | .AR, _ | .ST, _ | .ES, _ | .U1, _ | .U2, _
  | .U3, _ | .U4, _ | .D1, _ | .D2, _ => none
  | _, _ => some .scalar

/-- The document so far, the modes and the phase of the parser belong together. -/
inductive Fits : JsonPrefix → List JsonMode → JsonPhase → Prop
  | start : Fits .start [.done] .start
  | array {done outer phase}
      (h : phase ∈ [JsonPhase.first, .value, .string, .scalar, .done]) :
      Fits (.value (.array done) outer) (.array :: outerModes outer) phase
  | member {done key outer phase} (h : phase ∈ [JsonPhase.value, .string, .scalar]) :
      Fits (.value (.member done key) outer) (.object :: outerModes outer) phase
  | colon {done key outer} : Fits (.value (.member done key) outer) (.key :: outerModes outer) .colon
  | key {done outer phase} (h : phase ∈ [JsonPhase.openKey, .nextKey, .string]) :
      Fits (.key done outer) (.key :: outerModes outer) phase
  | behind {done outer} : Fits (.key done outer) (.object :: outerModes outer) .done
  | complete {d} (h : d.IsContainer) : Fits (.complete d) [.done] .done

def JsonParser.Fits (jc : JsonParser) (p : JsonPrefix) : Prop :=
  ∃ phase, jsonPhase jc.state jc.type = some phase ∧ Tnode.Fits p jc.stack phase

/-- What the phase tells about the action that the table gives. -/
def actionOf (type : JsonType) (phase : JsonPhase) : JsonAction → Bool
  | .goto state => jsonPhase state type = some phase
  | .UC | .EX | .stringEnd => phase = .string
  | .MX | .ZX | .IX | .NU | .FA | .TR => phase = .value ∨ phase = .first
  | .DE | .DF => phase = .scalar
  | .SB => phase = .openKey ∨ phase = .nextKey ∨ phase = .value ∨ phase = .first
  | .emptyObjectEnd => phase = .openKey
  | .objectEnd | .comma => phase = .done ∨ phase = .scalar
  | .arrayEnd => phase = .done ∨ phase = .scalar ∨ phase = .first
  | .objectBegin | .arrayBegin => phase = .start ∨ phase = .value ∨ phase = .first
  | .colon => phase = .colon
  | .CB | .error => true

def JsonState.all : List JsonState :=
  [.GO, .OK, .OB, .KE, .CO, .VA, .AR, .ST, .ES, .U1, .U2, .U3, .U4, .MI, .ZE, .IT, .FR, .E1, .E2,
    .E3, .T1, .T2, .T3, .F1, .F2, .F3, .F4, .N1, .N2, .N3, .FX, .D1, .D2]

def JsonClass.all : List JsonClass :=
  [.space, .white, .lcurb, .rcurb, .lsqrb, .rsqrb, .colon, .comma, .quote, .backs, .slash, .plus,
    .minus, .point, .zero, .digit, .lowA, .lowB, .lowC, .lowD, .lowE, .lowF, .lowL, .lowN, .lowR,
    .lowS, .lowT, .lowU, .abcdf, .e, .etc, .star]

def JsonType.all : List JsonType := [.none, .integer, .float, .null, .true, .false, .string]

theorem actionOf_transition {state : JsonState} {type : JsonType} {phase : JsonPhase}
    (h : jsonPhase state type = some phase) (class' : JsonClass) :
    actionOf type phase (stateTransitionTable state class') = true := by
  have hall : ∀ state ∈ JsonState.all, ∀ type ∈ JsonType.all, ∀ class' ∈ JsonClass.all,
      (jsonPhase state type).all (actionOf type · (stateTransitionTable state class')) = true := by
    decide +kernel
  have hstate : state ∈ JsonState.all := by cases state <;> decide
  have htype : type ∈ JsonType.all := by cases type <;> decide
  have hclass : class' ∈ JsonClass.all := by cases class' <;> decide
  simpa [h] using hall state hstate type htype class' hclass

theorem elementEvents_append (done elements : List Json) :
    elementEvents (done ++ elements) = elementEvents done ++ elementEvents elements := by
  induction done with
  | nil => rfl
  | cons e done ih => simp [elementEvents, ih]

theorem memberEvents_append (done members : List (List Byte × Json)) :
    memberEvents (done ++ members) = memberEvents done ++ memberEvents members := by
  induction done with
  | nil => rfl
  | cons m done ih =>
    obtain ⟨k, e⟩ := m
    simp [memberEvents, ih]

theorem events_behind (d : Json) (outer : List JsonFrame) :
    (JsonPrefix.behind d outer).events = outerEvents outer ++ d.events := by
  cases outer with
  | nil => rfl
  | cons frame outer =>
    cases frame with
    | array done =>
      simp [JsonPrefix.behind, JsonPrefix.events, outerEvents, JsonFrame.events,
        elementEvents_append, elementEvents]
    | member done k =>
      simp [JsonPrefix.behind, JsonPrefix.events, outerEvents, JsonFrame.events,
        memberEvents_append, memberEvents]

theorem Fits.behind_container {d : Json} (h : d.IsContainer) (outer : List JsonFrame) :
    Fits (JsonPrefix.behind d outer) (outerModes outer) .done := by
  cases outer with
  | nil => exact .complete h
  | cons frame outer =>
    cases frame with
    | array done => exact .array (by simp)
    | member done k => exact .behind

theorem Fits.behind_array (done : List Json) (outer : List JsonFrame) :
    Fits (JsonPrefix.behind (.array done) outer) (outerModes outer) .done :=
  behind_container (by trivial : (Json.array done).IsContainer) outer

theorem Fits.behind_object (done : List (List Byte × Json)) (outer : List JsonFrame) :
    Fits (JsonPrefix.behind (.object done) outer) (outerModes outer) .done :=
  behind_container (by trivial : (Json.object done).IsContainer) outer

theorem events_behind_object (done : List (List Byte × Json)) (outer : List JsonFrame) :
    (JsonPrefix.behind (.object done) outer).events =
      (JsonPrefix.key done outer).events ++ [.objectEnd] := by
  rw [events_behind, Json.events, JsonPrefix.events, List.append_assoc, List.cons_append]

theorem events_behind_array (done : List Json) (outer : List JsonFrame) :
    (JsonPrefix.behind (.array done) outer).events =
      (JsonPrefix.value (.array done) outer).events ++ [.arrayEnd] := by
  rw [events_behind, Json.events, JsonPrefix.events, outerEvents, JsonFrame.events,
    List.append_assoc, List.cons_append]

theorem Fits.toScalar {p : JsonPrefix} {modes : List JsonMode} {phase : JsonPhase}
    (h : Fits p modes phase) (hphase : phase = .value ∨ phase = .first) :
    Fits p modes .scalar := by
  cases h with
  | array => exact .array (by simp)
  | member => exact .member (by simp)
  | key hkey =>
    rcases hphase with rfl | rfl <;> simp at hkey
  | _ => simp at hphase

theorem Fits.toString {p : JsonPrefix} {modes : List JsonMode} {phase : JsonPhase}
    (h : Fits p modes phase)
    (hphase : phase = .openKey ∨ phase = .nextKey ∨ phase = .value ∨ phase = .first) :
    Fits p modes .string := by
  cases h with
  | array => exact .array (by simp)
  | member => exact .member (by simp)
  | key => exact .key (by simp)
  | _ => simp at hphase

theorem type_of_phase {state : JsonState} {type : JsonType} {phase : JsonPhase}
    (h : jsonPhase state type = some phase) (hs : phase ≠ .string) (hs' : phase ≠ .scalar) :
    type = .none := by
  cases type with
  | none => rfl
  | string => cases state <;> cases h <;> exact absurd rfl hs
  | _ => cases state <;> cases h <;> exact absurd rfl hs'

theorem type_of_string {state : JsonState} {type : JsonType}
    (h : jsonPhase state type = some .string) : type = .string := by
  cases type with
  | string => rfl
  | _ => cases state <;> cases h

theorem type_of_scalar {state : JsonState} {type : JsonType}
    (h : jsonPhase state type = some .scalar) : type ≠ .none ∧ type ≠ .string := by
  cases type with
  | none | string => cases state <;> cases h
  | _ => exact ⟨by decide, by decide⟩

namespace JsonParser

theorem addChar_frame {jc jc' : JsonParser} {c : Byte} {class' : JsonClass}
    (h : jc.addChar c class' = some jc') :
    jc'.state = jc.state ∧ jc'.type = jc.type ∧ jc'.stack = jc.stack := by
  unfold addChar at h
  split at h
  next =>
    unfold addEscapedChar at h
    simp only at h
    split at h <;> cases h <;> exact ⟨rfl, rfl, rfl⟩
  next => split at h <;> cases h <;> exact ⟨rfl, rfl, rfl⟩

theorem decodeUnicodeChar_frame {jc jc' : JsonParser} (h : jc.decodeUnicodeChar = some jc') :
    jc'.type = jc.type ∧ jc'.stack = jc.stack := by
  unfold decodeUnicodeChar at h
  simp only at h
  (repeat' split at h) <;> cases h <;> exact ⟨rfl, rfl⟩

/-- What is in the buffer when a scalar ends. -/
theorem pending_scalar {jc : JsonParser} (h : jc.type ≠ .none) :
    ∃ d : Json, jc.pending.toList = d.events := by
  cases ht : jc.type with
  | none => exact absurd ht h
  | integer => exact ⟨.integer (sscanfLong jc.parseBuffer), by simp [pending, ht, Json.events]⟩
  | float => exact ⟨.float (strtod jc.parseBuffer), by simp [pending, ht, Json.events]⟩
  | null => exact ⟨.null, by simp [pending, ht, Json.events]⟩
  | true => exact ⟨.boolean true, by simp [pending, ht, Json.events]⟩
  | false => exact ⟨.boolean false, by simp [pending, ht, Json.events]⟩
  | string => exact ⟨.string jc.parseBuffer, by simp [pending, ht, Json.events]⟩

theorem pending_none {jc : JsonParser} (h : jc.type = .none) : jc.pending = none := by
  simp [pending, h]

theorem pop_eq_some {jc jc' : JsonParser} {mode : JsonMode} (h : jc.pop mode = some jc') :
    ∃ stack, jc.stack = mode :: stack ∧ jc' = { jc with stack } := by
  unfold pop at h
  split at h
  next top stack hs =>
    split at h
    next he =>
      cases h
      exact ⟨stack, he ▸ hs, rfl⟩
    next => cases h
  next => cases h

end JsonParser

/-- A value may begin in an open array, behind a key or at the start. -/
theorem Fits.opening {p : JsonPrefix} {modes : List JsonMode} {phase : JsonPhase}
    (h : Fits p modes phase) (hphase : phase = .start ∨ phase = .value ∨ phase = .first) :
    ∃ outer, modes = outerModes outer ∧ p.events = outerEvents outer := by
  cases h with
  | start => exact ⟨[], rfl, rfl⟩
  | array => exact ⟨_, rfl, rfl⟩
  | member => exact ⟨_, rfl, rfl⟩
  | key hkey =>
    rcases hphase with rfl | rfl | rfl <;> simp at hkey
  | _ => simp at hphase

/-- At the end of a value the scalar in the buffer, if there is one, is reported. -/
theorem Fits.settled {p : JsonPrefix} {jc : JsonParser} {phase : JsonPhase}
    (hphase : jsonPhase jc.state jc.type = some phase) (h : Fits p jc.stack phase)
    (hend : phase = .done ∨ phase = .scalar ∨ phase = .first) :
    ∃ p', p'.events = p.events ++ jc.popBack.pending.toList ∧ Fits p' jc.stack .done := by
  by_cases hs : phase = .scalar
  · subst hs
    have ht : jc.popBack.type ≠ .none := (type_of_scalar hphase).1
    obtain ⟨d, hd⟩ := JsonParser.pending_scalar ht
    generalize jc.stack = modes at h ⊢
    rw [hd]
    cases h with
    | array => exact ⟨_, events_behind d (.array _ :: _), .array (by simp)⟩
    | member => exact ⟨_, events_behind d (.member _ _ :: _), .behind⟩
    | key hkey => simp at hkey
  · have hstring : phase ≠ .string := by
      rintro rfl
      simp at hend
    have ht : jc.popBack.type = .none := type_of_phase hphase hstring hs
    rw [JsonParser.pending_none ht]
    refine ⟨p, by simp, ?_⟩
    generalize jc.stack = modes at h ⊢
    cases h with
    | array => exact .array (by simp)
    | behind => exact .behind
    | complete hd => exact .complete hd
    | member hm =>
      rcases hend with rfl | rfl | rfl <;> simp at hm hs
    | key hkey =>
      rcases hend with rfl | rfl | rfl <;> simp at hkey
    | _ => simp at hend

section

variable {p : JsonPrefix} {jc jc' : JsonParser} {phase : JsonPhase} {events : List JsonEvent}
  (hphase : jsonPhase jc.state jc.type = some phase) (h : Fits p jc.stack phase)

include hphase h

theorem Fits.begin_object (hbegin : phase = .start ∨ phase = .value ∨ phase = .first)
    (hplan : jc.plan .objectBegin = (events, some jc')) :
    ∃ p', p'.events = p.events ++ events ∧ jc'.Fits p' := by
  cases hplan
  obtain ⟨outer, hmodes, hevents⟩ := h.opening hbegin
  have ht : jc.type = .none := by
    apply type_of_phase hphase <;> rintro rfl <;> simp at hbegin
  refine ⟨.key [] outer, by rw [hevents]; rfl, .openKey, ?_, ?_⟩
  · simp [JsonParser.push, JsonParser.popBack, ht, jsonPhase]
  · simpa [JsonParser.push, JsonParser.popBack, hmodes] using Fits.key (by simp)

theorem Fits.begin_array (hbegin : phase = .start ∨ phase = .value ∨ phase = .first)
    (hplan : jc.plan .arrayBegin = (events, some jc')) :
    ∃ p', p'.events = p.events ++ events ∧ jc'.Fits p' := by
  cases hplan
  obtain ⟨outer, hmodes, hevents⟩ := h.opening hbegin
  have ht : jc.type = .none := by
    apply type_of_phase hphase <;> rintro rfl <;> simp at hbegin
  refine ⟨.value (.array []) outer, by rw [hevents]; rfl, .first, ?_, ?_⟩
  · simp [JsonParser.push, JsonParser.popBack, ht, jsonPhase]
  · simpa [JsonParser.push, JsonParser.popBack, hmodes] using Fits.array (by simp)

theorem Fits.end_empty_object (hopen : phase = .openKey)
    (hplan : jc.plan .emptyObjectEnd = (events, some jc')) :
    ∃ p', p'.events = p.events ++ events ∧ jc'.Fits p' := by
  obtain ⟨rfl, hpop⟩ := Prod.mk.inj hplan
  obtain ⟨jc₁, hjc₁, rfl⟩ := Option.map_eq_some_iff.mp hpop
  obtain ⟨stack, hstack, rfl⟩ := JsonParser.pop_eq_some hjc₁
  subst hopen
  have ht : jc.type = .none := type_of_phase hphase (by decide) (by decide)
  have hmodes : jc.stack = .key :: stack := hstack
  rw [hmodes] at h
  cases h with
  | @key done outer _ _ =>
    refine ⟨_, events_behind_object done outer, .done, ?_, Fits.behind_object done outer⟩
    simp [JsonParser.clear, ht, jsonPhase]

theorem Fits.end_object (hend : phase = .done ∨ phase = .scalar)
    (hplan : jc.plan .objectEnd = (events, some jc')) :
    ∃ p', p'.events = p.events ++ events ∧ jc'.Fits p' := by
  obtain ⟨rfl, hpop⟩ := Prod.mk.inj hplan
  obtain ⟨jc₁, hjc₁, rfl⟩ := Option.map_eq_some_iff.mp hpop
  obtain ⟨stack, hstack, rfl⟩ := JsonParser.pop_eq_some hjc₁
  obtain ⟨p₁, hp₁, hfits⟩ := h.settled hphase (by tauto)
  have hmodes : jc.stack = .object :: stack := hstack
  rw [hmodes] at hfits
  cases hfits with
  | @behind done outer =>
    refine ⟨_, ?_, .done, rfl, Fits.behind_object done outer⟩
    rw [← List.append_assoc, ← hp₁]
    exact events_behind_object done outer
  | member hm => simp at hm

theorem Fits.end_array (hend : phase = .done ∨ phase = .scalar ∨ phase = .first)
    (hplan : jc.plan .arrayEnd = (events, some jc')) :
    ∃ p', p'.events = p.events ++ events ∧ jc'.Fits p' := by
  obtain ⟨rfl, hpop⟩ := Prod.mk.inj hplan
  obtain ⟨jc₁, hjc₁, rfl⟩ := Option.map_eq_some_iff.mp hpop
  obtain ⟨stack, hstack, rfl⟩ := JsonParser.pop_eq_some hjc₁
  obtain ⟨p₁, hp₁, hfits⟩ := h.settled hphase hend
  have hmodes : jc.stack = .array :: stack := hstack
  rw [hmodes] at hfits
  cases hfits with
  | @array done outer _ _ =>
    refine ⟨_, ?_, .done, rfl, Fits.behind_array done outer⟩
    rw [← List.append_assoc, ← hp₁]
    exact events_behind_array done outer

theorem Fits.comma (hend : phase = .done ∨ phase = .scalar)
    (hplan : jc.plan .comma = (events, some jc')) :
    ∃ p', p'.events = p.events ++ events ∧ jc'.Fits p' := by
  obtain ⟨p₁, hp₁, hfits⟩ := h.settled hphase (by tauto)
  obtain ⟨rfl, hjc'⟩ := Prod.mk.inj hplan
  refine ⟨p₁, hp₁, ?_⟩
  generalize hmodes : jc.stack = modes at hfits hjc'
  cases hfits with
  | array =>
    cases hjc'
    refine ⟨.value, rfl, ?_⟩
    simp only [JsonParser.clear, hmodes]
    exact .array (by simp)
  | behind =>
    cases hjc'
    exact ⟨.nextKey, rfl, .key (by simp)⟩
  | complete => cases hjc'
  | member hm => simp at hm
  | key hkey => simp at hkey

theorem Fits.end_string (hstring : phase = .string)
    (hplan : jc.plan .stringEnd = (events, some jc')) :
    ∃ p', p'.events = p.events ++ events ∧ jc'.Fits p' := by
  subst hstring
  have ht : jc.popBack.type = .string := type_of_string hphase
  have hpending : jc.popBack.pending.toList = (Json.string jc.popBack.parseBuffer).events := by
    simp only [JsonParser.pending, ht, Option.toList_some, Json.events]
  rw [JsonParser.plan, hpending] at hplan
  generalize hmodes : jc.stack = modes at h hplan
  cases h with
  | @array done outer _ _ =>
    cases hplan
    refine ⟨_, events_behind _ (.array done :: outer), .done, rfl, ?_⟩
    simp only [JsonParser.clear, hmodes]
    exact .array (by simp)
  | @member done k outer _ _ =>
    cases hplan
    refine ⟨_, events_behind _ (.member done k :: outer), .done, rfl, ?_⟩
    simp only [JsonParser.clear, hmodes]
    exact .behind
  | @key done outer _ _ =>
    cases hplan
    refine ⟨.value (.member done jc.popBack.parseBuffer) outer, ?_, .colon, rfl, ?_⟩
    · simp [JsonPrefix.events, outerEvents, JsonFrame.events]
    · simp only [JsonParser.clear, hmodes]
      exact .colon

theorem Fits.colon_read (hcolon : phase = .colon)
    (hplan : jc.plan .colon = (events, some jc')) :
    ∃ p', p'.events = p.events ++ events ∧ jc'.Fits p' := by
  obtain ⟨rfl, hpop⟩ := Prod.mk.inj hplan
  obtain ⟨jc₁, hjc₁, rfl⟩ := Option.map_eq_some_iff.mp hpop
  obtain ⟨stack, hstack, rfl⟩ := JsonParser.pop_eq_some hjc₁
  subst hcolon
  have ht : jc.type = .none := type_of_phase hphase (by decide) (by decide)
  have hmodes : jc.stack = .key :: stack := hstack
  rw [hmodes] at h
  cases h with
  | colon =>
    refine ⟨_, (List.append_nil _).symm, .value, ?_, .member (by simp)⟩
    simp [JsonParser.push, JsonParser.popBack, ht, jsonPhase]
  | key hkey => simp at hkey

/-- The reports of an action that the parser survives continue the document. -/
theorem Fits.plan {action : JsonAction} (haction : actionOf jc.type phase action = true)
    (hplan : jc.plan action = (events, some jc')) :
    ∃ p', p'.events = p.events ++ events ∧ jc'.Fits p' := by
  cases action with
  | goto state =>
    cases hplan
    exact ⟨p, by simp, phase, by simpa [actionOf] using haction, h⟩
  | UC =>
    obtain ⟨rfl, hdec⟩ := Prod.mk.inj hplan
    obtain ⟨jc₁, hjc₁, rfl⟩ := Option.map_eq_some_iff.mp hdec
    obtain ⟨htype, hstack⟩ := JsonParser.decodeUnicodeChar_frame hjc₁
    have hstring : phase = .string := by simpa [actionOf] using haction
    subst hstring
    refine ⟨p, by simp, .string, ?_, by simpa [hstack] using h⟩
    rw [htype, type_of_string hphase]
    split <;> rfl
  | EX =>
    cases hplan
    have hstring : phase = .string := by simpa [actionOf] using haction
    subst hstring
    exact ⟨p, by simp, .string, by rw [type_of_string hphase]; rfl, h⟩
  | MX | ZX | IX | NU | FA | TR =>
    cases hplan
    have hvalue : phase = .value ∨ phase = .first := by simpa [actionOf] using haction
    exact ⟨p, by simp, .scalar, rfl, h.toScalar hvalue⟩
  | DE | DF =>
    cases hplan
    have hscalar : phase = .scalar := by simpa [actionOf] using haction
    subst hscalar
    exact ⟨p, by simp, .scalar, rfl, h⟩
  | SB =>
    cases hplan
    have hbegin : phase = .openKey ∨ phase = .nextKey ∨ phase = .value ∨ phase = .first := by
      simpa [actionOf] using haction
    exact ⟨p, by simp, .string, rfl, h.toString hbegin⟩
  | CB | error => cases hplan
  | objectBegin => exact h.begin_object hphase (by simpa [actionOf] using haction) hplan
  | arrayBegin => exact h.begin_array hphase (by simpa [actionOf] using haction) hplan
  | emptyObjectEnd => exact h.end_empty_object hphase (by simpa [actionOf] using haction) hplan
  | objectEnd => exact h.end_object hphase (by simpa [actionOf] using haction) hplan
  | arrayEnd => exact h.end_array hphase (by simpa [actionOf] using haction) hplan
  | comma => exact h.comma hphase (by simpa [actionOf] using haction) hplan
  | stringEnd => exact h.end_string hphase (by simpa [actionOf] using haction) hplan
  | colon => exact h.colon_read hphase (by simpa [actionOf] using haction) hplan

/-- A rejected action has reported nothing, or it closes a value whose bracket does not match. -/
theorem Fits.plan_none {action : JsonAction} (haction : actionOf jc.type phase action = true)
    (hplan : jc.plan action = (events, none)) :
    events = [] ∨
      (∃ p' : JsonPrefix, p.events ++ events = p'.events ++ [.objectEnd] ∧ Fits p' jc.stack .done ∧
        action = .objectEnd ∧ ∀ stack, jc.stack ≠ .object :: stack) ∨
      ∃ p' : JsonPrefix, p.events ++ events = p'.events ++ [.arrayEnd] ∧ Fits p' jc.stack .done ∧
        action = .arrayEnd ∧ ∀ stack, jc.stack ≠ .array :: stack := by
  cases action with
  | objectEnd =>
    have hend : phase = .done ∨ phase = .scalar := by simpa [actionOf] using haction
    obtain ⟨p', hp', hfits⟩ := h.settled hphase (by tauto)
    obtain ⟨rfl, hpop⟩ := Prod.mk.inj hplan
    refine .inr (.inl ⟨p', by rw [hp', List.append_assoc], hfits, rfl, ?_⟩)
    intro stack hstack
    simp [JsonParser.pop, JsonParser.clear, hstack] at hpop
  | arrayEnd =>
    have hend : phase = .done ∨ phase = .scalar ∨ phase = .first := by
      simpa [actionOf] using haction
    obtain ⟨p', hp', hfits⟩ := h.settled hphase hend
    obtain ⟨rfl, hpop⟩ := Prod.mk.inj hplan
    refine .inr (.inr ⟨p', by rw [hp', List.append_assoc], hfits, rfl, ?_⟩)
    intro stack hstack
    simp [JsonParser.pop, JsonParser.clear, hstack] at hpop
  | comma =>
    have hend : phase = .done ∨ phase = .scalar := by simpa [actionOf] using haction
    have hevents := (Prod.mk.inj hplan).1
    have hmove := (Prod.mk.inj hplan).2
    generalize hmodes : jc.stack = modes at h hmove
    cases h with
    | complete =>
      have ht : jc.popBack.type = .none := type_of_phase hphase (by decide) (by decide)
      rw [JsonParser.pending_none ht] at hevents
      exact .inl hevents.symm
    | key hkey =>
      rcases hend with rfl | rfl <;> simp at hkey
    | start | colon => simp at hend
    | array | member | behind => cases hmove
  | emptyObjectEnd =>
    have hopen : phase = .openKey := by simpa [actionOf] using haction
    subst hopen
    have hpop := (Prod.mk.inj hplan).2
    generalize hmodes : jc.stack = modes at h
    cases h with
    | key => simp [JsonParser.pop, JsonParser.clear, hmodes] at hpop
    | array ha => simp at ha
    | member hm => simp at hm
  | stringEnd =>
    have hstring : phase = .string := by simpa [actionOf] using haction
    subst hstring
    rw [JsonParser.plan] at hplan
    generalize jc.stack = modes at h hplan
    cases h with
    | _ => cases hplan
  | _ =>
    have hevents := (Prod.mk.inj hplan).1
    first
      | exact .inl hevents.symm
      | exact absurd (Prod.mk.inj hplan).2 (by simp)

end

end Tnode
