import Tnode.Descriptor

namespace Tnode

/-- A value of rapidjson, as far as it is looked at. -/
inductive RapidValue
  | string (s : List Byte)
  | other
deriving DecidableEq

/-- A document of rapidjson: the members of an object in their order, or something else. -/
inductive RapidDocument
  | object (members : List (List Byte × RapidValue))
  | other
deriving DecidableEq

namespace RapidValue

def isString : RapidValue → Bool
  | .string _ => true
  | .other => false

/-- `GetString`, copied to a `std::string`; `none` is a failed assertion. -/
def getString : RapidValue → Option (List Byte)
  | .string s => some (cstr s)
  | .other => none

end RapidValue

/-- A call of the user's function. -/
structure UserCall (υ : Type) where
  success : Bool
  sessionKey : List Byte
  openid : List Byte
  userdata : υ

/-- What libcurl hands to one call of `curlWriteCallback`: a part of the body, which is not terminated,
and what lies behind it in memory up to a NUL. -/
structure CurlPiece where
  data : List Byte
  behind : List Byte
deriving DecidableEq

/-- The string of C at `ptr`. -/
def CurlPiece.ptr (piece : CurlPiece) : List Byte := cstr (piece.data ++ piece.behind)

/-- The `CurlContext`, if it is not freed, with the calls that have been made and how often it has
been freed. -/
structure CurlRun (υ : Type) where
  context : Option υ
  calls : List (UserCall υ)
  freed : Nat

section
variable {υ : Type} (parse : List Byte → Option RapidDocument)

/-- The call that `curlWriteCallback` makes for a text; `none` is a failed assertion. -/
def curlCall (userdata : υ) (ptr : List Byte) : Option (UserCall υ) :=
  match parse ptr with
  | none => some ⟨false, bytes "ParseCallbackError", ptr, userdata⟩
  | some .other => none
  | some (.object members) =>
    if (members.lookup (bytes "errcode")).isSome then
      let errmsg := ((members.lookup (bytes "errmsg")).bind RapidValue.getString).getD ptr
      some ⟨false, bytes "errcode", errmsg, userdata⟩
    else if (members.lookup (bytes "session_key")).all RapidValue.isString then
      some ⟨false, bytes "not found `session_key`", ptr, userdata⟩
    else if !(members.lookup (bytes "openid")).any RapidValue.isString then
      some ⟨false, bytes "not found `openid`", ptr, userdata⟩
    else
      ((members.lookup (bytes "session_key")).bind RapidValue.getString).bind fun sessionKey =>
        ((members.lookup (bytes "openid")).bind RapidValue.getString).map fun openid =>
          ⟨true, sessionKey, openid, userdata⟩

/-- `curlWriteCallback`. It reads the context and deletes it; `none` is a failed assertion, or the use
of a context that is freed. -/
def curlWriteCallback (run : CurlRun υ) (piece : CurlPiece) : Option (CurlRun υ) :=
  run.context.bind fun userdata =>
    (curlCall parse userdata piece.ptr).map fun call =>
      { context := none, calls := run.calls ++ [call], freed := run.freed + 1 }

/-- The end of `decode_jscode`, with the text of an error of `curl_easy_perform`. -/
def curlPerformed (userdata : υ) (run : CurlRun υ) : Option (List Byte) → Option (CurlRun υ × Bool)
  | none => some (run, true)
  | some error =>
    run.context.map fun _ =>
      ({ context := none
         calls := run.calls ++ [⟨false, bytes "error", error, userdata⟩]
         freed := run.freed + 1 }, false)

/-- `decode_jscode` from the allocation of the context on: libcurl makes these calls, and then the
transfer has succeeded, or failed with an error. -/
def decodeJscode (userdata : υ) (pieces : List CurlPiece) (error : Option (List Byte)) :
    Option (CurlRun υ × Bool) :=
  (pieces.foldlM (curlWriteCallback parse) ⟨some userdata, [], 0⟩).bind fun run =>
    curlPerformed userdata run error

/-- The two strings of a body that is an object without `errcode` that has them both. -/
def accepted (body : List Byte) : Option (List Byte × List Byte) :=
  match parse body with
  | some (.object members) =>
    if (members.lookup (bytes "errcode")).isSome then none
    else
      match members.lookup (bytes "session_key"), members.lookup (bytes "openid") with
      | some (.string sessionKey), some (.string openid) => some (sessionKey, openid)
      | _, _ => none
  | _ => none

/-- The user's function is called once and the context freed once; for a body in one piece, with
success and the two strings exactly where it has them. -/
def DecodesOnce (userdata : υ) (pieces : List CurlPiece) (error : Option (List Byte)) : Prop :=
  ∃ run result call, decodeJscode parse userdata pieces error = some (run, result) ∧
    run.calls = [call] ∧ run.freed = 1 ∧
    ∀ piece, pieces = [piece] →
      (call.success = true ↔ (accepted parse piece.data).isSome) ∧
      ∀ sessionKey openid, accepted parse piece.data = some (sessionKey, openid) →
        call.sessionKey = sessionKey ∧ call.openid = openid

/-- A text that is refused before a string is taken from what is none. -/
def Refused (text : List Byte) : Prop :=
  parse text = none ∨ ∃ members, parse text = some (.object members) ∧
    ((members.lookup (bytes "errcode")).isSome ∨
      (members.lookup (bytes "session_key")).all RapidValue.isString ∨
      ¬(members.lookup (bytes "openid")).any RapidValue.isString)

variable {parse} {userdata : υ}

/-- The call of a text, if there is one, is without success. -/
theorem curlCall_cases (userdata : υ) (text : List Byte) :
    (Refused parse text ∧ ∃ call, curlCall parse userdata text = some call ∧ call.success = false) ∨
      (¬Refused parse text ∧ curlCall parse userdata text = none) := by
  unfold curlCall Refused
  cases hparse : parse text with
  | none => exact Or.inl ⟨Or.inl rfl, _, rfl, rfl⟩
  | some document =>
    cases document with
    | other => exact Or.inr ⟨by simp, rfl⟩
    | object members =>
      dsimp only
      split
      next herr => exact Or.inl ⟨Or.inr ⟨members, rfl, Or.inl herr⟩, _, rfl, rfl⟩
      next herr =>
        split
        next hkey => exact Or.inl ⟨Or.inr ⟨members, rfl, Or.inr (Or.inl hkey)⟩, _, rfl, rfl⟩
        next hkey =>
          split
          next hid =>
            have hno : ¬(members.lookup (bytes "openid")).any RapidValue.isString = true := by
              simpa using hid
            exact Or.inl ⟨Or.inr ⟨members, rfl, Or.inr (Or.inr hno)⟩, _, rfl, rfl⟩
          next hid =>
            right
            have hstring : (members.lookup (bytes "openid")).any RapidValue.isString = true := by
              simpa using hid
            constructor
            · rintro (hnone | ⟨members', hsome, hrefused⟩)
              · cases hnone
              · cases hsome
                rcases hrefused with h | h | h
                · exact herr h
                · exact hkey h
                · exact h hstring
            · cases hlookup : members.lookup (bytes "session_key") with
              | none =>
                rw [hlookup] at hkey
                exact absurd rfl hkey
              | some value =>
                rw [hlookup] at hkey
                cases value with
                | string s => exact absurd rfl hkey
                | other => rfl

theorem decodeJscode_nil (error : Option (List Byte)) :
    decodeJscode parse userdata [] error = curlPerformed userdata ⟨some userdata, [], 0⟩ error := rfl

theorem decodeJscode_cons (piece : CurlPiece) (pieces : List CurlPiece) (error : Option (List Byte)) :
    decodeJscode parse userdata (piece :: pieces) error =
      (curlCall parse userdata piece.ptr).bind fun call =>
        if pieces = [] then curlPerformed userdata ⟨none, [call], 1⟩ error else none := by
  rw [decodeJscode, List.foldlM_cons]
  cases hcall : curlCall parse userdata piece.ptr with
  | none => simp [curlWriteCallback, hcall]
  | some call =>
    cases pieces with
    | nil => simp [curlWriteCallback, hcall]
    | cons second pieces => simp [curlWriteCallback, hcall]

theorem decodesOnce_nil {error : Option (List Byte)} :
    DecodesOnce parse userdata [] error ↔ error.isSome := by
  unfold DecodesOnce
  rw [decodeJscode_nil]
  constructor
  · intro h
    obtain ⟨run, result, call, hrun, hcalls, _⟩ := h
    cases error with
    | none =>
      cases hrun
      cases hcalls
    | some text => rfl
  · intro h
    obtain ⟨text, rfl⟩ := Option.isSome_iff_exists.mp h
    refine ⟨_, _, _, rfl, rfl, rfl, ?_⟩
    intro piece hpiece
    cases hpiece

theorem decodesOnce_single {piece : CurlPiece} {error : Option (List Byte)} :
    DecodesOnce parse userdata [piece] error ↔
      error = none ∧ accepted parse piece.data = none ∧ Refused parse piece.ptr := by
  unfold DecodesOnce
  rw [decodeJscode_cons]
  rcases @curlCall_cases υ parse userdata piece.ptr with ⟨hrefused, call, hcall, hfalse⟩ | ⟨hno, hnone⟩
  · rw [hcall, Option.bind_some, if_pos rfl]
    constructor
    · intro h
      obtain ⟨run, result, call', hrun, hcalls, _, hone⟩ := h
      cases error with
      | none =>
        cases hrun
        cases hcalls
        obtain ⟨hiff, _⟩ := hone piece rfl
        rw [hfalse] at hiff
        refine ⟨rfl, ?_, hrefused⟩
        cases haccepted : accepted parse piece.data with
        | none => rfl
        | some strings =>
          rw [haccepted] at hiff
          exact absurd (hiff.mpr rfl) Bool.false_ne_true
      | some text => cases hrun
    · intro h
      obtain ⟨rfl, haccepted, _⟩ := h
      refine ⟨_, _, call, rfl, rfl, rfl, ?_⟩
      intro other hother
      cases hother
      rw [haccepted, hfalse]
      exact ⟨Iff.rfl, fun _ _ h => by cases h⟩
  · rw [hnone]
    constructor
    · intro h
      obtain ⟨run, result, call, hrun, _⟩ := h
      cases hrun
    · intro h
      exact absurd h.2.2 hno

theorem not_decodesOnce_many {first second : CurlPiece} {pieces : List CurlPiece}
    {error : Option (List Byte)} : ¬DecodesOnce parse userdata (first :: second :: pieces) error := by
  unfold DecodesOnce
  rw [decodeJscode_cons]
  intro h
  obtain ⟨run, result, call, hrun, _⟩ := h
  obtain ⟨call', _, hrun⟩ := Option.bind_eq_some_iff.mp hrun
  rw [if_neg (List.cons_ne_nil second pieces)] at hrun
  cases hrun

end

/-- The function is called once and the context freed once exactly where the transfer fails before
anything has come, or the body comes in one piece, is not acceptable, and is refused as it is read, up to
the next NUL. -/
theorem decodesOnce_iff {υ : Type} (parse : List Byte → Option RapidDocument) (userdata : υ)
    (pieces : List CurlPiece) (error : Option (List Byte)) :
    DecodesOnce parse userdata pieces error ↔
      (pieces = [] ∧ error.isSome) ∨
        ∃ piece, pieces = [piece] ∧ error = none ∧ accepted parse piece.data = none ∧
          Refused parse piece.ptr := by
  match pieces with
  | [] =>
    rw [decodesOnce_nil]
    constructor
    · intro h
      exact Or.inl ⟨rfl, h⟩
    · intro h
      rcases h with ⟨_, h⟩ | ⟨piece, hpiece, _⟩
      · exact h
      · cases hpiece
  | [piece] =>
    rw [decodesOnce_single]
    constructor
    · intro h
      exact Or.inr ⟨piece, rfl, h⟩
    · intro h
      rcases h with ⟨hnil, _⟩ | ⟨other, hother, h⟩
      · cases hnil
      · cases hother
        exact h
  | first :: second :: pieces =>
    refine iff_of_false not_decodesOnce_many ?_
    intro h
    rcases h with ⟨hnil, _⟩ | ⟨other, hother, _⟩
    · cases hnil
    · cases hother

/-- A body with both strings. -/
def acceptableBody : List Byte := bytes "\x7b\"session_key\":\"k\",\"openid\":\"o\"\x7d"

/-- What rapidjson makes of that body. -/
def parseAcceptable (text : List Byte) : Option RapidDocument :=
  if text = acceptableBody then
    some (.object [(bytes "session_key", .string (bytes "k")), (bytes "openid", .string (bytes "o"))])
  else none

/-- A body with both strings in one piece, with a NUL behind it, is refused. -/
theorem acceptable_refused : ¬DecodesOnce parseAcceptable () [⟨acceptableBody, [0]⟩] none := by
  intro h
  have haccepted := (decodesOnce_single.mp h).2.1
  revert haccepted
  decide +kernel

end Tnode
