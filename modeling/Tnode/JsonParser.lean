import Tnode.JsonCallback

namespace Tnode

/-- `enum classes`. -/
inductive JsonClass
  | space | white | lcurb | rcurb | lsqrb | rsqrb | colon | comma | quote | backs | slash | plus
  | minus | point | zero | digit | lowA | lowB | lowC | lowD | lowE | lowF | lowL | lowN | lowR
  | lowS | lowT | lowU | abcdf | e | etc | star
deriving DecidableEq, Repr

/-- `ascii_class`; `none` is an error. -/
def asciiClass (c : Byte) : Option JsonClass :=
  match c.toNat with
  | 9 | 10 | 13 => some .white
  | 32 => some .space
  | 34 => some .quote
  | 42 => some .star
  | 43 => some .plus
  | 44 => some .comma
  | 45 => some .minus
  | 46 => some .point
  | 47 => some .slash
  | 48 => some .zero
  | 58 => some .colon
  | 69 => some .e
  | 91 => some .lsqrb
  | 92 => some .backs
  | 93 => some .rsqrb
  | 97 => some .lowA
  | 98 => some .lowB
  | 99 => some .lowC
  | 100 => some .lowD
  | 101 => some .lowE
  | 102 => some .lowF
  | 108 => some .lowL
  | 110 => some .lowN
  | 114 => some .lowR
  | 115 => some .lowS
  | 116 => some .lowT
  | 117 => some .lowU
  | 123 => some .lcurb
  | 125 => some .rcurb
  | n =>
    if n < 32 then none
    else if 49 ≤ n ∧ n ≤ 57 then some .digit
    else if 65 ≤ n ∧ n ≤ 70 then some .abcdf
    else some .etc

/-- `next_class` in `JSON_parser_char`. -/
def nextClass (c : Byte) : Option JsonClass := if 128 ≤ c then some .etc else asciiClass c

/-- `enum states`, without the three that only a comment leads to. -/
inductive JsonState
  | GO | OK | OB | KE | CO | VA | AR | ST | ES | U1 | U2 | U3 | U4 | MI | ZE | IT | FR | E1 | E2
  | E3 | T1 | T2 | T3 | F1 | F2 | F3 | F4 | N1 | N2 | N3 | FX | D1 | D2
deriving DecidableEq, Repr

/-- An entry of the table: a state, or one of the actions from -22 to -1. -/
inductive JsonAction
  | goto (state : JsonState)
  | UC | EX | IX | ZX | MX | SB | DF | DE | NU | TR | FA | CB
  | emptyObjectEnd | objectEnd | arrayEnd | objectBegin | arrayBegin | stringEnd | comma | colon
  | error
deriving DecidableEq, Repr

/-- The entries that the rows of `OK`, `ZE`, `IT`, `FR`, `E3` and `FX` share. -/
def endOfValue : JsonClass → JsonAction
  | .space | .white => .goto .OK
  | .rcurb => .objectEnd
  | .rsqrb => .arrayEnd
  | .comma => .comma
  | _ => .error

def beginOfValue (state : JsonState) : JsonClass → JsonAction
  | .space | .white => .goto state
  | .lcurb => .objectBegin
  | .lsqrb => .arrayBegin
  | .quote => .SB
  | .slash => .CB
  | .minus => .MX
  | .zero => .ZX
  | .digit => .IX
  | .lowF => .FA
  | .lowN => .NU
  | .lowT => .TR
  | _ => .error

/-- The rows of `U1` to `U4`. -/
def hexDigit (next : JsonAction) : JsonClass → JsonAction
  | .zero | .digit | .lowA | .lowB | .lowC | .lowD | .lowE | .lowF | .abcdf | .e => next
  | _ => .error

/-- The rows with one entry. -/
def only (class' : JsonClass) (next : JsonAction) (c : JsonClass) : JsonAction :=
  if c = class' then next else .error

/-- `state_transition_table`. -/
def stateTransitionTable : JsonState → JsonClass → JsonAction
  | .GO, c =>
    match c with
    | .space | .white => .goto .GO
    | .lcurb => .objectBegin
    | .lsqrb => .arrayBegin
    | .slash => .CB
    | _ => .error
  | .OK, c => if c = .slash then .CB else endOfValue c
  | .OB, c =>
    match c with
    | .space | .white => .goto .OB
    | .rcurb => .emptyObjectEnd
    | .quote => .SB
    | .slash => .CB
    | _ => .error
  | .KE, c =>
    match c with
    | .space | .white => .goto .KE
    | .quote => .SB
    | .slash => .CB
    | _ => .error
  | .CO, c =>
    match c with
    | .space | .white => .goto .CO
    | .colon => .colon
    | .slash => .CB
    | _ => .error
  | .VA, c => beginOfValue .VA c
  | .AR, c => if c = .rsqrb then .arrayEnd else beginOfValue .AR c
  | .ST, c =>
    match c with
    | .white => .error
    | .quote => .stringEnd
    | .backs => .EX
    | _ => .goto .ST
  | .ES, c =>
    match c with
    | .quote | .backs | .slash | .lowB | .lowF | .lowN | .lowR | .lowT => .goto .ST
    | .lowU => .goto .U1
    | _ => .error
  | .U1, c => hexDigit (.goto .U2) c
  | .U2, c => hexDigit (.goto .U3) c
  | .U3, c => hexDigit (.goto .U4) c
  | .U4, c => hexDigit .UC c
  | .MI, c =>
    match c with
    | .zero => .goto .ZE
    | .digit => .goto .IT
    | _ => .error
  | .ZE, c =>
    match c with
    | .slash => .CB
    | .point => .DF
    | _ => endOfValue c
  | .IT, c =>
    match c with
    | .slash => .CB
    | .point => .DF
    | .zero | .digit => .goto .IT
    | .lowE | .e => .DE
    | _ => endOfValue c
  | .FR, c =>
    match c with
    | .slash => .CB
    | .zero | .digit => .goto .FR
    | .lowE | .e => .goto .E1
    | _ => endOfValue c
  | .E1, c =>
    match c with
    | .plus | .minus => .goto .E2
    | .zero | .digit => .goto .E3
    | _ => .error
  | .E2, c =>
    match c with
    | .zero | .digit => .goto .E3
    | _ => .error
  | .E3, c =>
    match c with
    | .zero | .digit => .goto .E3
    | _ => endOfValue c
  | .T1, c => only .lowR (.goto .T2) c
  | .T2, c => only .lowU (.goto .T3) c
  | .T3, c => if c = .slash then .CB else only .lowE (.goto .OK) c
  | .F1, c => only .lowA (.goto .F2) c
  | .F2, c => only .lowL (.goto .F3) c
  | .F3, c => only .lowS (.goto .F4) c
  | .F4, c => if c = .slash then .CB else only .lowE (.goto .OK) c
  | .N1, c => only .lowU (.goto .N2) c
  | .N2, c => only .lowL (.goto .N3) c
  | .N3, c => if c = .slash then .CB else only .lowL (.goto .OK) c
  | .FX, c =>
    match c with
    | .zero | .digit => .goto .FR
    | .lowE | .e => .goto .E1
    | _ => endOfValue c
  | .D1, c => only .backs (.goto .D2) c
  | .D2, c => only .lowU (.goto .U1) c

/-- The values that `type` takes. -/
inductive JsonType
  | none | integer | float | null | true | false | string
deriving DecidableEq, Repr

/-- `enum modes`. -/
inductive JsonMode
  | array | done | key | object
deriving DecidableEq, Repr

def isdigit (c : Byte) : Bool := 48 ≤ c && c ≤ 57

/-- The number that the digits at the front of a text stand for. -/
def digitsValue (s : List Byte) : Nat :=
  (s.takeWhile isdigit).foldl (fun n d => 10 * n + (d.toNat - 48)) 0

def LONG_MIN : Int := -2 ^ 63

def LONG_MAX : Int := 2 ^ 63 - 1

/-- The number that `sscanf(s, "%ld", ..)` reads. -/
def sscanfLong (s : List Byte) : Int :=
  let (negative, digits) := signed (s.dropWhile isspace)
  let n : Int := if negative then -digitsValue digits else digitsValue digits
  max LONG_MIN (min LONG_MAX n)

/-- The part of a number behind `e` or `E`; without digits it does not belong to it. -/
def exponentValue : List Byte → Int
  | mark :: s =>
    if mark = 101 ∨ mark = 69 then
      if (signed s).1 then -digitsValue (signed s).2 else digitsValue (signed s).2
    else 0
  | [] => 0

/-- The digits behind a decimal point, and what follows them. -/
def fractionDigits : List Byte → List Byte × List Byte
  | 46 :: s => (s.takeWhile isdigit, s.dropWhile isdigit)
  | s => ([], s)

/-- `strtod`, for a number in decimal. -/
def strtod (s : List Byte) : Double :=
  let (negative, s) := signed (s.dropWhile isspace)
  let whole := s.takeWhile isdigit
  let (fraction, s) := fractionDigits (s.dropWhile isdigit)
  let q : ℚ := digitsValue (whole ++ fraction) * 10 ^ (exponentValue s - fraction.length)
  if negative then if q = 0 then .negZero else binary64.round (-q) else binary64.round q

/-- `JSON_parser_struct`, as `luaT_json_parser_decode` configures it: no bound on the depth, no
comments, and floats are converted. `stack` has its top first. -/
structure JsonParser where
  state : JsonState
  type : JsonType
  escaped : Bool
  utf16HighSurrogate : Nat
  stack : List JsonMode
  parseBuffer : List Byte

/-- `utf8_lead_bits`. -/
def utf8LeadBits : List Nat := [0x00, 0xC0, 0xE0, 0xF0]

/-- The bytes that `decode_unicode_char` writes for `uc`. -/
def utf8Bytes (uc trailBytes : Nat) : List Byte :=
  UInt8.ofNat ((uc >>> (trailBytes * 6)) ||| utf8LeadBits.getD trailBytes 0) ::
    (List.range trailBytes).reverse.map fun i => UInt8.ofNat (((uc >>> (i * 6)) &&& 0x3F) ||| 0x80)

/-- The value that `decode_unicode_char` gives a hexadecimal digit. -/
def hexValue (c : Byte) : Nat :=
  if 97 ≤ c then c.toNat - 87 else if 65 ≤ c then c.toNat - 55 else c.toNat &&& 0xFFFFFFCF

section

variable {σ : Type} (callback : σ → JsonEvent → Option (Bool × σ))

namespace JsonParser

/-- `new_JSON_parser`. -/
def new : JsonParser := ⟨.GO, .none, false, 0, [.done], []⟩

def pushBack (jc : JsonParser) (c : Byte) : JsonParser :=
  { jc with parseBuffer := jc.parseBuffer ++ [c] }

def popBack (jc : JsonParser) : JsonParser := { jc with parseBuffer := jc.parseBuffer.dropLast }

def clear (jc : JsonParser) : JsonParser := { jc with parseBuffer := [] }

def push (jc : JsonParser) (mode : JsonMode) : JsonParser := { jc with stack := mode :: jc.stack }

def pop (jc : JsonParser) (mode : JsonMode) : Option JsonParser :=
  match jc.stack with
  | top :: stack => if top = mode then some { jc with stack } else none
  | [] => none

/-- `decode_unicode_char`. -/
def decodeUnicodeChar (jc : JsonParser) : Option JsonParser :=
  let n := jc.parseBuffer.length
  let uc := (jc.parseBuffer.drop (n - 4)).foldl (fun uc c => 16 * uc + hexValue c) 0
  let buffer := jc.parseBuffer.take (n - 6)
  if jc.utf16HighSurrogate ≠ 0 then
    if uc &&& 0xFC00 = 0xDC00 then
      let uc := ((jc.utf16HighSurrogate &&& 0x3FF) <<< 10) + (uc &&& 0x3FF) + 0x10000
      some { jc with utf16HighSurrogate := 0, parseBuffer := buffer ++ utf8Bytes uc 3 }
    else none
  else if uc < 0x80 then some { jc with parseBuffer := buffer ++ utf8Bytes uc 0 }
  else if uc < 0x800 then some { jc with parseBuffer := buffer ++ utf8Bytes uc 1 }
  else if uc &&& 0xFC00 = 0xD800 then
    some { jc with utf16HighSurrogate := uc, parseBuffer := buffer }
  else if uc &&& 0xFC00 = 0xDC00 then none
  else some { jc with parseBuffer := buffer ++ utf8Bytes uc 2 }

/-- `add_escaped_char_to_parse_buffer`. -/
def addEscapedChar (jc : JsonParser) (c : Byte) : Option JsonParser :=
  let jc := { jc with escaped := false }.popBack
  match c.toNat with
  | 98 => some (jc.pushBack 8)
  | 102 => some (jc.pushBack 12)
  | 110 => some (jc.pushBack 10)
  | 114 => some (jc.pushBack 13)
  | 116 => some (jc.pushBack 9)
  | 34 => some (jc.pushBack 34)
  | 92 => some (jc.pushBack 92)
  | 47 => some (jc.pushBack 47)
  | 117 => some ((jc.pushBack 92).pushBack 117)
  | _ => none

/-- `add_char_to_parse_buffer`. -/
def addChar (jc : JsonParser) (c : Byte) (class' : JsonClass) : Option JsonParser :=
  if jc.escaped then jc.addEscapedChar c
  else if jc.type ≠ .none ∨ ¬(class' = .space ∨ class' = .white) then some (jc.pushBack c)
  else some jc

/-- What `parse_parse_buffer` reports. -/
def pending (jc : JsonParser) : Option JsonEvent :=
  match jc.type with
  | .none => none
  | .integer => some (.integer (sscanfLong jc.parseBuffer))
  | .float => some (.float (strtod jc.parseBuffer))
  | .null => some .null
  | .true => some .true
  | .false => some .false
  | .string => some (.string jc.parseBuffer)

/-- A call of the callback, and what is done after it unless it returns zero. The result is
the parser, or none where `JSON_parser_char` returns false, and the context of the callback;
there is none where the callback's behaviour is undefined. -/
def call (ctx : σ) (event : JsonEvent) (k : σ → Option (Option JsonParser × σ)) :
    Option (Option JsonParser × σ) :=
  match callback ctx event with
  | some (true, ctx) => k ctx
  | some (false, ctx) => some (none, ctx)
  | none => none

def parseParseBuffer (jc : JsonParser) (ctx : σ)
    (k : JsonParser → σ → Option (Option JsonParser × σ)) : Option (Option JsonParser × σ) :=
  match jc.pending with
  | none => k jc.clear ctx
  | some event => call callback ctx event (k jc.clear)

/-- The change of the state or the action that the table gives. -/
def perform (jc : JsonParser) (ctx : σ) : JsonAction → Option (Option JsonParser × σ)
  | .goto state => some (some { jc with state }, ctx)
  | .UC =>
    some (jc.decodeUnicodeChar.map fun jc =>
      { jc with state := if jc.utf16HighSurrogate ≠ 0 then .D1 else .ST }, ctx)
  | .EX => some (some { jc with escaped := true, state := .ES }, ctx)
  | .MX => some (some { jc with type := .integer, state := .MI }, ctx)
  | .ZX => some (some { jc with type := .integer, state := .ZE }, ctx)
  | .IX => some (some { jc with type := .integer, state := .IT }, ctx)
  | .DE => some (some { jc with type := .float, state := .E1 }, ctx)
  | .DF => some (some { jc with type := .float, state := .FX }, ctx)
  | .SB => some (some { jc.clear with type := .string, state := .ST }, ctx)
  | .NU => some (some { jc with type := .null, state := .N1 }, ctx)
  | .FA => some (some { jc with type := .false, state := .F1 }, ctx)
  | .TR => some (some { jc with type := .true, state := .T1 }, ctx)
  | .CB => some (none, ctx)
  | .emptyObjectEnd =>
    call callback ctx .objectEnd fun ctx =>
      some ((jc.clear.pop .key).map fun jc => { jc with state := .OK }, ctx)
  | .objectEnd =>
    jc.popBack.parseParseBuffer callback ctx fun jc ctx =>
      call callback ctx .objectEnd fun ctx =>
        some ((jc.pop .object).map fun jc => { jc with type := .none, state := .OK }, ctx)
  | .arrayEnd =>
    jc.popBack.parseParseBuffer callback ctx fun jc ctx =>
      call callback ctx .arrayEnd fun ctx =>
        some ((jc.pop .array).map fun jc => { jc with type := .none, state := .OK }, ctx)
  | .objectBegin =>
    call callback ctx .objectBegin fun ctx =>
      some (some { jc.popBack.push .key with state := .OB }, ctx)
  | .arrayBegin =>
    call callback ctx .arrayBegin fun ctx =>
      some (some { jc.popBack.push .array with state := .AR }, ctx)
  | .stringEnd =>
    match jc.stack with
    | .key :: _ =>
      call callback ctx (.key jc.popBack.parseBuffer) fun ctx =>
        some (some { jc.clear with type := .none, state := .CO }, ctx)
    | .array :: _ | .object :: _ =>
      jc.popBack.parseParseBuffer callback ctx fun jc ctx =>
        some (some { jc with type := .none, state := .OK }, ctx)
    | _ => some (none, ctx)
  | .comma =>
    jc.popBack.parseParseBuffer callback ctx fun jc ctx =>
      match jc.stack with
      | .object :: _ =>
        some ((jc.pop .object).map fun jc => { jc.push .key with type := .none, state := .KE }, ctx)
      | .array :: _ => some (some { jc with type := .none, state := .VA }, ctx)
      | _ => some (none, ctx)
  | .colon =>
    some ((jc.popBack.pop .key).map fun jc => { jc.push .object with state := .VA }, ctx)
  | .error => some (none, ctx)

/-- `JSON_parser_char`, for a byte. -/
def char (jc : JsonParser) (ctx : σ) (c : Byte) : Option (Option JsonParser × σ) :=
  match nextClass c with
  | none => some (none, ctx)
  | some class' =>
    match jc.addChar c class' with
    | none => some (none, ctx)
    | some jc => jc.perform callback ctx (stateTransitionTable jc.state class')

/-- `JSON_parser_done`. -/
def done (jc : JsonParser) : Bool := jc.state = .OK && (jc.pop .done).isSome

/-- `JSON_parser_char` for byte after byte, up to the first that it rejects. -/
def feed (jc : JsonParser) (ctx : σ) : List Byte → Option (Option JsonParser × σ)
  | [] => some (some jc, ctx)
  | c :: s =>
    match jc.char callback ctx c with
    | some (some jc, ctx) => jc.feed ctx s
    | r => r

end JsonParser

end

end Tnode
