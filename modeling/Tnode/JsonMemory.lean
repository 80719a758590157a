import Tnode.JsonParser
import Tnode.Block

namespace Tnode

open Memory

def JSON_PARSER_STACK_SIZE : Nat := 128

def JSON_PARSER_PARSE_BUFFER_SIZE : Nat := 3500

/-- `JSON_parser_struct` with its memory. `stack_capacity` and `parse_buffer_capacity` are the
lengths of the blocks; the byte 0 in a cell of `static_stack` is no mode. -/
structure JsonParserStruct where
  state : JsonState
  type : JsonType
  escaped : Bool
  utf16HighSurrogate : Nat
  top : Int
  stack : Block JsonMode
  parseBuffer : Block Byte
  parseBufferCount : Nat
  isStatic : Bool

/-- `assert`. -/
def assert (p : Prop) [Decidable p] : Option Unit := if p then some () else none

namespace JsonParserStruct

/-- `push`; `malloc` and `realloc` are taken to succeed, here and below. -/
def push (jc : JsonParserStruct) (mode : JsonMode) : Option JsonParserStruct := do
  let top := jc.top + 1
  let stack := if top ≥ jc.stack.length then jc.stack.grow jc.stack.length else jc.stack
  let stack ← stack.store top mode
  return { jc with top, stack }

/-- `none` is undefined behaviour, here and below; `some none` is a return of false. -/
def pop (jc : JsonParserStruct) (mode : JsonMode) : Option (Option JsonParserStruct) :=
  if jc.top < 0 then some none
  else do
    let top ← jc.stack.load jc.top
    return if top = mode then some { jc with top := jc.top - 1 } else none

/-- `parse_buffer_clear`. -/
def clear (jc : JsonParserStruct) : Option JsonParserStruct := do
  let parseBuffer ← jc.parseBuffer.store 0 0
  return { jc with parseBuffer, parseBufferCount := 0 }

/-- `parse_buffer_pop_back_char`. -/
def popBack (jc : JsonParserStruct) : Option JsonParserStruct := do
  assert (jc.parseBufferCount ≥ 1)
  let parseBuffer ← jc.parseBuffer.store (jc.parseBufferCount - 1 : Nat) 0
  return { jc with parseBuffer, parseBufferCount := jc.parseBufferCount - 1 }

/-- `grow_parse_buffer`; `realloc` succeeds and keeps the whole block. -/
def growParseBuffer (jc : JsonParserStruct) : JsonParserStruct :=
  { jc with
    parseBuffer :=
      jc.parseBuffer.grow (if jc.isStatic then jc.parseBufferCount else jc.parseBuffer.length)
    isStatic := false }

/-- `jc->parse_buffer[jc->parse_buffer_count++] = c`. -/
def poke (jc : JsonParserStruct) (c : Byte) : Option JsonParserStruct := do
  let parseBuffer ← jc.parseBuffer.store jc.parseBufferCount c
  return { jc with parseBuffer, parseBufferCount := jc.parseBufferCount + 1 }

/-- `jc->parse_buffer[jc->parse_buffer_count] = 0`. -/
def terminate (jc : JsonParserStruct) : Option JsonParserStruct := do
  let parseBuffer ← jc.parseBuffer.store jc.parseBufferCount 0
  return { jc with parseBuffer }

/-- What `parse_buffer_push_back_char` does first. -/
def reserve (jc : JsonParserStruct) : JsonParserStruct :=
  if jc.parseBufferCount + 1 ≥ jc.parseBuffer.length then jc.growParseBuffer else jc

/-- `parse_buffer_push_back_char`. -/
def pushBack (jc : JsonParserStruct) (c : Byte) : Option JsonParserStruct := do
  let jc ← jc.reserve.poke c
  jc.terminate

/-- `new_JSON_parser`. -/
def new : Option JsonParserStruct := do
  let jc ← push ⟨.GO, .none, false, 0, -1, Block.alloc JSON_PARSER_STACK_SIZE,
    List.replicate JSON_PARSER_PARSE_BUFFER_SIZE (some 0), 0, true⟩ .done
  jc.clear

/-- The loop of `decode_unicode_char` over the last four bytes. -/
def readHex (jc : JsonParserStruct) (uc p : Nat) : List Nat → Option Nat
  | [] => some uc
  | i :: shifts => do
    let c ← jc.parseBuffer.load p
    let x := hexValue c
    assert (x < 16)
    jc.readHex (uc ||| (x <<< i)) (p + 1) shifts

/-- The bytes of a character, and the zero behind them. -/
def writeUtf8 (jc : JsonParserStruct) : List Byte → Option JsonParserStruct
  | [] => jc.terminate
  | c :: s => do
    let jc ← jc.poke c
    jc.writeUtf8 s

/-- What `decode_unicode_char` does with the number it has read. -/
def attemptDecoding (jc : JsonParserStruct) (uc : Nat) : Option (Option JsonParserStruct) :=
  if jc.utf16HighSurrogate ≠ 0 then
    if uc &&& 0xFC00 = 0xDC00 then
      let uc := ((jc.utf16HighSurrogate &&& 0x3FF) <<< 10) + (uc &&& 0x3FF) + 0x10000
      ({ jc with utf16HighSurrogate := 0 }.writeUtf8 (utf8Bytes uc 3)).map some
    else some none
  else if uc < 0x80 then (jc.writeUtf8 (utf8Bytes uc 0)).map some
  else if uc < 0x800 then (jc.writeUtf8 (utf8Bytes uc 1)).map some
  else if uc &&& 0xFC00 = 0xD800 then some (some { jc with utf16HighSurrogate := uc })
  else if uc &&& 0xFC00 = 0xDC00 then some none
  else (jc.writeUtf8 (utf8Bytes uc 2)).map some

/-- `decode_unicode_char`. -/
def decodeUnicodeChar (jc : JsonParserStruct) : Option (Option JsonParserStruct) := do
  assert (jc.parseBufferCount ≥ 6)
  let uc ← jc.readHex 0 (jc.parseBufferCount - 4) [12, 8, 4, 0]
  let jc ← { jc with parseBufferCount := jc.parseBufferCount - 6 }.terminate
  jc.attemptDecoding uc

/-- `add_escaped_char_to_parse_buffer`. -/
def addEscapedChar (jc : JsonParserStruct) (c : Byte) : Option (Option JsonParserStruct) := do
  let jc ← { jc with escaped := false }.popBack
  match c.toNat with
  | 98 => (jc.pushBack 8).map some
  | 102 => (jc.pushBack 12).map some
  | 110 => (jc.pushBack 10).map some
  | 114 => (jc.pushBack 13).map some
  | 116 => (jc.pushBack 9).map some
  | 34 => (jc.pushBack 34).map some
  | 92 => (jc.pushBack 92).map some
  | 47 => (jc.pushBack 47).map some
  | 117 => ((jc.pushBack 92).bind fun jc => jc.pushBack 117).map some
  | _ => some none

/-- `add_char_to_parse_buffer`. -/
def addChar (jc : JsonParserStruct) (c : Byte) (class' : JsonClass) :
    Option (Option JsonParserStruct) :=
  if jc.escaped then jc.addEscapedChar c
  else if jc.type ≠ .none ∨ ¬(class' = .space ∨ class' = .white) then (jc.pushBack c).map some
  else some (some jc)

/-- The value that `parse_parse_buffer` reports, for a type other than `JSON_T_NONE`. -/
def value (jc : JsonParserStruct) : JsonType → Option (Option JsonEvent)
  | .none => some none
  | .integer => do
    let s ← jc.parseBuffer.readUntil 0
    return some (.integer (sscanfLong s))
  | .float => do
    let s ← jc.parseBuffer.readUntil 0
    return some (.float (strtod s))
  | .null => some (some .null)
  | .true => some (some .true)
  | .false => some (some .false)
  | .string => do
    let s ← jc.parseBuffer.read jc.parseBufferCount
    return some (.string s)

section

variable {σ : Type} (callback : σ → JsonEvent → Option (Bool × σ))

/-- A call of the callback, and what is done after it unless it returns zero. -/
def call (ctx : σ) (event : JsonEvent) (k : σ → Option (Option JsonParserStruct × σ)) :
    Option (Option JsonParserStruct × σ) :=
  match callback ctx event with
  | some (true, ctx) => k ctx
  | some (false, ctx) => some (none, ctx)
  | none => none

def parseParseBuffer (jc : JsonParserStruct) (ctx : σ)
    (k : JsonParserStruct → σ → Option (Option JsonParserStruct × σ)) :
    Option (Option JsonParserStruct × σ) := do
  match ← jc.value jc.type with
  | none => k (← jc.clear) ctx
  | some event => call callback ctx event fun ctx => do k (← jc.clear) ctx

/-- `JSON_parser_char` returns false unless `r` holds a parser. -/
def orFalse (ctx : σ) (r : Option JsonParserStruct)
    (k : JsonParserStruct → Option JsonParserStruct) : Option (Option JsonParserStruct × σ) :=
  match r with
  | none => some (none, ctx)
  | some jc => (k jc).map fun jc => (some jc, ctx)

/-- The change of the state or the action that the table gives. -/
def perform (jc : JsonParserStruct) (ctx : σ) :
    JsonAction → Option (Option JsonParserStruct × σ)
  | .goto state => some (some { jc with state }, ctx)
  | .UC => do
    orFalse ctx (← jc.decodeUnicodeChar) fun jc =>
      some { jc with state := if jc.utf16HighSurrogate ≠ 0 then .D1 else .ST }
  | .EX => some (some { jc with escaped := true, state := .ES }, ctx)
  | .MX => some (some { jc with type := .integer, state := .MI }, ctx)
  | .ZX => some (some { jc with type := .integer, state := .ZE }, ctx)
  | .IX => some (some { jc with type := .integer, state := .IT }, ctx)
  | .DE => do
    assert (jc.type ∉ [.false, .true, .null, .string])
    return (some { jc with type := .float, state := .E1 }, ctx)
  | .DF => do
    assert (jc.type ∉ [.false, .true, .null, .string])
    assert ((← jc.parseBuffer.load (jc.parseBufferCount - 1)) = 46)
    let parseBuffer ← jc.parseBuffer.store (jc.parseBufferCount - 1) 46
    return (some { jc with parseBuffer, type := .float, state := .FX }, ctx)
  | .SB => do
    let jc ← jc.clear
    assert (jc.type = .none)
    return (some { jc with type := .string, state := .ST }, ctx)
  | .NU => do
    assert (jc.type = .none)
    return (some { jc with type := .null, state := .N1 }, ctx)
  | .FA => do
    assert (jc.type = .none)
    return (some { jc with type := .false, state := .F1 }, ctx)
  | .TR => do
    assert (jc.type = .none)
    return (some { jc with type := .true, state := .T1 }, ctx)
  | .CB => some (none, ctx)
  | .emptyObjectEnd => do
    let jc ← jc.clear
    call callback ctx .objectEnd fun ctx => do
      orFalse ctx (← jc.pop .key) fun jc => some { jc with state := .OK }
  | .objectEnd => do
    let jc ← jc.popBack
    jc.parseParseBuffer callback ctx fun jc ctx =>
      call callback ctx .objectEnd fun ctx => do
        orFalse ctx (← jc.pop .object) fun jc => some { jc with type := .none, state := .OK }
  | .arrayEnd => do
    let jc ← jc.popBack
    jc.parseParseBuffer callback ctx fun jc ctx =>
      call callback ctx .arrayEnd fun ctx => do
        orFalse ctx (← jc.pop .array) fun jc => some { jc with type := .none, state := .OK }
  | .objectBegin => do
    let jc ← jc.popBack
    call callback ctx .objectBegin fun ctx => do
      let jc ← jc.push .key
      assert (jc.type = .none)
      return (some { jc with state := .OB }, ctx)
  | .arrayBegin => do
    let jc ← jc.popBack
    call callback ctx .arrayBegin fun ctx => do
      let jc ← jc.push .array
      assert (jc.type = .none)
      return (some { jc with state := .AR }, ctx)
  | .stringEnd => do
    let jc ← jc.popBack
    match ← jc.stack.load jc.top with
    | .key =>
      assert (jc.type = .string)
      let key ← jc.parseBuffer.read jc.parseBufferCount
      call callback ctx (.key key) fun ctx => do
        let jc ← { jc with type := .none, state := .CO }.clear
        return (some jc, ctx)
    | .array | .object =>
      assert (jc.type = .string)
      jc.parseParseBuffer callback ctx fun jc ctx =>
        some (some { jc with type := .none, state := .OK }, ctx)
    | .done => some (none, ctx)
  | .comma => do
    let jc ← jc.popBack
    jc.parseParseBuffer callback ctx fun jc ctx => do
      match ← jc.stack.load jc.top with
      | .object =>
        orFalse ctx (← jc.pop .object) fun jc => do
          let jc ← jc.push .key
          assert (jc.type ≠ .string)
          return { jc with type := .none, state := .KE }
      | .array =>
        assert (jc.type ≠ .string)
        return (some { jc with type := .none, state := .VA }, ctx)
      | .key | .done => some (none, ctx)
  | .colon => do
    let jc ← jc.popBack
    orFalse ctx (← jc.pop .key) fun jc => do
      let jc ← jc.push .object
      assert (jc.type = .none)
      return { jc with state := .VA }
  | .error => some (none, ctx)

/-- `JSON_parser_char`, for a byte. -/
def char (jc : JsonParserStruct) (ctx : σ) (c : Byte) : Option (Option JsonParserStruct × σ) :=
  match nextClass c with
  | none => some (none, ctx)
  | some class' => do
    match ← jc.addChar c class' with
    | none => return (none, ctx)
    | some jc => jc.perform callback ctx (stateTransitionTable jc.state class')

/-- `JSON_parser_done`. -/
def done (jc : JsonParserStruct) : Option Bool :=
  if jc.state = .OK then (jc.pop .done).map Option.isSome else some false

/-- `JSON_parser_char` for byte after byte, up to the first that it rejects. -/
def feed (jc : JsonParserStruct) (ctx : σ) : List Byte → Option (Option JsonParserStruct × σ)
  | [] => some (some jc, ctx)
  | c :: s => do
    match ← jc.char callback ctx c with
    | (some jc, ctx) => jc.feed ctx s
    | (none, ctx) => return (none, ctx)

/-- What a caller does with a text: whether it is accepted, and the context of the callback. -/
def parse (ctx : σ) (s : List Byte) : Option (Bool × σ) := do
  let jc ← new
  match ← jc.feed callback ctx s with
  | (some jc, ctx) => return (← jc.done, ctx)
  | (none, ctx) => return (false, ctx)

end

end JsonParserStruct

/-- The same without the memory. -/
def JsonParser.parse {σ : Type} (callback : σ → JsonEvent → Option (Bool × σ)) (ctx : σ)
    (s : List Byte) : Option (Bool × σ) :=
  (JsonParser.new.feed callback ctx s).map fun r => (r.1.any JsonParser.done, r.2)

end Tnode
