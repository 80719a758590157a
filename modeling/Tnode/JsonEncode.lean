import Tnode.JsonCallback
import Tnode.MessageParser
import Tnode.Utf8

namespace Tnode

/-- `json_utf8_get`. -/
def jsonUtf8Get (buf : List Byte) (idx : Nat) : Nat := (buf.getD idx 0).toNat

/-- `json_utf8_cont`; `none` is `UTF8_ERROR`. -/
def jsonUtf8Cont (buf : List Byte) (idx : Nat) : Option Nat :=
  let c := jsonUtf8Get buf idx
  if c &&& 0xC0 = 0x80 then some (c &&& 0x3F) else none

/-- `json_utf8_decode_single` on the bytes that are left: the character and its length. -/
def jsonUtf8DecodeSingle (buf : List Byte) : Option (Nat × Nat) :=
  let c := jsonUtf8Get buf 0
  if buf.length < 1 then none
  else if c &&& 0x80 = 0 then some (c, 1)
  else if c &&& 0xE0 = 0xC0 then
    if buf.length < 2 then none
    else do
      let c1 ← jsonUtf8Cont buf 1
      let oChar := ((c &&& 0x1F) <<< 6) ||| c1
      if 128 ≤ oChar then some (oChar, 2) else none
  else if c &&& 0xF0 = 0xE0 then
    if buf.length < 3 then none
    else do
      let c1 ← jsonUtf8Cont buf 1
      let c2 ← jsonUtf8Cont buf 2
      let oChar := ((c &&& 0x0F) <<< 12) ||| (c1 <<< 6) ||| c2
      if 2048 ≤ oChar ∧ (oChar < 55296 ∨ 57343 < oChar) then some (oChar, 3) else none
  else if c &&& 0xF8 = 0xF0 then
    if buf.length < 4 then none
    else do
      let c1 ← jsonUtf8Cont buf 1
      let c2 ← jsonUtf8Cont buf 2
      let c3 ← jsonUtf8Cont buf 3
      let oChar := ((c &&& 0x0F) <<< 18) ||| (c1 <<< 12) ||| (c2 <<< 6) ||| c3
      if 65536 ≤ oChar ∧ oChar ≤ 1114111 then some (oChar, 4) else none
  else none

/-- The bytes that `create_json_escapes` copies; a `char` is signed. -/
def isCopied (b : Byte) : Bool :=
  let c := schar b.toNat
  c = 0x20 || c = 0x21 || (0x23 ≤ c && c ≤ 0x2E) || (0x30 ≤ c && c ≤ 0x5B) || 0x5D ≤ c

/-- The letter behind the backslash, for the bytes that have one. -/
def shortEscape (b : Byte) : Option Byte :=
  match b.toNat with
  | 8 => some 98
  | 12 => some 102
  | 10 => some 110
  | 13 => some 114
  | 47 => some 47
  | 34 => some 34
  | 92 => some 92
  | _ => none

def hexdigits : List Byte := bytes "0123456789ABCDEF"

/-- A `\u` with four digits; `none` is a read behind `hexdigits`. -/
def escapeUnit (u : Nat) : Option (List Byte) := do
  let d1 ← hexdigits[u / 4096]?
  let d2 ← hexdigits[u % 4096 / 256]?
  let d3 ← hexdigits[u % 4096 % 256 / 16]?
  let d4 ← hexdigits[u % 4096 % 256 % 16]?
  return [92, 117, d1, d2, d3, d4]

/-- The two halves of a character; the upper one is left out when it is zero. -/
def escapeUnits (oChar : Nat) : Option (List Byte) := do
  let high ← if oChar >>> 16 ≠ 0 then escapeUnit (oChar >>> 16) else some []
  let low ← escapeUnit (oChar &&& 0x0000ffff)
  return high ++ low

/-- The loop of `create_json_escapes`; a byte that begins no character counts as the `unsigned int`
of a signed `char`, whose first digit lies behind `hexdigits`. `none` is undefined behaviour. -/
def escapeChars : List Byte → Option (List Byte)
  | [] => some []
  | b :: left =>
    if b = 0 then some []
    else if isCopied b then do return b :: (← escapeChars left)
    else
      match shortEscape b with
      | some letter => do return 92 :: letter :: (← escapeChars left)
      | none =>
        match jsonUtf8DecodeSingle (b :: left) with
        | some (oChar, oLen) => do
          let s ← escapeUnits oChar
          return s ++ (← escapeChars (left.drop (oLen - 1)))
        | none => do
          let s ← escapeUnit (schar b.toNat % 2 ^ 32).toNat
          return s ++ (← escapeChars left)
termination_by s => s.length
decreasing_by all_goals simp only [List.length_cons, List.length_drop]; omega

/-- `create_json_escapes`: the bytes it appends. -/
def createJsonEscapes (s : List Byte) : Option (List Byte) := do
  return 34 :: (← escapeChars s) ++ [34]

/-- What `%p` prints. -/
def pointerText (address : Nat) : List Byte :=
  if address = 0 then bytes "(nil)"
  else bytes "0x" ++ (Nat.toDigits 16 address).map fun c => UInt8.ofNat c.toNat

/-- `lua_tolstring` on a key; the null pointer it gives for a boolean reads as no text. -/
def Lua.keyText (lua : Lua) : LuaKey → List Byte
  | .number x => lua.num2str x
  | .boolean _ => []
  | .string s => s

section

variable (lua : Lua)

mutual

/-- `luaT_json_parser_dump_object`: what it returns and the bytes it appends; `none` is
undefined behaviour. -/
def jsonParserDumpObject (v : LuaValue) : Option (Bool × List Byte) :=
  match v with
  | .nil => some (true, bytes "null")
  | .number x => some (true, lua.num2str x)
  | .boolean b => some (true, if b then bytes "true" else bytes "false")
  | .string s => do return (true, ← createJsonEscapes s)
  | .table t => do
    let (rc, s) ← dumpEntries (lua.next t) 0
    return (rc, 123 :: s ++ if rc then [125] else [])
  | .cfunction address => do
    return (true, ← createJsonEscapes (bytes "function:" ++ pointerText address))
  | .userdata _ => some (false, [])
termination_by (sizeOf v, 0)
decreasing_by
  rw [sizeOf_perm (lua.next_perm t)]
  exact Prod.Lex.left _ _ (by simp)

/-- The loop over the entries of a table, in the order of `lua_next`; one with `nil` is none. -/
def dumpEntries (entries : LuaTable) (idx : Nat) : Option (Bool × List Byte) :=
  match entries with
  | [] => some (true, [])
  | (k, v) :: entries =>
    if v.isNil then dumpEntries entries idx
    else do
      let key ← createJsonEscapes (lua.keyText k)
      let (rc, value) ← jsonParserDumpObject v
      let s := (if 0 < idx then [44] else []) ++ key ++ 58 :: value
      if rc then
        let (rc, rest) ← dumpEntries entries (idx + 1)
        return (rc, s ++ rest)
      else return (false, s)
termination_by (sizeOf entries, 1)

end

/-- `luaT_json_parser_encode`: what it returns and the bytes it appends. The stack of Lua has no
bound here, as the walk does not ask for one. -/
def jsonParserEncode (v : LuaValue) : Option (Bool × List Byte) := do
  let (rc, s) ← jsonParserDumpObject lua v
  return (rc, if rc then s ++ [0] else s)

end

end Tnode
