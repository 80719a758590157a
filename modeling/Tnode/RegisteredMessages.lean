import Tnode.MessageParser
import Mathlib.Data.List.AList

namespace Tnode

/-- `SerializeToString` and `ParseFromString` of the protobuf library, for messages of a type.
The size of a serialization is an `int`. -/
structure Protobuf where
  serialize : Nat → Message → Option (List Byte)
  parse : Nat → List Byte → Option Message
  serialize_length : ∀ {ty m out}, serialize ty m = some out → out.length < 2 ^ 31

/-- `MessageParserInternal`: the imported types, and `_messages` with the type registered under
each id. -/
structure MessageParser where
  pool : DescriptorPool
  findMessageTypeByName : List Byte → Option Nat
  messages : AList fun _ : Nat => Nat

namespace MessageParser

def regmsg (parser : MessageParser) (msgid : Nat) (name : List Byte) : Bool × MessageParser :=
  match parser.messages.lookup msgid with
  | some _ => (false, parser)
  | none =>
    match parser.findMessageTypeByName name with
    | none => (false, parser)
    | some ty => (true, { parser with messages := parser.messages.insert msgid ty })

/-- `encode(L, msgid)`: the type of the message and its fields. -/
def encodeMessage (parser : MessageParser) (lua : Lua) (msgid : Nat) (o : LuaValue) :
    Option (Nat × Message) := do
  let ty ← parser.messages.lookup msgid
  match encodeDescriptor lua parser.pool ty o with
  | .ok m => return (ty, m)
  | .error _ => none

/-- `encode(L, msgid, out)`. -/
def encode (parser : MessageParser) (pb : Protobuf) (lua : Lua) (msgid : Nat) (o : LuaValue) :
    Option (List Byte) := do
  let (ty, m) ← parser.encodeMessage lua msgid o
  pb.serialize ty m

def decode (parser : MessageParser) (pb : Protobuf) (msgid : Nat) (bytes : List Byte) :
    Option LuaValue := do
  let ty ← parser.messages.lookup msgid
  let m ← pb.parse ty bytes
  return .table (decodeDescriptor parser.pool (parser.pool ty) m [])

end MessageParser

def Lua.isnumber (lua : Lua) : LuaValue → Bool
  | .number _ => true
  | .string s => (lua.strscan s).isSome
  | _ => false

/-- `lua_tolstring`, with all the bytes of the string. -/
def Lua.tolstring (lua : Lua) : LuaValue → Option (List Byte)
  | .string s => some s
  | .number x => some (lua.num2str x)
  | _ => none

/-- `u32 msgid = lua_tointeger(L, …)`. -/
def Lua.tou32 (lua : Lua) (v : LuaValue) : Nat := (lua.tointeger v % 2 ^ 32).toNat

/-- `cc.regmsg(msgid, name)`. -/
def ccRegmsg (lua : Lua) (parser : MessageParser) : List LuaValue → Bool × MessageParser
  | [msgid, name] =>
    match lua.isnumber msgid, lua.tostring name with
    | true, some name => parser.regmsg (lua.tou32 msgid) name
    | _, _ => (false, parser)
  | _ => (false, parser)

section

variable {lua : Lua} {pb : Protobuf} {parser : MessageParser} {msgid : Nat}

theorem MessageParser.encode_eq_some_iff {o : LuaValue} {out : List Byte} :
    parser.encode pb lua msgid o = some out ↔
      ∃ ty m, parser.messages.lookup msgid = some ty ∧
        encodeDescriptor lua parser.pool ty o = .ok m ∧ pb.serialize ty m = some out := by
  unfold encode encodeMessage
  cases parser.messages.lookup msgid with
  | none => simp
  | some ty =>
    cases h : encodeDescriptor lua parser.pool ty o with
    | error e => simp [h]
    | ok m => simp [h]

/-- A registration is accepted once for an id, and the ids of other messages keep their types. -/
theorem MessageParser.regmsg_cases {parser' : MessageParser} {name : List Byte}
    (h : parser.regmsg msgid name = (true, parser')) :
    ∃ ty, parser.messages.lookup msgid = none ∧ parser.findMessageTypeByName name = some ty ∧
      parser' = { parser with messages := parser.messages.insert msgid ty } := by
  unfold regmsg at h
  split at h
  next => simp at h
  next hnone =>
    split at h
    next => simp at h
    next ty hty => exact ⟨ty, hnone, hty, (Prod.mk.inj h).2.symm⟩

end

end Tnode
