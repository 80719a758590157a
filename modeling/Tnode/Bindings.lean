import Tnode.RegisteredMessages
import Tnode.Base64
import Tnode.Sequences

namespace Tnode

section

variable (lua : Lua) (pb : Protobuf) (parser : MessageParser)

/-- `cc.base64_encode(string)`. -/
def ccBase64Encode : List LuaValue → List LuaValue
  | [v] =>
    match lua.tolstring v with
    | some string => [pushstring (base64Encode string)]
    | none => []
  | _ => []

/-- `cc.base64_decode(string)`. -/
def ccBase64Decode : List LuaValue → List LuaValue
  | [v] =>
    match lua.tostring v with
    | some encoded => [pushstring (base64Decode encoded)]
    | none => []
  | _ => []

/-- `cc.message_encode(msgid, table)`. -/
def ccMessageEncode : List LuaValue → List LuaValue
  | [id, .table t] =>
    if lua.isnumber id then
      match parser.encode pb lua (lua.tou32 id) (.table t) with
      | some outstring => [pushstring outstring]
      | none => []
    else []
  | _ => []

/-- What `cc_message_decode` passes to `MessageParser::decode`: `msgid` and `instring`. -/
def ccMessageDecodeCall : List LuaValue → Option (Nat × List Byte)
  | [id, s] => do
    let instring ← lua.tostring s
    if lua.isnumber id then some (lua.tou32 id, instring) else none
  | _ => none

/-- `cc.message_decode(msgid, string)`. -/
def ccMessageDecode (args : List LuaValue) : List LuaValue :=
  match ccMessageDecodeCall lua args with
  | some (msgid, instring) => (parser.decode pb msgid instring).toList
  | none => []

end

variable (lua : Lua) (pb : Protobuf) (parser : MessageParser)

theorem pushstring_eq_iff {s : List Byte} : pushstring s = .string s ↔ 0 ∉ s := by
  rw [pushstring, LuaValue.string.injEq, cstr_eq_self_iff]

theorem ccMessageDecodeCall_iff {id : LuaValue} (hid : lua.isnumber id = true) (s : List Byte) :
    ccMessageDecodeCall lua [id, .string s] = some (lua.tou32 id, s) ↔ 0 ∉ s := by
  simp [ccMessageDecodeCall, Lua.tostring, hid, cstr_eq_self_iff]

theorem ccBase64_iff (s : List Byte) :
    (∃ e, ccBase64Encode lua [.string s] = [e] ∧ ccBase64Decode lua [e] = [.string s]) ↔ 0 ∉ s := by
  have hcut : cstr (base64Encode s) = base64Encode s :=
    cstr_eq_self_iff.mpr (zero_notMem_base64Encode s)
  simp only [ccBase64Encode, Lua.tolstring, List.cons.injEq, and_true, exists_eq_left', pushstring,
    ccBase64Decode, Lua.tostring, hcut, base64Decode_base64Encode, LuaValue.string.injEq,
    cstr_eq_self_iff]

variable {lua pb parser}

theorem ccMessageEncode_eq {id : LuaValue} {t : LuaTable} {out : List Byte}
    (hid : lua.isnumber id = true)
    (hout : parser.encode pb lua (lua.tou32 id) (.table t) = some out) :
    ccMessageEncode lua pb parser [id, .table t] = [pushstring out] := by
  simp [ccMessageEncode, hid, hout]

theorem ccMessageEncode_iff {id : LuaValue} {t : LuaTable} {out : List Byte}
    (hid : lua.isnumber id = true)
    (hout : parser.encode pb lua (lua.tou32 id) (.table t) = some out) :
    (ccMessageEncode lua pb parser [id, .table t] = [.string out] ∧
        ∀ s ∈ ccMessageEncode lua pb parser [id, .table t],
          ccMessageDecode lua pb parser [id, s] =
            (parser.decode pb (lua.tou32 id) out).toList) ↔ 0 ∉ out := by
  rw [ccMessageEncode_eq hid hout]
  constructor
  · rintro ⟨he, -⟩
    exact pushstring_eq_iff.mp (List.cons.inj he).1
  · intro hz
    have hcall := (ccMessageDecodeCall_iff lua hid out).mpr hz
    rw [pushstring_eq_iff.mpr hz]
    refine ⟨rfl, ?_⟩
    intro s hs
    rw [List.mem_singleton.mp hs, ccMessageDecode, hcall]

/-- The bindings hand on all bytes exactly of strings without NUL: the serialization that
`message_encode` returns and that comes back from `message_decode`, the argument that
`message_decode` parses, and what goes through `base64_encode` and `base64_decode`. -/
theorem bindings_transparent_iff {id : LuaValue} {t : LuaTable} {out : List Byte}
    (hid : lua.isnumber id = true)
    (hout : parser.encode pb lua (lua.tou32 id) (.table t) = some out) (s : List Byte) :
    ((ccMessageEncode lua pb parser [id, .table t] = [.string out] ∧
        ∀ e ∈ ccMessageEncode lua pb parser [id, .table t],
          ccMessageDecode lua pb parser [id, e] =
            (parser.decode pb (lua.tou32 id) out).toList) ↔ 0 ∉ out) ∧
      (ccMessageDecodeCall lua [id, .string s] = some (lua.tou32 id, s) ↔ 0 ∉ s) ∧
      ((∃ e, ccBase64Encode lua [.string s] = [e] ∧ ccBase64Decode lua [e] = [.string s]) ↔
        0 ∉ s) :=
  ⟨ccMessageEncode_iff hid hout, ccMessageDecodeCall_iff lua hid s, ccBase64_iff lua s⟩

/-- An address book with one person of whom nothing is set. -/
def blankPerson : LuaTable := [(.string (bytes "people"), .table [(.number (ofInteger 1), .table [])])]

/-- The library on an empty address book and on one with a blank person. -/
def blankProtobuf : Protobuf where
  serialize
    | 0, [[]] => some []
    | 0, [[.message [[], [], [], []]]] => some [0x0a, 0]
    | _, _ => none
  parse
    | 0, [] => some [[]]
    | 0, [0x0a, 0] => some [[.message [[], [], [], []]]]
    | _, _ => none
  serialize_length := by
    intro ty m out h
    split at h
    next => cases h; decide
    next => cases h; decide
    next => simp at h

/-- An address book with one person of whom the name is set. -/
def namedPerson : LuaTable :=
  [(.string (bytes "people"),
    .table [(.number (ofInteger 1), .table [(.string (bytes "name"), .string (bytes "tnode"))])])]

/-- The library on an address book with one person of whom a short name is set. -/
def namedProtobuf : Protobuf where
  serialize
    | 0, [[.message [[.scalar (.string name)], [], [], []]]] =>
      if name.length < 126 then
        some (0x0a :: .ofNat (name.length + 2) :: 0x0a :: .ofNat name.length :: name)
      else none
    | _, _ => none
  parse
    | 0, 0x0a :: n :: 0x0a :: k :: name =>
      if n.toNat = name.length + 2 ∧ k.toNat = name.length then
        some [[.message [[.scalar (.string name)], [], [], []]]]
      else none
    | _, _ => none
  serialize_length := by
    intro ty m out h
    split at h
    next name =>
      split at h
      next hlen =>
        cases h
        simp only [List.length_cons]
        omega
      next => simp at h
    next => simp at h

/-- The serialization of `namedPerson`. -/
def namedBytes : List Byte := 0x0a :: 7 :: 0x0a :: 5 :: bytes "tnode"

def addressBookParser : MessageParser where
  pool := addressBook
  findMessageTypeByName name := if name = bytes "tnode.AddressBook" then some 0 else none
  messages := (∅ : AList fun _ : Nat => Nat).insert 1 0

theorem tou32_pushinteger (lua : Lua) {n : Nat} (h : n < 2 ^ 32) : lua.tou32 (pushinteger n) = n := by
  have habs : |(n : Int)| < 2 ^ 53 := abs_lt.mpr (by omega)
  rw [Lua.tou32, tointeger_of_small lua habs]
  omega

theorem encode_blankPerson (lua : Lua) :
    addressBookParser.encode blankProtobuf lua 1 (.table blankPerson) = some [0x0a, 0] := by
  have hone : ∀ e, lua.next [e] = [e] := fun e => List.perm_singleton.mp (lua.next_perm [e])
  rw [MessageParser.encode_eq_some_iff]
  refine ⟨0, [[.message [[], [], [], []]]], by decide, ?_, rfl⟩
  simp [addressBookParser, addressBook, blankPerson, encodeDescriptor, encodeFields, encodeField,
    encodeFieldRepeated, encodeValue, gettable, store, clearOneof, LuaValue.isNil, hone]
  rfl

theorem encode_empty (lua : Lua) :
    addressBookParser.encode blankProtobuf lua 1 (.table []) = some [] := by
  rw [MessageParser.encode_eq_some_iff]
  refine ⟨0, [[]], by decide, ?_, rfl⟩
  simp [addressBookParser, addressBook, encodeDescriptor, encodeFields, encodeField, gettable,
    store]
  rfl

theorem encode_namedPerson (lua : Lua) :
    addressBookParser.encode namedProtobuf lua 1 (.table namedPerson) = some namedBytes := by
  have hone : ∀ e, lua.next [e] = [e] := fun e => List.perm_singleton.mp (lua.next_perm [e])
  have hcut : cstr (bytes "tnode") = bytes "tnode" := by decide
  have hnames : ((addressBook 1).map FieldDescriptor.name).Nodup := by decide
  simp only [addressBook, List.map_cons, List.map_nil, List.nodup_cons, List.mem_cons, not_or]
    at hnames
  obtain ⟨⟨hid, hemail, hphones, -⟩, -⟩ := hnames
  rw [MessageParser.encode_eq_some_iff]
  refine ⟨0, [[.message [[.scalar (.string (bytes "tnode"))], [], [], []]]], by decide, ?_, by decide⟩
  simp [addressBookParser, addressBook, namedPerson, encodeDescriptor, encodeFields, encodeField,
    encodeFieldRepeated, encodeValue, readScalar, Lua.tostring, gettable, store, clearOneof,
    LuaValue.isNil, PValue.isDefault, Scalar.isDefault, hone, hcut, hid, hemail, hphones]
  rfl

/-- A table and a serialization without NUL go through both bindings. -/
theorem bindings_carry_person :
    (ccMessageEncode sortingLua namedProtobuf addressBookParser
          [pushinteger 1, .table namedPerson] = [.string namedBytes] ∧
      ∀ e ∈ ccMessageEncode sortingLua namedProtobuf addressBookParser
          [pushinteger 1, .table namedPerson],
        ccMessageDecode sortingLua namedProtobuf addressBookParser [pushinteger 1, e] =
          (addressBookParser.decode namedProtobuf (sortingLua.tou32 (pushinteger 1))
            namedBytes).toList) ∧
      ccMessageDecodeCall sortingLua [pushinteger 1, .string (bytes "tnode")] =
        some (sortingLua.tou32 (pushinteger 1), bytes "tnode") ∧
      ∃ e, ccBase64Encode sortingLua [.string (bytes "tnode")] = [e] ∧
        ccBase64Decode sortingLua [e] = [.string (bytes "tnode")] := by
  have hid : sortingLua.tou32 (pushinteger 1) = 1 := tou32_pushinteger sortingLua (by decide)
  have hout : addressBookParser.encode namedProtobuf sortingLua
      (sortingLua.tou32 (pushinteger 1)) (.table namedPerson) = some namedBytes := by
    rw [hid]
    exact encode_namedPerson sortingLua
  obtain ⟨hencode, hdecode, hbase64⟩ := bindings_transparent_iff rfl hout (bytes "tnode")
  exact ⟨hencode.mpr (by decide), hdecode.mpr (by decide), hbase64.mpr (by decide)⟩

/-- The serialization `0a 00` of a blank person is returned as `0a`, from which nothing is
decoded, and `a\0b` comes back from `base64` as `a`. -/
theorem bindings_cut_at_nul :
    addressBookParser.encode blankProtobuf sortingLua (sortingLua.tou32 (pushinteger 1))
        (.table blankPerson) = some [0x0a, 0] ∧
      ccMessageEncode sortingLua blankProtobuf addressBookParser
        [pushinteger 1, .table blankPerson] = [.string [0x0a]] ∧
      ccMessageDecode sortingLua blankProtobuf addressBookParser
        [pushinteger 1, .string [0x0a]] = [] ∧
      (addressBookParser.decode blankProtobuf (sortingLua.tou32 (pushinteger 1)) [0x0a, 0]).toList ≠
        [] ∧
      ccMessageDecodeCall sortingLua [pushinteger 1, .string [0x0a, 0]] ≠
        some (sortingLua.tou32 (pushinteger 1), [0x0a, 0]) ∧
      ∀ e, ccBase64Encode sortingLua [.string [97, 0, 98]] = [e] →
        ccBase64Decode sortingLua [e] ≠ [.string [97, 0, 98]] := by
  have hid : sortingLua.tou32 (pushinteger 1) = 1 := tou32_pushinteger sortingLua (by decide)
  have hout : addressBookParser.encode blankProtobuf sortingLua
      (sortingLua.tou32 (pushinteger 1)) (.table blankPerson) = some [0x0a, 0] := by
    rw [hid]
    exact encode_blankPerson sortingLua
  have hlost : addressBookParser.decode blankProtobuf 1 [0x0a] = none := rfl
  have hfound : (addressBookParser.decode blankProtobuf 1 [0x0a, 0]).isSome = true := rfl
  refine ⟨hout, ccMessageEncode_eq rfl hout, ?_, ?_, ?_, ?_⟩
  · rw [ccMessageDecode, (ccMessageDecodeCall_iff sortingLua rfl [0x0a]).mpr (by decide), hid]
    simp [hlost]
  · rw [hid]
    intro hnil
    rw [Option.toList_eq_nil_iff.mp hnil] at hfound
    simp at hfound
  · intro he
    have hz := (ccMessageDecodeCall_iff sortingLua rfl [0x0a, 0]).mp he
    simp at hz
  · intro e he hd
    have hz := (ccBase64_iff sortingLua [97, 0, 98]).mp ⟨e, he, hd⟩
    simp at hz

end Tnode
