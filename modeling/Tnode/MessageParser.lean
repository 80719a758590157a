import Tnode.Descriptor

namespace Tnode

/-- The cases of `decodeFieldRepeated` and `decodeFieldSimple` that push a scalar. -/
def pushScalar : Scalar → LuaValue
  | .int32 v => pushinteger v
  | .int64 v => pushinteger v
  | .uint32 v => pushinteger v
  | .uint64 v => pushinteger v
  | .double v => .number v
  | .float v => .number (v.convert binary64)
  | .bool v => .boolean v
  | .enum v => pushinteger v
  | .string v => pushstring v

mutual

def decodeValue (pool : DescriptorPool) (type : CppType) : PValue → LuaValue
  | .scalar s => pushScalar s
  | .message m =>
    match type with
    | .message ty => .table (decodeDescriptor pool (pool ty) m [])
    | _ => .nil

/-- The loop of `decodeField` over a repeated field, from `index` on. -/
def decodeFieldRepeated (pool : DescriptorPool) (type : CppType) :
    List PValue → Nat → LuaTable → LuaTable
  | [], _, t => t
  | value :: values, index, t =>
    decodeFieldRepeated pool type values (index + 1)
      (settable t (.number (ofInteger index)) (decodeValue pool type value))

/-- A singular field; `decodeFieldDefaultValue` assigns `nil` to one that is not set. -/
def decodeFieldSimple (pool : DescriptorPool) (type : CppType) : List PValue → LuaValue
  | [] => .nil
  | value :: _ => decodeValue pool type value

/-- `decodeDescriptor`, for the fields that are left. -/
def decodeDescriptor (pool : DescriptorPool) :
    List FieldDescriptor → List (List PValue) → LuaTable → LuaTable
  | field :: fields, values :: m, t =>
    let value :=
      if field.isRepeated then .table (decodeFieldRepeated pool field.cppType values 0 [])
      else decodeFieldSimple pool field.cppType values
    decodeDescriptor pool fields m (settable t (.string field.name) value)
  | _, _, t => t

end

/-- How encoding fails: a submessage that is no table, and a string made of a null pointer. -/
inductive EncodeError
  | notTable
  | nullString
deriving DecidableEq, Repr

/-- The cases of `encodeFieldRepeated` and `encodeFieldSimple` that read a scalar. In place of a value
that a closed enum does not declare, protobuf logs an error and stores the default of the field. -/
def readScalar (lua : Lua) (type : CppType) (v : LuaValue) : Except EncodeError Scalar :=
  match type with
  | .int32 => .ok (.int32 ((lua.tointeger v).bmod (2 ^ 32)))
  | .int64 => .ok (.int64 (lua.tointeger v))
  | .uint32 => .ok (.uint32 (lua.tointeger v % 2 ^ 32))
  | .uint64 => .ok (.uint64 (lua.tointeger v % 2 ^ 64))
  | .double => .ok (.double (lua.tonumber v))
  | .float => .ok (.float ((lua.tonumber v).convert binary32))
  | .bool => .ok (.bool (toboolean v))
  | .enum declared =>
    let value := (lua.tointeger v).bmod (2 ^ 32)
    match declared with
    | some values => .ok (.enum (if value ∈ values then value else values.headD 0))
    | none => .ok (.enum value)
  | .string =>
    match lua.tostring v with
    | some s => .ok (.string s)
    | none => .error .nullString
  | .message _ => .error .notTable

def clearOneof (oneof : Option Nat) (fields : List FieldDescriptor) (m : Message) : Message :=
  List.zipWith (fun field values => if oneof.isSome ∧ field.oneof = oneof then [] else values)
    fields m

/-- The message after the values of `field` have been set or added, when `fields` are the
ones before it and none behind it is set yet. -/
def store (fields : List FieldDescriptor) (m : Message) (field : FieldDescriptor)
    (values : List PValue) : Message :=
  match values with
  | [] => m ++ [[]]
  | value :: _ =>
    clearOneof field.oneof fields m ++
      [if !field.isRepeated && !field.hasPresence && value.isDefault then [] else values]

theorem sizeOf_gettable_le (t : LuaTable) (k : LuaKey) : sizeOf (gettable t k) ≤ sizeOf t := by
  induction t with
  | nil => simp [gettable]
  | cons e t ih =>
    obtain ⟨k', v⟩ := e
    simp only [gettable]
    split
    next => simp; omega
    next => simp; omega

theorem sizeOf_perm {s t : LuaTable} (h : s.Perm t) : sizeOf s = sizeOf t := by
  induction h with
  | nil => rfl
  | cons x _ ih => simp [ih]
  | swap x y l => simp; omega
  | trans _ _ ih ih' => exact ih.trans ih'

section

variable (lua : Lua) (pool : DescriptorPool)

mutual

/-- `encodeDescriptor`, on a table without a metatable. -/
def encodeDescriptor (ty : Nat) (o : LuaValue) : Except EncodeError Message :=
  match o with
  | .table t => encodeFields t [] (pool ty) []
  | _ => .error .notTable
termination_by (sizeOf o, 0)

/-- The loop of `encodeDescriptor`, with the fields before and behind the current one. -/
def encodeFields (t : LuaTable) (before : List FieldDescriptor) (fields : List FieldDescriptor)
    (m : Message) : Except EncodeError Message :=
  match fields with
  | [] => .ok m
  | field :: behind => do
    let values ← encodeField t field
    encodeFields t (before ++ [field]) behind (store before m field values)
termination_by (sizeOf t, fields.length + 2)

/-- `encodeField`: the values that it sets or adds. -/
def encodeField (t : LuaTable) (field : FieldDescriptor) : Except EncodeError (List PValue) :=
  if field.isRepeated then
    match _h : gettable t (.string field.name) with
    | .table elements => encodeFieldRepeated field.cppType (lua.next elements)
    | _ => .ok []
  else
    match _h : gettable t (.string field.name) with
    | .nil => .ok []
    | v => do return [← encodeValue field.cppType v]
termination_by (sizeOf t, 2)
decreasing_by
  · have hs := sizeOf_gettable_le t (.string field.name)
    rw [_h] at hs
    simp only [LuaValue.table.sizeOf_spec] at hs
    rw [sizeOf_perm (lua.next_perm elements)]
    exact Prod.Lex.left _ _ (by omega)
  · have hs := sizeOf_gettable_le t (.string field.name)
    rw [_h] at hs
    rcases Nat.lt_or_eq_of_le hs with hlt | heq
    · exact Prod.Lex.left _ _ hlt
    · rw [heq]
      exact Prod.Lex.right _ (by omega)

/-- The values of a table, in the order of `lua_next`. -/
def encodeFieldRepeated (type : CppType) (elements : LuaTable) :
    Except EncodeError (List PValue) :=
  match elements with
  | [] => .ok []
  | (_, v) :: elements =>
    if v.isNil then encodeFieldRepeated type elements
    else do
      let value ← encodeValue type v
      let values ← encodeFieldRepeated type elements
      return value :: values
termination_by (sizeOf elements, 0)

def encodeValue (type : CppType) (v : LuaValue) : Except EncodeError PValue :=
  match type with
  | .message ty => do return .message (← encodeDescriptor ty v)
  | _ => do return .scalar (← readScalar lua type v)
termination_by (sizeOf v, 1)

end

theorem bind_ok_iff {α β : Type} {x : Except EncodeError α} {f : α → Except EncodeError β}
    {r : β} : (x >>= f) = .ok r ↔ ∃ a, x = .ok a ∧ f a = .ok r := by
  cases x with
  | error e => simp [bind, Except.bind]
  | ok a => simp [bind, Except.bind]

variable {lua : Lua} {pool : DescriptorPool} {t : LuaTable} {field : FieldDescriptor}

theorem encodeField_repeated (hr : field.isRepeated = true) {elements : LuaTable}
    (hget : gettable t (.string field.name) = .table elements) :
    encodeField lua pool t field = encodeFieldRepeated lua pool field.cppType (lua.next elements) := by
  rw [encodeField, if_pos hr]
  split
  next h => rw [LuaValue.table.inj (hget.symm.trans h)]
  next h => exact absurd hget (h elements)

theorem encodeField_noTable (hr : field.isRepeated = true)
    (hget : ∀ elements, gettable t (.string field.name) ≠ .table elements) :
    encodeField lua pool t field = .ok [] := by
  rw [encodeField, if_pos hr]
  split
  next h => exact absurd h (hget _)
  next => rfl

theorem encodeField_unset (hr : field.isRepeated = false)
    (hget : gettable t (.string field.name) = .nil) : encodeField lua pool t field = .ok [] := by
  rw [encodeField, if_neg (by simp [hr])]
  split
  next => rfl
  next h => exact absurd hget h

theorem encodeField_set (hr : field.isRepeated = false)
    (hget : gettable t (.string field.name) ≠ .nil) :
    encodeField lua pool t field =
      (do return [← encodeValue lua pool field.cppType (gettable t (.string field.name))]) := by
  rw [encodeField, if_neg (by simp [hr])]
  split
  next h => exact absurd h hget
  next => rfl

end

end Tnode
