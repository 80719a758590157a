import Tnode.Lua
import Mathlib.Tactic.MkIffOfInductiveProp

namespace Tnode

/-- `FieldDescriptor::cpp_type()`. A closed enum lists its declared values, the default of the field
first; `message` names the type of the submessage. -/
inductive CppType
  | int32
  | int64
  | uint32
  | uint64
  | double
  | float
  | bool
  | enum (declared : Option (List Int))
  | string
  | message (message_type : Nat)

/-- `FieldDescriptor`. Without `hasPresence` a field that holds its default counts as not
set. -/
structure FieldDescriptor where
  name : List Byte
  cppType : CppType
  isRepeated : Bool
  hasPresence : Bool
  oneof : Option Nat

/-- The fields of each message type, in the order of `Descriptor::field(i)`. -/
abbrev DescriptorPool := Nat → List FieldDescriptor

inductive Scalar
  | int32 (v : Int)
  | int64 (v : Int)
  | uint32 (v : Int)
  | uint64 (v : Int)
  | double (v : Double)
  | float (v : Single)
  | bool (v : Bool)
  | enum (v : Int)
  | string (v : List Byte)
deriving DecidableEq

inductive PValue
  | scalar (s : Scalar)
  | message (fields : List (List PValue))

instance : Inhabited PValue := ⟨.message []⟩

/-- A message holds for each field of its descriptor a list of values: none for a field that
is not set, one for a singular field that is, and the elements of a repeated field. -/
abbrev Message := List (List PValue)

def Scalar.isDefault : Scalar → Bool
  | .int32 v | .int64 v | .uint32 v | .uint64 v | .enum v => v = 0
  | .double v => v = .finite 0 binary64.representable_zero ∨ v = .negZero
  | .float v => v = .finite 0 binary32.representable_zero ∨ v = .negZero
  | .bool v => !v
  | .string v => v.isEmpty

def PValue.isDefault : PValue → Bool
  | .scalar s => s.isDefault
  | .message _ => false

/-- A value of the field's C++ type; a closed enum holds declared values only. -/
def Scalar.Of : CppType → Scalar → Prop
  | .int32, .int32 v => -2 ^ 31 ≤ v ∧ v < 2 ^ 31
  | .int64, .int64 v => -2 ^ 63 ≤ v ∧ v < 2 ^ 63
  | .uint32, .uint32 v => 0 ≤ v ∧ v < 2 ^ 32
  | .uint64, .uint64 v => 0 ≤ v ∧ v < 2 ^ 64
  | .double, .double _ => True
  | .float, .float _ => True
  | .bool, .bool _ => True
  | .enum declared, .enum v =>
    (-2 ^ 31 ≤ v ∧ v < 2 ^ 31) ∧ ∀ values, declared = some values → v ∈ values
  | .string, .string _ => True
  | _, _ => False

def OneofsExclusive (fields : List FieldDescriptor) (m : Message) : Prop :=
  (fields.zip m).Pairwise fun a b => a.1.oneof ≠ none → a.1.oneof = b.1.oneof → a.2 = [] ∨ b.2 = []

@[mk_iff]
structure FieldHolds (field : FieldDescriptor) (values : List PValue) : Prop where
  repeated : field.isRepeated = true → values.length < 2 ^ 31
  singular : field.isRepeated = false → values.length ≤ 1
  presence : field.isRepeated = false → field.hasPresence = false →
    ∀ x ∈ values, x.isDefault = false

mutual

def PValue.Of (pool : DescriptorPool) (type : CppType) : PValue → Prop
  | .scalar s => s.Of type
  | .message m => ∃ ty, type = .message ty ∧ Message.Fields pool (pool ty) m ∧
      OneofsExclusive (pool ty) m

def PValue.AllOf (pool : DescriptorPool) (type : CppType) : List PValue → Prop
  | [] => True
  | x :: xs => x.Of pool type ∧ PValue.AllOf pool type xs

def Message.Fields (pool : DescriptorPool) : List FieldDescriptor → List (List PValue) → Prop
  | [], [] => True
  | field :: fields, values :: m =>
    FieldHolds field values ∧ PValue.AllOf pool field.cppType values ∧
      Message.Fields pool fields m
  | _, _ => False

end

/-- A message of a type, without unknown fields. -/
def Message.Of (pool : DescriptorPool) (ty : Nat) (m : Message) : Prop :=
  Message.Fields pool (pool ty) m ∧ OneofsExclusive (pool ty) m

/-- What the protobuf compiler accepts: field names of a type are distinct, a repeated field
is in no oneof, and a field of a oneof has presence. -/
structure DescriptorPool.WellFormed (pool : DescriptorPool) : Prop where
  names : ∀ ty, ((pool ty).map FieldDescriptor.name).Nodup
  repeated : ∀ ty, ∀ field ∈ pool ty, field.isRepeated = true → field.oneof = none
  oneof : ∀ ty, ∀ field ∈ pool ty, field.oneof ≠ none → field.hasPresence = true

def bytes (s : String) : List Byte := s.toUTF8.data.toList

/-- `protocol/AddressBook.proto`: an address book, a person and a phone number. -/
def addressBook : DescriptorPool
  | 0 => [⟨bytes "people", .message 1, true, false, none⟩]
  | 1 =>
    [⟨bytes "name", .string, false, false, none⟩, ⟨bytes "id", .int32, false, false, none⟩,
      ⟨bytes "email", .string, false, false, none⟩, ⟨bytes "phones", .message 2, true, false, none⟩]
  | 2 =>
    [⟨bytes "number", .string, false, false, none⟩, ⟨bytes "type", .enum none, false, false, none⟩]
  | _ => []

theorem addressBook_wellFormed : addressBook.WellFormed where
  names := by
    intro ty
    match ty with
    | 0 | 1 | 2 => decide
    | _ + 3 => exact List.nodup_nil
  repeated := by
    intro ty
    match ty with
    | 0 | 1 | 2 => simp [addressBook]
    | _ + 3 => simp [addressBook]
  oneof := by
    intro ty
    match ty with
    | 0 | 1 | 2 => simp [addressBook]
    | _ + 3 => simp [addressBook]

end Tnode
