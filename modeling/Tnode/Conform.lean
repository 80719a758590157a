import Tnode.RoundTrip

namespace Tnode

def LuaValue.IsInteger (v : LuaValue) (n : Int) : Prop :=
  ∃ h : binary64.Representable n, v = .number (.finite n h)

/-- A Lua value in the range of a scalar type. -/
def ScalarConforms (type : CppType) (v : LuaValue) : Prop :=
  match type with
  | .int32 => ∃ n, (-2 ^ 31 ≤ n ∧ n < 2 ^ 31) ∧ v.IsInteger n
  | .int64 => ∃ n, (-2 ^ 53 ≤ n ∧ n ≤ 2 ^ 53) ∧ v.IsInteger n
  | .uint32 => ∃ n, (0 ≤ n ∧ n < 2 ^ 32) ∧ v.IsInteger n
  | .uint64 => ∃ n, (0 ≤ n ∧ n ≤ 2 ^ 53) ∧ v.IsInteger n
  | .double => ∃ x, v = .number x
  | .float => ∃ x : Single, v = .number (x.convert binary64)
  | .bool => ∃ b, v = .boolean b
  | .enum declared => ∃ n, ((-2 ^ 31 ≤ n ∧ n < 2 ^ 31) ∧
      ∀ values, declared = some values → n ∈ values) ∧ v.IsInteger n
  | .string => ∃ s, 0 ∉ s ∧ v = .string s
  | .message _ => False

def LuaValue.isDefault : LuaValue → Bool
  | .number x => x = .finite 0 binary64.representable_zero ∨ x = .negZero
  | .string s => s.isEmpty
  | .boolean b => !b
  | _ => false

variable (pool : DescriptorPool)

mutual

/-- A table that conforms to a message type: its keys are names of fields, each field
conforms, and at most one field of each oneof is set. -/
inductive Conforms : Nat → LuaTable → Prop
  | intro {ty : Nat} {t : LuaTable}
      (keys : ∀ k, (∀ field ∈ pool ty, k ≠ .string field.name) → gettable t k = .nil)
      (fields : ∀ field ∈ pool ty, FieldConforms field (gettable t (.string field.name)))
      (oneofs : (pool ty).Pairwise fun a b => a.oneof ≠ none → a.oneof = b.oneof →
        gettable t (.string a.name) = .nil ∨ gettable t (.string b.name) = .nil) :
      Conforms ty t

/-- What a field can hold: nothing, a value, which is not the default for a field without
presence, or a sequence of values that is not empty. -/
inductive FieldConforms : FieldDescriptor → LuaValue → Prop
  | absent {field : FieldDescriptor} : FieldConforms field .nil
  | singular {field : FieldDescriptor} {v : LuaValue} (single : field.isRepeated = false)
      (value : ValueConforms field.cppType v)
      (default : field.hasPresence = false → v.isDefault = false) : FieldConforms field v
  | repeated {field : FieldDescriptor} {t : LuaTable} {values : List LuaValue}
      (many : field.isRepeated = true) (sequence : t.Perm (numbered 1 values))
      (nonempty : values ≠ []) (bound : values.length < 2 ^ 31)
      (value : ∀ v ∈ values, ValueConforms field.cppType v) : FieldConforms field (.table t)

inductive ValueConforms : CppType → LuaValue → Prop
  | scalar {type : CppType} {v : LuaValue} (conforms : ScalarConforms type v) :
      ValueConforms type v
  | message {ty : Nat} {t : LuaTable} (conforms : Conforms ty t) :
      ValueConforms (.message ty) (.table t)

end

mutual

/-- Equality of tables up to empty tables for absent repeated fields. -/
inductive Agrees : Nat → LuaTable → LuaTable → Prop
  | intro {ty : Nat} {t u : LuaTable}
      (keys : ∀ k, (∀ field ∈ pool ty, k ≠ .string field.name) → gettable t k = gettable u k)
      (fields : ∀ field ∈ pool ty,
        FieldAgrees field (gettable t (.string field.name)) (gettable u (.string field.name))) :
      Agrees ty t u

inductive FieldAgrees : FieldDescriptor → LuaValue → LuaValue → Prop
  | same {field : FieldDescriptor} {v : LuaValue} : FieldAgrees field v v
  | absent {field : FieldDescriptor} (many : field.isRepeated = true) :
      FieldAgrees field (.table []) .nil
  | singular {field : FieldDescriptor} {v w : LuaValue} (single : field.isRepeated = false)
      (value : ValueAgrees field.cppType v w) : FieldAgrees field v w
  | repeated {field : FieldDescriptor} {t u : LuaTable} (many : field.isRepeated = true)
      (value : ∀ k, ValueAgrees field.cppType (gettable t k) (gettable u k)) :
      FieldAgrees field (.table t) (.table u)

inductive ValueAgrees : CppType → LuaValue → LuaValue → Prop
  | same {type : CppType} {v : LuaValue} : ValueAgrees type v v
  | message {ty : Nat} {t u : LuaTable} (agrees : Agrees ty t u) :
      ValueAgrees (.message ty) (.table t) (.table u)

end

/-- A table in which a repeated field is set, at some depth below singular fields. -/
inductive HasRepeated : Nat → LuaTable → Prop
  | here {ty : Nat} {t : LuaTable} {field : FieldDescriptor} (mem : field ∈ pool ty)
      (many : field.isRepeated = true) (set : gettable t (.string field.name) ≠ .nil) :
      HasRepeated ty t
  | inside {ty ty' : Nat} {t u : LuaTable} {field : FieldDescriptor} (mem : field ∈ pool ty)
      (single : field.isRepeated = false) (type : field.cppType = .message ty')
      (sub : gettable t (.string field.name) = .table u) (inner : HasRepeated ty' u) :
      HasRepeated ty t

/-- A value with no repeated field set in it. -/
def PlainValue (type : CppType) (v : LuaValue) : Prop :=
  ∀ ty t, type = .message ty → v = .table t → ¬HasRepeated pool ty t

def PlainField (field : FieldDescriptor) (v : LuaValue) : Prop :=
  (field.isRepeated = true → v = .nil) ∧
    (field.isRepeated = false → PlainValue pool field.cppType v)

variable {pool}

theorem not_hasRepeated_iff {ty : Nat} {t : LuaTable} :
    ¬HasRepeated pool ty t ↔
      ∀ field ∈ pool ty, PlainField pool field (gettable t (.string field.name)) := by
  constructor
  · intro h field hf
    refine ⟨fun hr => ?_, fun hs ty' u htype hsub hinner => ?_⟩
    · by_contra hset
      exact h (.here hf hr hset)
    · exact h (.inside hf hs htype hsub hinner)
  · intro h hrep
    cases hrep with
    | here hf hr hset => exact hset ((h _ hf).1 hr)
    | inside hf hs htype hsub hinner => exact (h _ hf).2 hs _ _ htype hsub hinner

theorem plainValue_table {ty : Nat} {t : LuaTable} :
    PlainValue pool (.message ty) (.table t) ↔ ¬HasRepeated pool ty t := by
  constructor
  · intro h
    exact h ty t rfl rfl
  · rintro h _ _ ⟨⟩ ⟨⟩
    exact h

theorem Agrees.refl (ty : Nat) (t : LuaTable) : Agrees pool ty t t :=
  .intro (fun _ _ => rfl) fun _ _ => .same

theorem agrees_iff {ty : Nat} {t u : LuaTable} : Agrees pool ty t u ↔
    (∀ k, (∀ field ∈ pool ty, k ≠ .string field.name) → gettable t k = gettable u k) ∧
      ∀ field ∈ pool ty, FieldAgrees pool field (gettable t (.string field.name))
        (gettable u (.string field.name)) := by
  constructor
  · rintro ⟨hkeys, hfields⟩
    exact ⟨hkeys, hfields⟩
  · rintro ⟨hkeys, hfields⟩
    exact .intro hkeys hfields

theorem valueAgrees_table {ty : Nat} {t u : LuaTable} :
    ValueAgrees pool (.message ty) (.table t) (.table u) ↔ Agrees pool ty t u := by
  constructor
  · intro h
    cases h with
    | same => exact Agrees.refl ty t
    | message h => exact h
  · exact .message

theorem fieldAgrees_singular {field : FieldDescriptor} (hs : field.isRepeated = false)
    {v w : LuaValue} : FieldAgrees pool field v w ↔ ValueAgrees pool field.cppType v w := by
  constructor
  · intro h
    cases h with
    | same => exact .same
    | absent hr => simp [hs] at hr
    | singular _ h => exact h
    | repeated hr _ => simp [hs] at hr
  · exact .singular hs

theorem fieldAgrees_repeated {field : FieldDescriptor} (hr : field.isRepeated = true)
    {t u : LuaTable} : FieldAgrees pool field (.table t) (.table u) ↔
      ∀ k, ValueAgrees pool field.cppType (gettable t k) (gettable u k) := by
  constructor
  · intro h
    cases h with
    | same => exact fun _ => .same
    | singular hs _ => simp [hr] at hs
    | repeated _ h => exact h
  · exact .repeated hr

theorem ValueAgrees.nil_iff {type : CppType} {v : LuaValue} :
    ValueAgrees pool type .nil v ↔ v = .nil := by
  constructor
  · intro h
    cases h
    rfl
  · rintro rfl
    exact .same

end Tnode
