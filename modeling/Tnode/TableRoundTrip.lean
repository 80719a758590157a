import Tnode.Conform

namespace Tnode

open FloatFormat

theorem LuaValue.IsInteger.pushinteger_eq {v : LuaValue} {n : Int} (h : v.IsInteger n)
    (hn : -2 ^ 63 ≤ n ∧ n < 2 ^ 63) : pushinteger n = v := by
  obtain ⟨hr, rfl⟩ := h
  exact pushinteger_of_representable hn hr

theorem LuaValue.IsInteger.isDefault {v : LuaValue} {n : Int} (h : v.IsInteger n)
    (hn : decide (n = 0) = true) : v.isDefault = true := by
  obtain ⟨hr, rfl⟩ := h
  have hzero := of_decide_eq_true hn
  subst hzero
  simp [LuaValue.isDefault]

theorem isDefault_convert {x : Single} (h : (Scalar.float x).isDefault = true) :
    (LuaValue.number (x.convert binary64)).isDefault = true := by
  simp only [Scalar.isDefault, Bool.decide_or, Bool.or_eq_true, decide_eq_true_eq] at h
  rcases h with rfl | rfl
  · have hzero := Format.round_of_representable binary64.representable_zero
    simp [LuaValue.isDefault, Value.convert, hzero]
  · simp [LuaValue.isDefault, Value.convert]

/-- A conforming value is what the decoder pushes for some scalar that a Lua value can carry. -/
theorem ScalarConforms.pushed {type : CppType} {v : LuaValue} (h : ScalarConforms type v) :
    ∃ s : Scalar, s.Of type ∧ s.Survives ∧ pushScalar s = v ∧
      (s.isDefault = true → v.isDefault = true) := by
  cases type with
  | int32 =>
    obtain ⟨n, hn, hv⟩ := h
    exact ⟨.int32 n, hn, trivial, hv.pushinteger_eq (by omega), hv.isDefault⟩
  | int64 =>
    obtain ⟨n, hn, hv⟩ := h
    have hr : binary64.Representable n := hv.1
    have hof : (Scalar.int64 n).Of .int64 := ⟨by omega, by omega⟩
    exact ⟨.int64 n, hof, hr, hv.pushinteger_eq hof, hv.isDefault⟩
  | uint32 =>
    obtain ⟨n, hn, hv⟩ := h
    exact ⟨.uint32 n, hn, trivial, hv.pushinteger_eq (by omega), hv.isDefault⟩
  | uint64 =>
    obtain ⟨n, hn, hv⟩ := h
    have hr : binary64.Representable n := hv.1
    have hbmod : n.bmod (2 ^ 64) = n := bmod_of_int64 (by omega)
    have hsurvives : (Scalar.uint64 n).Survives := by
      rw [Scalar.Survives, hbmod]
      exact hr
    have hof : (Scalar.uint64 n).Of .uint64 := ⟨by omega, by omega⟩
    exact ⟨.uint64 n, hof, hsurvives, hv.pushinteger_eq (by omega), hv.isDefault⟩
  | double =>
    obtain ⟨x, rfl⟩ := h
    exact ⟨.double x, trivial, trivial, rfl, id⟩
  | float =>
    obtain ⟨x, rfl⟩ := h
    exact ⟨.float x, trivial, trivial, rfl, isDefault_convert⟩
  | bool =>
    obtain ⟨b, rfl⟩ := h
    exact ⟨.bool b, trivial, trivial, rfl, id⟩
  | enum declared =>
    obtain ⟨n, hn, hv⟩ := h
    exact ⟨.enum n, hn, trivial, hv.pushinteger_eq (by omega), hv.isDefault⟩
  | string =>
    obtain ⟨s, hs, rfl⟩ := h
    have hpush : pushScalar (.string s) = .string s := by
      rw [pushScalar, pushstring, cstr_eq_self_iff.mpr hs]
    exact ⟨.string s, trivial, hs, hpush, id⟩
  | message ty => exact h.elim

theorem ScalarConforms.not_message {type : CppType} {v : LuaValue} (h : ScalarConforms type v) :
    ∀ ty, type ≠ .message ty := by
  rintro ty rfl
  exact h

variable {lua : Lua} {pool : DescriptorPool}

def ComesBackPlain (lua : Lua) (pool : DescriptorPool) (type : CppType) (v : LuaValue) : Prop :=
  ∃ x, encodeValue lua pool type v = .ok x ∧ x.Of pool type ∧
    (x.isDefault = true → v.isDefault = true) ∧
    (ValueAgrees pool type (decodeValue pool type x) v ↔ PlainValue pool type v)

theorem comesBackPlain_scalar {type : CppType} {v : LuaValue} (h : ScalarConforms type v) :
    ComesBackPlain lua pool type v := by
  obtain ⟨s, hof, hsurvives, rfl, hdefault⟩ := h.pushed
  have hread := (readScalar_pushScalar_iff lua hof).mpr hsurvives
  have hplain : PlainValue pool type (pushScalar s) := fun ty _ hty => absurd hty (h.not_message ty)
  refine ⟨.scalar s, (encodeValue_scalar_iff h.not_message _ s).mpr hread, hof, hdefault, ?_⟩
  rw [decodeValue]
  exact iff_of_true .same hplain

theorem ValueConforms.not_nil {type : CppType} {v : LuaValue} (h : ValueConforms pool type v) :
    v.isNil = false := by
  cases h with
  | scalar h =>
    obtain ⟨s, _, _, rfl, _⟩ := h.pushed
    exact pushScalar_not_nil s
  | message h => rfl

theorem LuaValue.ne_nil {v : LuaValue} (h : v.isNil = false) : v ≠ .nil := by
  rintro rfl
  cases h

/-- The last key of a sequence is not one of those that the decoder writes. -/
theorem not_valueAgrees_last {type : CppType} {t : LuaTable} {values decoded : List LuaValue}
    (hperm : t.Perm (numbered 1 values)) (hne : values ≠ []) (hlen : values.length < 2 ^ 31)
    (hnil : ∀ v ∈ values, v.isNil = false) (hdecoded : decoded.length = values.length) :
    ¬ValueAgrees pool type (gettable (numbered 0 decoded) (.number (ofInteger values.length)))
      (gettable t (.number (ofInteger values.length))) := by
  have hpos := List.length_pos_iff.mpr hne
  have hfresh := @numbered_fresh decoded 0 values.length (by omega) (by omega)
  obtain ⟨e, he, hk⟩ := @key_mem_numbered 1 values.length values (by omega) (by omega)
  have hentries : ∀ e ∈ t, e.2.isNil = false := by
    intro e he
    have hmem := List.mem_map_of_mem (f := Prod.snd) (hperm.mem_iff.mp he)
    rw [map_snd_numbered] at hmem
    exact hnil _ hmem
  have hset := gettable_not_nil ⟨e, hperm.mem_iff.mpr he, hk⟩ hentries
  rw [gettable_fresh hfresh, ValueAgrees.nil_iff]
  exact LuaValue.ne_nil hset

/-- The field encodes, and it agrees with what it decodes to exactly when no repeated field is
set in it. -/
def FieldComesBackPlain (lua : Lua) (pool : DescriptorPool) (t : LuaTable)
    (field : FieldDescriptor) : Prop :=
  ∃ values, encodeField lua pool t field = .ok values ∧ FieldHolds field values ∧
    (∀ x ∈ values, x.Of pool field.cppType) ∧
    (gettable t (.string field.name) = .nil → values = []) ∧
    (FieldAgrees pool field (decodedField pool field values) (gettable t (.string field.name)) ↔
      PlainField pool field (gettable t (.string field.name)))

section Fields

variable {field : FieldDescriptor} {t : LuaTable}

theorem fieldComesBackPlain_absent (hget : gettable t (.string field.name) = .nil) :
    FieldComesBackPlain lua pool t field := by
  have hempty : FieldHolds field [] := (fieldHolds_iff field []).mpr (by simp)
  cases hr : field.isRepeated with
  | true =>
    have hplain : PlainField pool field .nil := ⟨fun _ => rfl, fun hs => by simp [hr] at hs⟩
    refine ⟨[], encodeField_noTable hr (by simp [hget]), hempty, by simp, fun _ => rfl, ?_⟩
    rw [decodedField_repeated hr hempty (by simp), hget]
    exact iff_of_true (.absent hr) hplain
  | false =>
    have hplain : PlainField pool field .nil :=
      ⟨fun _ => rfl, fun _ _ _ _ htable => by cases htable⟩
    refine ⟨[], encodeField_unset hr hget, hempty, by simp, fun _ => rfl, ?_⟩
    rw [decodedField, if_neg (by simp [hr]), decodeFieldSimple, hget]
    exact iff_of_true .same hplain

theorem fieldComesBackPlain_singular {v : LuaValue} (hs : field.isRepeated = false)
    (hget : gettable t (.string field.name) = v) (hnil : v.isNil = false)
    (hdefault : field.hasPresence = false → v.isDefault = false)
    (hback : ComesBackPlain lua pool field.cppType v) : FieldComesBackPlain lua pool t field := by
  obtain ⟨x, hencode, hof, hdef, hagree⟩ := hback
  have hne := LuaValue.ne_nil hnil
  have hholds : FieldHolds field [x] := by
    refine ⟨by simp [hs], by simp, fun _ hp y hy => ?_⟩
    rw [List.mem_singleton.mp hy]
    by_contra hx
    have hv := hdef (by simpa using hx)
    rw [hdefault hp] at hv
    cases hv
  have hplain : PlainField pool field v ↔ PlainValue pool field.cppType v := by
    simp [PlainField, hs]
  refine ⟨[x], ?_, hholds, by simpa using hof, fun hv => absurd (hget.symm.trans hv) hne, ?_⟩
  · rw [encodeField_singleton_iff hs (by rwa [hget]), hget]
    exact hencode
  · rw [decodedField, if_neg (by simp [hs]), decodeFieldSimple, hget, fieldAgrees_singular hs,
      hplain]
    exact hagree

theorem fieldComesBackPlain_repeated {elements : LuaTable} {values : List LuaValue}
    (hlua : lua.Ascending) (hr : field.isRepeated = true)
    (hget : gettable t (.string field.name) = .table elements)
    (hperm : elements.Perm (numbered 1 values)) (hnonempty : values ≠ [])
    (hbound : values.length < 2 ^ 31) (hnil : ∀ v ∈ values, v.isNil = false)
    (hback : ∀ v ∈ values, ComesBackPlain lua pool field.cppType v) :
    FieldComesBackPlain lua pool t field := by
  have hnext := hlua elements values (by omega) hperm
  have hencode : ∀ v ∈ values, ∃ x, encodeValue lua pool field.cppType v = .ok x ∧
      x.Of pool field.cppType := by
    intro v hv
    obtain ⟨x, hx, hof, _⟩ := hback v hv
    exact ⟨x, hx, hof⟩
  choose! encoded hencoded using hencode
  have hof : ∀ x ∈ values.map encoded, x.Of pool field.cppType := by
    intro x hx
    obtain ⟨v, hv, rfl⟩ := List.mem_map.mp hx
    exact (hencoded v hv).2
  have hholds : FieldHolds field (values.map encoded) :=
    ⟨fun _ => by rwa [List.length_map], by simp [hr], by simp [hr]⟩
  have hplain : ¬PlainField pool field (.table elements) := fun h => by cases h.1 hr
  refine ⟨values.map encoded, ?_, hholds, hof, fun h => (by cases hget.symm.trans h), ?_⟩
  · rw [encodeField_repeated hr hget, hnext, encodeFieldRepeated_ok_iff, map_snd_numbered,
      List.forall₂_map_right_iff, List.forall₂_same]
    · exact fun v hv => (hencoded v hv).1
    · rw [map_snd_numbered]
      exact hnil
  · rw [decodedField_repeated hr hholds hof, hget, fieldAgrees_repeated hr]
    refine iff_of_false (fun h => ?_) hplain
    exact not_valueAgrees_last hperm hnonempty hbound hnil (by simp) (h _)

theorem field_comesBack (hlua : lua.Ascending)
    (hfield : FieldConforms pool field (gettable t (.string field.name)))
    (ih : ∀ v : LuaValue, sizeOf v ≤ sizeOf t → ∀ type, ValueConforms pool type v →
      ComesBackPlain lua pool type v) : FieldComesBackPlain lua pool t field := by
  have hsize := sizeOf_gettable_le t (.string field.name)
  generalize hget : gettable t (.string field.name) = v at hfield hsize
  cases hfield with
  | absent => exact fieldComesBackPlain_absent hget
  | singular hs hvalue hdefault =>
    exact fieldComesBackPlain_singular hs hget hvalue.not_nil hdefault (ih v hsize _ hvalue)
  | @repeated _ elements values hr hperm hnonempty hbound hvalue =>
    have hnil : ∀ v ∈ values, v.isNil = false := fun v hv => (hvalue v hv).not_nil
    refine fieldComesBackPlain_repeated hlua hr hget hperm hnonempty hbound hnil fun v hv => ?_
    have hlt := sizeOf_lt_numbered hv 1
    rw [← sizeOf_perm hperm] at hlt
    rw [LuaValue.table.sizeOf_spec] at hsize
    exact ih v (by omega) _ (hvalue v hv)

end Fields

theorem table_comesBack (hpool : pool.WellFormed) (hlua : lua.Ascending) {ty : Nat} {t : LuaTable}
    (ht : Conforms pool ty t)
    (ih : ∀ v : LuaValue, sizeOf v ≤ sizeOf t → ∀ type, ValueConforms pool type v →
      ComesBackPlain lua pool type v) :
    ∃ m, encodeDescriptor lua pool ty (.table t) = .ok m ∧ Message.Of pool ty m ∧
      (Agrees pool ty (decodeDescriptor pool (pool ty) m []) t ↔ ¬HasRepeated pool ty t) := by
  obtain ⟨hkeys, hfields, honeofs⟩ := ht
  have hback : ∀ field ∈ pool ty, FieldComesBackPlain lua pool t field :=
    fun field hf => field_comesBack hlua (hfields field hf) ih
  choose! encoded hencode hholds hof habsent hagree using hback
  have hzip : (pool ty).zip ((pool ty).map encoded) =
      (pool ty).map fun field => (field, encoded field) := by
    have h : ((pool ty).map id).zip ((pool ty).map encoded) =
        (pool ty).map fun field => (id field, encoded field) := List.zip_map'
    simpa only [List.map_id, id] using h
  have hex : OneofsExclusive (pool ty) ((pool ty).map encoded) := by
    rw [OneofsExclusive, hzip, List.pairwise_map]
    refine honeofs.imp_of_mem fun ha hb hone hne heq => ?_
    rcases hone hne heq with hnil | hnil
    · exact Or.inl (habsent _ ha hnil)
    · exact Or.inr (habsent _ hb hnil)
  have hm : Message.Of pool ty ((pool ty).map encoded) := by
    refine ⟨Message.fields_iff.mpr ⟨by simp, ?_⟩, hex⟩
    rw [hzip, List.forall_mem_map]
    exact fun field hf => ⟨hholds field hf, hof field hf⟩
  refine ⟨(pool ty).map encoded, ?_, hm, ?_⟩
  · have hiff := @encodeFields_ok_iff lua pool t [] (pool ty) [] ((pool ty).map encoded) rfl
      (by simp) hex
    rw [hzip, List.forall_mem_map, List.forall_mem_map, List.forall_mem_map] at hiff
    rw [encodeDescriptor]
    refine (hiff hholds fun field hf hnil => ?_).mpr hencode
    rw [hencode field hf]
    exact congrArg _ hnil
  · have hget := @gettable_decodeDescriptor pool (pool ty) (hpool.names ty)
      ((pool ty).map encoded) [] (by simp [Fresh])
    rw [hzip, List.forall_mem_map] at hget
    have hother : ∀ k, (∀ field ∈ pool ty, k ≠ .string field.name) →
        gettable (decodeDescriptor pool (pool ty) ((pool ty).map encoded) []) k = gettable t k := by
      intro k hk
      rw [gettable_decodeDescriptor_other hk, hkeys k hk, gettable]
    rw [agrees_iff, not_hasRepeated_iff, and_iff_right hother]
    refine forall₂_congr fun field hf => ?_
    rw [hget field hf]
    exact hagree field hf

theorem comesBackPlain (hpool : pool.WellFormed) (hlua : lua.Ascending) (n : Nat) :
    ∀ v : LuaValue, sizeOf v ≤ n → ∀ type, ValueConforms pool type v →
      ComesBackPlain lua pool type v := by
  induction n with
  | zero =>
    intro v hv
    cases v <;> simp at hv
  | succ n ih =>
    intro v hv type hconforms
    cases hconforms with
    | scalar h => exact comesBackPlain_scalar h
    | @message ty t h =>
      rw [LuaValue.table.sizeOf_spec] at hv
      obtain ⟨m, hencode, hm, hagree⟩ :=
        table_comesBack hpool hlua h fun v hlt => ih v (by omega)
      refine ⟨.message m, (encodeValue_message_iff ty _ m).mpr hencode, ⟨ty, rfl, hm⟩, ?_, ?_⟩
      · intro hdefault
        cases hdefault
      · rw [decodeValue, valueAgrees_table, plainValue_table]
        exact hagree

/-- A conforming table comes back, up to empty tables for absent repeated fields, exactly when
no repeated field is set in it: the keys of the others come back one too small. -/
theorem decodeDescriptor_encodeDescriptor_iff (hpool : pool.WellFormed) (hlua : lua.Ascending)
    {ty : Nat} {t : LuaTable} (ht : Conforms pool ty t) :
    (∃ m, encodeDescriptor lua pool ty (.table t) = .ok m ∧
      Agrees pool ty (decodeDescriptor pool (pool ty) m []) t) ↔ ¬HasRepeated pool ty t := by
  obtain ⟨m, hencode, _, hagree⟩ :=
    table_comesBack hpool hlua ht (comesBackPlain hpool hlua (sizeOf t))
  rw [← hagree]
  constructor
  · rintro ⟨m', hencode', hagree'⟩
    rw [hencode] at hencode'
    rwa [Except.ok.inj hencode']
  · intro h
    exact ⟨m, hencode, h⟩

def personTable : LuaTable :=
  [(.string (bytes "name"), .string (bytes "hushouguo")), (.string (bytes "id"), pushinteger 1)]

def peopleTable : LuaTable :=
  [(.string (bytes "people"), .table (numbered 1 [.table personTable]))]

theorem personTable_conforms : Conforms addressBook 1 personTable := by
  have hone : (pushinteger 1).IsInteger 1 :=
    ⟨representable_of_small (by decide), pushinteger_of_representable (by decide) _⟩
  have hset : (pushinteger 1).isDefault = false := by
    obtain ⟨_, hone⟩ := hone
    simp [hone, LuaValue.isDefault]
  refine .intro (fun k hk => ?_) (fun field hf => ?_) (by simp [addressBook])
  · have hname := hk _ (List.mem_cons_self)
    have hid := hk _ (List.mem_cons_of_mem _ List.mem_cons_self)
    simp [personTable, gettable, hname.symm, hid.symm]
  · simp only [addressBook, List.mem_cons, List.not_mem_nil, or_false] at hf
    rcases hf with rfl | rfl | rfl | rfl
    · exact .singular rfl (.scalar ⟨bytes "hushouguo", by decide, rfl⟩) fun _ => by decide
    · exact .singular rfl (.scalar ⟨1, by decide, hone⟩) fun _ => hset
    · exact .absent
    · exact .absent

theorem peopleTable_conforms : Conforms addressBook 0 peopleTable := by
  refine .intro (fun k hk => ?_) (fun field hf => ?_) (by simp [addressBook])
  · have hpeople := hk _ List.mem_cons_self
    simp [peopleTable, gettable, hpeople.symm]
  · simp only [addressBook, List.mem_cons, List.not_mem_nil, or_false] at hf
    subst hf
    exact .repeated rfl (List.Perm.refl _) (by simp) (by simp)
      (by simpa using .message personTable_conforms)

theorem personTable_comes_back :
    ∃ m, encodeDescriptor sortingLua addressBook 1 (.table personTable) = .ok m ∧
      Agrees addressBook 1 (decodeDescriptor addressBook (addressBook 1) m []) personTable := by
  refine (decodeDescriptor_encodeDescriptor_iff addressBook_wellFormed sortingLua_ascending
    personTable_conforms).mpr ?_
  have hphones : gettable personTable (.string (bytes "phones")) = .nil := rfl
  rw [not_hasRepeated_iff]
  simp [addressBook, PlainField, PlainValue, hphones]

theorem peopleTable_renumbered : Conforms addressBook 0 peopleTable ∧
    ∃ m, encodeDescriptor sortingLua addressBook 0 (.table peopleTable) = .ok m ∧
      ¬Agrees addressBook 0 (decodeDescriptor addressBook (addressBook 0) m []) peopleTable := by
  have hlua := sortingLua_ascending
  obtain ⟨m, hencode, _, hagree⟩ := table_comesBack addressBook_wellFormed hlua
    peopleTable_conforms (comesBackPlain addressBook_wellFormed hlua (sizeOf peopleTable))
  refine ⟨peopleTable_conforms, m, hencode, fun h => hagree.mp h ?_⟩
  exact .here (List.mem_singleton.mpr rfl) rfl (by simp [peopleTable, gettable])

end Tnode
