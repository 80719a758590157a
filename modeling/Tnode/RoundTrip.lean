import Tnode.EncodeFields
import Tnode.VisitOrder
import Tnode.Sequences

namespace Tnode

variable {pool : DescriptorPool}

/-- Encoding what a value decodes to gives the value back. -/
def Reencodes (lua : Lua) (pool : DescriptorPool) (type : CppType) (x : PValue) : Prop :=
  encodeValue lua pool type (decodeValue pool type x) = .ok x

theorem encodeFieldRepeated_ok_iff (lua : Lua) (type : CppType) {elements : LuaTable}
    (hnil : ∀ v ∈ elements.map Prod.snd, v.isNil = false) (xs : List PValue) :
    encodeFieldRepeated lua pool type elements = .ok xs ↔
      List.Forall₂ (fun v x => encodeValue lua pool type v = .ok x)
        (elements.map Prod.snd) xs := by
  induction elements generalizing xs with
  | nil =>
    rw [encodeFieldRepeated]
    cases xs <;> simp
  | cons e elements ih =>
    obtain ⟨k, v⟩ := e
    rw [List.map_cons, List.forall_mem_cons] at hnil
    rw [encodeFieldRepeated, if_neg (by simp [hnil.1]), List.map_cons, List.forall₂_cons_left_iff]
    simp only [bind_ok_iff, ih hnil.2, pure, Except.pure, Except.ok.injEq]
    constructor
    · rintro ⟨x, hx, ys, hys, rfl⟩
      exact ⟨x, ys, hx, hys, rfl⟩
    · rintro ⟨x, ys, hx, hys, rfl⟩
      exact ⟨x, hx, ys, hys, rfl⟩

/-- The elements of a repeated field come back in order whatever the order of the visit
exactly when each of them does and all of them are equal. -/
theorem repeated_iff {type : CppType} {xs : List PValue} (hof : ∀ x ∈ xs, x.Of pool type) :
    (∀ lua : Lua, encodeFieldRepeated lua pool type
        (lua.next (numbered 0 (xs.map (decodeValue pool type)))) = .ok xs) ↔
      (∀ x ∈ xs, ∀ lua, Reencodes lua pool type x) ∧ ∀ x ∈ xs, ∀ y ∈ xs, x = y := by
  have hsnd := map_snd_numbered 0 (xs.map (decodeValue pool type))
  have hnil : ∀ lua : Lua, ∀ v ∈ (lua.next (numbered 0 (xs.map (decodeValue pool type)))).map
      Prod.snd, v.isNil = false := by
    intro lua v hv
    have hmem := ((lua.next_perm _).map Prod.snd).mem_iff.mp hv
    rw [hsnd] at hmem
    obtain ⟨x, hx, rfl⟩ := List.mem_map.mp hmem
    exact decodeValue_not_nil (hof x hx)
  constructor
  · intro hall
    have hback : ∀ x ∈ xs, ∀ lua, Reencodes lua pool type x := by
      intro x hx lua
      have hperm := List.Perm.refl (numbered 0 (xs.map (decodeValue pool type)))
      have hvisit := hall (lua.visiting _ _ hperm)
      rw [encodeFieldRepeated_ok_iff _ type (hnil _), visiting_next, hsnd,
        List.forall₂_map_left_iff, List.forall₂_same] at hvisit
      have hsize := sizeOf_lt_numbered (List.mem_map_of_mem (f := decodeValue pool type) hx) 0
      rw [Reencodes, (agreeBelow_visiting lua hperm).encodeValue pool hsize]
      exact hvisit x hx
    refine ⟨hback, ?_⟩
    let lua : Lua := ⟨id, fun t => List.Perm.refl t, fun _ => [], fun _ => none⟩
    have hperm := List.rotate_perm (numbered 0 (xs.map (decodeValue pool type))) 1
    have hvisit := hall (lua.visiting _ _ hperm)
    rw [encodeFieldRepeated_ok_iff _ type (hnil _), visiting_next, List.map_rotate, hsnd,
      ← List.map_rotate, List.forall₂_map_left_iff] at hvisit
    have hrotate : List.Forall₂ Eq (xs.rotate 1) xs := by
      rw [List.forall₂_iff_zip] at hvisit ⊢
      refine ⟨hvisit.1, fun hzip => ?_⟩
      have hx := List.mem_rotate.mp (List.of_mem_zip hzip).1
      exact Except.ok.inj ((hback _ hx _).symm.trans (hvisit.2 hzip))
    rw [List.forall₂_eq_eq_eq] at hrotate
    obtain ⟨c, hc⟩ := List.rotate_one_eq_self_iff_eq_replicate.mp hrotate
    intro x hx y hy
    rw [hc] at hx hy
    rw [List.eq_of_mem_replicate hx, List.eq_of_mem_replicate hy]
  · rintro ⟨hback, hsame⟩ lua
    rw [encodeFieldRepeated_ok_iff lua type (hnil lua), List.forall₂_iff_zip]
    constructor
    · rw [List.length_map, (lua.next_perm _).length_eq, ← List.length_map (f := Prod.snd), hsnd,
        List.length_map]
    · intro v y hzip
      obtain ⟨hv, hy⟩ := List.of_mem_zip hzip
      have hmem := ((lua.next_perm _).map Prod.snd).mem_iff.mp hv
      rw [hsnd] at hmem
      obtain ⟨x, hx, rfl⟩ := List.mem_map.mp hmem
      rw [← hsame x hx y hy]
      exact hback x hx lua

theorem return_ok_iff {α β : Type} {f : α → β} (hf : Function.Injective f)
    {r : Except EncodeError α} {x : α} : (do return f (← r)) = Except.ok (f x) ↔ r = .ok x := by
  rw [bind_ok_iff]
  constructor
  · rintro ⟨y, hy, hxy⟩
    rw [hy, hf (Except.ok.inj hxy)]
  · intro hx
    exact ⟨x, hx, rfl⟩

theorem encodeValue_scalar_iff {lua : Lua} {type : CppType} (hty : ∀ ty, type ≠ .message ty)
    (v : LuaValue) (s : Scalar) :
    encodeValue lua pool type v = .ok (.scalar s) ↔ readScalar lua type v = .ok s := by
  have hunfold : encodeValue lua pool type v =
      (do return PValue.scalar (← readScalar lua type v)) := by
    rw [encodeValue]
    exact hty
  rw [hunfold, return_ok_iff fun _ _ h => PValue.scalar.inj h]

theorem encodeValue_message_iff {lua : Lua} (ty : Nat) (v : LuaValue) (m : Message) :
    encodeValue lua pool (.message ty) v = .ok (.message m) ↔
      encodeDescriptor lua pool ty v = .ok m := by
  rw [encodeValue, return_ok_iff fun _ _ h => PValue.message.inj h]

theorem encodeField_singleton_iff {lua : Lua} {t : LuaTable} {field : FieldDescriptor}
    (hs : field.isRepeated = false) (hne : gettable t (.string field.name) ≠ .nil) (x : PValue) :
    encodeField lua pool t field = .ok [x] ↔
      encodeValue lua pool field.cppType (gettable t (.string field.name)) = .ok x := by
  rw [encodeField_set hs hne]
  exact return_ok_iff fun _ _ h => (List.cons.inj h).1

/-- A field comes back from what it was decoded to exactly when its values do and are equal. -/
theorem field_iff {field : FieldDescriptor} {values : List PValue} {t : LuaTable}
    (hget : gettable t (.string field.name) = decodedField pool field values)
    (hholds : FieldHolds field values) (hof : ∀ x ∈ values, x.Of pool field.cppType) :
    (∀ lua : Lua, encodeField lua pool t field = .ok values) ↔
      (∀ x ∈ values, ∀ lua, Reencodes lua pool field.cppType x) ∧
        ∀ x ∈ values, ∀ y ∈ values, x = y := by
  cases hr : field.isRepeated with
  | true =>
    have htable := hget.trans (decodedField_repeated hr hholds hof)
    rw [← repeated_iff hof]
    exact forall_congr' fun lua => by rw [encodeField_repeated hr htable]
  | false =>
    have hone := hholds.singular hr
    rw [decodedField, if_neg (by simp [hr])] at hget
    cases values with
    | nil => simp [encodeField_unset hr hget]
    | cons x xs =>
      have hxs : xs = [] := by
        rw [List.length_cons] at hone
        exact List.length_eq_zero_iff.mp (by omega)
      rw [decodeFieldSimple] at hget
      have hne : gettable t (.string field.name) ≠ .nil := by
        intro hnil
        have hx := decodeValue_not_nil (hof x (by simp))
        rw [← hget, hnil] at hx
        cases hx
      subst hxs
      simp only [encodeField_singleton_iff hr hne, hget, List.forall_mem_singleton, Reencodes,
        and_true]

theorem encodeField_decoded_nil {lua : Lua} {field : FieldDescriptor} {t : LuaTable}
    (hget : gettable t (.string field.name) = decodedField pool field [])
    (hholds : FieldHolds field []) : encodeField lua pool t field = .ok [] := by
  cases hr : field.isRepeated with
  | true =>
    have htable := hget.trans (decodedField_repeated hr hholds (by simp))
    rw [List.map_nil, numbered] at htable
    rw [encodeField_repeated hr htable, List.perm_nil.mp (lua.next_perm []), encodeFieldRepeated]
  | false =>
    rw [decodedField, if_neg (by simp [hr]), decodeFieldSimple] at hget
    exact encodeField_unset hr hget

theorem message_iff (hpool : pool.WellFormed) {ty : Nat} {m : Message} (hm : Message.Of pool ty m) :
    (∀ lua : Lua, encodeDescriptor lua pool ty (.table (decodeDescriptor pool (pool ty) m [])) =
        .ok m) ↔
      ∀ p ∈ (pool ty).zip m, (∀ x ∈ p.2, ∀ lua, Reencodes lua pool p.1.cppType x) ∧
        ∀ x ∈ p.2, ∀ y ∈ p.2, x = y := by
  obtain ⟨hfields, hex⟩ := hm
  obtain ⟨hlen, hslots⟩ := Message.fields_iff.mp hfields
  have hget := @gettable_decodeDescriptor pool (pool ty) (hpool.names ty) m []
    (by simp [Fresh])
  have hfield : ∀ p ∈ (pool ty).zip m,
      (∀ lua : Lua, encodeField lua pool (decodeDescriptor pool (pool ty) m []) p.1 = .ok p.2) ↔
        (∀ x ∈ p.2, ∀ lua, Reencodes lua pool p.1.cppType x) ∧ ∀ x ∈ p.2, ∀ y ∈ p.2, x = y :=
    fun p hp => field_iff (hget p hp) (hslots p hp).1 (hslots p hp).2
  have hencode : ∀ lua : Lua,
      encodeDescriptor lua pool ty (.table (decodeDescriptor pool (pool ty) m [])) = .ok m ↔
        ∀ p ∈ (pool ty).zip m,
          encodeField lua pool (decodeDescriptor pool (pool ty) m []) p.1 = .ok p.2 := by
    intro lua
    rw [encodeDescriptor]
    refine @encodeFields_ok_iff lua pool _ [] (pool ty) [] m rfl hlen hex
      (fun p hp => (hslots p hp).1) ?_
    intro p hp hnil
    have hempty := hget p hp
    have hholds := (hslots p hp).1
    rw [hnil] at hempty hholds
    exact encodeField_decoded_nil hempty hholds
  constructor
  · intro h p hp
    exact (hfield p hp).mp fun lua => (hencode lua).mp (h lua) p hp
  · intro h lua
    exact (hencode lua).mpr fun p hp => (hfield p hp).mpr (h p hp) lua

mutual

/-- A value that Lua values can carry, and whose repeated fields have no order to lose. -/
def PValue.Survives : PValue → Prop
  | .scalar s => s.Survives
  | .message m => Message.Survives m

def PValue.AllSurvive : List PValue → Prop
  | [] => True
  | x :: xs => x.Survives ∧ PValue.AllSurvive xs

def Message.Survives : List (List PValue) → Prop
  | [] => True
  | values :: m =>
    (PValue.AllSurvive values ∧ ∀ x ∈ values, ∀ y ∈ values, x = y) ∧ Message.Survives m

end

theorem PValue.allSurvive_iff {xs : List PValue} :
    PValue.AllSurvive xs ↔ ∀ x ∈ xs, x.Survives := by
  induction xs with
  | nil => simp [PValue.AllSurvive]
  | cons x xs ih => simp [PValue.AllSurvive, ih]

theorem Message.survives_iff {m : Message} : Message.Survives m ↔
    ∀ values ∈ m, (∀ x ∈ values, x.Survives) ∧ ∀ x ∈ values, ∀ y ∈ values, x = y := by
  induction m with
  | nil => simp [Message.Survives]
  | cons values m ih => simp only [Message.Survives, PValue.allSurvive_iff, ih, List.forall_mem_cons]

theorem forall_mem_of_zip {α β : Type} {P : β → Prop} {xs : List α} {ys : List β}
    (h : xs.length = ys.length) : (∀ p ∈ xs.zip ys, P p.2) ↔ ∀ y ∈ ys, P y := by
  have hs : (xs.zip ys).map Prod.snd = ys := List.map_snd_zip (by omega)
  conv_rhs => rw [← hs]
  simp only [List.forall_mem_map]

theorem reencodes_iff (hpool : pool.WellFormed) (x : PValue) : ∀ {type : CppType},
    x.Of pool type → ((∀ lua, Reencodes lua pool type x) ↔ x.Survives) := by
  induction x using PValue.nested_induction with
  | scalar s =>
    intro type hof
    have hty : ∀ ty, type ≠ .message ty := by
      rintro ty rfl
      cases s <;> exact hof
    have hread : ∀ lua, Reencodes lua pool type (.scalar s) ↔ s.Survives := by
      intro lua
      rw [Reencodes, decodeValue, encodeValue_scalar_iff hty, readScalar_pushScalar_iff lua hof]
    exact ⟨fun h => (hread ⟨id, fun t => List.Perm.refl t, fun _ => [], fun _ => none⟩).mp (h _),
      fun h lua => (hread lua).mpr h⟩
  | message m ih =>
    intro type hof
    obtain ⟨ty, rfl, hm⟩ := hof
    obtain ⟨hlen, hslots⟩ := Message.fields_iff.mp hm.1
    simp only [Reencodes, decodeValue, encodeValue_message_iff, PValue.Survives]
    rw [message_iff hpool hm, Message.survives_iff, ← forall_mem_of_zip hlen]
    refine forall₂_congr fun p hp => and_congr_left fun _ => forall₂_congr fun x hx => ?_
    exact ih p.2 (List.of_mem_zip hp).2 x hx ((hslots p hp).2 x hx)

/-- A message comes back from the table that it was decoded to, whatever the order in which
`lua_next` visits tables, exactly when it survives. -/
theorem encodeDescriptor_decodeDescriptor_iff (hpool : pool.WellFormed) {ty : Nat} {m : Message}
    (hm : Message.Of pool ty m) :
    (∀ lua : Lua, encodeDescriptor lua pool ty (.table (decodeDescriptor pool (pool ty) m [])) =
        .ok m) ↔ Message.Survives m := by
  have hof : PValue.Of pool (.message ty) (.message m) := ⟨ty, rfl, hm⟩
  have h := reencodes_iff hpool (.message m) hof
  simpa only [Reencodes, decodeValue, encodeValue_message_iff, PValue.Survives] using h

def onePerson (name : List Byte) : Message :=
  [[.message [[.scalar (.string name)], [.scalar (.int32 1)], [],
    [.message [[.scalar (.string (bytes "086"))], [.scalar (.enum 2)]]]]]]

theorem onePerson_of {name : List Byte} (h : name ≠ []) :
    Message.Of addressBook 0 (onePerson name) := by
  have hnumber : bytes "086" ≠ [] := by decide
  simp [Message.Of, Message.Fields, PValue.AllOf, PValue.Of, Scalar.Of, onePerson, addressBook,
    fieldHolds_iff, OneofsExclusive, PValue.isDefault, Scalar.isDefault, h, hnumber]

theorem onePerson_comes_back : Message.Of addressBook 0 (onePerson (bytes "hushouguo")) ∧
    ∀ lua : Lua, encodeDescriptor lua addressBook 0
      (.table (decodeDescriptor addressBook (addressBook 0) (onePerson (bytes "hushouguo")) [])) =
        .ok (onePerson (bytes "hushouguo")) := by
  have hm : Message.Of addressBook 0 (onePerson (bytes "hushouguo")) := onePerson_of (by decide)
  refine ⟨hm, (encodeDescriptor_decodeDescriptor_iff addressBook_wellFormed hm).mpr ?_⟩
  have hnul : 0 ∉ bytes "hushouguo" ∧ 0 ∉ bytes "086" := by decide
  simp [Message.Survives, PValue.AllSurvive, PValue.Survives, Scalar.Survives, onePerson, hnul]

def nameOnly (name : List Byte) : Message := [[.scalar (.string name)], [], [], []]

theorem nameOnly_of {name : List Byte} (h : name ≠ []) :
    Message.Of addressBook 1 (nameOnly name) := by
  simp [Message.Of, Message.Fields, PValue.AllOf, PValue.Of, Scalar.Of, nameOnly, addressBook,
    fieldHolds_iff, OneofsExclusive, PValue.isDefault, Scalar.isDefault, h]

/-- A name is cut at its NUL. -/
theorem nameOnly_cut : Message.Of addressBook 1 (nameOnly [97, 0, 98]) ∧
    nameOnly [97] ≠ nameOnly [97, 0, 98] ∧
    ∀ lua : Lua, encodeDescriptor lua addressBook 1
      (.table (decodeDescriptor addressBook (addressBook 1) (nameOnly [97, 0, 98]) [])) =
        .ok (nameOnly [97]) := by
  refine ⟨nameOnly_of (by decide), by simp [nameOnly], fun lua => ?_⟩
  have hempty : lua.next [] = [] := List.perm_nil.mp (lua.next_perm [])
  have hcut : cstr [97, 0, 98] = [97] ∧ cstr [97] = [97] := by decide
  have hnames : ((addressBook 1).map FieldDescriptor.name).Nodup := by decide
  simp only [addressBook, List.map_cons, List.map_nil, List.nodup_cons, List.mem_cons, not_or]
    at hnames
  obtain ⟨⟨hid, hemail, hphones, -⟩, -⟩ := hnames
  simp [addressBook, nameOnly, decodeDescriptor, decodeFieldRepeated, decodeFieldSimple,
    decodeValue, pushScalar, pushstring, settable, LuaValue.isNil, encodeDescriptor, encodeFields,
    encodeField, encodeFieldRepeated, gettable, encodeValue, readScalar, Lua.tostring, store,
    clearOneof, PValue.isDefault, Scalar.isDefault, hempty, hcut, hid, hemail, hphones]
  rfl

end Tnode
