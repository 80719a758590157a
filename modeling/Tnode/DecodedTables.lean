import Tnode.ScalarRoundTrip

namespace Tnode

theorem PValue.nested_induction {P : PValue → Prop} (scalar : ∀ s, P (.scalar s))
    (message : ∀ m : Message, (∀ values ∈ m, ∀ x ∈ values, P x) → P (.message m)) (x : PValue) :
    P x :=
  @PValue.rec P (fun m => ∀ values ∈ m, ∀ x ∈ values, P x) (fun values => ∀ x ∈ values, P x)
    scalar message (by simp)
    (fun _ _ hvalues hm values h =>
      (List.mem_cons.mp h).elim (fun heq => heq ▸ hvalues) (hm values))
    (by simp)
    (fun _ _ hx hxs y h => (List.mem_cons.mp h).elim (fun heq => heq ▸ hx) (hxs y)) x

variable {pool : DescriptorPool}

theorem PValue.allOf_iff {type : CppType} {values : List PValue} :
    PValue.AllOf pool type values ↔ ∀ x ∈ values, x.Of pool type := by
  induction values with
  | nil => simp [PValue.AllOf]
  | cons x xs ih => simp [PValue.AllOf, ih]

theorem Message.fields_iff {fields : List FieldDescriptor} {m : Message} :
    Message.Fields pool fields m ↔ fields.length = m.length ∧
      ∀ p ∈ fields.zip m, FieldHolds p.1 p.2 ∧ ∀ x ∈ p.2, x.Of pool p.1.cppType := by
  induction fields generalizing m with
  | nil => cases m <;> simp [Message.Fields]
  | cons field fields ih =>
    cases m with
    | nil => simp [Message.Fields]
    | cons values m =>
      simp only [Message.Fields, PValue.allOf_iff, ih, List.length_cons, Nat.add_right_cancel_iff,
        List.zip_cons_cons, List.forall_mem_cons]
      tauto

def Fresh (t : LuaTable) (k : LuaKey) : Prop := ∀ e ∈ t, e.1 ≠ k

theorem settable_fresh {t : LuaTable} {k : LuaKey} (h : Fresh t k) {v : LuaValue}
    (hv : v.isNil = false) : settable t k v = t ++ [(k, v)] := by
  induction t with
  | nil => simp [settable, hv]
  | cons e t ih =>
    have hne : e.1 ≠ k := h e List.mem_cons_self
    rw [settable, if_neg hne, ih fun e' he => h e' (List.mem_cons_of_mem e he), List.cons_append]

theorem settable_nil_fresh {t : LuaTable} {k : LuaKey} (h : Fresh t k) {v : LuaValue}
    (hv : v.isNil = true) : settable t k v = t := by
  induction t with
  | nil => simp [settable, hv]
  | cons e t ih =>
    have hne : e.1 ≠ k := h e List.mem_cons_self
    rw [settable, if_neg hne, ih fun e' he => h e' (List.mem_cons_of_mem e he)]

theorem gettable_fresh {t : LuaTable} {k : LuaKey} (h : Fresh t k) : gettable t k = .nil := by
  induction t with
  | nil => rfl
  | cons e t ih =>
    have hne : e.1 ≠ k := h e List.mem_cons_self
    rw [gettable, if_neg hne, ih fun e' he => h e' (List.mem_cons_of_mem e he)]

/-- The entries of values under consecutive keys. -/
def numbered : Nat → List LuaValue → LuaTable
  | _, [] => []
  | index, v :: values => (.number (ofInteger index), v) :: numbered (index + 1) values

theorem map_snd_numbered (index : Nat) (values : List LuaValue) :
    (numbered index values).map Prod.snd = values := by
  induction values generalizing index with
  | nil => rfl
  | cons v values ih => simp [numbered, ih]

theorem ofInteger_injective {i j : Nat} (hi : i < 2 ^ 53) (hj : j < 2 ^ 53)
    (h : ofInteger i = ofInteger j) : i = j := by
  have hsmall : ∀ {n : Nat}, n < 2 ^ 53 → |(n : Int)| < 2 ^ 53 := by
    intro n hn
    rw [abs_of_nonneg (Int.natCast_nonneg n)]
    exact_mod_cast hn
  let lua : Lua := ⟨id, fun t => List.Perm.refl t, fun _ => [], fun _ => none⟩
  have hci := tointeger_of_small lua (hsmall hi)
  have hcj := tointeger_of_small lua (hsmall hj)
  rw [pushinteger, h] at hci
  rw [pushinteger] at hcj
  have heq : (i : Int) = j := hci.symm.trans hcj
  exact_mod_cast heq

theorem pushScalar_not_nil (s : Scalar) : (pushScalar s).isNil = false := by
  cases s <;> rfl

theorem decodeValue_not_nil {type : CppType} {x : PValue} (h : x.Of pool type) :
    (decodeValue pool type x).isNil = false := by
  cases x with
  | scalar s =>
    rw [decodeValue]
    exact pushScalar_not_nil s
  | message m =>
    obtain ⟨ty, rfl, _⟩ := h
    rw [decodeValue]
    rfl

/-- A repeated field becomes a table whose keys count from the index on. -/
theorem decodeFieldRepeated_eq {type : CppType} {values : List PValue} (index : Nat) {t : LuaTable}
    (hv : ∀ x ∈ values, x.Of pool type)
    (ht : ∀ i, index ≤ i → i < 2 ^ 53 → Fresh t (.number (ofInteger i)))
    (hlen : index + values.length ≤ 2 ^ 53) :
    decodeFieldRepeated pool type values index t =
      t ++ numbered index (values.map (decodeValue pool type)) := by
  induction values generalizing index t with
  | nil => simp [decodeFieldRepeated, numbered]
  | cons x xs ih =>
    simp only [List.length_cons] at hlen
    have hx := decodeValue_not_nil (hv x List.mem_cons_self)
    rw [decodeFieldRepeated, settable_fresh (ht index le_rfl (by omega)) hx]
    rw [ih (index + 1) (fun y hy => hv y (List.mem_cons_of_mem x hy)) ?_ (by omega)]
    · simp [numbered]
    · intro i hi hlt e he
      rcases List.mem_append.mp he with hold | hnew
      · exact ht i (by omega) hlt e hold
      · rw [List.mem_singleton.mp hnew]
        intro hk
        have := ofInteger_injective (by omega) hlt (LuaKey.number.inj hk)
        omega

def decodedField (pool : DescriptorPool) (field : FieldDescriptor) (values : List PValue) :
    LuaValue :=
  if field.isRepeated then .table (decodeFieldRepeated pool field.cppType values 0 [])
  else decodeFieldSimple pool field.cppType values

theorem decodedField_repeated {field : FieldDescriptor} {values : List PValue}
    (hr : field.isRepeated = true) (hf : FieldHolds field values)
    (hv : ∀ x ∈ values, x.Of pool field.cppType) :
    decodedField pool field values =
      .table (numbered 0 (values.map (decodeValue pool field.cppType))) := by
  have hlen := hf.repeated hr
  rw [decodedField, if_pos hr, decodeFieldRepeated_eq 0 hv (by simp [Fresh]) (by omega),
    List.nil_append]

theorem decodeDescriptor_cons (field : FieldDescriptor) (fields : List FieldDescriptor)
    (values : List PValue) (m : Message) (t : LuaTable) :
    decodeDescriptor pool (field :: fields) (values :: m) t =
      decodeDescriptor pool fields m
        (settable t (.string field.name) (decodedField pool field values)) := by
  rw [decodeDescriptor]
  rfl

theorem fresh_settable {t : LuaTable} {k k' : LuaKey} (h : Fresh t k') (hk : k ≠ k')
    (v : LuaValue) : Fresh (settable t k v) k' := by
  induction t with
  | nil =>
    intro e he
    cases hv : v.isNil <;> simp [settable, hv] at he
    rw [he]
    exact hk
  | cons e t ih =>
    have hrest : Fresh t k' := fun e' he => h e' (List.mem_cons_of_mem e he)
    rw [settable]
    split
    · cases hv : v.isNil
      · intro e' he
        rcases List.mem_cons.mp he with rfl | he
        · exact hk
        · exact hrest e' he
      · exact hrest
    · intro e' he
      rcases List.mem_cons.mp he with rfl | he
      · exact h _ List.mem_cons_self
      · exact ih hrest e' he

theorem gettable_settable_fresh {t : LuaTable} {k : LuaKey} (h : Fresh t k) (v : LuaValue) :
    gettable (settable t k v) k = v := by
  cases hv : v.isNil with
  | false => exact gettable_settable t k hv
  | true =>
    rw [settable_nil_fresh h hv, gettable_fresh h]
    cases v <;> first | rfl | cases hv

theorem gettable_decodeDescriptor_other {fields : List FieldDescriptor} {k : LuaKey}
    (h : ∀ field ∈ fields, k ≠ .string field.name) (m : Message) (t : LuaTable) :
    gettable (decodeDescriptor pool fields m t) k = gettable t k := by
  induction fields generalizing m t with
  | nil => rw [decodeDescriptor]; simp
  | cons field fields ih =>
    cases m with
    | nil => rw [decodeDescriptor]; simp
    | cons values m =>
      rw [decodeDescriptor_cons, ih (fun f hf => h f (List.mem_cons_of_mem field hf)),
        gettable_settable_ne t (h field List.mem_cons_self)]

/-- Decoding leaves under each field's name what it assigned to it. -/
theorem gettable_decodeDescriptor {fields : List FieldDescriptor}
    (hnames : (fields.map FieldDescriptor.name).Nodup) {m : Message} {t : LuaTable}
    (ht : ∀ field ∈ fields, Fresh t (.string field.name)) :
    ∀ p ∈ fields.zip m,
      gettable (decodeDescriptor pool fields m t) (.string p.1.name) = decodedField pool p.1 p.2 := by
  induction fields generalizing m t with
  | nil => simp
  | cons field fields ih =>
    cases m with
    | nil => simp
    | cons values m =>
      obtain ⟨hnotin, hnodup⟩ := List.nodup_cons.mp hnames
      have hne : ∀ f ∈ fields, field.name ≠ f.name := by
        intro f hf heq
        exact hnotin (heq ▸ List.mem_map_of_mem hf)
      have hfresh := ht field List.mem_cons_self
      rw [decodeDescriptor_cons]
      intro p hp
      rcases List.mem_cons.mp hp with rfl | hp
      · rw [gettable_decodeDescriptor_other fun f hf => by simpa using hne f hf,
          gettable_settable_fresh hfresh]
      · refine ih hnodup (fun f hf => ?_) p hp
        exact fresh_settable (ht f (List.mem_cons_of_mem field hf)) (by simpa using hne f hf) _

end Tnode
