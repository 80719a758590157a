import Tnode.DecodedTables

namespace Tnode

section

variable {lua : Lua} {pool : DescriptorPool}

/-- Every slot of the second message holds what the first one holds, or nothing. -/
def KeptOrCleared (m m' : Message) : Prop :=
  List.Forall₂ (fun values values' => values' = values ∨ values' = []) m m'

theorem keptOrCleared_refl (m : Message) : KeptOrCleared m m :=
  List.forall₂_same.mpr fun _ _ => Or.inl rfl

theorem KeptOrCleared.trans {m m' m'' : Message} (h : KeptOrCleared m m')
    (h' : KeptOrCleared m' m'') : KeptOrCleared m m'' := by
  induction h generalizing m'' with
  | nil => exact h'
  | cons hv _ ih =>
    cases h' with
    | cons hv' h' =>
      refine List.Forall₂.cons ?_ (ih h')
      rcases hv' with rfl | rfl
      · exact hv
      · exact Or.inr rfl

theorem clearOneof_keptOrCleared (oneof : Option Nat) {fields : List FieldDescriptor} {m : Message}
    (h : fields.length = m.length) : KeptOrCleared m (clearOneof oneof fields m) := by
  induction fields generalizing m with
  | nil =>
    cases m with
    | nil => exact List.Forall₂.nil
    | cons values m => simp at h
  | cons field fields ih =>
    cases m with
    | nil => simp at h
    | cons values m =>
      refine List.Forall₂.cons ?_ (ih (by simpa using h))
      by_cases hone : oneof.isSome ∧ field.oneof = oneof
      · exact Or.inr (if_pos hone)
      · exact Or.inl (if_neg hone)

theorem store_spec {fields : List FieldDescriptor} {m : Message} (h : fields.length = m.length)
    (field : FieldDescriptor) (values : List PValue) :
    ∃ m' slot, store fields m field values = m' ++ [slot] ∧ KeptOrCleared m m' ∧
      (slot = values ∨ slot = []) := by
  cases values with
  | nil => exact ⟨m, [], rfl, keptOrCleared_refl m, Or.inl rfl⟩
  | cons value values =>
    refine ⟨_, _, rfl, clearOneof_keptOrCleared field.oneof h, ?_⟩
    split
    · exact Or.inr rfl
    · exact Or.inl rfl

theorem KeptOrCleared.last {m k : Message} {values : List PValue}
    (h : KeptOrCleared (m ++ [values]) k) :
    ∃ k' values', k = k' ++ [values'] ∧ k'.length = m.length ∧
      (values' = values ∨ values' = []) := by
  induction m generalizing k with
  | nil =>
    cases h with
    | cons hv h =>
      cases h
      exact ⟨[], _, rfl, rfl, hv⟩
  | cons first m ih =>
    cases h with
    | cons hv h =>
      obtain ⟨k', values', rfl, hlen, hor⟩ := ih h
      exact ⟨_ :: k', values', rfl, by simp [hlen], hor⟩

/-- The later fields change nothing in the slots of the earlier ones but to clear them. -/
theorem encodeFields_kept {t : LuaTable} {before fields : List FieldDescriptor} {m r : Message}
    (hlen : before.length = m.length) (h : encodeFields lua pool t before fields m = .ok r) :
    ∃ kept behind, r = kept ++ behind ∧ KeptOrCleared m kept := by
  induction fields generalizing before m with
  | nil =>
    rw [encodeFields] at h
    cases h
    exact ⟨r, [], by simp, keptOrCleared_refl r⟩
  | cons field fields ih =>
    rw [encodeFields] at h
    obtain ⟨values, _, h⟩ := bind_ok_iff.mp h
    obtain ⟨m', slot, hstore, hkept, _⟩ := store_spec hlen field values
    rw [hstore] at h
    have hlen' : (before ++ [field]).length = (m' ++ [slot]).length := by
      simp [hlen, hkept.length_eq]
    obtain ⟨kept, behind, rfl, hkept'⟩ := ih hlen' h
    refine ⟨kept.take m'.length, kept.drop m'.length ++ behind, ?_, hkept.trans ?_⟩
    · rw [← List.append_assoc, List.take_append_drop]
    · have htake := List.forall₂_take m'.length hkept'
      rwa [List.take_left] at htake

theorem store_eq {before : List FieldDescriptor} {m : Message} {field : FieldDescriptor}
    {values : List PValue} (hlen : before.length = m.length) (hf : FieldHolds field values)
    (hex : ∀ p ∈ before.zip m,
      p.1.oneof ≠ none → p.1.oneof = field.oneof → p.2 = [] ∨ values = []) :
    store before m field values = m ++ [values] := by
  cases hvalues : values with
  | nil => rfl
  | cons value rest =>
    have hclear : clearOneof field.oneof before m = m := by
      have hsame : ∀ p ∈ before.zip m,
          (if field.oneof.isSome ∧ p.1.oneof = field.oneof then [] else p.2) = p.2 := by
        intro p hp
        split
        next hone =>
          obtain ⟨hsome, heq⟩ := hone
          have hne : p.1.oneof ≠ none := by
            rw [heq]
            exact Option.isSome_iff_ne_none.mp hsome
          have hnil := (hex p hp hne heq).resolve_right (by simp [hvalues])
          exact hnil.symm
        next => rfl
      rw [clearOneof, ← List.map_uncurry_zip_eq_zipWith]
      calc
        (before.zip m).map (Function.uncurry fun field' values =>
            if field.oneof.isSome ∧ field'.oneof = field.oneof then [] else values)
            = (before.zip m).map Prod.snd := List.map_congr_left hsame
        _ = m := List.map_snd_zip (by omega)
    have hkeep : (!field.isRepeated && !field.hasPresence && value.isDefault) = false := by
      cases hr : field.isRepeated with
      | true => simp
      | false =>
        cases hp : field.hasPresence with
        | true => simp
        | false => simp [hf.presence hr hp value (by simp [hvalues])]
    simp only [store, hclear, hkeep, Bool.false_eq_true, if_false]

/-- The slot of a field holds what the field was encoded to, or nothing, when all are encoded. -/
theorem encodeFields_slot {t : LuaTable} {before fields : List FieldDescriptor} {m ms : Message}
    {field : FieldDescriptor} {values values' : List PValue} (hlen : before.length = m.length)
    (h : encodeFields lua pool t (before ++ [field]) fields (store before m field values') =
      .ok (m ++ values :: ms)) : values = values' ∨ values = [] := by
  obtain ⟨m', slot, hslot, hkept, hor⟩ := store_spec hlen field values'
  rw [hslot] at h
  obtain ⟨kept, behind, hr, hkept'⟩ := encodeFields_kept (by simp [hlen, hkept.length_eq]) h
  obtain ⟨k', w, rfl, hk, hw⟩ := hkept'.last
  have hvalues : values = w := by
    rw [List.append_assoc] at hr
    have hinj := (List.append_inj hr (by rw [hk, hkept.length_eq])).2
    simpa using (List.cons.inj hinj).1
  rw [hvalues]
  rcases hw with rfl | rfl
  · exact hor
  · exact Or.inr rfl

/-- Encoding gives back a message exactly when it gives back each field's values. -/
theorem encodeFields_ok_iff {t : LuaTable} {before fields : List FieldDescriptor} {m ms : Message}
    (hlen : before.length = m.length) (hlens : fields.length = ms.length)
    (hex : OneofsExclusive (before ++ fields) (m ++ ms))
    (hf : ∀ p ∈ fields.zip ms, FieldHolds p.1 p.2)
    (habsent : ∀ p ∈ fields.zip ms, p.2 = [] → encodeField lua pool t p.1 = .ok []) :
    encodeFields lua pool t before fields m = .ok (m ++ ms) ↔
      ∀ p ∈ fields.zip ms, encodeField lua pool t p.1 = .ok p.2 := by
  induction fields generalizing before m ms with
  | nil =>
    have hnil : ms = [] := List.length_eq_zero_iff.mp hlens.symm
    simp [encodeFields, hnil]
  | cons field fields ih =>
    cases ms with
    | nil => simp at hlens
    | cons values ms =>
      rw [List.zip_cons_cons, List.forall_mem_cons] at hf habsent ⊢
      have hlen' : (before ++ [field]).length = (m ++ [values]).length := by simp [hlen]
      have hex' : OneofsExclusive ((before ++ [field]) ++ fields) ((m ++ [values]) ++ ms) := by
        simpa using hex
      have hstore : store before m field values = m ++ [values] := by
        refine store_eq hlen hf.1 fun p hp => ?_
        unfold OneofsExclusive at hex
        rw [List.zip_append hlen, List.pairwise_append] at hex
        exact hex.2.2 p hp (field, values) (by simp)
      have hih := ih hlen' (by simpa using hlens) hex' hf.2 habsent.2
      rw [List.append_assoc, List.singleton_append] at hih
      rw [encodeFields]
      cases hv : encodeField lua pool t field with
      | error e =>
        constructor
        · intro h
          cases h
        · intro h
          cases h.1
      | ok values' =>
        by_cases heq : values' = values
        · rw [heq]
          show encodeFields lua pool t (before ++ [field]) fields (store before m field values) =
            .ok (m ++ values :: ms) ↔ _
          rw [hstore, hih]
          simp
        · constructor
          · intro h
            rcases encodeFields_slot hlen h with hsame | hnil
            · exact absurd hsame.symm heq
            · have hempty := habsent.1 hnil
              rw [hv] at hempty
              exact absurd ((Except.ok.inj hempty).trans hnil.symm) heq
          · intro h
            exact absurd (Except.ok.inj h.1) heq

end

end Tnode
