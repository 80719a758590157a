import Mathlib.Data.List.AList

namespace Holdings

variable {κ ν α : Type}

/-- What the values of a table hold, one after the other. -/
def contents (f : ν → List α) (t : AList fun _ : κ => ν) : List α :=
  t.entries.flatMap fun e => f e.2

variable {f : ν → List α} {t : AList fun _ : κ => ν}

variable [DecidableEq κ]

theorem contents_perm_of_lookup {k : κ} {v : ν} (h : t.lookup k = some v) :
    (contents f t).Perm (f v ++ contents f (t.erase k)) := by
  have hk : k ∈ t.entries.keys := AList.lookup_isSome.mp (by simp [h])
  obtain ⟨w, front, back, hnot, hsplit, herase⟩ := List.exists_of_kerase hk
  have hw : w = v := by
    have hl : t.entries.dlookup k = some v := h
    rw [hsplit, List.dlookup_append, List.dlookup_eq_none.mpr hnot] at hl
    simpa using hl
  have he : (t.erase k).entries = front ++ back := herase
  simp only [contents, hsplit, he, List.flatMap_append, List.flatMap_cons, hw]
  calc
    front.flatMap (fun e => f e.2) ++ (f v ++ back.flatMap (fun e => f e.2))
        = (front.flatMap (fun e => f e.2) ++ f v) ++ back.flatMap (fun e => f e.2) := by
          rw [List.append_assoc]
    _ |>.Perm ((f v ++ front.flatMap (fun e => f e.2)) ++ back.flatMap (fun e => f e.2)) :=
          List.perm_append_comm.append_right _
    _ = f v ++ (front.flatMap (fun e => f e.2) ++ back.flatMap (fun e => f e.2)) := by
          rw [List.append_assoc]

theorem contents_insert (k : κ) (v : ν) : contents f (t.insert k v) = f v ++ contents f (t.erase k) :=
  rfl

theorem contents_erase_of_lookup_none {k : κ} (h : t.lookup k = none) :
    contents f (t.erase k) = contents f t := by
  have hk : k ∉ t.entries.keys := AList.lookup_eq_none.mp h
  have he : (t.erase k).entries = t.entries := List.kerase_of_notMem_keys hk
  rw [contents, he, contents]

theorem mem_contents {a : α} : a ∈ contents f t ↔ ∃ k v, t.lookup k = some v ∧ a ∈ f v := by
  constructor
  · intro h
    obtain ⟨⟨k, v⟩, he, ha⟩ := List.mem_flatMap.mp h
    exact ⟨k, v, AList.mem_lookup_iff.mpr he, ha⟩
  · rintro ⟨k, v, hl, ha⟩
    exact List.mem_flatMap.mpr ⟨⟨k, v⟩, AList.mem_lookup_iff.mp hl, ha⟩

theorem mem_contents_of_erase {k : κ} {a : α} (h : a ∈ contents f (t.erase k)) :
    a ∈ contents f t := by
  obtain ⟨e, he, ha⟩ := List.mem_flatMap.mp h
  exact List.mem_flatMap.mpr ⟨e, (List.kerase_sublist k t.entries).subset he, ha⟩

theorem mem_contents_of_lookup {k : κ} {v : ν} {a : α} (h : t.lookup k = some v) (ha : a ∈ f v) :
    a ∈ contents f t :=
  mem_contents.mpr ⟨k, v, h, ha⟩

variable [DecidableEq α]

theorem count_contents_of_lookup {k : κ} {v : ν} (h : t.lookup k = some v) (a : α) :
    (contents f t).count a = (f v).count a + (contents f (t.erase k)).count a := by
  rw [(contents_perm_of_lookup h).count_eq, List.count_append]

end Holdings
