import Tnode.Spinlock
import Mathlib.Data.Finset.Card

namespace Tnode

open Transitions Spinlock Relation

/-- The operations of `LockfreeMap`; each takes its lock. -/
inductive MapOp (K V : Type)
  | insert (key : K) (value : V)
  | eraseKey (key : K)
  | containKey (key : K)
  | find (key : K)
  | size
  | empty
  | popFront
  | traverse
deriving DecidableEq, Repr

inductive MapAnswer (K V : Type)
  | bool (retval : Bool)
  | value (value : V)
  | size (size : Nat)
  | entries (entries : List (K × V))
deriving DecidableEq, Repr

/-- Inside an operation: before its first access to `_map`, with an iterator at a key that was
found, with the entry that `begin()` points to, at the `n`-th entry of a traversal, and behind
the last access. -/
inductive MapLocal (K V : Type)
  | start (op : MapOp K V)
  | erasing (key : K)
  | found (key : K)
  | front (key : K) (value : V)
  | visit (n : Nat) (seen : List (K × V))
  | ended (answer : MapAnswer K V)
deriving DecidableEq, Repr

variable {K V : Type} [DecidableEq K] [Inhabited V]

def mapFind (map : List (K × V)) (key : K) : Option V :=
  (map.find? fun e => e.1 = key).map Prod.snd

def mapErase (map : List (K × V)) (key : K) : List (K × V) := map.filter fun e => e.1 ≠ key

/-- `std::unordered_map`: a table with its entries in the order of iteration. A new entry may
stand anywhere and may change the order of the others, as the table may be rehashed; an erased
one leaves the others in their order. -/
structure UnorderedMap (K V : Type) [DecidableEq K] where
  Table : Type
  new : Table
  entries : Table → List (K × V)
  insert : Table → K → V → Table
  erase : Table → K → Table
  entries_new : entries new = []
  entries_insert (table : Table) (key : K) (value : V) : (entries (insert table key value)).Perm
    (if (mapFind (entries table) key).isSome then entries table else (key, value) :: entries table)
  entries_erase (table : Table) (key : K) : entries (erase table key) = mapErase (entries table) key

/-- The next access to `_map`. -/
def mapBody (m : UnorderedMap K V) :
    MapLocal K V → m.Table → Option (MapLocal K V × m.Table)
  | .start (.insert key value), map =>
    some (.ended (.bool (mapFind (m.entries map) key).isNone), m.insert map key value)
  | .start (.eraseKey key), map =>
    some (if (mapFind (m.entries map) key).isSome then .erasing key else .ended (.bool false), map)
  | .start (.containKey key), map =>
    some (.ended (.bool (mapFind (m.entries map) key).isSome), map)
  | .start (.find key), map =>
    some (if (mapFind (m.entries map) key).isSome then .found key else .ended (.value default), map)
  | .start .size, map => some (.ended (.size (m.entries map).length), map)
  | .start .empty, map => some (.ended (.bool (m.entries map).isEmpty), map)
  | .start .popFront, map =>
    some ((m.entries map).head?.elim (.ended (.value default)) fun e => .front e.1 e.2, map)
  | .start .traverse, map => some (.visit 0 [], map)
  | .erasing key, map => some (.ended (.bool true), m.erase map key)
  | .found key, map => some (.ended (.value ((mapFind (m.entries map) key).getD default)), map)
  | .front key value, map => some (.ended (.value value), m.erase map key)
  | .visit n seen, map =>
    match (m.entries map)[n]? with
    | some e => some (.visit (n + 1) (seen ++ [e]), map)
    | none => some (.ended (.entries seen), map)
  | .ended _, _ => none

def lockfreeMap (m : UnorderedMap K V) : Code m.Table (MapOp K V) (MapLocal K V) where
  before _ map := map
  enter := .start
  body := mapBody m

namespace LockfreeMap

/-- What an operation on a finite map answers and leaves. Which entry `popFront` takes is open. -/
def Specifies (f : K → Option V) : MapOp K V → MapAnswer K V → (K → Option V) → Prop
  | .insert key value, answer, f' =>
    answer = .bool (f key).isNone ∧
      f' = if (f key).isNone then Function.update f key (some value) else f
  | .eraseKey key, answer, f' =>
    answer = .bool (f key).isSome ∧ f' = Function.update f key none
  | .containKey key, answer, f' => answer = .bool (f key).isSome ∧ f' = f
  | .find key, answer, f' => answer = .value ((f key).getD default) ∧ f' = f
  | .size, answer, f' =>
    f' = f ∧ ∃ keys : Finset K, (∀ k, k ∈ keys ↔ f k ≠ none) ∧ answer = .size keys.card
  | .empty, answer, f' => f' = f ∧ ∃ b, answer = .bool b ∧ (b = true ↔ ∀ k, f k = none)
  | .popFront, answer, f' =>
    (∀ k, f k = none) ∧ answer = .value default ∧ f' = f ∨
      ∃ key value, f key = some value ∧ answer = .value value ∧ f' = Function.update f key none
  | .traverse, answer, f' =>
    f' = f ∧ ∃ entries : List (K × V), answer = .entries entries ∧ (entries.map Prod.fst).Nodup ∧
      ∀ k v, (k, v) ∈ entries ↔ f k = some v

/-- The list stands for the finite map. -/
structure Stands (map : List (K × V)) (f : K → Option V) : Prop where
  nodup : (map.map Prod.fst).Nodup
  mem : ∀ k v, (k, v) ∈ map ↔ f k = some v

section

variable {map map' : List (K × V)} {f : K → Option V}

omit [Inhabited V] in
theorem Stands.find (h : Stands map f) (key : K) : mapFind map key = f key := by
  cases hfind : map.find? fun e => e.1 = key with
  | none =>
    rw [mapFind, hfind, Option.map_none]
    cases hf : f key with
    | none => rfl
    | some v =>
      have := List.find?_eq_none.mp hfind (key, v) ((h.mem key v).mpr hf)
      simp at this
  | some e =>
    have hkey : e.1 = key := by simpa using List.find?_some hfind
    have hmem := (h.mem e.1 e.2).mp (List.mem_of_find?_eq_some hfind)
    rw [mapFind, hfind, Option.map_some, ← hkey, hmem]

omit [Inhabited V] [DecidableEq K] in
theorem Stands.not_mem_keys (h : Stands map f) {key : K} (hf : f key = none) :
    key ∉ map.map Prod.fst := by
  intro hmem
  obtain ⟨⟨k, v⟩, he, rfl⟩ := List.mem_map.mp hmem
  have := (h.mem k v).mp he
  simp [hf] at this

omit [Inhabited V] in
theorem Stands.insert (h : Stands map f) {key : K} {value : V} (hperm : map'.Perm
    (if (mapFind map key).isSome then map else (key, value) :: map)) :
    Stands map' (if (f key).isNone then Function.update f key (some value) else f) := by
  rw [h.find] at hperm
  cases hf : f key with
  | some v =>
    rw [hf, if_pos (by simp)] at hperm
    rw [if_neg (by simp)]
    exact ⟨(hperm.map Prod.fst).nodup_iff.mpr h.nodup, fun k v => by rw [hperm.mem_iff, h.mem]⟩
  | none =>
    rw [hf, if_neg (by simp)] at hperm
    rw [if_pos (by simp)]
    constructor
    · rw [(hperm.map Prod.fst).nodup_iff]
      exact List.nodup_cons.mpr ⟨h.not_mem_keys hf, h.nodup⟩
    · intro k v
      rw [hperm.mem_iff, List.mem_cons, h.mem]
      by_cases hk : k = key
      · subst hk
        simp [hf, eq_comm]
      · simp [hk]

omit [Inhabited V] in
theorem Stands.erase (h : Stands map f) (key : K) :
    Stands (mapErase map key) (Function.update f key none) := by
  constructor
  · exact h.nodup.sublist (List.filter_sublist.map Prod.fst)
  · intro k v
    rw [mapErase, List.mem_filter, h.mem]
    by_cases hk : k = key
    · simp [hk]
    · simp [hk]

omit [Inhabited V] [DecidableEq K] in
theorem Stands.nil_iff (h : Stands map f) : map = [] ↔ ∀ k, f k = none := by
  constructor
  · rintro rfl k
    cases hf : f k with
    | none => rfl
    | some v => exact absurd ((h.mem k v).mpr hf) List.not_mem_nil
  · intro hf
    apply List.eq_nil_iff_forall_not_mem.mpr
    rintro ⟨k, v⟩ hmem
    have := (h.mem k v).mp hmem
    simp [hf] at this

omit [Inhabited V] in
theorem Stands.card (h : Stands map f) :
    ∃ keys : Finset K, (∀ k, k ∈ keys ↔ f k ≠ none) ∧ map.length = keys.card := by
  refine ⟨(map.map Prod.fst).toFinset, fun k => ?_, ?_⟩
  · rw [List.mem_toFinset, List.mem_map, Option.ne_none_iff_exists']
    constructor
    · rintro ⟨⟨k, v⟩, hmem, rfl⟩
      exact ⟨v, (h.mem k v).mp hmem⟩
    · rintro ⟨v, hv⟩
      exact ⟨(k, v), (h.mem k v).mpr hv, rfl⟩
  · rw [List.toFinset_card_of_nodup h.nodup, List.length_map]

end

variable {m : UnorderedMap K V} {map map' : m.Table} {f : K → Option V}

/-- How far an operation that began with the table `map` has come. -/
inductive Stage (m : UnorderedMap K V) (map : m.Table) :
    MapOp K V → MapLocal K V → m.Table → Prop
  | start (op : MapOp K V) : Stage m map op (.start op) map
  | erasing {key : K} (h : (mapFind (m.entries map) key).isSome) :
      Stage m map (.eraseKey key) (.erasing key) map
  | found {key : K} (h : (mapFind (m.entries map) key).isSome) :
      Stage m map (.find key) (.found key) map
  | front {key : K} {value : V} (h : (key, value) ∈ m.entries map) :
      Stage m map .popFront (.front key value) map
  | visit (n : Nat) : Stage m map .traverse (.visit n ((m.entries map).take n)) map
  | ended {op : MapOp K V} {answer : MapAnswer K V} {map' : m.Table}
      (h : ∀ f, Stands (m.entries map) f →
        ∃ f', Specifies f op answer f' ∧ Stands (m.entries map') f') :
      Stage m map op (.ended answer) map'

theorem stage_body {op : MapOp K V} {l l' : MapLocal K V} {map₀ : m.Table}
    (h : Stage m map₀ op l map) (hbody : mapBody m l map = some (l', map')) :
    Stage m map₀ op l' map' := by
  cases h with
  | start =>
    cases op with
    | insert key value =>
      cases hbody
      exact .ended fun f h => ⟨_, ⟨by rw [h.find], rfl⟩, h.insert (m.entries_insert map key value)⟩
    | eraseKey key =>
      simp only [mapBody] at hbody
      split at hbody
      next hfind => cases hbody; exact .erasing hfind
      next hfind =>
        cases hbody
        refine .ended fun f h => ⟨f, ⟨?_, ?_⟩, h⟩
        · rw [← h.find]
          simpa using hfind
        · rw [h.find] at hfind
          have hnone : f key = none := by simpa using hfind
          rw [← hnone, Function.update_eq_self]
    | containKey key =>
      cases hbody
      exact .ended fun f h => ⟨f, ⟨by rw [h.find], rfl⟩, h⟩
    | find key =>
      simp only [mapBody] at hbody
      split at hbody
      next hfind => cases hbody; exact .found hfind
      next hfind =>
        cases hbody
        refine .ended fun f h => ⟨f, ⟨?_, rfl⟩, h⟩
        rw [h.find] at hfind
        have hnone : f key = none := by simpa using hfind
        rw [hnone, Option.getD_none]
    | size =>
      cases hbody
      refine .ended fun f h => ⟨f, ⟨rfl, ?_⟩, h⟩
      obtain ⟨keys, hkeys, hcard⟩ := h.card
      exact ⟨keys, hkeys, by rw [hcard]⟩
    | empty =>
      cases hbody
      refine .ended fun f h => ⟨f, ⟨rfl, _, rfl, ?_⟩, h⟩
      rw [List.isEmpty_iff]
      exact h.nil_iff
    | popFront =>
      simp only [mapBody] at hbody
      cases hentries : m.entries map with
      | nil =>
        rw [hentries] at hbody
        cases hbody
        exact .ended fun f h => ⟨f, Or.inl ⟨h.nil_iff.mp hentries, rfl, rfl⟩, h⟩
      | cons e rest =>
        rw [hentries] at hbody
        cases hbody
        apply Stage.front
        rw [hentries]
        exact List.mem_cons_self
    | traverse =>
      cases hbody
      exact .visit 0
  | @erasing key hfind =>
    cases hbody
    refine .ended fun f h => ⟨_, ⟨?_, rfl⟩, ?_⟩
    · rw [← h.find, hfind]
    · rw [m.entries_erase]
      exact h.erase key
  | found hfind =>
    cases hbody
    exact .ended fun f h => ⟨f, ⟨by rw [h.find], rfl⟩, h⟩
  | @front key value hmem =>
    cases hbody
    refine .ended fun f h => ⟨_, Or.inr ⟨key, value, (h.mem key value).mp hmem, rfl, rfl⟩, ?_⟩
    rw [m.entries_erase]
    exact h.erase key
  | visit n =>
    simp only [mapBody] at hbody
    split at hbody
    next e he =>
      cases hbody
      have htake : (m.entries map).take n ++ [e] = (m.entries map).take (n + 1) := by
        rw [List.take_add_one, he]
        rfl
      rw [htake]
      exact .visit (n + 1)
    next hnone =>
      cases hbody
      refine .ended fun f h => ⟨f, ⟨rfl, _, rfl, ?_, ?_⟩, h⟩ <;>
        rw [List.take_of_length_le (List.getElem?_eq_none_iff.mp hnone)]
      · exact h.nodup
      · exact h.mem
  | ended h => cases hbody

theorem stage_ended {op : MapOp K V} {l : MapLocal K V} {map₀ : m.Table}
    (h : Stage m map₀ op l map) (hbody : mapBody m l map = none) (hf : Stands (m.entries map₀) f) :
    ∃ answer f', l = .ended answer ∧ Specifies f op answer f' ∧ Stands (m.entries map) f' := by
  cases h with
  | ended h =>
    obtain ⟨f', hspec, hstands⟩ := h f hf
    exact ⟨_, f', rfl, hspec, hstands⟩
  | start => cases op <;> cases hbody
  | erasing _ | found _ | front _ => cases hbody
  | visit n =>
    simp only [mapBody] at hbody
    split at hbody <;> cases hbody

/-- An operation that runs alone does what is specified. -/
theorem performs_specifies {op : MapOp K V} {l : MapLocal K V}
    (h : Performs (lockfreeMap m) op map l map') (hf : Stands (m.entries map) f) :
    ∃ answer f', l = .ended answer ∧ Specifies f op answer f' ∧ Stands (m.entries map') f' := by
  obtain ⟨hsteps, hended⟩ := h
  have hstage : ∀ q, ReflTransGen (Moves (lockfreeMap m)) (.start op, map) q →
      Stage m map op q.1 q.2 := by
    intro q hq
    induction hq with
    | refl => exact .start op
    | tail _ hmove ih => exact stage_body ih hmove
  exact stage_ended (hstage _ hsteps) hended hf

variable {Thread : Type}

/-- The operations answer as specified when they are done one after the other, on a map that is
empty first, and leave `f`. -/
inductive Answers : List (Thread × MapOp K V × MapLocal K V) → (K → Option V) → Prop
  | nil : Answers [] fun _ => none
  | snoc {returned : List (Thread × MapOp K V × MapLocal K V)} {f f' : K → Option V} {t : Thread}
      {op : MapOp K V} {answer : MapAnswer K V} (before : Answers returned f)
      (last : Specifies f op answer f') : Answers (returned ++ [(t, op, .ended answer)]) f'

theorem sequential_answers {returned : List (Thread × MapOp K V × MapLocal K V)}
    (h : Sequential (lockfreeMap m) m.new returned map) :
    ∃ f, Answers returned f ∧ Stands (m.entries map) f := by
  induction h with
  | nil =>
    refine ⟨_, .nil, ?_⟩
    rw [m.entries_new]
    exact ⟨by simp, by simp⟩
  | snoc _ hlast ih =>
    obtain ⟨f, hanswers, hstands⟩ := ih
    obtain ⟨answer, f', rfl, hspec, hstands'⟩ := performs_specifies hlast hstands
    exact ⟨f', .snoc hanswers hspec, hstands'⟩

variable [DecidableEq Thread]

/-- However the steps of the threads interleave, at most one of them is inside, the operations that
have returned answered as those of one finite map, one after the other in the order in which they
returned, and the table stands for that map while nobody is inside. -/
theorem run_answers {s : State Thread m.Table (MapOp K V) (MapLocal K V)}
    {ls : List (Label Thread (MapOp K V))}
    (hrun : run (step (lockfreeMap m)) (start m.new) ls = some s) :
    Exclusive s ∧ ∃ f, Answers s.returned f ∧ (s.flag = false → Stands (m.entries s.data) f) := by
  refine ⟨run_exclusive (exclusive_start _) hrun, ?_⟩
  obtain ⟨map, hsequential, hdata⟩ := run_sequential (fun _ _ => rfl) hrun
  obtain ⟨f, hanswers, hstands⟩ := sequential_answers hsequential
  refine ⟨f, hanswers, fun hflag => ?_⟩
  rw [hdata hflag]
  exact hstands

/-- A table that every new entry turns round. -/
def turningMap : UnorderedMap Nat Nat where
  Table := List (Nat × Nat)
  new := []
  entries table := table
  insert table key value :=
    if (mapFind table key).isSome then table else ((key, value) :: table).reverse
  erase := mapErase
  entries_new := rfl
  entries_insert table key value := by
    split
    next => exact .refl _
    next => exact List.reverse_perm _
  entries_erase _ _ := rfl

/-- Two threads insert under one key, the second while the first is inside. -/
def twoInserts : List (Label Nat (MapOp Nat Nat)) :=
  [.call 0 (.insert 7 1), .step 0, .call 1 (.insert 7 2), .step 1, .step 0, .step 0, .step 1, .step 1,
    .step 1, .call 0 (.find 7), .step 0, .step 0, .step 0, .step 0]

theorem run_answers_two_inserts :
    ∃ s : State Nat turningMap.Table (MapOp Nat Nat) (MapLocal Nat Nat),
      run (step (lockfreeMap turningMap)) (start turningMap.new) twoInserts = some s ∧
        Exclusive s ∧
        ∃ f, Answers s.returned f ∧ (s.flag = false → Stands (turningMap.entries s.data) f) :=
  ⟨_, rfl, @run_answers Nat Nat _ _ turningMap Nat _ _ twoInserts rfl⟩

end LockfreeMap

end Tnode
