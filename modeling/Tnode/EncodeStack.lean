import Tnode.LuaHeap
import Tnode.Sequences
import Tnode.Walks

namespace Tnode

open Walks

/-- How a function that works on the Lua stack ends; the stack has no bound here. -/
inductive StackOutcome (n : Nat)
  | returns (rc : Bool) (L : LuaStack n)
  | throws
  | luaError

namespace EncodeStack

variable {n : Nat}

/-- `lua_pop(L, 1); return rc;` -/
def popReturn : Option (StackOutcome n) → Option (StackOutcome n)
  | some (.returns rc L) => some (.returns rc (luaPop 1 L))
  | outcome => outcome

section

variable (lua : Lua) (pool : DescriptorPool) (heap : TableHeap n)

/-- The loop of `encodeField` over the table at `tableIndex`. -/
def encodeLoop (encodeElement : LuaStack n → Option (StackOutcome n)) (tableIndex : Nat) :
    Nat → Bool → LuaStack n → Option (StackOutcome n)
  | 0, _, _ => none
  | turns + 1, rc, L =>
    match luaNext heap L tableIndex with
    | none => some .luaError
    | some (false, L) => some (.returns rc L)
    | some (true, L) =>
      if rc then
        match popReturn (encodeElement L) with
        | some (.returns rc L) => encodeLoop encodeElement tableIndex turns rc L
        | outcome => outcome
      else some (.returns rc L)

/-- `encodeField`. Its loop makes one turn for each entry, and a last one. -/
def encodeField (encodeElement : CppType → LuaStack n → Option (StackOutcome n))
    (field : FieldDescriptor) (L : LuaStack n) : Option (StackOutcome n) :=
  match luaGettable heap (.string field.name :: L) with
  | none => some .luaError
  | some L =>
    if field.isRepeated then
      match L.top with
      | .table r =>
        popReturn (encodeLoop heap (encodeElement field.cppType) L.length
          ((heap r).entries.length + 1) true (.nil :: L))
      | _ => some (.returns true (luaPop 1 L))
    else popReturn (encodeElement field.cppType L)

/-- The loop of `encodeDescriptor`. -/
def encodeFields (encodeElement : CppType → LuaStack n → Option (StackOutcome n)) :
    List FieldDescriptor → LuaStack n → Option (StackOutcome n)
  | [], L => some (.returns true L)
  | field :: fields, L =>
    match encodeField heap encodeElement field L with
    | some (.returns true L) => encodeFields encodeElement fields L
    | outcome => outcome

def encodeDescriptor (encodeElement : CppType → LuaStack n → Option (StackOutcome n)) (ty : Nat)
    (L : LuaStack n) : Option (StackOutcome n) :=
  match L.top with
  | .table _ => encodeFields heap encodeElement (pool ty) L
  | _ => some (.returns false L)

/-- The cases of `encodeFieldRepeated` and `encodeFieldSimple` that read a scalar. -/
def encodeScalar (type : CppType) (L : LuaStack n) : StackOutcome n :=
  match readScalar lua type L.top.toLua with
  | .ok _ => .returns true L
  | .error _ => .throws

/-- `encodeFieldRepeated` and `encodeFieldSimple`, with submessages to a depth below `fuel`. -/
def encodeElement : Nat → CppType → LuaStack n → Option (StackOutcome n)
  | 0, _, _ => none
  | fuel + 1, type, L =>
    if L.top.isNil then some (.returns true L)
    else
      match type with
      | .message ty => encodeDescriptor pool heap (encodeElement fuel) ty L
      | type => some (encodeScalar lua type L)

/-- The values that `encodeField` comes to, for the value of the field. -/
def fieldElements (field : FieldDescriptor) (v : HeapValue n) : List (CppType × HeapValue n) :=
  if field.isRepeated then
    match v with
    | .table r => (heap r).values.map fun w => (field.cppType, w)
    | _ => []
  else [(field.cppType, v)]

/-- A scalar is read or not, and a submessage has the values of its fields to read. -/
def encodeShape (e : CppType × HeapValue n) : Shape (CppType × HeapValue n) :=
  if e.2.isNil then .leaf .passes
  else
    match e.1 with
    | .message ty =>
      match e.2 with
      | .table r =>
        .inner ((pool ty).map fun field => fieldElements heap field ((heap r).get (.string field.name)))
      | _ => .leaf (.fails true)
    | type =>
      match readScalar lua type e.2.toLua with
      | .ok _ => .leaf .passes
      | .error _ => .leaf (.fails false)

end

/-- Starting on the stack `L`: the code gives the stack back when the value passes and when its
failure is last; after any other failure it has left something behind, if it returns at all. -/
inductive Matches (L : LuaStack n) : Option (StackOutcome n) → Option Verdict → Prop
  | unfinished : Matches L none none
  | passes : Matches L (some (.returns true L)) (some .passes)
  | failsLast : Matches L (some (.returns false L)) (some (.fails true))
  | throws : Matches L (some .throws) (some (.fails false))
  | luaError : Matches L (some .luaError) (some (.fails false))
  | leaks (x : HeapValue n) (X : LuaStack n) :
    Matches L (some (.returns false (x :: X ++ L))) (some (.fails false))

theorem Matches.leaks_append (L : LuaStack n) {X : LuaStack n} (h : X ≠ []) :
    Matches L (some (.returns false (X ++ L))) (some (.fails false)) := by
  obtain ⟨x, X, rfl⟩ := List.exists_cons_of_ne_nil h
  exact .leaks x X

theorem Matches.popReturn {v : HeapValue n} {L : LuaStack n} {outcome : Option (StackOutcome n)}
    {verdict : Option Verdict} (h : Matches (v :: L) outcome verdict) :
    Matches L (popReturn outcome) verdict := by
  cases h with
  | unfinished => exact .unfinished
  | passes => exact .passes
  | failsLast => exact .failsLast
  | throws => exact .throws
  | luaError => exact .luaError
  | leaks x X =>
    have hne : X ++ [v] ≠ [] := by simp
    have hleaks := leaks_append L hne
    rw [List.append_assoc, List.singleton_append] at hleaks
    exact hleaks

theorem Matches.none_iff {L : LuaStack n} {outcome : Option (StackOutcome n)}
    {verdict : Option Verdict} (h : Matches L outcome verdict) : outcome = none ↔ verdict = none := by
  cases h <;> simp

section

variable (heap : TableHeap n) (encodeOne : LuaStack n → Option (StackOutcome n)) (r : Fin n)
  (L : LuaStack n)

/-- Once an element has failed the loop ends at the next `lua_next`. -/
theorem encodeLoop_failed (x : HeapValue n) {X : LuaStack n} (hX : X ≠ []) (turns : Nat) :
    Matches (.table r :: L)
      (encodeLoop heap encodeOne (L.length + 1) (turns + 1) false (x :: X ++ .table r :: L))
      (some (.fails false)) := by
  rw [encodeLoop, luaNext_append]
  cases hnext : (heap r).next x with
  | none => exact .luaError
  | some entry =>
    cases entry with
    | none => exact .leaks_append _ hX
    | some e => exact .leaks e.2 (e.1 :: X)

variable {f : HeapValue n → Option Verdict}

theorem encodeLoop_matches (hone : ∀ w S, Matches (w :: S) (encodeOne (w :: S)) (f w))
    {before rest : List (HeapValue n × HeapValue n)} {k : HeapValue n}
    (hentries : (heap r).entries = before ++ rest) (hk : (heap r).next k = some rest.head?) :
    Matches (.table r :: L)
      (encodeLoop heap encodeOne (L.length + 1) (rest.length + 1) true (k :: .table r :: L))
      (visitGroup f (rest.map Prod.snd)) := by
  induction rest generalizing before k with
  | nil =>
    rw [encodeLoop, luaNext_cons, hk]
    exact .passes
  | cons e rest ih =>
    rw [encodeLoop, luaNext_cons, hk, List.map_cons, visitGroup]
    have hkey := HeapTable.next_key hentries
    have hentries' : (heap r).entries = (before ++ [e]) ++ rest := by simpa using hentries
    have he := hone e.2 (e.1 :: .table r :: L)
    simp only [List.head?_cons, if_true, List.length_cons]
    generalize encodeOne (e.2 :: e.1 :: .table r :: L) = outcome at he ⊢
    generalize f e.2 = verdict at he ⊢
    cases he with
    | unfinished => exact .unfinished
    | passes => exact ih hentries' hkey
    | failsLast =>
      simp only [popReturn, luaPop_cons, Bool.true_and]
      rw [encodeLoop, luaNext_cons, hkey]
      cases rest with
      | nil => exact .failsLast
      | cons e' rest => exact .leaks e'.2 [e'.1]
    | throws => exact .throws
    | luaError => exact .luaError
    | leaks x X =>
      simp only [popReturn, luaPop_cons, List.cons_append, Bool.false_and]
      cases X with
      | nil => exact encodeLoop_failed heap encodeOne r L e.2 (List.cons_ne_nil e.1 []) rest.length
      | cons y Y =>
        have hne : Y ++ [e.2, e.1] ≠ [] := by simp
        have hfailed := encodeLoop_failed heap encodeOne r L y hne rest.length
        rw [List.cons_append, List.append_assoc] at hfailed
        exact hfailed

end

section

variable (heap : TableHeap n) {encode : CppType → LuaStack n → Option (StackOutcome n)}
  {f : CppType × HeapValue n → Option Verdict}

theorem visitGroup_singleton (c : CppType × HeapValue n) : visitGroup f [c] = f c := by
  rw [visitGroup]
  cases hc : f c with
  | none => rfl
  | some v =>
    cases v with
    | passes => rfl
    | fails last => cases last <;> rfl

theorem visitGroup_map (type : CppType) (values : List (HeapValue n)) :
    visitGroup f (values.map fun w => (type, w)) = visitGroup (fun w => f (type, w)) values := by
  induction values with
  | nil => rfl
  | cons w values ih => rw [List.map_cons, visitGroup, visitGroup, ih, List.isEmpty_map]

theorem encodeField_matches
    (helement : ∀ type w S, Matches (w :: S) (encode type (w :: S)) (f (type, w)))
    (field : FieldDescriptor) (r : Fin n) (L : LuaStack n) :
    Matches (.table r :: L) (encodeField heap encode field (.table r :: L))
      (visitGroup f (fieldElements heap field ((heap r).get (.string field.name)))) := by
  have hget : luaGettable heap (.string field.name :: .table r :: L) =
      some ((heap r).get (.string field.name) :: .table r :: L) := rfl
  unfold encodeField fieldElements
  rw [hget]
  generalize (heap r).get (.string field.name) = v
  simp only [top_cons]
  cases hr : field.isRepeated with
  | false =>
    simp only [Bool.false_eq_true, if_false]
    rw [visitGroup_singleton]
    exact (helement field.cppType v (.table r :: L)).popReturn
  | true =>
    simp only [if_true]
    cases v with
    | table r' =>
      have hone := helement field.cppType
      have hnext := (heap r').next_nil
      have hloop := encodeLoop_matches heap (encode field.cppType) r' (.table r :: L) hone
        (List.nil_append _).symm hnext
      rw [visitGroup_map]
      exact hloop.popReturn
    | _ => exact .passes

theorem encodeFields_matches
    (helement : ∀ type w S, Matches (w :: S) (encode type (w :: S)) (f (type, w)))
    (fields : List FieldDescriptor) (r : Fin n) (L : LuaStack n) :
    Matches (.table r :: L) (encodeFields heap encode fields (.table r :: L))
      (visitGroups f (fields.map fun field =>
        fieldElements heap field ((heap r).get (.string field.name)))) := by
  induction fields with
  | nil => exact .passes
  | cons field fields ih =>
    rw [encodeFields, List.map_cons, visitGroups]
    have hfield := encodeField_matches heap helement field r L
    generalize encodeField heap encode field (.table r :: L) = outcome at hfield ⊢
    generalize visitGroup f _ = verdict at hfield ⊢
    cases hfield with
    | unfinished => exact .unfinished
    | passes => exact ih
    | failsLast => exact .failsLast
    | throws => exact .throws
    | luaError => exact .luaError
    | leaks x X => exact .leaks x X

end

variable (lua : Lua) (pool : DescriptorPool) (heap : TableHeap n)

/-- The code on the stack and the walk over the values agree at every depth. -/
theorem encodeElement_matches (fuel : Nat) (type : CppType) (v : HeapValue n) (L : LuaStack n) :
    Matches (v :: L) (encodeElement lua pool heap fuel type (v :: L))
      (visit (encodeShape lua pool heap) fuel (type, v)) := by
  induction fuel generalizing type v L with
  | zero => exact .unfinished
  | succ fuel ih =>
    unfold encodeElement
    rw [top_cons]
    by_cases hnil : v.isNil = true
    · have hshape : encodeShape lua pool heap (type, v) = .leaf .passes := if_pos hnil
      rw [visit_leaf hshape, if_pos hnil]
      exact .passes
    · rw [visit, encodeShape, if_neg hnil, if_neg hnil]
      cases type with
      | message ty =>
        cases v with
        | table r => exact encodeFields_matches heap ih (pool ty) r L
        | nil => exact absurd rfl hnil
        | _ => exact .failsLast
      | _ =>
        simp only [encodeScalar, top_cons]
        generalize readScalar lua _ v.toLua = read
        cases read with
        | ok s => exact .passes
        | error e => exact .throws

theorem encodeDescriptor_matches (fuel ty : Nat) (r : Fin n) (L : LuaStack n) :
    Matches (.table r :: L)
      (encodeDescriptor pool heap (encodeElement lua pool heap fuel) ty (.table r :: L))
      (visit (encodeShape lua pool heap) (fuel + 1) (.message ty, .table r)) :=
  encodeElement_matches lua pool heap (fuel + 1) (.message ty) (.table r) L

/-- Encoding the table on top of the stack returns with the height it began with, and no
`lua_next` has raised an error. -/
def ReturnsBalanced (ty : Nat) (L : LuaStack n) : Prop :=
  ∃ fuel rc L', encodeDescriptor pool heap (encodeElement lua pool heap fuel) ty L =
    some (.returns rc L') ∧ L'.length = L.length

theorem ReturnsBalanced.verdict {lua : Lua} {pool : DescriptorPool} {heap : TableHeap n} {ty : Nat}
    {r : Fin n} {L : LuaStack n} (h : ReturnsBalanced lua pool heap ty (.table r :: L)) :
    ∃ fuel v, visit (encodeShape lua pool heap) fuel (.message ty, .table r) = some v ∧
      v ≠ .fails false := by
  obtain ⟨fuel, rc, L', hrun, hheight⟩ := h
  have hmatch := encodeDescriptor_matches lua pool heap fuel ty r L
  rw [hrun] at hmatch
  generalize hv : visit _ _ _ = verdict at hmatch
  cases hmatch with
  | passes => exact ⟨fuel + 1, _, hv, by simp⟩
  | failsLast => exact ⟨fuel + 1, _, hv, by simp⟩
  | leaks x X =>
    simp only [List.length_cons, List.length_append] at hheight
    omega

theorem not_returnsBalanced {ty : Nat} {r : Fin n} (L : LuaStack n) {fuel : Nat}
    (h : visit (encodeShape lua pool heap) fuel (.message ty, .table r) = some (.fails false)) :
    ¬ReturnsBalanced lua pool heap ty (.table r :: L) := by
  intro hbalanced
  obtain ⟨fuel', v, hv, hne⟩ := hbalanced.verdict
  exact hne (visit_unique hv h)

/-- The stack is balanced exactly when every value is encoded, or when the first one that is not
is a submessage that is no table and each table of elements around it ends with it. -/
theorem encodeDescriptor_balanced_iff (ty : Nat) (r : Fin n) (L : LuaStack n) :
    ReturnsBalanced lua pool heap ty (.table r :: L) ↔
      Passes (encodeShape lua pool heap) (.message ty, .table r) ∨
        FailsLast (encodeShape lua pool heap) (.message ty, .table r) := by
  constructor
  · intro h
    obtain ⟨fuel, v, hv, hne⟩ := h.verdict
    cases v with
    | passes => exact Or.inl (.of_visit hv)
    | fails last =>
      cases last with
      | true => exact Or.inr (failsLast_iff.mpr ⟨fuel, hv⟩)
      | false => exact absurd rfl hne
  · intro h
    rcases h with h | h
    · obtain ⟨fuel, hv⟩ := passes_iff.mp h
      have hmatch := encodeDescriptor_matches lua pool heap fuel ty r L
      rw [visit_succ hv] at hmatch
      generalize hrun : encodeDescriptor _ _ _ _ _ = outcome at hmatch
      cases hmatch with
      | passes => exact ⟨fuel, true, _, hrun, rfl⟩
    · obtain ⟨fuel, hv⟩ := failsLast_iff.mp h
      have hmatch := encodeDescriptor_matches lua pool heap fuel ty r L
      rw [visit_succ hv] at hmatch
      generalize hrun : encodeDescriptor _ _ _ _ _ = outcome at hmatch
      cases hmatch with
      | failsLast => exact ⟨fuel, false, _, hrun, rfl⟩

/-- An address book whose `people` are `true` and an empty table. -/
def badPerson : TableHeap 3
  | 0 => ⟨[(.string (bytes "people"), .table 1)], by simp, by simp, by simp⟩
  | 1 => ⟨[(.boolean false, .boolean true), (.boolean true, .table 2)], by simp, by simp, by simp⟩
  | 2 => ⟨[], by simp, by simp, by simp⟩

/-- An address book with a person whose `phones` are `true` and an empty table. -/
def badPhone : TableHeap 5
  | 0 => ⟨[(.string (bytes "people"), .table 1)], by simp, by simp, by simp⟩
  | 1 => ⟨[(.boolean true, .table 2)], by simp, by simp, by simp⟩
  | 2 => ⟨[(.string (bytes "phones"), .table 3)], by simp, by simp, by simp⟩
  | 3 => ⟨[(.boolean false, .boolean true), (.boolean true, .table 4)], by simp, by simp, by simp⟩
  | 4 => ⟨[], by simp, by simp, by simp⟩

/-- A bad element in front of another one leaves two values behind; inside a repeated submessage
`lua_next` is then given a table that is no key. -/
theorem bad_element_unbalanced :
    encodeDescriptor addressBook badPerson (encodeElement sortingLua addressBook badPerson 2) 0
        [.table 0] = some (.returns false [.boolean true, .table 1, .table 0]) ∧
      ¬ReturnsBalanced sortingLua addressBook badPerson 0 [.table 0] ∧
      encodeDescriptor addressBook badPhone (encodeElement sortingLua addressBook badPhone 3) 0
        [.table 0] = some .luaError ∧
      ¬ReturnsBalanced sortingLua addressBook badPhone 0 [.table 0] := by
  refine ⟨rfl, ?_, rfl, ?_⟩
  · have hvisit : visit (encodeShape sortingLua addressBook badPerson) 3 (.message 0, .table 0) =
        some (.fails false) := rfl
    exact not_returnsBalanced _ _ _ [] hvisit
  · have hvisit : visit (encodeShape sortingLua addressBook badPhone) 4 (.message 0, .table 0) =
        some (.fails false) := rfl
    exact not_returnsBalanced _ _ _ [] hvisit

end EncodeStack

end Tnode
