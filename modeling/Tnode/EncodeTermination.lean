import Tnode.EncodeStack
import Tnode.JsonEncode
import Mathlib.Data.Fintype.Prod
import Mathlib.Data.Set.Finite.Range

namespace Tnode

open Walks

variable {n : Nat}

namespace HeapJson

section

variable (lua : Lua) (createJsonEscapes : List Byte → List Byte) (heap : TableHeap n)

/-- `lua_tolstring` on a copy of the key; the null pointer has no text. -/
def keyText : HeapValue n → List Byte
  | .number x => lua.num2str x
  | .string s => s
  | _ => []

/-- The loop over the entries of a table. -/
def dumpEntries (dump : HeapValue n → Option (Bool × List Byte)) :
    List (HeapValue n × HeapValue n) → Nat → Option (Bool × List Byte)
  | [], _ => some (true, [])
  | e :: es, idx => do
    let (rc, value) ← dump e.2
    let s := (if 0 < idx then [44] else []) ++ createJsonEscapes (keyText lua e.1) ++ 58 :: value
    if rc then
      let (rc, rest) ← dumpEntries dump es (idx + 1)
      return (rc, s ++ rest)
    else return (false, s)

/-- `luaT_json_parser_dump_object`, to a depth below `fuel`: what it returns and appends. -/
def jsonParserDumpObject : Nat → HeapValue n → Option (Bool × List Byte)
  | 0, _ => none
  | fuel + 1, v =>
    match v with
    | .nil => some (true, bytes "null")
    | .number x => some (true, lua.num2str x)
    | .boolean b => some (true, if b then bytes "true" else bytes "false")
    | .string s => some (true, createJsonEscapes s)
    | .table r => do
      let (rc, s) ← dumpEntries lua createJsonEscapes (jsonParserDumpObject fuel) (heap r).entries 0
      return (rc, 123 :: s ++ if rc then [125] else [])
    | .cfunction address => some (true, createJsonEscapes (bytes "function:" ++ pointerText address))
    | .userdata _ => some (false, [])

/-- Every value can be dumped but a userdata, and a table when its values can. -/
def dumpShape : HeapValue n → Shape (HeapValue n)
  | .table r => .inner [(heap r).values]
  | .userdata _ => .leaf (.fails true)
  | _ => .leaf .passes

end

def returnValue : Verdict → Bool
  | .passes => true
  | .fails _ => false

theorem dumpEntries_visit (lua : Lua) (createJsonEscapes : List Byte → List Byte)
    {dump : HeapValue n → Option (Bool × List Byte)} {f : HeapValue n → Option Verdict}
    (hdump : ∀ v, (dump v).map Prod.fst = (f v).map returnValue)
    (entries : List (HeapValue n × HeapValue n)) (idx : Nat) :
    (dumpEntries lua createJsonEscapes dump entries idx).map Prod.fst =
      (visitGroup f (entries.map Prod.snd)).map returnValue := by
  induction entries generalizing idx with
  | nil => rfl
  | cons e es ih =>
    have he := hdump e.2
    rw [dumpEntries, List.map_cons, visitGroup]
    cases hv : f e.2 with
    | none =>
      rw [hv, Option.map_none, Option.map_eq_none_iff] at he
      rw [he]
      rfl
    | some v =>
      rw [hv] at he
      obtain ⟨⟨rc, value⟩, hd, hrc⟩ := Option.map_eq_some_iff.mp he
      simp only at hrc
      rw [hd, hrc]
      cases v with
      | fails last => rfl
      | passes =>
        have hrest := ih (idx + 1)
        simp only [returnValue, Option.bind_eq_bind, Option.bind_some, if_true]
        rw [← hrest]
        cases dumpEntries lua createJsonEscapes dump es (idx + 1) <;> rfl

/-- Dumping a value returns what the walk over it finds. -/
theorem jsonParserDumpObject_visit (lua : Lua) (createJsonEscapes : List Byte → List Byte)
    (heap : TableHeap n) (fuel : Nat) (v : HeapValue n) :
    (jsonParserDumpObject lua createJsonEscapes heap fuel v).map Prod.fst =
      (visit (dumpShape heap) fuel v).map returnValue := by
  induction fuel generalizing v with
  | zero => rfl
  | succ fuel ih =>
    cases v with
    | table r =>
      have hentries := dumpEntries_visit lua createJsonEscapes ih (heap r).entries 0
      have hshape : dumpShape heap (.table r) = .inner [(heap r).values] := rfl
      rw [visit_inner hshape, jsonParserDumpObject]
      have hgroups : visitGroups (visit (dumpShape heap) fuel) [(heap r).values] =
          visitGroup (visit (dumpShape heap) fuel) ((heap r).entries.map Prod.snd) := by
        rw [visitGroups]
        split
        next h => exact h.symm
        next => rfl
      rw [hgroups, ← hentries]
      cases dumpEntries lua createJsonEscapes (jsonParserDumpObject lua createJsonEscapes heap fuel)
        (heap r).entries 0 <;> rfl
    | _ => rfl

/-- `luaT_json_parser_dump_object` returns. -/
def Terminates (lua : Lua) (createJsonEscapes : List Byte → List Byte) (heap : TableHeap n)
    (v : HeapValue n) : Prop :=
  ∃ fuel result, jsonParserDumpObject lua createJsonEscapes heap fuel v = some result

theorem terminates_iff_visit {lua : Lua} {createJsonEscapes : List Byte → List Byte}
    {heap : TableHeap n} {v : HeapValue n} :
    Terminates lua createJsonEscapes heap v ↔
      ∃ fuel verdict, visit (dumpShape heap) fuel v = some verdict := by
  constructor
  · intro h
    obtain ⟨fuel, result, hresult⟩ := h
    have hvisit := jsonParserDumpObject_visit lua createJsonEscapes heap fuel v
    rw [hresult] at hvisit
    obtain ⟨verdict, hverdict, _⟩ := Option.map_eq_some_iff.mp hvisit.symm
    exact ⟨fuel, verdict, hverdict⟩
  · intro h
    obtain ⟨fuel, verdict, hverdict⟩ := h
    have hvisit := jsonParserDumpObject_visit lua createJsonEscapes heap fuel v
    rw [hverdict] at hvisit
    obtain ⟨result, hresult, _⟩ := Option.map_eq_some_iff.mp hvisit
    exact ⟨fuel, result, hresult⟩

theorem finite_entering (heap : TableHeap n) : {v | ∃ c, Enters (dumpShape heap) v c}.Finite := by
  apply (Set.finite_range (HeapValue.table (n := n))).subset
  intro v hv
  obtain ⟨c, groups, ds, hshape, _⟩ := hv
  cases v with
  | table r => exact ⟨r, rfl⟩
  | _ => cases hshape

end HeapJson

namespace EncodeStack

/-- `encodeDescriptor` returns or ends with an error. -/
def Terminates (lua : Lua) (pool : DescriptorPool) (heap : TableHeap n) (ty : Nat)
    (L : LuaStack n) : Prop :=
  ∃ fuel outcome, encodeDescriptor pool heap (encodeElement lua pool heap fuel) ty L = some outcome

theorem terminates_iff_visit {lua : Lua} {pool : DescriptorPool} {heap : TableHeap n} {ty : Nat}
    {r : Fin n} {L : LuaStack n} :
    Terminates lua pool heap ty (.table r :: L) ↔
      ∃ fuel verdict, visit (encodeShape lua pool heap) fuel (.message ty, .table r) =
        some verdict := by
  constructor
  · intro h
    obtain ⟨fuel, outcome, houtcome⟩ := h
    have hiff := (encodeDescriptor_matches lua pool heap fuel ty r L).none_iff
    cases hv : visit (encodeShape lua pool heap) (fuel + 1) (.message ty, .table r) with
    | some verdict => exact ⟨fuel + 1, verdict, hv⟩
    | none =>
      rw [hiff.mpr hv] at houtcome
      cases houtcome
  · intro h
    obtain ⟨fuel, verdict, hv⟩ := h
    have hiff := (encodeDescriptor_matches lua pool heap fuel ty r L).none_iff
    cases ho : encodeDescriptor pool heap (encodeElement lua pool heap fuel) ty (.table r :: L) with
    | some outcome => exact ⟨fuel, outcome, ho⟩
    | none =>
      have hsucc := visit_succ hv
      rw [hiff.mp ho] at hsucc
      cases hsucc

theorem encodeShape_inner {lua : Lua} {pool : DescriptorPool} {heap : TableHeap n}
    {e : CppType × HeapValue n} {groups : List (List (CppType × HeapValue n))}
    (h : encodeShape lua pool heap e = .inner groups) :
    ∃ ty r, e = (.message ty, .table r) ∧ groups = (pool ty).map fun field =>
      fieldElements heap field ((heap r).get (.string field.name)) := by
  obtain ⟨type, v⟩ := e
  unfold encodeShape at h
  split at h
  next => cases h
  next =>
    split at h
    next ty htype =>
      split at h
      next r hr =>
        cases h
        exact ⟨ty, r, Prod.ext htype hr, rfl⟩
      next => cases h
    next =>
      split at h
      next => cases h
      next => cases h

/-- A pool of finitely many message types. -/
def poolOf (types : List (List FieldDescriptor)) : DescriptorPool := fun ty => types.getD ty []

theorem finite_entering (lua : Lua) (types : List (List FieldDescriptor)) (heap : TableHeap n) :
    {e | ∃ c, Enters (encodeShape lua (poolOf types) heap) e c}.Finite := by
  apply (Set.finite_range fun p : Fin types.length × Fin n =>
    (CppType.message p.1, HeapValue.table p.2)).subset
  intro e he
  obtain ⟨c, groups, ds, hshape, hbehind⟩ := he
  obtain ⟨ty, r, rfl, hgroups⟩ := encodeShape_inner hshape
  obtain ⟨g, hg, _⟩ := hbehind.mem
  have hlt : ty < types.length := by
    by_contra hge
    have hempty : poolOf types ty = [] := List.getD_eq_default _ _ (Nat.le_of_not_lt hge)
    rw [hgroups, hempty] at hg
    cases hg
  exact ⟨(⟨ty, hlt⟩, r), rfl⟩

end EncodeStack

/-- Both encoders return exactly when no table they come to, behind entries that are encoded, is
entered again from within itself: by `cc.json_encode` at all, by `cc.message_encode` for the same
message type. -/
theorem encoders_terminate_iff (lua : Lua) (createJsonEscapes : List Byte → List Byte)
    (heap : TableHeap n) (r : Fin n) :
    (HeapJson.Terminates lua createJsonEscapes heap (.table r) ↔
      ¬Reenters (HeapJson.dumpShape heap) (.table r)) ∧
    ∀ (types : List (List FieldDescriptor)) (ty : Nat) (L : LuaStack n),
      EncodeStack.Terminates lua (EncodeStack.poolOf types) heap ty (.table r :: L) ↔
        ¬Reenters (EncodeStack.encodeShape lua (EncodeStack.poolOf types) heap)
          (.message ty, .table r) := by
  constructor
  · have hfin := HeapJson.finite_entering heap
    exact HeapJson.terminates_iff_visit.trans (terminates_iff hfin)
  · intro types ty L
    have hfin := EncodeStack.finite_entering lua types heap
    exact EncodeStack.terminates_iff_visit.trans (terminates_iff hfin)

/-- A table that holds itself under `child`. -/
def selfHolding : TableHeap 1 := fun _ =>
  ⟨[(.string (bytes "child"), .table 0)], by simp, by simp, by simp⟩

/-- A message type with a field `child` of its own type. -/
def childType : List (List FieldDescriptor) :=
  [[⟨bytes "child", .message 0, false, true, none⟩]]

theorem selfHolding_endless :
    ¬HeapJson.Terminates sortingLua id selfHolding (.table 0) ∧
      ¬EncodeStack.Terminates sortingLua (EncodeStack.poolOf childType) selfHolding 0
        [.table 0] := by
  have hdump : Enters (HeapJson.dumpShape selfHolding) (.table 0) (.table 0) :=
    ⟨[[.table 0]], [], rfl, [], [], [], rfl, by simp, by simp⟩
  have hencode : Enters (EncodeStack.encodeShape sortingLua (EncodeStack.poolOf childType)
      selfHolding) (.message 0, .table 0) (.message 0, .table 0) :=
    ⟨[[(.message 0, .table 0)]], [], rfl, [], [], [], rfl, by simp, by simp⟩
  constructor
  · rw [HeapJson.terminates_iff_visit]
    exact endless_of_enters_self hdump
  · rw [EncodeStack.terminates_iff_visit]
    exact endless_of_enters_self hencode

end Tnode
