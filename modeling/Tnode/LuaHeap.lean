import Tnode.MessageParser

namespace Tnode

/-- A Lua value when tables are references into a heap of `n` of them. -/
inductive HeapValue (n : Nat)
  | nil
  | boolean (b : Bool)
  | number (x : Double)
  | string (s : List Byte)
  | table (r : Fin n)
  | cfunction (address : Nat)
  | userdata (address : Nat)
deriving DecidableEq

/-- A table, its entries in the order in which `lua_next` visits them. -/
structure HeapTable (n : Nat) where
  entries : List (HeapValue n × HeapValue n)
  distinct : (entries.map Prod.fst).Nodup
  keys_set : ∀ e ∈ entries, e.1 ≠ .nil
  values_set : ∀ e ∈ entries, e.2 ≠ .nil

abbrev TableHeap (n : Nat) := Fin n → HeapTable n

/-- The Lua stack, its top first and without a bound. -/
abbrev LuaStack (n : Nat) := List (HeapValue n)

variable {n : Nat}

/-- The value for the conversions to numbers and strings, which look into no table. -/
def HeapValue.toLua : HeapValue n → LuaValue
  | .nil => .nil
  | .boolean b => .boolean b
  | .number x => .number x
  | .string s => .string s
  | .table _ => .table []
  | .cfunction address => .cfunction address
  | .userdata address => .userdata address

def HeapValue.isNil : HeapValue n → Bool
  | .nil => true
  | _ => false

def lookUp : List (HeapValue n × HeapValue n) → HeapValue n → HeapValue n
  | [], _ => .nil
  | e :: es, k => if e.1 = k then e.2 else lookUp es k

/-- The entry behind the one with the key; `none` when no entry has it. -/
def entryBehind :
    List (HeapValue n × HeapValue n) → HeapValue n → Option (Option (HeapValue n × HeapValue n))
  | [], _ => none
  | e :: es, k => if e.1 = k then some es.head? else entryBehind es k

def HeapTable.get (t : HeapTable n) (k : HeapValue n) : HeapValue n := lookUp t.entries k

/-- What `lua_next` finds behind a key; `none` is the error that it raises for a key that the
table does not have. -/
def HeapTable.next (t : HeapTable n) (k : HeapValue n) :
    Option (Option (HeapValue n × HeapValue n)) :=
  if k = .nil then some t.entries.head? else entryBehind t.entries k

def HeapTable.values (t : HeapTable n) : List (HeapValue n) := t.entries.map Prod.snd

/-- The value at index -1. -/
def LuaStack.top (L : LuaStack n) : HeapValue n := L.headD .nil

/-- The value at a positive index. -/
def LuaStack.atIndex (L : LuaStack n) (index : Nat) : HeapValue n :=
  L.reverse.getD (index - 1) .nil

def luaPop (k : Nat) (L : LuaStack n) : LuaStack n := L.drop k

/-- `lua_gettable(L, -2)`: the key on top gives way to its value; `none` is the error for a value
that has no fields. The tables have no metatables. -/
def luaGettable (heap : TableHeap n) : LuaStack n → Option (LuaStack n)
  | k :: .table r :: L => some ((heap r).get k :: .table r :: L)
  | _ => none

/-- `lua_next`: takes a key from the stack and puts the next entry there, if there is one. -/
def luaNext (heap : TableHeap n) (L : LuaStack n) (index : Nat) : Option (Bool × LuaStack n) :=
  match L.atIndex index with
  | .table r =>
    match (heap r).next L.top with
    | none => none
    | some none => some (false, luaPop 1 L)
    | some (some (k, v)) => some (true, v :: k :: luaPop 1 L)
  | _ => none

@[simp] theorem top_cons (v : HeapValue n) (L : LuaStack n) : LuaStack.top (v :: L) = v := rfl

@[simp] theorem luaPop_cons (v : HeapValue n) (L : LuaStack n) : luaPop 1 (v :: L) = L := rfl

/-- The slots above an index do not matter to it. -/
theorem atIndex_append (X : LuaStack n) (v : HeapValue n) (L : LuaStack n) :
    LuaStack.atIndex (X ++ v :: L) (L.length + 1) = v := by
  simp [LuaStack.atIndex]

theorem luaNext_append (heap : TableHeap n) (x : HeapValue n) (X : LuaStack n) (r : Fin n)
    (L : LuaStack n) : luaNext heap (x :: X ++ .table r :: L) (L.length + 1) =
      match (heap r).next x with
      | none => none
      | some none => some (false, X ++ .table r :: L)
      | some (some (k, v)) => some (true, v :: k :: X ++ .table r :: L) := by
  rw [luaNext, atIndex_append]
  rfl

theorem luaNext_cons (heap : TableHeap n) (x : HeapValue n) (r : Fin n) (L : LuaStack n) :
    luaNext heap (x :: .table r :: L) (L.length + 1) =
      match (heap r).next x with
      | none => none
      | some none => some (false, .table r :: L)
      | some (some (k, v)) => some (true, v :: k :: .table r :: L) :=
  luaNext_append heap x [] r L

theorem entryBehind_append {before after : List (HeapValue n × HeapValue n)}
    {e : HeapValue n × HeapValue n} (h : e.1 ∉ before.map Prod.fst) :
    entryBehind (before ++ e :: after) e.1 = some after.head? := by
  induction before with
  | nil => simp [entryBehind]
  | cons b before ih =>
    rw [List.map_cons, List.mem_cons, not_or] at h
    rw [List.cons_append, entryBehind, if_neg (Ne.symm h.1), ih h.2]

/-- Behind an entry comes the one after it. -/
theorem HeapTable.next_key {t : HeapTable n} {before after : List (HeapValue n × HeapValue n)}
    {e : HeapValue n × HeapValue n} (h : t.entries = before ++ e :: after) :
    t.next e.1 = some after.head? := by
  have hset : e.1 ≠ .nil := t.keys_set e (by simp [h])
  have hnodup := t.distinct
  rw [h, List.map_append, List.map_cons, List.nodup_append] at hnodup
  have hnot : e.1 ∉ before.map Prod.fst := fun hmem => hnodup.2.2 e.1 hmem e.1 (by simp) rfl
  rw [HeapTable.next, if_neg hset, h, entryBehind_append hnot]

theorem HeapTable.next_nil (t : HeapTable n) : t.next .nil = some t.entries.head? := if_pos rfl

end Tnode
