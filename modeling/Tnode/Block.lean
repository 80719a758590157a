import Mathlib.Data.List.Basic

namespace Memory

/-- An allocated block of memory. A cell is `none` until it has been written. -/
abbrev Block (α : Type) := List (Option α)

namespace Block

variable {α : Type}

def alloc (n : Nat) : Block α := List.replicate n none

/-- A read outside the block or of a cell that was never written is undefined. -/
def load (block : Block α) (i : Int) : Option α :=
  if 0 ≤ i then (block[i.toNat]?).join else none

def store (block : Block α) (i : Int) (x : α) : Option (Block α) :=
  if 0 ≤ i ∧ i.toNat < block.length then some (block.set i.toNat (some x)) else none

/-- The cells at the front. -/
def read : Block α → Nat → Option (List α)
  | _, 0 => some []
  | some x :: block, n + 1 => (read block n).map (x :: ·)
  | _, _ + 1 => none

/-- The cells up to the first that holds `stop`, which must be there. -/
def readUntil [DecidableEq α] (stop : α) : Block α → Option (List α)
  | [] => none
  | none :: _ => none
  | some x :: block => if x = stop then some [] else (readUntil stop block).map (x :: ·)

/-- A block of twice the size with what the first `count` cells held. -/
def grow (block : Block α) (count : Nat) : Block α :=
  block.take count ++ alloc (2 * block.length - count)

@[simp] theorem length_alloc (n : Nat) : (alloc n : Block α).length = n := List.length_replicate

theorem alloc_succ (n : Nat) : (alloc (n + 1) : Block α) = none :: alloc n := rfl

theorem load_append (xs : List α) (x : α) (rest : Block α) :
    load (xs.map some ++ some x :: rest) xs.length = some x := by
  simp [load]

theorem store_append (xs : List α) (x : α) (cell : Option α) (rest : Block α) :
    store (xs.map some ++ cell :: rest) xs.length x = some (xs.map some ++ some x :: rest) := by
  rw [store, if_pos ⟨Int.natCast_nonneg _, by simp⟩, Int.toNat_natCast]
  rw [List.set_append_right _ _ (by simp)]
  simp

theorem read_append (xs : List α) (rest : Block α) :
    read (xs.map some ++ rest) xs.length = some xs := by
  induction xs with
  | nil => simp [read]
  | cons x xs ih => simp [read, ih]

theorem readUntil_append [DecidableEq α] {stop : α} {xs : List α} (h : stop ∉ xs)
    (rest : Block α) : readUntil stop (xs.map some ++ some stop :: rest) = some xs := by
  induction xs with
  | nil => simp [readUntil]
  | cons x xs ih =>
    obtain ⟨hx, hxs⟩ := not_or.mp (mt List.mem_cons.mpr h)
    simp [readUntil, Ne.symm hx, ih hxs]

theorem grow_append (xs : List α) (rest : Block α) :
    grow (xs.map some ++ rest) xs.length =
      xs.map some ++ alloc (xs.length + 2 * rest.length) := by
  have hlen : 2 * (xs.map some ++ rest).length - xs.length = xs.length + 2 * rest.length := by
    simp only [List.length_append, List.length_map]
    omega
  rw [grow, hlen]
  congr 1
  exact List.take_left' (List.length_map ..)

end Block

end Memory
