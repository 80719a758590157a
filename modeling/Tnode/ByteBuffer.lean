import Mathlib.Data.List.Basic

namespace Tnode

abbrev Byte := UInt8

theorem forall_byte_lt {p : Byte → Prop} {k : Nat} (h : ∀ n : Fin k, p (UInt8.ofNat n)) {b : Byte}
    (hb : b.toNat < k) : p b := by
  simpa using h ⟨b.toNat, hb⟩

def BUFFER_CHUNK_SIZE : Nat := 0x200

/-- `ByteBuffer`: `buf` is the memory behind `_buf`, indexed by offset, of which
`capacity` bytes are allocated. What an unwritten offset holds is not specified. -/
structure ByteBuffer where
  buf : Nat → Byte
  capacity : Nat
  rindex : Nat
  windex : Nat
  rindex_le : rindex ≤ windex
  windex_le : windex ≤ capacity

namespace ByteBuffer

def size (b : ByteBuffer) : Nat := b.windex - b.rindex

def blank (b : ByteBuffer) : Nat :=
  if b.windex ≥ b.capacity then 0 else b.capacity - b.windex

def reset (b : ByteBuffer) : ByteBuffer :=
  { b with rindex := 0, windex := 0, rindex_le := Nat.le_refl _, windex_le := Nat.zero_le _ }

def shrink (b : ByteBuffer) : ByteBuffer :=
  if b.size = 0 then b.reset else b

/-- `::realloc` keeps the old bytes; the capacity grows by the size asked for. -/
def reserve (b : ByteBuffer) (newsize : Nat) : ByteBuffer :=
  if b.blank > newsize then b
  else
    { b with
      capacity := (if newsize < BUFFER_CHUNK_SIZE then BUFFER_CHUNK_SIZE else newsize) + b.capacity
      windex_le := by have := b.windex_le; omega }

/-- The constructor: nothing is allocated before the first `reserve`. -/
def new (size : Nat := 65535) : ByteBuffer :=
  reserve ⟨fun _ => 0, 0, 0, 0, Nat.le_refl _, Nat.le_refl _⟩ size

def clear (_b : ByteBuffer) : ByteBuffer :=
  ⟨fun _ => 0, 0, 0, 0, Nat.le_refl _, Nat.le_refl _⟩

/-- `none` is the failed assertion `_rindex <= _windex`. -/
def rlength (b : ByteBuffer) (len : Nat) : Option ByteBuffer :=
  if h : b.rindex + len ≤ b.windex then
    some (shrink { b with rindex := b.rindex + len, rindex_le := h })
  else none

/-- `none` is the failed assertion `_windex <= _capacity`. -/
def wlength (b : ByteBuffer) (len : Nat) : Option ByteBuffer :=
  if h : b.windex + len ≤ b.capacity then
    some { b with windex := b.windex + len, windex_le := h, rindex_le := by have := b.rindex_le; omega }
  else none

/-- The `len` bytes at the pointer `rbuffer()`. -/
def rbuffer (b : ByteBuffer) (len : Nat) : List Byte :=
  (List.range len).map fun i => b.buf (b.rindex + i)

/-- The call `wbuffer(n)`; the pointer it returns is the offset `windex`. -/
def wbuffer (b : ByteBuffer) (reserve_size : Nat) : ByteBuffer := b.reserve reserve_size

/-- Bytes written at the pointer `wbuffer` returned; `none` is a write past the
allocated memory. -/
def store (b : ByteBuffer) (s : List Byte) : Option ByteBuffer :=
  if b.windex + s.length ≤ b.capacity then
    some { b with buf := fun i =>
      if b.windex ≤ i ∧ i < b.windex + s.length then s.getD (i - b.windex) 0 else b.buf i }
  else none

def append (b : ByteBuffer) (s : List Byte) : Option ByteBuffer := do
  let b ← (b.wbuffer s.length).store s
  b.wlength s.length

def unread (b : ByteBuffer) : List Byte := b.rbuffer b.size

@[simp] theorem length_rbuffer (b : ByteBuffer) (len : Nat) : (b.rbuffer len).length = len := by
  simp [rbuffer]

@[simp] theorem length_unread (b : ByteBuffer) : b.unread.length = b.size := by
  simp [unread]

theorem rbuffer_eq_take {b : ByteBuffer} {len : Nat} (h : len ≤ b.size) :
    b.rbuffer len = b.unread.take len := by
  simp only [unread, rbuffer, ← List.map_take, List.take_range, Nat.min_eq_left h]

theorem windex_eq (b : ByteBuffer) : b.windex = b.rindex + b.size := by
  have := b.rindex_le
  simp only [size]
  omega

@[simp] theorem unread_reserve (b : ByteBuffer) (n : Nat) : (b.reserve n).unread = b.unread := by
  unfold reserve
  split <;> rfl

@[simp] theorem windex_reserve (b : ByteBuffer) (n : Nat) : (b.reserve n).windex = b.windex := by
  unfold reserve
  split <;> rfl

@[simp] theorem rindex_reserve (b : ByteBuffer) (n : Nat) : (b.reserve n).rindex = b.rindex := by
  unfold reserve
  split <;> rfl

theorem reserve_room (b : ByteBuffer) (n : Nat) : b.windex + n ≤ (b.reserve n).capacity := by
  have hb := b.windex_le
  unfold reserve
  split
  next h =>
    simp only [blank] at h
    split at h <;> omega
  next =>
    dsimp only
    split <;> omega

@[simp] theorem unread_shrink (b : ByteBuffer) : b.shrink.unread = b.unread := by
  unfold shrink
  split
  next h =>
    have hs : b.reset.size = b.size := h.symm
    simp [unread, hs, h, rbuffer]
  next => rfl

@[simp] theorem unread_new (n : Nat) : (ByteBuffer.new n).unread = [] := by
  simp only [ByteBuffer.new, unread_reserve]
  rfl

theorem rlength_spec {b : ByteBuffer} {len : Nat} (h : len ≤ b.size) :
    ∃ b', b.rlength len = some b' ∧ b'.unread = b.unread.drop len := by
  have hw := b.windex_eq
  have hb : b.rindex + len ≤ b.windex := by omega
  refine ⟨_, by simp only [rlength, hb, ↓reduceDIte]; rfl, ?_⟩
  rw [unread_shrink]
  apply List.ext_getElem
  · simp only [length_unread, List.length_drop, size]
    omega
  · intro i hi _
    simp only [length_unread, size] at hi
    simp [unread, rbuffer, Nat.add_assoc]

theorem unread_rlength {b b' : ByteBuffer} {len : Nat} (h : b.rlength len = some b') :
    b'.unread = b.unread.drop len ∧ len ≤ b.size := by
  have hb : b.rindex + len ≤ b.windex := by
    unfold rlength at h
    split at h
    next hb => exact hb
    next => simp at h
  have hl : len ≤ b.size := by simp only [size]; omega
  obtain ⟨c, hc, hu⟩ := rlength_spec hl
  cases Option.some.inj (hc.symm.trans h)
  exact ⟨hu, hl⟩

/-- Writing bytes at the write index and advancing it appends them. -/
theorem store_wlength_spec {b : ByteBuffer} {s : List Byte}
    (room : b.windex + s.length ≤ b.capacity) :
    ∃ c d, b.store s = some c ∧ c.wlength s.length = some d ∧ d.unread = b.unread ++ s := by
  refine ⟨_, _, by simp only [store, room, ↓reduceIte]; rfl,
    by simp only [wlength, room, ↓reduceDIte]; rfl, ?_⟩
  have hr := b.rindex_le
  apply List.ext_getElem
  · simp only [length_unread, List.length_append, size]
    omega
  · intro i hi _
    simp only [length_unread, size] at hi
    by_cases hlow : i < b.windex - b.rindex
    · have hn : ¬ b.windex ≤ b.rindex + i := by omega
      simp [unread, rbuffer, size, List.getElem_append_left, hlow, hn]
    · have hp : b.windex ≤ b.rindex + i ∧ b.rindex + i < b.windex + s.length := by omega
      have hi' : b.rindex + i - b.windex = i - (b.windex - b.rindex) := by omega
      have hl : i - (b.windex - b.rindex) < s.length := by omega
      rw [List.getElem_append_right (by simpa [size] using hlow)]
      simp [unread, rbuffer, size, hp, hi', hl]

theorem unread_store {b c : ByteBuffer} {s : List Byte} (h : b.store s = some c) :
    c.unread = b.unread := by
  unfold store at h
  split at h
  next room =>
    cases h
    apply List.map_congr_left
    intro i hi
    have hi' : i < b.size := List.mem_range.mp hi
    have hw := b.windex_eq
    have hn : ¬ b.windex ≤ b.rindex + i := by omega
    simp [hn]
  next => simp at h

theorem append_spec (b : ByteBuffer) (s : List Byte) :
    ∃ d, b.append s = some d ∧ d.unread = b.unread ++ s := by
  have room : (b.wbuffer s.length).windex + s.length ≤ (b.wbuffer s.length).capacity := by
    simpa [wbuffer] using b.reserve_room s.length
  obtain ⟨c, d, hc, hd, hu⟩ := store_wlength_spec room
  exact ⟨d, by simp [append, hc, hd], by simpa [wbuffer] using hu⟩

end ByteBuffer

end Tnode
