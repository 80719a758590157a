import Tnode.Transitions
import Tnode.ByteBuffer
import Mathlib.Algebra.Group.Nat.Defs

namespace Tnode

open Transitions

def SIZE_T : Nat := 2 ^ 64

/-- The object `ByteBuffer` with the arithmetic of `size_t`: nothing is assumed of the
indices. `::realloc` is taken to serve every request it is given. -/
structure RawBuffer where
  buf : Nat → Byte
  capacity : Nat
  rindex : Nat
  windex : Nat

namespace RawBuffer

/-- `none` is the failed assertion `_windex >= _rindex`. -/
def size (b : RawBuffer) : Option Nat :=
  if b.windex ≥ b.rindex then some (b.windex - b.rindex) else none

def blank (b : RawBuffer) : Nat :=
  if b.windex ≥ b.capacity then 0 else b.capacity - b.windex

def clear (_b : RawBuffer) : RawBuffer := ⟨fun _ => 0, 0, 0, 0⟩

def reset (b : RawBuffer) : RawBuffer := { b with rindex := 0, windex := 0 }

def reserve (b : RawBuffer) (newsize : Nat) : RawBuffer :=
  if b.blank > newsize then b
  else
    { b with
      capacity :=
        ((if newsize < BUFFER_CHUNK_SIZE then BUFFER_CHUNK_SIZE else newsize) + b.capacity) %
          SIZE_T }

def new (size : Nat := 65535) : RawBuffer := reserve ⟨fun _ => 0, 0, 0, 0⟩ size

def shrink (b : RawBuffer) : Option RawBuffer := do
  let size ← b.size
  return if size = 0 then b.reset else b

def rlength (b : RawBuffer) (len : Nat) : Option RawBuffer :=
  let b := { b with rindex := (b.rindex + len) % SIZE_T }
  if b.rindex ≤ b.windex then b.shrink else none

def wlength (b : RawBuffer) (len : Nat) : Option RawBuffer :=
  let b := { b with windex := (b.windex + len) % SIZE_T }
  if b.windex ≤ b.capacity then some b else none

def wbuffer (b : RawBuffer) (reserve_size : Nat) : RawBuffer := b.reserve reserve_size

/-- The bytes copied out from `rbuffer()`; `none` is a read past the allocated memory. -/
def load (b : RawBuffer) (len : Nat) : Option (List Byte) :=
  if b.rindex + len ≤ b.capacity then some ((List.range len).map fun i => b.buf (b.rindex + i))
  else none

/-- Bytes copied to the pointer `wbuffer` returned; `none` is a write past the allocated
memory. -/
def store (b : RawBuffer) (s : List Byte) : Option RawBuffer :=
  if b.windex + s.length ≤ b.capacity then
    some { b with buf := fun i =>
      if b.windex ≤ i ∧ i < b.windex + s.length then s.getD (i - b.windex) 0 else b.buf i }
  else none

def append (b : RawBuffer) (s : List Byte) : Option RawBuffer := do
  let b ← (b.wbuffer s.length).store s
  b.wlength s.length

def read (b : RawBuffer) (len : Nat) : Option (List Byte × RawBuffer) := do
  let out ← b.load len
  let b ← b.rlength len
  return (out, b)

end RawBuffer

namespace ByteBuffer

def raw (b : ByteBuffer) : RawBuffer := ⟨b.buf, b.capacity, b.rindex, b.windex⟩

/-- The capacity a `reserve` that grows asks `::realloc` for. -/
def grown (b : ByteBuffer) (n : Nat) : Nat :=
  (if n < BUFFER_CHUNK_SIZE then BUFFER_CHUNK_SIZE else n) + b.capacity

theorem reserve_capacity (b : ByteBuffer) (n : Nat) :
    (b.reserve n).capacity = if b.blank > n then b.capacity else b.grown n := by
  unfold reserve grown
  split <;> rfl

theorem raw_blank (b : ByteBuffer) : b.raw.blank = b.blank := rfl

theorem raw_reserve {b : ByteBuffer} {n : Nat} (h : n < b.blank ∨ b.grown n < SIZE_T) :
    b.raw.reserve n = (b.reserve n).raw := by
  unfold RawBuffer.reserve reserve
  rw [raw_blank]
  split
  next => rfl
  next hb =>
    have hg : b.grown n < SIZE_T := h.resolve_left hb
    have hm := Nat.mod_eq_of_lt hg
    unfold grown at hm
    simp only [raw, hm]

/-- A request that wraps around shrinks the memory below what was asked for. -/
theorem raw_reserve_wrapped {b : ByteBuffer} {n : Nat} (hn : n < SIZE_T)
    (hb : b.capacity < SIZE_T) (h : ¬ (n < b.blank ∨ b.grown n < SIZE_T)) :
    b.raw.reserve n = { b.raw with capacity := b.grown n - SIZE_T } ∧
      b.grown n - SIZE_T < b.windex + n := by
  obtain ⟨hblank, hwrap⟩ := not_or.mp h
  have hchunk : BUFFER_CHUNK_SIZE < SIZE_T := by decide
  have hgrown : b.grown n < 2 * SIZE_T := by
    unfold grown
    split <;> omega
  have hm : b.grown n % SIZE_T = b.grown n - SIZE_T := by
    rw [Nat.mod_eq_sub_mod (by omega), Nat.mod_eq_of_lt (by omega)]
  constructor
  · unfold RawBuffer.reserve
    rw [raw_blank, if_neg hblank, ← hm]
    rfl
  · have hw := b.windex_le
    have hfree : b.capacity - b.windex ≤ n := by
      simp only [blank] at hblank
      split at hblank <;> omega
    have hsmall : BUFFER_CHUNK_SIZE + BUFFER_CHUNK_SIZE < SIZE_T := by decide
    by_cases hs : n < BUFFER_CHUNK_SIZE
    · simp only [grown, hs, if_true] at hwrap ⊢
      omega
    · simp only [grown, hs, if_false] at hwrap ⊢
      omega

theorem reserve_capacity_lt {b : ByteBuffer} {n : Nat} (hb : b.capacity < SIZE_T)
    (h : n < b.blank ∨ b.grown n < SIZE_T) : (b.reserve n).capacity < SIZE_T := by
  rw [reserve_capacity]
  split
  next => exact hb
  next hn => exact h.resolve_left hn

theorem raw_shrink (b : ByteBuffer) : b.raw.shrink = some b.shrink.raw := by
  have hr := b.rindex_le
  have hs : b.raw.size = some b.size := by simp only [RawBuffer.size, raw, ge_iff_le, hr, if_true, size]
  unfold RawBuffer.shrink shrink
  rw [hs]
  simp only [Option.bind_eq_bind, Option.bind_some, Option.pure_def, Option.some.injEq]
  split <;> rfl

theorem raw_rlength {b : ByteBuffer} {len : Nat} (hb : b.capacity < SIZE_T) (h : len ≤ b.size) :
    b.raw.rlength len = (b.rlength len).map raw := by
  have hw := b.windex_eq
  have hc := b.windex_le
  have hlen : b.rindex + len ≤ b.windex := by omega
  have hm : (b.rindex + len) % SIZE_T = b.rindex + len := Nat.mod_eq_of_lt (by omega)
  have hs := raw_shrink { b with rindex := b.rindex + len, rindex_le := hlen }
  simp only [raw] at hs
  simp only [RawBuffer.rlength, rlength, raw, hm, hlen, if_true, dite_true, hs, Option.map_some]

theorem rlength_capacity {b d : ByteBuffer} {len : Nat} (h : b.rlength len = some d) :
    d.capacity = b.capacity := by
  unfold rlength at h
  split at h
  next =>
    cases h
    unfold shrink
    split <;> rfl
  next => simp at h

theorem raw_store_wlength {b : ByteBuffer} {s : List Byte} (hb : b.capacity < SIZE_T)
    (room : b.windex + s.length ≤ b.capacity) :
    ∃ d : ByteBuffer, ((b.raw.store s).bind fun c => c.wlength s.length) = some d.raw ∧
      d.capacity = b.capacity ∧ d.unread = b.unread ++ s := by
  obtain ⟨c, d, hc, hd, hu⟩ := store_wlength_spec room
  have hm : (b.windex + s.length) % SIZE_T = b.windex + s.length := Nat.mod_eq_of_lt (by omega)
  simp only [store, room, if_true, Option.some.injEq] at hc
  subst hc
  simp only [wlength, room, dite_true, Option.some.injEq] at hd
  subst hd
  refine ⟨_, ?_, ?_, hu⟩
  · simp only [RawBuffer.store, RawBuffer.wlength, raw, room, if_true, Option.bind_some, hm]
    rfl
  · rfl

theorem raw_load {b : ByteBuffer} {len : Nat} (h : len ≤ b.size) :
    b.raw.load len = some (b.unread.take len) := by
  have hw := b.windex_eq
  have hc := b.windex_le
  have hlen : b.rindex + len ≤ b.capacity := by omega
  rw [← rbuffer_eq_take h]
  simp only [RawBuffer.load, raw, hlen, if_true, rbuffer]

@[simp] theorem unread_reset (b : ByteBuffer) : b.reset.unread = [] := rfl

@[simp] theorem unread_clear (b : ByteBuffer) : b.clear.unread = [] := rfl

end ByteBuffer

/-- A buffer in use, with the bytes written to it and read from it since the last `reset`
or `clear`. -/
structure BufferInUse where
  buffer : RawBuffer
  written : List Byte
  got : List Byte

namespace BufferInUse

/-- `commit` is `wbuffer(n)`, bytes put at the pointer it returns, and `wlength` of as many. -/
inductive Op
  | append (s : List Byte)
  | read (len : Nat)
  | commit (n : Nat) (s : List Byte)
  | rlength (len : Nat)
  | reserve (n : Nat)
  | reset
  | clear
deriving DecidableEq

def new (size : Nat) : BufferInUse := ⟨RawBuffer.new size, [], []⟩

def step (s : BufferInUse) : Op → Option BufferInUse
  | .append x => do
    let b ← s.buffer.append x
    return ⟨b, s.written ++ x, s.got⟩
  | .read len => do
    let (out, b) ← s.buffer.read len
    return ⟨b, s.written, s.got ++ out⟩
  | .commit n x => do
    let b ← (s.buffer.wbuffer n).store x
    let b ← b.wlength x.length
    return ⟨b, s.written ++ x, s.got⟩
  | .rlength len => do
    let out ← s.buffer.load len
    let b ← s.buffer.rlength len
    return ⟨b, s.written, s.got ++ out⟩
  | .reserve n => some { s with buffer := s.buffer.reserve n }
  | .reset => some ⟨s.buffer.reset, [], []⟩
  | .clear => some ⟨s.buffer.clear, [], []⟩

/-- Reads never ask for more than `size()`, and no more is committed than was reserved. -/
def InDomain (s : BufferInUse) : Op → Prop
  | .append x => x.length < SIZE_T
  | .read len | .rlength len => ∃ size, s.buffer.size = some size ∧ len ≤ size
  | .commit n x => n < SIZE_T ∧ x.length ≤ n
  | .reserve n => n < SIZE_T
  | .reset | .clear => True

/-- The indices are in order, and what was read and what waits is what was written. -/
structure InOrder (s : BufferInUse) : Prop where
  rindex_le : s.buffer.rindex ≤ s.buffer.windex
  windex_le : s.buffer.windex ≤ s.buffer.capacity
  queue : ∃ rest, s.buffer.load (s.buffer.windex - s.buffer.rindex) = some rest ∧
    s.got ++ rest = s.written

/-- `n` bytes of room lie behind `_windex` once `wbuffer(n)` has returned. -/
def RoomFor (s : BufferInUse) (n : Nat) : Prop :=
  (s.buffer.wbuffer n).windex + n ≤ (s.buffer.wbuffer n).capacity

def HasRoom (s : BufferInUse) : Op → Prop
  | .append x => s.RoomFor x.length
  | .commit n _ => s.RoomFor n
  | _ => True

/-- The operation fails no assertion, finds the room it asks for and leaves a queue. -/
def Served (s : BufferInUse) (op : Op) : Prop :=
  s.HasRoom op ∧ ∃ t, s.step op = some t ∧ t.InOrder

/-- What `reserve` asks `::realloc` for when it grows, before it wraps around. -/
def grown (s : BufferInUse) (n : Nat) : Nat :=
  (if n < BUFFER_CHUNK_SIZE then BUFFER_CHUNK_SIZE else n) + s.buffer.capacity

/-- `n` bytes are free already, or the new capacity is a `size_t`. -/
def Fits (s : BufferInUse) (n : Nat) : Prop := n < s.buffer.blank ∨ s.grown n < SIZE_T

/-- No request wraps around; a mere `reserve` may, as long as what is written fits. -/
def NoWrap (s : BufferInUse) : Op → Prop
  | .append x => s.Fits x.length
  | .commit n _ => s.Fits n
  | .reserve n => s.Fits n ∨ s.buffer.windex ≤ s.grown n - SIZE_T
  | _ => True

instance (s : BufferInUse) (n : Nat) : Decidable (s.Fits n) :=
  inferInstanceAs (Decidable (_ ∨ _))

instance (s : BufferInUse) (op : Op) : Decidable (s.NoWrap op) :=
  match op with
  | .append x => inferInstanceAs (Decidable (s.Fits x.length))
  | .commit n _ => inferInstanceAs (Decidable (s.Fits n))
  | .reserve n => inferInstanceAs (Decidable (s.Fits n ∨ s.buffer.windex ≤ s.grown n - SIZE_T))
  | .read _ | .rlength _ | .reset | .clear => isTrue trivial

/-- A buffer in use refines `ByteBuffer`, whose fields carry the order of the indices. -/
def Refines (s : BufferInUse) (b : ByteBuffer) : Prop :=
  s.buffer = b.raw ∧ b.capacity < SIZE_T ∧ s.got ++ b.unread = s.written

theorem Refines.inOrder {s : BufferInUse} {b : ByteBuffer} (h : s.Refines b) : s.InOrder := by
  obtain ⟨hb, -, hq⟩ := h
  refine ⟨?_, ?_, b.unread, ?_, hq⟩
  · rw [hb]
    exact b.rindex_le
  · rw [hb]
    exact b.windex_le
  · have hl := b.raw_load (Nat.le_refl _)
    rw [← b.length_unread, List.take_length, b.length_unread] at hl
    rw [hb]
    exact hl

theorem Refines.size {s : BufferInUse} {b : ByteBuffer} (h : s.Refines b) :
    s.buffer.size = some b.size := by
  have hr := b.rindex_le
  rw [h.1]
  simp only [RawBuffer.size, ByteBuffer.raw, ge_iff_le, hr, if_true, ByteBuffer.size]

/-- A request that wraps around leaves less room than was asked for. -/
theorem Refines.roomFor_iff {s : BufferInUse} {b : ByteBuffer} (h : s.Refines b) {n : Nat}
    (hn : n < SIZE_T) : s.RoomFor n ↔ s.Fits n := by
  obtain ⟨hb, hc, -⟩ := h
  unfold RoomFor RawBuffer.wbuffer
  rw [hb]
  by_cases hfit : n < b.blank ∨ b.grown n < SIZE_T
  · have hroom := b.reserve_room n
    have hwin := b.windex_reserve n
    rw [ByteBuffer.raw_reserve hfit]
    exact iff_of_true (by simp only [ByteBuffer.raw]; omega) (by rw [Fits, grown, hb]; exact hfit)
  · obtain ⟨hres, hless⟩ := ByteBuffer.raw_reserve_wrapped hn hc hfit
    rw [hres]
    exact iff_of_false (by simp only [ByteBuffer.raw]; omega)
      (by rw [Fits, grown, hb]; exact hfit)

theorem Refines.hasRoom_iff {s : BufferInUse} {b : ByteBuffer} (h : s.Refines b) {op : Op}
    (hdom : s.InDomain op) (hop : ∀ n, op ≠ .reserve n) : s.HasRoom op ↔ s.NoWrap op := by
  cases op with
  | append x => exact h.roomFor_iff hdom
  | commit n x => exact h.roomFor_iff hdom.1
  | reserve n => exact absurd rfl (hop n)
  | read | rlength | reset | clear => exact Iff.rfl

/-- Bytes written into room that was reserved without wrapping around go to the end. -/
theorem Refines.commit {s : BufferInUse} {b : ByteBuffer} (h : s.Refines b) {n : Nat}
    {x : List Byte} (hx : x.length ≤ n) (hfit : s.Fits n) :
    ∃ d : ByteBuffer,
      (((s.buffer.wbuffer n).store x).bind fun c => c.wlength x.length) = some d.raw ∧
      d.capacity < SIZE_T ∧ d.unread = b.unread ++ x := by
  obtain ⟨hb, hc, -⟩ := h
  have hfit' : n < b.blank ∨ b.grown n < SIZE_T := by
    rw [Fits, grown, hb] at hfit
    exact hfit
  have hcap := ByteBuffer.reserve_capacity_lt hc hfit'
  have hroom := b.reserve_room n
  have hwin := b.windex_reserve n
  obtain ⟨d, hd, hdc, hu⟩ := ByteBuffer.raw_store_wlength hcap
    (show (b.reserve n).windex + x.length ≤ (b.reserve n).capacity by omega)
  refine ⟨d, ?_, by omega, by rw [hu, ByteBuffer.unread_reserve]⟩
  rw [hb, RawBuffer.wbuffer, ByteBuffer.raw_reserve hfit']
  exact hd

/-- Bytes read come from the front. -/
theorem Refines.take {s : BufferInUse} {b : ByteBuffer} (h : s.Refines b) {len : Nat}
    (hdom : ∃ size, s.buffer.size = some size ∧ len ≤ size) :
    ∃ d : ByteBuffer, s.buffer.load len = some (b.unread.take len) ∧
      s.buffer.rlength len = some d.raw ∧ d.capacity < SIZE_T ∧
      d.unread = b.unread.drop len := by
  obtain ⟨size, hsize, hlen⟩ := hdom
  rw [h.size] at hsize
  cases hsize
  obtain ⟨hb, hc, -⟩ := h
  obtain ⟨d, hd, hu⟩ := ByteBuffer.rlength_spec hlen
  refine ⟨d, ?_, ?_, ?_, hu⟩
  · rw [hb]
    exact ByteBuffer.raw_load hlen
  · rw [hb, ByteBuffer.raw_rlength hc hlen, hd]
    rfl
  · have hcap := ByteBuffer.rlength_capacity hd
    omega

theorem Refines.reserve {s : BufferInUse} {b : ByteBuffer} (h : s.Refines b) {n : Nat}
    (hn : n < SIZE_T) (hwrap : s.Fits n ∨ s.buffer.windex ≤ s.grown n - SIZE_T) :
    ∃ d : ByteBuffer, s.buffer.reserve n = d.raw ∧ d.capacity < SIZE_T ∧ d.unread = b.unread := by
  obtain ⟨hb, hc, -⟩ := h
  rw [Fits, grown, hb] at hwrap
  by_cases hfit : n < b.blank ∨ b.grown n < SIZE_T
  · refine ⟨b.reserve n, ?_, ByteBuffer.reserve_capacity_lt hc hfit, b.unread_reserve n⟩
    rw [hb]
    exact ByteBuffer.raw_reserve hfit
  · have hfits : b.windex ≤ b.grown n - SIZE_T := hwrap.resolve_left hfit
    obtain ⟨hres, -⟩ := ByteBuffer.raw_reserve_wrapped hn hc hfit
    refine ⟨{ b with capacity := b.grown n - SIZE_T, windex_le := hfits }, ?_, ?_, ?_⟩
    · rw [hb, hres]
      rfl
    · have hless : b.grown n - SIZE_T < SIZE_T := by
        have hchunk : BUFFER_CHUNK_SIZE < SIZE_T := by decide
        unfold ByteBuffer.grown
        split <;> omega
      exact hless
    · simp only [ByteBuffer.unread, ByteBuffer.rbuffer, ByteBuffer.size]

/-- One operation of the buffer is one of a queue. -/
theorem step_refines {s : BufferInUse} {b : ByteBuffer} {op : Op} (h : s.Refines b)
    (hdom : s.InDomain op) (hw : s.NoWrap op) : ∃ t c, s.step op = some t ∧ t.Refines c := by
  have hq := h.2.2
  cases op with
  | append x =>
    obtain ⟨d, hd, hcap, hu⟩ := h.commit (Nat.le_refl x.length) hw
    have happ : s.buffer.append x = some d.raw := hd
    refine ⟨_, d, by simp only [step, happ]; rfl, rfl, hcap, ?_⟩
    rw [hu, ← List.append_assoc, hq]
  | commit n x =>
    obtain ⟨d, hd, hcap, hu⟩ := h.commit hdom.2 hw
    obtain ⟨c, hc, hd⟩ := Option.bind_eq_some_iff.mp hd
    refine ⟨_, d, by simp only [step, hc, Option.bind_eq_bind, Option.bind_some, hd]; rfl, rfl,
      hcap, ?_⟩
    rw [hu, ← List.append_assoc, hq]
  | read len =>
    obtain ⟨d, hload, hrl, hcap, hu⟩ := h.take hdom
    have hread : s.buffer.read len = some (b.unread.take len, d.raw) := by
      simp only [RawBuffer.read, hload, hrl, Option.bind_eq_bind, Option.bind_some, Option.pure_def]
    refine ⟨_, d, by simp only [step, hread]; rfl, rfl, hcap, ?_⟩
    rw [hu, List.append_assoc, List.take_append_drop, hq]
  | rlength len =>
    obtain ⟨d, hload, hrl, hcap, hu⟩ := h.take hdom
    refine ⟨_, d, by simp only [step, hload, hrl]; rfl, rfl, hcap, ?_⟩
    rw [hu, List.append_assoc, List.take_append_drop, hq]
  | reserve n =>
    obtain ⟨d, hd, hcap, hu⟩ := h.reserve hdom hw
    exact ⟨_, d, rfl, hd, hcap, by rw [hu]; exact hq⟩
  | reset => exact ⟨_, b.reset, rfl, by rw [h.1]; rfl, h.2.1, rfl⟩
  | clear => exact ⟨_, b.clear, rfl, rfl, Nat.two_pow_pos 64, rfl⟩

/-- An operation on a buffer in order is served exactly if its request does not wrap around. -/
theorem served_iff {s : BufferInUse} {b : ByteBuffer} {op : Op} (h : s.Refines b)
    (hdom : s.InDomain op) : s.Served op ↔ s.NoWrap op := by
  constructor
  · intro hs
    by_cases hop : ∀ n, op ≠ .reserve n
    · exact (h.hasRoom_iff hdom hop).mp hs.1
    · obtain ⟨n, hn⟩ := not_forall.mp hop
      have hr : op = .reserve n := not_not.mp hn
      subst hr
      obtain ⟨-, t, ht, hord⟩ := hs
      cases Option.some.inj ht
      by_cases hfit : n < b.blank ∨ b.grown n < SIZE_T
      · left
        rw [Fits, grown, h.1]
        exact hfit
      · right
        obtain ⟨hres, -⟩ := ByteBuffer.raw_reserve_wrapped hdom h.2.1 hfit
        have hle := hord.windex_le
        dsimp only at hle
        rw [h.1, hres] at hle
        rw [grown, h.1]
        exact hle
  · intro hw
    obtain ⟨t, c, ht, hc⟩ := step_refines h hdom hw
    refine ⟨?_, t, ht, hc.inOrder⟩
    by_cases hop : ∀ n, op ≠ .reserve n
    · exact (h.hasRoom_iff hdom hop).mpr hw
    · obtain ⟨n, hn⟩ := not_forall.mp hop
      have hr : op = .reserve n := not_not.mp hn
      subst hr
      trivial

theorem new_refines {size : Nat} (h : size < SIZE_T) : (new size).Refines (ByteBuffer.new size) := by
  let b : ByteBuffer := ⟨fun _ => 0, 0, 0, 0, Nat.le_refl _, Nat.le_refl _⟩
  have hchunk : BUFFER_CHUNK_SIZE < SIZE_T := by decide
  have hfit : size < b.blank ∨ b.grown size < SIZE_T := by
    right
    show (if size < BUFFER_CHUNK_SIZE then BUFFER_CHUNK_SIZE else size) + 0 < SIZE_T
    split <;> omega
  have hcap : b.capacity < SIZE_T := Nat.two_pow_pos 64
  refine ⟨ByteBuffer.raw_reserve hfit, ByteBuffer.reserve_capacity_lt hcap hfit, ?_⟩
  rw [ByteBuffer.unread_new]
  rfl

/-- Every operation of a run is served exactly if no request of it wraps around. -/
theorem along_served_iff {size : Nat} (hsize : size < SIZE_T) {ops : List Op}
    (hdom : Along step InDomain (new size) ops) :
    Along step Served (new size) ops ↔ Along step NoWrap (new size) ops := by
  have hnew : ∃ b, (new size).Refines b := ⟨_, new_refines hsize⟩
  refine @along_iff _ _ step (fun s => ∃ b, s.Refines b) InDomain Served NoWrap ?_ ?_ _ _ hnew hdom
  · intro s op hs hd
    obtain ⟨b, hb⟩ := hs
    exact served_iff hb hd
  · intro s op t hs hd hok ht
    obtain ⟨b, hb⟩ := hs
    obtain ⟨u, c, hu, hc⟩ := step_refines hb hd ((served_iff hb hd).mp hok)
    rw [ht] at hu
    cases hu
    exact ⟨c, hc⟩

end BufferInUse

end Tnode
