import Tnode.ByteBufferQueue
import Tnode.ResponseHeader

namespace Tnode

open Transitions

/-- The types that `operator<<` and `operator>>` take at a fixed width. -/
inductive FixedType
  | bool | u8 | u16 | u32 | u64 | s8 | s16 | s32 | s64 | float | double
deriving DecidableEq, Repr

def FixedType.sizeof : FixedType → Nat
  | .bool | .u8 | .s8 => 1
  | .u16 | .s16 => 2
  | .u32 | .s32 | .float => 4
  | .u64 | .s64 | .double => 8

/-- A value of one of them; a floating point number is its bits. -/
inductive FixedValue
  | bool (v : Bool)
  | u8 (v : UInt8)
  | u16 (v : UInt16)
  | u32 (v : UInt32)
  | u64 (v : UInt64)
  | s8 (v : Int8)
  | s16 (v : Int16)
  | s32 (v : Int32)
  | s64 (v : Int64)
  | float (v : BitVec 32)
  | double (v : BitVec 64)
deriving DecidableEq, Repr

namespace FixedValue

def type : FixedValue → FixedType
  | bool _ => .bool
  | u8 _ => .u8
  | u16 _ => .u16
  | u32 _ => .u32
  | u64 _ => .u64
  | s8 _ => .s8
  | s16 _ => .s16
  | s32 _ => .s32
  | s64 _ => .s64
  | float _ => .float
  | double _ => .double

def bits : FixedValue → Nat
  | bool v => v.toNat
  | u8 v => v.toNat
  | u16 v => v.toNat
  | u32 v => v.toNat
  | u64 v => v.toNat
  | s8 v => v.toBitVec.toNat
  | s16 v => v.toBitVec.toNat
  | s32 v => v.toBitVec.toNat
  | s64 v => v.toBitVec.toNat
  | float v => v.toNat
  | double v => v.toNat

/-- The bytes of a value in memory, the lowest first. -/
def bytes (v : FixedValue) : List Byte := leBytes v.type.sizeof v.bits

/-- The value that `*(T const*)` finds in memory. -/
def ofBytes (t : FixedType) (s : List Byte) : FixedValue :=
  match t with
  | .bool => bool (leNat s != 0)
  | .u8 => u8 (.ofNat (leNat s))
  | .u16 => u16 (.ofNat (leNat s))
  | .u32 => u32 (.ofNat (leNat s))
  | .u64 => u64 (.ofNat (leNat s))
  | .s8 => s8 (.ofBitVec (BitVec.ofNat 8 (leNat s)))
  | .s16 => s16 (.ofBitVec (BitVec.ofNat 16 (leNat s)))
  | .s32 => s32 (.ofBitVec (BitVec.ofNat 32 (leNat s)))
  | .s64 => s64 (.ofBitVec (BitVec.ofNat 64 (leNat s)))
  | .float => float (BitVec.ofNat 32 (leNat s))
  | .double => double (BitVec.ofNat 64 (leNat s))

@[simp] theorem length_bytes (v : FixedValue) : v.bytes.length = v.type.sizeof :=
  length_leBytes _ _

theorem bits_lt (v : FixedValue) : v.bits < 0x100 ^ v.type.sizeof := by
  cases v with
  | bool v => cases v <;> decide
  | u8 v => exact v.toNat_lt
  | u16 v => exact v.toNat_lt
  | u32 v => exact v.toNat_lt
  | u64 v => exact v.toNat_lt
  | s8 v => exact v.toBitVec.isLt
  | s16 v => exact v.toBitVec.isLt
  | s32 v => exact v.toBitVec.isLt
  | s64 v => exact v.toBitVec.isLt
  | float v => exact v.isLt
  | double v => exact v.isLt

/-- What `operator<<` writes `operator>>` reads back. -/
theorem ofBytes_bytes (v : FixedValue) : ofBytes v.type v.bytes = v := by
  have hbits : leNat v.bytes = v.bits := by
    rw [bytes, leNat_leBytes, Nat.mod_eq_of_lt v.bits_lt]
  unfold ofBytes
  rw [hbits]
  cases v with
  | bool v => cases v <;> rfl
  | _ => simp [type, bits]

end FixedValue

/-- `operator<<` of a value, or `operator>>` at a type. -/
inductive ValueOp
  | push (v : FixedValue)
  | pop (t : FixedType)
deriving DecidableEq, Repr

/-- A buffer of values, with the values popped from it. -/
structure ValueBuffer where
  buffer : RawBuffer
  popped : List FixedValue

namespace ValueBuffer

def new (size : Nat) : ValueBuffer := ⟨RawBuffer.new size, []⟩

def step (s : ValueBuffer) : ValueOp → Option ValueBuffer
  | .push v => do
    let b ← s.buffer.append v.bytes
    return { s with buffer := b }
  | .pop t => do
    let (out, b) ← s.buffer.read t.sizeof
    return ⟨b, s.popped ++ [FixedValue.ofBytes t out]⟩

end ValueBuffer

namespace ValueOp

/-- The operation on bytes behind one on values. -/
def bytes : ValueOp → BufferInUse.Op
  | push v => .append v.bytes
  | pop t => .read t.sizeof

def pushed : List ValueOp → List FixedValue
  | [] => []
  | push v :: ops => v :: pushed ops
  | pop _ :: ops => pushed ops

def pops : List ValueOp → Nat
  | [] => 0
  | push _ :: ops => pops ops
  | pop _ :: ops => pops ops + 1

/-- Every `pop` takes the type of the oldest value that waits; `ts` are the types of those
that wait at the start. -/
def SameTypes : List FixedType → List ValueOp → Prop
  | _, [] => True
  | ts, push v :: ops => SameTypes (ts ++ [v.type]) ops
  | [], pop _ :: _ => False
  | t :: ts, pop t' :: ops => t' = t ∧ SameTypes ts ops

end ValueOp

namespace ValueBuffer

/-- The buffer behind `s` holds the bytes of `waiting`. -/
def Waits (s : ValueBuffer) (u : BufferInUse) (waiting : List FixedValue) : Prop :=
  s.buffer = u.buffer ∧ ∃ b, u.Refines b ∧ b.unread = waiting.flatMap FixedValue.bytes

theorem push_waits {s : ValueBuffer} {u : BufferInUse} {waiting : List FixedValue}
    {v : FixedValue} (h : s.Waits u waiting) (hw : u.NoWrap (ValueOp.push v).bytes) :
    ∃ t u', s.step (.push v) = some t ∧ u.step (ValueOp.push v).bytes = some u' ∧
      t.popped = s.popped ∧ t.Waits u' (waiting ++ [v]) := by
  obtain ⟨hbuf, b, hb, hu⟩ := h
  obtain ⟨d, hd, hcap, hud⟩ := hb.commit (Nat.le_refl v.bytes.length) hw
  have happ : u.buffer.append v.bytes = some d.raw := hd
  refine ⟨{ s with buffer := d.raw }, ⟨d.raw, u.written ++ v.bytes, u.got⟩, ?_, ?_, rfl, rfl, d,
    ⟨rfl, hcap, ?_⟩, ?_⟩
  · simp only [step, hbuf, happ, Option.bind_eq_bind, Option.bind_some, Option.pure_def]
  · simp only [ValueOp.bytes, BufferInUse.step, happ, Option.bind_eq_bind, Option.bind_some,
      Option.pure_def]
  · have hq := hb.2.2
    rw [hud, ← List.append_assoc, hq]
  · simp [hud, hu]

theorem pop_waits {s : ValueBuffer} {u : BufferInUse} {waiting : List FixedValue}
    {v : FixedValue} (h : s.Waits u (v :: waiting)) :
    ∃ t u', s.step (.pop v.type) = some t ∧ u.step (ValueOp.pop v.type).bytes = some u' ∧
      t.popped = s.popped ++ [v] ∧ t.Waits u' waiting := by
  obtain ⟨hbuf, b, hb, hu⟩ := h
  have hsplit : b.unread = v.bytes ++ waiting.flatMap FixedValue.bytes := by
    rw [hu, List.flatMap_cons]
  have hlen : v.type.sizeof ≤ b.size := by
    have hl := congrArg List.length hsplit
    simp only [ByteBuffer.length_unread, List.length_append, FixedValue.length_bytes] at hl
    omega
  obtain ⟨d, hload, hrl, hcap, hud⟩ := hb.take ⟨b.size, hb.size, hlen⟩
  have hfront : b.unread.take v.type.sizeof = v.bytes := by
    rw [hsplit, List.take_left' v.length_bytes]
  have hrest : b.unread.drop v.type.sizeof = waiting.flatMap FixedValue.bytes := by
    rw [hsplit, List.drop_left' v.length_bytes]
  have hread : u.buffer.read v.type.sizeof = some (v.bytes, d.raw) := by
    simp only [RawBuffer.read, hload, hrl, hfront, Option.bind_eq_bind, Option.bind_some,
      Option.pure_def]
  refine ⟨⟨d.raw, s.popped ++ [v]⟩, ⟨d.raw, u.written, u.got ++ v.bytes⟩, ?_, ?_, rfl, rfl, d,
    ⟨rfl, hcap, ?_⟩, ?_⟩
  · simp only [step, hbuf, hread, Option.bind_eq_bind, Option.bind_some, Option.pure_def,
      FixedValue.ofBytes_bytes]
  · simp only [ValueOp.bytes, BufferInUse.step, hread, Option.bind_eq_bind, Option.bind_some,
      Option.pure_def]
  · have hq := hb.2.2
    rw [hud, hrest, List.append_assoc, ← hsplit, hq]
  · rw [hud, hrest]

/-- Popped values are the pushed ones in order, from any state of the buffer. -/
theorem run_waits {s : ValueBuffer} {u : BufferInUse} {waiting : List FixedValue}
    (h : s.Waits u waiting) {ops : List ValueOp}
    (htypes : ValueOp.SameTypes (waiting.map FixedValue.type) ops)
    (hw : Along BufferInUse.step BufferInUse.NoWrap u (ops.map ValueOp.bytes)) :
    ∃ t new, run step s ops = some t ∧ t.popped = s.popped ++ new ∧
      new.length = ValueOp.pops ops ∧ new <+: waiting ++ ValueOp.pushed ops := by
  induction ops generalizing s u waiting with
  | nil => exact ⟨s, [], rfl, by simp, rfl, List.nil_prefix⟩
  | cons op ops ih =>
    cases op with
    | push v =>
      obtain ⟨t, u', ht, hu', hpop, hwait⟩ := push_waits h hw.1
      have htypes' : ValueOp.SameTypes ((waiting ++ [v]).map FixedValue.type) ops := by
        simpa [ValueOp.SameTypes] using htypes
      obtain ⟨z, new, hz, hnew, hcount, hpre⟩ := ih hwait htypes' (hw.2 u' hu')
      refine ⟨z, new, run_cons_iff.mpr ⟨t, ht, hz⟩, by rw [hnew, hpop], hcount, ?_⟩
      simpa [ValueOp.pushed] using hpre
    | pop τ =>
      cases waiting with
      | nil => exact absurd htypes (by simp [ValueOp.SameTypes])
      | cons v waiting =>
        obtain ⟨hτ, htypes⟩ := htypes
        subst hτ
        obtain ⟨t, u', ht, hu', hpop, hwait⟩ := pop_waits h
        obtain ⟨z, new, hz, hnew, hcount, hpre⟩ := ih hwait htypes (hw.2 u' hu')
        refine ⟨z, v :: new, run_cons_iff.mpr ⟨t, ht, hz⟩, by rw [hnew, hpop]; simp, ?_, ?_⟩
        · simp [ValueOp.pops, hcount]
        · simpa [ValueOp.pushed, List.cons_prefix_cons] using hpre

end ValueBuffer

namespace BufferInUse

/-- The buffer is a queue of bytes, and so one of values, exactly as long as no request for
room wraps around, where `realloc` serves every request: no assertion fails, the indices stay in
order, every request finds its room, and what is read is what was written. -/
theorem refines_queue {size : Nat} (hsize : size < SIZE_T) :
    (new size).InOrder ∧
    (∀ ops, Along step InDomain (new size) ops →
      (Along step Served (new size) ops ↔ Along step NoWrap (new size) ops)) ∧
    ∀ ops, ValueOp.SameTypes [] ops →
      Along step NoWrap (new size) (ops.map ValueOp.bytes) →
      ∃ t, run ValueBuffer.step (.new size) ops = some t ∧
        t.popped.length = ValueOp.pops ops ∧ t.popped <+: ValueOp.pushed ops := by
  have hnew := new_refines hsize
  refine ⟨hnew.inOrder, fun ops hdom => along_served_iff hsize hdom, ?_⟩
  intro ops htypes hw
  have hempty : (ValueBuffer.new size).Waits (new size) [] :=
    ⟨rfl, _, hnew, by rw [ByteBuffer.unread_new]; rfl⟩
  obtain ⟨t, new, ht, hpop, hcount, hpre⟩ := ValueBuffer.run_waits hempty htypes hw
  have hp : t.popped = new := by simpa [ValueBuffer.new] using hpop
  exact ⟨t, ht, by rw [hp]; exact hcount, by rw [hp]; simpa using hpre⟩

theorem refines_queue_default :
    (65535 < SIZE_T) ∧
    ∃ t, run ValueBuffer.step (.new 65535) [.push (.u16 0x1234), .push (.s8 (-1)), .pop .u16] =
      some t ∧ t.popped.length = 1 ∧ t.popped <+: [.u16 0x1234, .s8 (-1)] := by
  refine ⟨by decide, (refines_queue (by decide)).2.2 _ ⟨rfl, trivial⟩ ?_⟩
  decide +kernel

/-- A fresh buffer asked for `2^64 - 1` bytes returns one byte less than it had. -/
theorem request_wraps_around : ¬ ∀ size ops, size < SIZE_T → Along step InDomain (new size) ops →
    Along step Served (new size) ops := by
  intro h
  have hdom : Along step InDomain (new 65535) [.commit (SIZE_T - 1) []] :=
    ⟨⟨by decide, Nat.zero_le _⟩, fun _ _ => trivial⟩
  have hroom : (new 65535).RoomFor (SIZE_T - 1) := (h 65535 _ (by decide) hdom).1.1
  exact absurd hroom (by unfold RoomFor; decide +kernel)

end BufferInUse

end Tnode
