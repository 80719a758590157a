import Tnode.ByteBuffer
import Tnode.Framing
import Mathlib.Algebra.Group.Nat.Defs

namespace Tnode

abbrev SOCKET := Int

/-- The little-endian `u32` in the first four bytes: `rawmsg->len`. -/
def u32le (xs : List Byte) : Nat :=
  (xs.getD 0 0).toNat + 0x100 * (xs.getD 1 0).toNat + 0x10000 * (xs.getD 2 0).toNat +
    0x1000000 * (xs.getD 3 0).toNat

def sizeofLen : Nat := 4

/-- `sizeof(Socketmessage)`: the packed fields `len`, `entityid`, `msgid` and `flags`. -/
def sizeofSocketmessage : Nat := 4 + 8 + 2 + 2

/-- `Servicemessage`. `addr` is the address `allocate_message` returned and `rawmsg` the
bytes of the block behind `fd`. `origin` is read by no function: it names the socket
object whose peer the message belongs to. -/
structure Servicemessage where
  addr : Nat
  origin : Nat
  fd : SOCKET
  rawmsg : List Byte
deriving DecidableEq, Repr

namespace Servicemessage

def len (m : Servicemessage) : Nat := u32le m.rawmsg

/-- The `rawmsg.len` bytes at `&message->rawmsg`. -/
def raw (m : Servicemessage) : List Byte := (List.range m.len).map fun i => m.rawmsg.getD i 0

/-- `msg->rawmsg.len - sizeof(Socketmessage)`, a `size_t`, as `Service::msgParser`
passes it on. -/
def payloadLength (m : Servicemessage) : Nat := (m.len + 2 ^ 64 - sizeofSocketmessage) % 2 ^ 64

end Servicemessage

/-- The allocator of messages: the next address to be handed out, and the addresses
released so far, in order. -/
structure Heap where
  next : Nat
  released : List Nat
deriving DecidableEq, Repr

def allocateMessage (h : Heap) : Nat × Heap := (h.next, { h with next := h.next + 1 })

def releaseMessage (h : Heap) (m : Servicemessage) : Heap :=
  { h with released := h.released ++ [m.addr] }

theorem u32le_lt (xs : List Byte) : u32le xs < 2 ^ 32 := by
  have h0 := (xs.getD 0 0).toNat_lt
  have h1 := (xs.getD 1 0).toNat_lt
  have h2 := (xs.getD 2 0).toNat_lt
  have h3 := (xs.getD 3 0).toNat_lt
  simp only [u32le]
  omega

theorem u32le_append {xs : List Byte} (h : sizeofLen ≤ xs.length) (ys : List Byte) :
    u32le (xs ++ ys) = u32le xs := by
  have hl : 4 ≤ xs.length := h
  simp only [u32le, List.getD_eq_getElem?_getD]
  rw [List.getElem?_append_left (by omega : 0 < xs.length),
    List.getElem?_append_left (by omega : 1 < xs.length),
    List.getElem?_append_left (by omega : 2 < xs.length),
    List.getElem?_append_left (by omega : 3 < xs.length)]

theorem u32le_take {xs : List Byte} {n : Nat} (h : sizeofLen ≤ n) (hn : n ≤ xs.length) :
    u32le (xs.take n) = u32le xs := by
  have hl : sizeofLen ≤ (xs.take n).length := by simp only [List.length_take]; omega
  have hh := u32le_append hl (xs.drop n)
  simpa only [List.take_append_drop] using hh.symm

/-- How `SocketInternal::receive` judges the unread bytes. A frame shorter than its
own header is only seen once as many bytes as it claims are there. -/
def socketRule : Framing.Rule Byte where
  verdict xs :=
    if xs.length < sizeofLen ∨ xs.length < u32le xs then .more
    else if u32le xs < sizeofSocketmessage then .bad
    else .frame (u32le xs)
  frame_pos := by
    intro xs n h
    split at h
    next => simp at h
    next =>
      split at h
      next => simp at h
      next hs =>
        have h16 : sizeofSocketmessage = 16 := rfl
        cases h
        omega
  frame_le := by
    intro xs n h
    split at h
    next => simp at h
    next hm =>
      split at h
      next => simp at h
      next => cases h; omega
  frame_append := by
    intro xs n ys h
    split at h
    next => simp at h
    next hm =>
      have hu := u32le_append (by omega : sizeofLen ≤ xs.length) ys
      rw [hu, if_neg (by simp only [List.length_append]; omega)]
      exact h
  bad_append := by
    intro xs ys h
    split at h
    next => simp at h
    next hm =>
      have hu := u32le_append (by omega : sizeofLen ≤ xs.length) ys
      rw [hu, if_neg (by simp only [List.length_append]; omega)]
      exact h

/-- A frame of the wire format: its first four bytes are its length. -/
def WellFormedFrame (f : List Byte) : Prop :=
  sizeofSocketmessage ≤ f.length ∧ f.length < 2 ^ 32 ∧ u32le f = f.length

instance (f : List Byte) : Decidable (WellFormedFrame f) := inferInstanceAs (Decidable (_ ∧ _))

def emptyFrame : List Byte := 16 :: List.replicate 15 0

theorem wellFormed_emptyFrame : WellFormedFrame emptyFrame := by decide

theorem socketRule_nil : socketRule.verdict [] = .more := rfl

theorem isFrame_iff {f : List Byte} : socketRule.IsFrame f ↔ WellFormedFrame f := by
  have hb := u32le_lt f
  have h4 : sizeofLen = 4 := rfl
  have h16 : sizeofSocketmessage = 16 := rfl
  simp only [Framing.Rule.IsFrame, socketRule, WellFormedFrame]
  constructor
  · intro h
    split at h
    next => simp at h
    next hm =>
      split at h
      next => simp at h
      next hs =>
        have he : u32le f = f.length := by simpa using h
        omega
  · rintro ⟨hl, _, he⟩
    rw [if_neg (by omega), if_neg (by omega), he]

theorem verdict_of_isPrefix {f xs : List Byte} (hf : WellFormedFrame f) (hp : xs <+: f)
    (hl : xs.length < f.length) : socketRule.verdict xs = .more := by
  obtain ⟨ys, rfl⟩ := hp
  by_cases h4 : xs.length < sizeofLen
  · simp [socketRule, h4]
  · have hu := u32le_append (by omega : sizeofLen ≤ xs.length) ys
    have he := hf.2.2
    have hm : xs.length < u32le xs := by omega
    simp [socketRule, hm]

theorem payloadLength_of_wellFormed {m : Servicemessage} (h : WellFormedFrame m.rawmsg) :
    sizeofSocketmessage ≤ m.len ∧ m.payloadLength = m.len - sizeofSocketmessage := by
  have hl : m.len = m.rawmsg.length := h.2.2
  have hs := h.1
  have hb := h.2.1
  have h16 : sizeofSocketmessage = 16 := rfl
  simp only [Servicemessage.payloadLength]
  omega

@[simp] theorem length_raw (m : Servicemessage) : m.raw.length = m.len := by
  simp [Servicemessage.raw]

end Tnode
