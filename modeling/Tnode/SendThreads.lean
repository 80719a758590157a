import Tnode.SocketSend
import Tnode.Spinlock

namespace Tnode

open Transitions Spinlock

/-- A socket that several threads send on. `pushed` lists the messages in the order in which
they came to `_slist`. -/
structure SharedSocket where
  socket : SocketInternal
  kernel : SendSide
  heap : Heap
  pushed : List Servicemessage

/-- Inside `send()`: before the first test of `_wbuffer.size()`, at the head of the loop over
`_slist`, with a message taken off it, with what `sendBytes` returned for that message, and
before the guard's destructor. `undefined` is reached by a misuse of `_wbuffer`. -/
inductive SendLocal
  | start
  | loop
  | taken (message : Servicemessage)
  | sent (message : Servicemessage) (bytes : Int)
  | ended (ok : Bool)
  | undefined
deriving DecidableEq, Repr

/-- The next step of `send()` under `_slocker`. -/
def sendBody : SendLocal → SharedSocket → Option (SendLocal × SharedSocket)
  | .start, d =>
    if d.socket.wbuffer.size > 0 then
      let (bytes, kernel) :=
        SocketInternal.sendBytes d.kernel (d.socket.wbuffer.rbuffer d.socket.wbuffer.size) 0
      if bytes < 0 then some (.ended false, { d with kernel })
      else
        match if 0 < bytes then d.socket.wbuffer.rlength bytes.toNat else some d.socket.wbuffer with
        | none => some (.undefined, { d with kernel })
        | some wbuffer =>
          some (if wbuffer.size > 0 then .ended true else .loop,
            { d with socket := { d.socket with wbuffer }, kernel })
    else some (.loop, d)
  | .loop, d =>
    match d.socket.slist with
    | [] => some (.ended true, d)
    | message :: slist => some (.taken message, { d with socket := { d.socket with slist } })
  | .taken message, d =>
    let (bytes, kernel) := SocketInternal.sendBytes d.kernel message.raw 0
    some (.sent message bytes, { d with kernel })
  | .sent message bytes, d =>
    let heap := releaseMessage d.heap message
    if bytes < 0 then some (.ended false, { d with heap })
    else
      match if bytes.toNat < message.len then d.socket.wbuffer.append (message.raw.drop bytes.toNat)
        else some d.socket.wbuffer with
      | none => some (.undefined, { d with heap })
      | some wbuffer =>
        some (if wbuffer.size > 0 then .ended true else .loop,
          { d with socket := { d.socket with wbuffer }, heap })
  | .ended _, _ => none
  | .undefined, _ => none

/-- `send(message)` pushes to `_slist`, which has a lock of its own, and then does as `send()`. -/
def socketSend : Code SharedSocket SendCall SendLocal where
  before
    | .message m, d =>
      { d with socket := { d.socket with slist := d.socket.slist ++ [m] }, pushed := d.pushed ++ [m] }
    | .flush, d => d
  enter _ := .start
  body := sendBody

namespace SharedSocket

/-- The bytes that are not with the kernel yet. -/
def pending (d : SharedSocket) : List Byte := d.socket.wbuffer.unread ++ raws d.socket.slist

/-- Nothing will tell the threads when they can send the pending bytes. -/
def Stuck (d : SharedSocket) : Prop := d.pending ≠ [] ∧ d.kernel.last ≠ some .again

/-- The byte stream since the kernel had accepted `accepted`, with `hand` the bytes that a thread
holds between `_wbuffer` and `_slist`. -/
structure Streams (accepted hand : List Byte) (d : SharedSocket) : Prop where
  noError : d.kernel.NoError
  bytes : d.kernel.accepted ++ d.socket.wbuffer.unread ++ hand ++ raws d.socket.slist =
    accepted ++ raws d.pushed

/-- The messages that have left `_slist` since `released` were released, but for those in
`hand`, have been released in order. -/
def Releases (released : List Nat) (hand : List Servicemessage) (d : SharedSocket) : Prop :=
  ∃ left, d.pushed = left ++ hand ++ d.socket.slist ∧
    d.heap.released = released ++ left.map Servicemessage.addr

variable {accepted hand : List Byte} {released : List Nat}

/-- In the middle of `send()`. -/
inductive Held (accepted : List Byte) (released : List Nat) : SendLocal → SharedSocket → Prop
  | start {d : SharedSocket} (h : Streams accepted [] d) (hr : Releases released [] d) :
      Held accepted released .start d
  | loop {d : SharedSocket} (h : Streams accepted [] d) (hr : Releases released [] d)
      (empty : d.socket.wbuffer.unread = []) : Held accepted released .loop d
  | taken {d : SharedSocket} {message : Servicemessage} (h : Streams accepted message.raw d)
      (hr : Releases released [message] d) (empty : d.socket.wbuffer.unread = []) :
      Held accepted released (.taken message) d
  | sent {d : SharedSocket} {message : Servicemessage} {n : Nat}
      (h : Streams accepted (message.raw.drop n) d) (hr : Releases released [message] d)
      (empty : d.socket.wbuffer.unread = [])
      (blocked : n < message.len → d.kernel.last = some .again) (le : n ≤ message.len) :
      Held accepted released (.sent message n) d
  | ended {d : SharedSocket} (h : Streams accepted [] d) (hr : Releases released [] d) :
      Held accepted released (.ended true) d

theorem Streams.call {d : SharedSocket} (h : Streams accepted hand d) (call : SendCall) :
    Streams accepted hand (socketSend.before call d) := by
  cases call with
  | flush => exact h
  | message m =>
    refine ⟨h.noError, ?_⟩
    have hbytes := h.bytes
    simp only [socketSend, raws_append, ← List.append_assoc] at hbytes ⊢
    rw [hbytes]

theorem Releases.call {d : SharedSocket} {messages : List Servicemessage}
    (h : Releases released messages d) (call : SendCall) :
    Releases released messages (socketSend.before call d) := by
  cases call with
  | flush => exact h
  | message m =>
    obtain ⟨left, hpushed, hreleased⟩ := h
    refine ⟨left, ?_, hreleased⟩
    simp only [socketSend, hpushed, List.append_assoc]

theorem Streams.isPrefix {d : SharedSocket} (h : Streams accepted hand d) :
    d.kernel.accepted <+: accepted ++ raws d.pushed := by
  rw [← h.bytes, List.append_assoc, List.append_assoc]
  exact List.prefix_append ..

theorem Held.streams {l : SendLocal} {d : SharedSocket} (h : Held accepted released l d) :
    ∃ hand, Streams accepted hand d := by
  cases h with
  | start h | loop h | taken h | sent h | ended h => exact ⟨_, h⟩

/-- What `sendBytes` does with bytes that precede all others. -/
theorem sendBytes_sent {k : SendSide} (hk : k.NoError) (buffer : List Byte) :
    ∃ (n : Nat) (k' : SendSide), SocketInternal.sendBytes k buffer 0 = ((n : Int), k') ∧ n ≤ buffer.length ∧
      k'.accepted ++ buffer.drop n = k.accepted ++ buffer ∧ k'.NoError ∧
      (n < buffer.length → k'.last = some .again) := by
  obtain ⟨rc, n, k', hs, _, hn, hacc, hrc, hno⟩ :=
    SocketInternal.sendBytes_spec k buffer (Nat.zero_le _)
  obtain ⟨rfl, hk'⟩ := hno hk
  refine ⟨n, k', hs, hn, ?_, hk', ?_⟩
  · rw [hacc, List.drop_zero, Nat.sub_zero, List.append_assoc, List.take_append_drop]
  · rcases hrc with hneg | ⟨_, hagain⟩
    · omega
    · exact hagain

theorem start_body {l' : SendLocal} {d d' : SharedSocket} (h : Streams accepted [] d)
    (hr : Releases released [] d) (hbody : sendBody .start d = some (l', d')) :
    Held accepted released l' d' ∧ (∀ ok, l' = .ended ok → ¬d'.Stuck) := by
  have hunread : d.socket.wbuffer.rbuffer d.socket.wbuffer.size = d.socket.wbuffer.unread := rfl
  by_cases hw : d.socket.wbuffer.size > 0
  · obtain ⟨n, k', hs, hn, hacc, hk', hagain⟩ := sendBytes_sent h.noError d.socket.wbuffer.unread
    rw [ByteBuffer.length_unread] at hn hagain
    obtain ⟨e, he, heu⟩ := SocketInternal.rlength_sent hn
    have hneg : ¬ ((n : Int) < 0) := by omega
    simp only [sendBody, hw, if_true, hunread, hs, hneg, if_false, Int.toNat_natCast, he,
      Option.some.injEq, Prod.mk.injEq] at hbody
    obtain ⟨rfl, rfl⟩ := hbody
    have hstream : Streams accepted []
        { d with socket := { d.socket with wbuffer := e }, kernel := k' } := by
      refine ⟨hk', ?_⟩
      dsimp only
      rw [heu, hacc]
      exact h.bytes
    have hsize : e.size = d.socket.wbuffer.size - n := by
      rw [← ByteBuffer.length_unread, heu, List.length_drop, ByteBuffer.length_unread]
    by_cases hez : e.size > 0
    · rw [if_pos hez]
      exact ⟨.ended hstream hr, fun _ _ hstuck => hstuck.2 (hagain (by omega))⟩
    · rw [if_neg hez]
      exact ⟨.loop hstream hr (SocketInternal.unread_eq_nil hez), by simp⟩
  · simp only [sendBody, hw, if_false, Option.some.injEq, Prod.mk.injEq] at hbody
    obtain ⟨rfl, rfl⟩ := hbody
    exact ⟨.loop h hr (SocketInternal.unread_eq_nil hw), by simp⟩

theorem loop_body {l' : SendLocal} {d d' : SharedSocket} (h : Streams accepted [] d)
    (hr : Releases released [] d) (hempty : d.socket.wbuffer.unread = [])
    (hbody : sendBody .loop d = some (l', d')) :
    Held accepted released l' d' ∧ (∀ ok, l' = .ended ok → ¬d'.Stuck) := by
  simp only [sendBody] at hbody
  split at hbody
  next hslist =>
    cases hbody
    refine ⟨.ended h hr, fun _ _ hstuck => hstuck.1 ?_⟩
    simp [pending, hempty, hslist, raws]
  next message slist hslist =>
    cases hbody
    refine ⟨.taken ⟨h.noError, ?_⟩ ?_ hempty, by simp⟩
    · have hbytes := h.bytes
      rw [hslist] at hbytes
      simpa [raws, List.append_assoc] using hbytes
    · obtain ⟨left, hpushed, hreleased⟩ := hr
      refine ⟨left, ?_, hreleased⟩
      rw [hslist] at hpushed
      simpa using hpushed

theorem taken_body {message : Servicemessage} {l' : SendLocal} {d d' : SharedSocket}
    (h : Streams accepted message.raw d) (hr : Releases released [message] d)
    (hempty : d.socket.wbuffer.unread = []) (hbody : sendBody (.taken message) d = some (l', d')) :
    Held accepted released l' d' ∧ (∀ ok, l' = .ended ok → ¬d'.Stuck) := by
  obtain ⟨n, k', hs, hn, hacc, hk', hagain⟩ := sendBytes_sent h.noError message.raw
  rw [length_raw] at hn hagain
  simp only [sendBody, hs, Option.some.injEq, Prod.mk.injEq] at hbody
  obtain ⟨rfl, rfl⟩ := hbody
  refine ⟨.sent ⟨hk', ?_⟩ hr hempty hagain hn, by simp⟩
  have hbytes := h.bytes
  rw [hempty, List.append_nil] at hbytes
  dsimp only
  rw [hempty, List.append_nil, hacc]
  exact hbytes

theorem sent_body {message : Servicemessage} {n : Nat} {l' : SendLocal} {d d' : SharedSocket}
    (h : Streams accepted (message.raw.drop n) d) (hr : Releases released [message] d)
    (hempty : d.socket.wbuffer.unread = []) (hblocked : n < message.len → d.kernel.last = some .again)
    (hle : n ≤ message.len) (hbody : sendBody (.sent message n) d = some (l', d')) :
    Held accepted released l' d' ∧ (∀ ok, l' = .ended ok → ¬d'.Stuck) := by
  have hneg : ¬ ((n : Int) < 0) := by omega
  have hreleases : ∀ w, Releases released []
      { d with socket := { d.socket with wbuffer := w }, heap := releaseMessage d.heap message } := by
    intro w
    obtain ⟨left, hpushed, hreleased⟩ := hr
    refine ⟨left ++ [message], by simpa using hpushed, ?_⟩
    simp [releaseMessage, hreleased]
  have hbytes := h.bytes
  rw [hempty, List.append_nil] at hbytes
  by_cases hlt : n < message.len
  · obtain ⟨e, he, heu⟩ := d.socket.wbuffer.append_spec (message.raw.drop n)
    rw [hempty, List.nil_append] at heu
    have hsize : e.size > 0 := by
      rw [← ByteBuffer.length_unread, heu, List.length_drop, length_raw]
      omega
    simp only [sendBody, hneg, if_false, Int.toNat_natCast, hlt, if_true, he, hsize,
      Option.some.injEq, Prod.mk.injEq] at hbody
    obtain ⟨rfl, rfl⟩ := hbody
    refine ⟨.ended ⟨h.noError, ?_⟩ (hreleases e), fun _ _ hstuck => hstuck.2 (hblocked hlt)⟩
    dsimp only
    rw [heu, List.append_nil]
    exact hbytes
  · have hwhole : message.raw.drop n = [] := by
      apply List.drop_eq_nil_of_le
      rw [length_raw]
      omega
    have hsize : ¬d.socket.wbuffer.size > 0 := by
      rw [← ByteBuffer.length_unread, hempty]
      simp
    simp only [sendBody, hneg, if_false, Int.toNat_natCast, hlt, hsize, Option.some.injEq,
      Prod.mk.injEq] at hbody
    obtain ⟨rfl, rfl⟩ := hbody
    rw [hwhole] at hbytes
    refine ⟨.loop ⟨h.noError, ?_⟩ (hreleases _) hempty, by simp⟩
    dsimp only
    rw [hempty, List.append_nil]
    exact hbytes

/-- A step keeps the stream, and a call that ends does not leave bytes that nothing will tell
the threads to send. -/
theorem held_body {l l' : SendLocal} {d d' : SharedSocket} (h : Held accepted released l d)
    (hbody : sendBody l d = some (l', d')) :
    Held accepted released l' d' ∧ (∀ ok, l' = .ended ok → ¬d'.Stuck) := by
  cases h with
  | start h hr => exact start_body h hr hbody
  | loop h hr hempty => exact loop_body h hr hempty hbody
  | taken h hr hempty => exact taken_body h hr hempty hbody
  | sent h hr hempty hblocked hle => exact sent_body h hr hempty hblocked hle hbody
  | ended h hr => cases hbody

theorem sendBody_none {l : SendLocal} {d : SharedSocket} (h : sendBody l d = none) :
    (∃ ok, l = .ended ok) ∨ l = .undefined := by
  cases l with
  | ended ok => exact Or.inl ⟨ok, rfl⟩
  | undefined => exact Or.inr rfl
  | start =>
    simp only [sendBody] at h
    split at h
    next =>
      split at h
      next => cases h
      next => split at h <;> cases h
    next => cases h
  | loop =>
    simp only [sendBody] at h
    split at h <;> cases h
  | taken message => cases h
  | sent message bytes =>
    simp only [sendBody] at h
    split at h
    next => cases h
    next => split at h <;> cases h

theorem held_ended {l : SendLocal} {d : SharedSocket} (h : Held accepted released l d)
    (hbody : sendBody l d = none) : Streams accepted [] d ∧ Releases released [] d := by
  rcases sendBody_none hbody with ⟨ok, rfl⟩ | rfl
  · cases h with
    | ended h hr => exact ⟨h, hr⟩
  · cases h

theorem Held.call {l : SendLocal} {d : SharedSocket} (h : Held accepted released l d)
    (call : SendCall) : Held accepted released l (socketSend.before call d) := by
  have hwbuffer : (socketSend.before call d).socket.wbuffer = d.socket.wbuffer := by
    cases call <;> rfl
  have hkernel : (socketSend.before call d).kernel = d.kernel := by cases call <;> rfl
  cases h with
  | start h hr => exact .start (h.call call) (hr.call call)
  | loop h hr hempty => exact .loop (h.call call) (hr.call call) (by rwa [hwbuffer])
  | taken h hr hempty => exact .taken (h.call call) (hr.call call) (by rwa [hwbuffer])
  | sent h hr hempty hblocked hle =>
    exact .sent (h.call call) (hr.call call) (by rwa [hwbuffer]) (by rwa [hkernel]) hle
  | ended h hr => exact .ended (h.call call) (hr.call call)

variable {Thread : Type}

def Free (accepted : List Byte) (released : List Nat) (d : SharedSocket)
    (_ : List (Thread × SendCall × SendLocal)) : Prop :=
  Streams accepted [] d ∧ Releases released [] d

theorem rule (accepted : List Byte) (released : List Nat) :
    Rule socketSend (fun _ _ _ => True) (fun _ _ _ => True) (Free accepted released)
      (fun (_ : Thread) _ l d _ => Held accepted released l d) where
  call _ _ _ _ := trivial
  call_wait _ _ _ _ _ _ _ _ := trivial
  call_free _ op _ _ _ h := ⟨h.1.call op, h.2.call op⟩
  call_held _ _ _ _ op _ _ _ _ h := h.call op
  enter _ _ _ _ _ h := .start h.1 h.2
  body _ _ _ _ _ _ _ h hbody := (held_body h hbody).1
  body_wait _ _ _ _ _ _ _ _ _ _ _ _ _ := trivial
  leave _ _ _ _ _ h hbody := held_ended h hbody

/-- The stream is kept, and whenever bytes are left that the threads would not be told to send,
a thread is about to send them. -/
structure Watched (accepted : List Byte) (released : List Nat)
    (s : State Thread SharedSocket SendCall SendLocal) : Prop where
  keeps : Keeps (fun _ _ _ => True) (Free accepted released)
    (fun _ _ l d _ => Held accepted released l d) s
  free : s.flag = false → s.data.Stuck → ∃ t op, s.pc t = .spin op
  ended : ∀ t op ok, s.pc t = .inside op (.ended ok) → s.data.Stuck → ∃ t' op', s.pc t' = .spin op'

variable [DecidableEq Thread] {s s' : State Thread SharedSocket SendCall SendLocal}

theorem call_watched {t : Thread} {op : SendCall} (h : Watched accepted released s)
    (hs : step socketSend s (.call t op) = some s') : Watched accepted released s' := by
  have hkeeps := call_keeps (rule accepted released) h.keeps trivial hs
  obtain ⟨_, rfl⟩ := call_cases hs
  exact ⟨hkeeps, fun _ _ => ⟨t, op, Function.update_self ..⟩,
    fun _ _ _ _ _ => ⟨t, op, Function.update_self ..⟩⟩

theorem step_watched {t : Thread} (h : Watched accepted released s)
    (hs : step socketSend s (.step t) = some s') : Watched accepted released s' := by
  have hkeeps := step_keeps (rule accepted released) h.keeps hs
  rcases step_cases hs with ⟨_, _, _, rfl⟩ | ⟨op, _, hflag, rfl⟩ | ⟨op, l, l', d, hpc, hb, rfl⟩ |
    ⟨op, l, hpc, hb, rfl⟩
  · exact h
  · refine ⟨hkeeps, by simp, ?_⟩
    intro t' op' ok ht'
    rcases pc_update ht' with ⟨hpc', _⟩ | ⟨_, hpc'⟩
    · cases hpc'
    · exact absurd hpc' (h.keeps.exclusive.free hflag t' op' _)
  · refine ⟨hkeeps, fun hflag => ?_, ?_⟩
    · exact absurd hpc (h.keeps.exclusive.free hflag t op l)
    · intro t' op' ok ht' hstuck
      rcases pc_update ht' with ⟨hpc', _⟩ | ⟨hne, hpc'⟩
      · cases hpc'
        exact absurd hstuck ((held_body (h.keeps.held t op l hpc) hb).2 ok rfl)
      · exact absurd hpc' (h.keeps.exclusive.alone hpc hne)
  · refine ⟨hkeeps, fun _ hstuck => ?_, ?_⟩
    · have hended : ∃ ok, l = .ended ok := by
        rcases sendBody_none hb with hok | rfl
        · exact hok
        · cases h.keeps.held t op _ hpc
      obtain ⟨ok, rfl⟩ := hended
      obtain ⟨t', op', ht'⟩ := h.ended t op ok hpc hstuck
      have hne : t' ≠ t := by
        rintro rfl
        rw [hpc] at ht'
        cases ht'
      exact ⟨t', op', (Function.update_of_ne hne ..).trans ht'⟩
    · intro t' op' ok ht'
      rcases pc_update ht' with ⟨hpc', _⟩ | ⟨hne, hpc'⟩
      · cases hpc'
      · exact absurd hpc' (h.keeps.exclusive.alone hpc hne)

theorem run_watched {d : SharedSocket} {ls : List (Label Thread SendCall)}
    (hstart : Free accepted released d ([] : List (Thread × SendCall × SendLocal))) (hpending : d.pending = [])
    (hrun : run (step socketSend) (start d) ls = some s) : Watched accepted released s := by
  have hwatched : Watched accepted released (start d : State Thread SharedSocket SendCall SendLocal) :=
    ⟨keeps_start hstart, fun _ hstuck => absurd hpending hstuck.1, by simp [start]⟩
  refine run_invariant_always (Watched accepted released) ?_ hwatched hrun
  intro s l t hs ht
  cases l with
  | call t op => exact call_watched hs ht
  | step t => exact step_watched hs ht

/-- However the threads interleave, as long as `::send` reports no error (after one the message on
its way is released unsent): what the kernel has accepted is the beginning of the messages in the
order of their pushes, unmixed; while nobody is inside, nothing is missing between it,
`_wbuffer` and `_slist`, and each message that left `_slist` has been released once; and once no
call is under way, bytes are left only if the kernel has said that it will tell when there is
room. -/
theorem threads_send {d : SharedSocket} {ls : List (Label Thread SendCall)}
    (hkernel : d.kernel.NoError) (hpushed : d.pushed = [])
    (hempty : d.socket.slist = [] ∧ d.socket.wbuffer.unread = [])
    (hrun : run (step socketSend) (start d) ls = some s) :
    s.data.kernel.accepted <+: d.kernel.accepted ++ raws s.data.pushed ∧
      (s.flag = false →
        s.data.kernel.accepted ++ s.data.pending = d.kernel.accepted ++ raws s.data.pushed ∧
        ∃ left, s.data.pushed = left ++ s.data.socket.slist ∧
          s.data.heap.released = d.heap.released ++ left.map Servicemessage.addr) ∧
      ((∀ t, s.pc t = .outside) → s.data.pending ≠ [] → s.data.kernel.last = some .again) := by
  have hstart : Free d.kernel.accepted d.heap.released d
      ([] : List (Thread × SendCall × SendLocal)) := by
    refine ⟨⟨hkernel, ?_⟩, [], ?_, by simp⟩
    · rw [hempty.1, hempty.2, hpushed, List.append_nil, List.append_nil]
    · rw [hempty.1, hpushed]
      rfl
  have hpending : d.pending = [] := by
    rw [pending, hempty.1, hempty.2]
    rfl
  have hwatched := run_watched hstart hpending hrun
  refine ⟨?_, ?_, ?_⟩
  · cases hflag : s.flag with
    | false => exact (hwatched.keeps.free hflag).1.isPrefix
    | true =>
      obtain ⟨t, op, l, hpc⟩ := hwatched.keeps.someone hflag
      obtain ⟨hand, hstream⟩ := (hwatched.keeps.held t op l hpc).streams
      exact hstream.isPrefix
  · intro hflag
    obtain ⟨hstream, left, hleft, hreleased⟩ := hwatched.keeps.free hflag
    refine ⟨?_, left, by simpa using hleft, hreleased⟩
    simpa [pending] using hstream.bytes
  · intro hout hleft
    have hflag : s.flag = false := by
      by_contra hno
      obtain ⟨t, op, l, hpc⟩ := hwatched.keeps.someone (by simpa using hno)
      rw [hout t] at hpc
      cases hpc
    by_contra hlast
    obtain ⟨t, op, hpc⟩ := hwatched.free hflag ⟨hleft, hlast⟩
    rw [hout t] at hpc
    cases hpc

/-- The second message comes while the first thread has taken the first message off the list. -/
def secondWhileTaken : List (Label Nat SendCall) :=
  [.call 0 (.message ⟨0, 0, 7, emptyFrame⟩), .step 0, .step 0, .step 0,
    .call 1 (.message ⟨1, 0, 7, emptyFrame⟩), .step 1]

theorem threads_send_second_while_taken : ∃ s : State Nat SharedSocket SendCall SendLocal,
    run (step socketSend) (start ⟨.create 0 7, ⟨[], [.accept 3], none⟩, ⟨2, []⟩, []⟩)
        secondWhileTaken = some s ∧
      s.data.kernel.accepted <+: [] ++ raws s.data.pushed ∧
      (s.flag = false →
        s.data.kernel.accepted ++ s.data.pending = [] ++ raws s.data.pushed ∧
        ∃ left, s.data.pushed = left ++ s.data.socket.slist ∧
          s.data.heap.released = [] ++ left.map Servicemessage.addr) ∧
      ((∀ t, s.pc t = .outside) → s.data.pending ≠ [] → s.data.kernel.last = some .again) :=
  ⟨_, rfl, @threads_send Nat _ _ ⟨.create 0 7, ⟨[], [.accept 3], none⟩, ⟨2, []⟩, []⟩
    secondWhileTaken (by decide) rfl ⟨rfl, by simp [SocketInternal.create]⟩ rfl⟩

end SharedSocket

end Tnode
