import Tnode.Socket
import Tnode.Transitions
import Mathlib.Data.List.Induction

namespace Tnode

open Transitions

def raws (messages : List Servicemessage) : List Byte :=
  (messages.map Servicemessage.raw).flatten

@[simp] theorem raws_append (xs ys : List Servicemessage) : raws (xs ++ ys) = raws xs ++ raws ys := by
  simp [raws]

def Heap.releases (heap : Heap) (messages : List Servicemessage) : Heap :=
  { heap with released := heap.released ++ messages.map Servicemessage.addr }

theorem releases_nil (heap : Heap) : heap.releases [] = heap := by
  simp [Heap.releases]

theorem releases_cons (heap : Heap) (m : Servicemessage) (ms : List Servicemessage) :
    (releaseMessage heap m).releases ms = heap.releases (m :: ms) := by
  simp [Heap.releases, releaseMessage]

theorem foldl_releaseMessage (heap : Heap) (ms : List Servicemessage) :
    ms.foldl releaseMessage heap = heap.releases ms := by
  induction ms generalizing heap with
  | nil => exact (releases_nil heap).symm
  | cons m ms ih => rw [List.foldl_cons, ih, releases_cons]

namespace SocketInternal

/-- `sendBytes` hands some `n` bytes to the kernel; it returns that number unless the
connection fails, and stops short of the end only when the kernel would block. -/
theorem sendBytes_spec (k : SendSide) (buffer : List Byte) {bytes : Nat}
    (hb : bytes ≤ buffer.length) :
    ∃ rc n k', sendBytes k buffer bytes = (rc, k') ∧ bytes ≤ n ∧ n ≤ buffer.length ∧
      k'.accepted = k.accepted ++ (buffer.drop bytes).take (n - bytes) ∧
      (rc = -1 ∨ rc = n ∧ (n < buffer.length → k'.last = some .again)) ∧
      (k.NoError → rc = n ∧ k'.NoError) := by
  fun_induction sendBytes k buffer bytes with
  | case1 k bytes hlt k' hr =>
    obtain ⟨_, hacc, _, hno⟩ := SendSide.send_result (by simpa using hlt) hr
    exact ⟨-1, bytes, k', rfl, Nat.le_refl _, hb, by simpa [SendResult.count] using hacc,
      Or.inl rfl, fun hk => absurd rfl (hno hk).2.1⟩
  | case2 k bytes hlt k' hr ih =>
    obtain ⟨_, hacc, _, hno⟩ := SendSide.send_result (by simpa using hlt) hr
    obtain ⟨rc, n, k'', hs, hle, hn, ha, hrc, hk''⟩ := ih hb
    refine ⟨rc, n, k'', hs, hle, hn, ?_, hrc, fun hk => hk'' (hno hk).1⟩
    simpa [hacc, SendResult.count] using ha
  | case3 k bytes hlt k' hr =>
    obtain ⟨hlast, hacc, _, hno⟩ := SendSide.send_result (by simpa using hlt) hr
    exact ⟨bytes, bytes, k', rfl, Nat.le_refl _, hb, by simpa [SendResult.count] using hacc,
      Or.inr ⟨rfl, fun _ => hlast⟩, fun hk => ⟨rfl, (hno hk).1⟩⟩
  | case4 k bytes hlt k' hr =>
    obtain ⟨_, hacc, _, hno⟩ := SendSide.send_result (by simpa using hlt) hr
    exact ⟨-1, bytes, k', rfl, Nat.le_refl _, hb, by simpa [SendResult.count] using hacc,
      Or.inl rfl, fun hk => absurd rfl (hno hk).2.2⟩
  | case5 k bytes hlt rc k' hr ih =>
    obtain ⟨_, hacc, hcount, hno⟩ := SendSide.send_result (by simpa using hlt) hr
    simp only [SendResult.count, List.length_drop] at hacc hcount
    obtain ⟨rc', n, k'', hs, hle, hn, ha, hrc, hk''⟩ := ih (by omega)
    refine ⟨rc', n, k'', hs, by omega, hn, ?_, hrc, fun hk => hk'' (hno hk).1⟩
    have hsplit : n - bytes = rc + (n - (bytes + rc)) := by omega
    rw [ha, hacc, List.append_assoc, hsplit, List.take_add, List.drop_drop]
  | case6 k bytes hge =>
    exact ⟨bytes, bytes, k, rfl, Nat.le_refl _, hb, by simp, Or.inr ⟨rfl, fun h => absurd h hge⟩,
      fun hk => ⟨rfl, hk⟩⟩

/-- How a call of `send()` leaves the byte stream `stream`: the kernel has a prefix of it, and
unless the connection has failed what is left is pending, in order, because the kernel would
block. -/
structure Sent (stream : List Byte) (ok : Bool) (w : ByteBuffer) (slist : List Servicemessage)
    (k : SendSide) : Prop where
  isPrefix : k.accepted <+: stream
  bytes : ok = true → k.accepted ++ w.unread ++ raws slist = stream
  pending : ok = true → w.unread ++ raws slist ≠ [] → k.last = some .again

theorem Sent.of_bytes {stream : List Byte} {ok : Bool} {w : ByteBuffer}
    {slist : List Servicemessage} {k : SendSide}
    (hbytes : k.accepted ++ w.unread ++ raws slist = stream)
    (hpending : w.unread ++ raws slist ≠ [] → k.last = some .again) : Sent stream ok w slist k :=
  ⟨⟨w.unread ++ raws slist, by rw [← hbytes, List.append_assoc]⟩, fun _ => hbytes,
    fun _ => hpending⟩

theorem sendList_stream (w : ByteBuffer) (k : SendSide) (heap : Heap) (l : List Servicemessage) :
    ∃ ok left slist' w' k', sendList w k heap l = some (ok, slist', w', k', heap.releases left) ∧
      l = left ++ slist' ∧ (k.NoError → ok = true ∧ k'.NoError) ∧
      (w.unread = [] → Sent (k.accepted ++ raws l) ok w' slist' k') := by
  induction l generalizing w k heap with
  | nil =>
    refine ⟨true, [], [], w, k, by simp [sendList, releases_nil], rfl, fun hk => ⟨rfl, hk⟩, ?_⟩
    intro hw
    exact .of_bytes (by simp [hw]) (by simp [hw, raws])
  | cons m l ih =>
    obtain ⟨rc, n, k', hs, _, hn, hacc, hrc, hno⟩ :=
      sendBytes_spec k m.raw (Nat.zero_le _)
    simp only [List.drop_zero, Nat.sub_zero, length_raw] at hacc hn hrc
    have hraws : raws (m :: l) = m.raw ++ raws l := rfl
    rcases hrc with rfl | ⟨rfl, hagain⟩
    · refine ⟨false, [m], l, w, k', by simp [sendList, hs, Heap.releases, releaseMessage], rfl, ?_, ?_⟩
      · intro hk
        have := (hno hk).1
        omega
      · intro _
        refine ⟨⟨m.raw.drop n ++ raws l, ?_⟩, nofun, nofun⟩
        rw [hacc, hraws, List.append_assoc, ← List.append_assoc (m.raw.take n),
          List.take_append_drop]
    · by_cases hlt : n < m.len
      · obtain ⟨d, hd, hu⟩ := w.append_spec (m.raw.drop n)
        have hsize : 0 < d.size := by
          rw [← ByteBuffer.length_unread, hu, List.length_append, List.length_drop, length_raw]
          omega
        refine ⟨true, [m], l, d, k', ?_, rfl, fun hk => ⟨rfl, (hno hk).2⟩, ?_⟩
        · simp [sendList, hs, hlt, hd, hsize, Heap.releases, releaseMessage]
        · intro hw
          refine .of_bytes ?_ fun _ => hagain hlt
          rw [hu, hw, hacc, List.nil_append, List.append_assoc, List.append_assoc,
            ← List.append_assoc (m.raw.take n), List.take_append_drop, hraws]
      · have heq : n = m.len := by omega
        by_cases hw : 0 < w.size
        · refine ⟨true, [m], l, w, k', ?_, rfl, fun hk => ⟨rfl, (hno hk).2⟩, ?_⟩
          · simp [sendList, hs, hlt, hw, Heap.releases, releaseMessage]
          · intro hnil
            have hz := congrArg List.length hnil
            simp only [ByteBuffer.length_unread, List.length_nil] at hz
            omega
        · obtain ⟨ok, left, slist', w', k'', hl, hsplit, hok, hspec⟩ :=
            ih w k' (releaseMessage heap m)
          refine ⟨ok, m :: left, slist', w', k'', ?_, by simp [hsplit], fun hk => hok (hno hk).2, ?_⟩
          · have hneg : ¬ ((n : Int) < 0) := by omega
            simp [sendList, hs, hneg, hlt, hw, hl, releases_cons]
          · intro hnil
            have htake : m.raw.take n = m.raw := List.take_of_length_le (by rw [length_raw]; omega)
            have hsent := hspec hnil
            rw [hacc, htake, List.append_assoc, ← hraws] at hsent
            exact hsent

theorem unread_eq_nil {b : ByteBuffer} (h : ¬ 0 < b.size) : b.unread = [] := by
  apply List.length_eq_zero_iff.mp
  rw [ByteBuffer.length_unread]
  omega

/-- What is left of `_wbuffer` when the kernel has taken the first `n` bytes. -/
theorem rlength_sent {b : ByteBuffer} {n : Nat} (hn : n ≤ b.size) :
    ∃ e, (if (0 : Int) < n then b.rlength n else some b) = some e ∧ e.unread = b.unread.drop n := by
  obtain ⟨d, hd, hu⟩ := ByteBuffer.rlength_spec hn
  by_cases hz : (0 : Int) < n
  · exact ⟨d, by rw [if_pos hz, hd], hu⟩
  · have hzero : n = 0 := by omega
    exact ⟨b, by rw [if_neg hz], by simp [hzero]⟩

theorem send_stream (s : SocketInternal) (k : SendSide) (heap : Heap) :
    ∃ ok left slist' w' k',
      s.send k heap = some (ok, { s with slist := slist', wbuffer := w' }, k', heap.releases left) ∧
      s.slist = left ++ slist' ∧ (k.NoError → ok = true ∧ k'.NoError) ∧
      Sent (k.accepted ++ s.wbuffer.unread ++ raws s.slist) ok w' slist' k' := by
  have hunread : s.wbuffer.rbuffer s.wbuffer.size = s.wbuffer.unread := rfl
  by_cases hw : 0 < s.wbuffer.size
  · obtain ⟨rc, n, k', hs, _, hn, hacc, hrc, hno⟩ :=
      sendBytes_spec k s.wbuffer.unread (Nat.zero_le _)
    simp only [List.drop_zero, Nat.sub_zero, ByteBuffer.length_unread] at hacc hn hrc
    rcases hrc with rfl | ⟨rfl, hagain⟩
    · refine ⟨false, [], s.slist, s.wbuffer, k', ?_, rfl, ?_, ?_⟩
      · simp [send, hw, hunread, hs, releases_nil]
      · intro hk
        have := (hno hk).1
        omega
      · refine ⟨⟨s.wbuffer.unread.drop n ++ raws s.slist, ?_⟩, nofun, nofun⟩
        rw [hacc, List.append_assoc, ← List.append_assoc (s.wbuffer.unread.take n),
          List.take_append_drop, List.append_assoc]
    · obtain ⟨e, he, heu⟩ := rlength_sent hn
      have hneg : ¬ ((n : Int) < 0) := by omega
      have hbytes : k'.accepted ++ e.unread = k.accepted ++ s.wbuffer.unread := by
        rw [hacc, heu, List.append_assoc, List.take_append_drop]
      have hesize : e.size = s.wbuffer.size - n := by
        rw [← ByteBuffer.length_unread, heu, List.length_drop, ByteBuffer.length_unread]
      have hsend : s.send k heap = if e.size > 0 then
            some (true, { s with wbuffer := e }, k', heap)
          else (sendList e k' heap s.slist).bind fun r =>
            some (r.1, { s with slist := r.2.1, wbuffer := r.2.2.1 }, r.2.2.2.1, r.2.2.2.2) := by
        simp only [send, hw, hunread, hs, if_true, Option.bind_eq_bind, hneg, if_false,
          Int.toNat_natCast]
        by_cases hz : (0 : Int) < n
        · rw [if_pos hz] at he ⊢
          simp [he]
        · rw [if_neg hz] at he ⊢
          cases Option.some.inj he
          simp
      by_cases hez : e.size > 0
      · refine ⟨true, [], s.slist, e, k', by rw [hsend, if_pos hez, releases_nil], rfl,
          fun hk => ⟨rfl, (hno hk).2⟩, ?_⟩
        exact .of_bytes (by rw [hbytes]) fun _ => hagain (by omega)
      · obtain ⟨ok, left, slist', w', k'', hl, hsplit, hok, hspec⟩ :=
          sendList_stream e k' heap s.slist
        refine ⟨ok, left, slist', w', k'', by rw [hsend, if_neg hez, hl]; rfl, hsplit,
          fun hk => hok (hno hk).2, ?_⟩
        have hnil := unread_eq_nil hez
        rw [hnil, List.append_nil] at hbytes
        have hsent := hspec hnil
        rw [hbytes] at hsent
        exact hsent
  · obtain ⟨ok, left, slist', w', k', hl, hsplit, hok, hspec⟩ :=
      sendList_stream s.wbuffer k heap s.slist
    refine ⟨ok, left, slist', w', k', by simp [send, hw, hl], hsplit, hok, ?_⟩
    have hnil := unread_eq_nil hw
    rw [hnil, List.append_nil]
    exact hspec hnil

/-- `send()` releases what it takes off `_slist`, and keeps the byte stream: what the kernel
has accepted, then `_wbuffer`, then the messages still queued. -/
theorem send_spec (s : SocketInternal) (k : SendSide) (heap : Heap) :
    ∃ ok left slist' w' k',
      s.send k heap = some (ok, { s with slist := slist', wbuffer := w' }, k', heap.releases left) ∧
      s.slist = left ++ slist' ∧
      (k.NoError → ok = true ∧ k'.NoError ∧
        k'.accepted ++ w'.unread ++ raws slist' = k.accepted ++ s.wbuffer.unread ++ raws s.slist ∧
        (w'.unread ++ raws slist' ≠ [] → k'.last = some .again)) := by
  obtain ⟨ok, left, slist', w', k', hsend, hsplit, hok, hsent⟩ := s.send_stream k heap
  refine ⟨ok, left, slist', w', k', hsend, hsplit, fun hk => ?_⟩
  obtain ⟨rfl, hk'⟩ := hok hk
  exact ⟨rfl, hk', hsent.bytes rfl, hsent.pending rfl⟩

end SocketInternal

inductive SendCall
  | message (m : Servicemessage)
  | flush
deriving DecidableEq, Repr

structure Sender where
  socket : SocketInternal
  kernel : SendSide
  heap : Heap

def Sender.call (t : Sender) (c : SendCall) : Option Sender := do
  let (_, socket, kernel, heap) ← match c with
    | .message m => t.socket.sendMessage m t.kernel t.heap
    | .flush => t.socket.send t.kernel t.heap
  return ⟨socket, kernel, heap⟩

def pushed : List SendCall → List Servicemessage
  | [] => []
  | .message m :: calls => m :: pushed calls
  | .flush :: calls => pushed calls

theorem pushed_append (cs ds : List SendCall) : pushed (cs ++ ds) = pushed cs ++ pushed ds := by
  induction cs with
  | nil => rfl
  | cons c cs ih => cases c <;> simp [pushed, ih]

/-- What holds between calls when the messages `ms` have been pushed since the kernel had
accepted `accepted` and the addresses `released` had been released. -/
structure Sender.Keeps (t : Sender) (accepted : List Byte) (released : List Nat)
    (ms : List Servicemessage) : Prop where
  noError : t.kernel.NoError
  bytes : t.kernel.accepted ++ t.socket.wbuffer.unread ++ raws t.socket.slist = accepted ++ raws ms
  left : ∃ left, ms = left ++ t.socket.slist ∧
    t.heap.released = released ++ left.map Servicemessage.addr
  pending : t.socket.wbuffer.unread ++ raws t.socket.slist ≠ [] → t.kernel.last = some .again

theorem Sender.call_keeps {t : Sender} {accepted : List Byte} {released : List Nat}
    {ms : List Servicemessage} (h : t.Keeps accepted released ms) (c : SendCall) :
    ∃ t', t.call c = some t' ∧ t'.Keeps accepted released (ms ++ pushed [c]) := by
  let s : SocketInternal := { t.socket with slist := t.socket.slist ++ pushed [c] }
  obtain ⟨ok, left, slist', w', k', hsend, hsplit, hspec⟩ := s.send_spec t.kernel t.heap
  obtain ⟨_, hk', hbytes, hpend⟩ := hspec h.noError
  have hcall : t.call c = some ⟨{ s with slist := slist', wbuffer := w' }, k', t.heap.releases left⟩ := by
    cases c with
    | message m =>
      have hs : t.socket.sendMessage m t.kernel t.heap = s.send t.kernel t.heap := rfl
      simp [Sender.call, hs, hsend]
    | flush =>
      have hs : s = t.socket := by simp [s, pushed]
      rw [hs] at hsend ⊢
      simp [Sender.call, hsend]
  refine ⟨_, hcall, hk', ?_, ?_, hpend⟩
  · dsimp only
    rw [hbytes]
    simp only [s, raws_append, ← List.append_assoc, h.bytes]
  · obtain ⟨before, hms, hrel⟩ := h.left
    refine ⟨before ++ left, ?_, ?_⟩
    · simp only [hms, List.append_assoc]
      rw [← hsplit]
    · simp [Heap.releases, hrel]

/-- After every sequence of calls: nothing is lost, reordered or sent twice, each message
that left the queue has been released once, and pending bytes wait for the kernel. -/
theorem Sender.run_conserves {t : Sender} (hk : t.kernel.NoError)
    (hs : t.socket.slist = [] ∧ t.socket.wbuffer.unread = []) (calls : List SendCall) :
    ∃ t', run Sender.call t calls = some t' ∧
      t'.kernel.accepted ++ t'.socket.wbuffer.unread ++ raws t'.socket.slist =
        t.kernel.accepted ++ raws (pushed calls) ∧
      (∃ left, pushed calls = left ++ t'.socket.slist ∧
        t'.heap.released = t.heap.released ++ left.map Servicemessage.addr) ∧
      (t'.socket.wbuffer.unread ++ raws t'.socket.slist ≠ [] → t'.kernel.last = some .again) := by
  have hrun : ∀ calls, ∃ t', run Sender.call t calls = some t' ∧
      t'.Keeps t.kernel.accepted t.heap.released (pushed calls) := by
    intro calls
    induction calls using List.reverseRecOn with
    | nil => exact ⟨t, rfl, hk, by simp [hs, raws, pushed], ⟨[], by simp [hs, pushed], by simp⟩, by
        simp [hs, raws]⟩
    | append_singleton calls c ih =>
      obtain ⟨u, hu, hkeep⟩ := ih
      obtain ⟨v, hv, hkeep'⟩ := Sender.call_keeps hkeep c
      refine ⟨v, by simp [run_append, hu, run, hv], ?_⟩
      rw [pushed_append]
      exact hkeep'
  obtain ⟨t', ht, hkeep⟩ := hrun calls
  exact ⟨t', ht, hkeep.bytes, hkeep.left, hkeep.pending⟩

theorem Sender.run_conserves_partial_write :
    ∃ t', run Sender.call ⟨.create 0 7, ⟨[], [.accept 3, .wouldblock, .interrupted, .accept 99], none⟩,
        ⟨1, []⟩⟩ [.message ⟨0, 0, 7, emptyFrame⟩, .flush] = some t' ∧
      t'.kernel.accepted ++ t'.socket.wbuffer.unread ++ raws t'.socket.slist =
        [] ++ raws [⟨0, 0, 7, emptyFrame⟩] ∧
      (∃ left, [⟨0, 0, 7, emptyFrame⟩] = left ++ t'.socket.slist ∧
        t'.heap.released = [] ++ left.map Servicemessage.addr) ∧
      (t'.socket.wbuffer.unread ++ raws t'.socket.slist ≠ [] → t'.kernel.last = some .again) :=
  Sender.run_conserves (t := ⟨.create 0 7, ⟨[], [.accept 3, .wouldblock, .interrupted, .accept 99], none⟩,
    ⟨1, []⟩⟩) (by decide) ⟨rfl, by simp [SocketInternal.create]⟩
    [.message ⟨0, 0, 7, emptyFrame⟩, .flush]

end Tnode
