import Tnode.Socket

namespace Tnode

open Framing

/-- A read with room for `room` more bytes takes all that is queued and meets neither
the end of the stream nor a request for no bytes that is answered by 0. -/
def RecvSide.Fits (k : RecvSide) (room : Nat) : Prop :=
  k.shut = false ∧ (k.queued.length < room ∨ k.queued.length = room ∧ k.zeroAgain = true)

instance (k : RecvSide) (room : Nat) : Decidable (k.Fits room) :=
  inferInstanceAs (Decidable (_ ∧ _))

namespace SocketInternal

theorem readBytes_stored (k : RecvSide) (len : Nat) (bytes : List Byte)
    (hb : bytes.length ≤ len) :
    (readBytes k len bytes).2.1.length ≤ len ∧
      ((readBytes k len bytes).1 = -1 ∨
        (readBytes k len bytes).1 = (readBytes k len bytes).2.1.length) := by
  fun_induction readBytes k len bytes with
  | case1 k bytes k' hr => exact ⟨hb, Or.inl rfl⟩
  | case2 k bytes k' hr ih => exact ih hb
  | case3 k bytes k' hr => exact ⟨hb, Or.inr rfl⟩
  | case4 k bytes k' hr => exact ⟨hb, Or.inl rfl⟩
  | case5 k bytes rc k' hr ih =>
    obtain ⟨_, c, _, hcn, rfl, _⟩ := RecvSide.recv_data hr
    apply ih
    simp only [List.length_append, List.length_take]
    omega

theorem readBytes_fits {k : RecvSide} (len : Nat) (bytes : List Byte) (hb : bytes.length ≤ len)
    (hk : k.NoError) (hfit : k.Fits (len - bytes.length)) :
    ∃ k', readBytes k len bytes =
        (((bytes ++ k.queued).length : Int), bytes ++ k.queued, k') ∧
      k'.queued = [] ∧ k'.last = some .again := by
  fun_induction readBytes k len bytes with
  | case1 k bytes k' hr =>
    exfalso
    obtain ⟨hshut, hroom⟩ := hfit
    rcases RecvSide.recv_zero hr with ⟨hq, hs | ⟨hn, hz⟩⟩ | ⟨hq, hn⟩
    · simp [hs] at hshut
    · simp [hq, hz, hn] at hroom
    · have := List.length_pos_iff.mpr hq
      omega
  | case2 k bytes k' hr ih =>
    obtain ⟨_, rfl⟩ := RecvSide.recv_interrupted hr
    exact ih hb hk.tail hfit
  | case3 k bytes k' hr =>
    obtain ⟨hq, _, _, rfl⟩ := RecvSide.recv_again hr
    refine ⟨{ k with script := k.script.tail, last := some .again }, ?_, hq, rfl⟩
    simp [hq]
  | case4 k bytes k' hr => exact absurd (RecvSide.recv_error hr) hk
  | case5 k bytes rc k' hr ih =>
    obtain ⟨hq, c, hc, hcn, rfl, rfl⟩ := RecvSide.recv_data hr
    have hl := List.length_pos_iff.mpr hq
    have hroom : bytes.length + min c k.queued.length ≤ len := by omega
    have hb' : (bytes ++ k.queued.take c).length ≤ len := by
      simpa only [List.length_append, List.length_take] using hroom
    have hfit' : RecvSide.Fits { k with
        queued := k.queued.drop c, script := k.script.tail,
        last := some (.data (k.queued.take c)) } (len - (bytes ++ k.queued.take c).length) := by
      simp only [RecvSide.Fits, List.length_append, List.length_take, List.length_drop]
      rcases hfit.2 with hlt | ⟨heq, hz⟩
      · exact ⟨hfit.1, Or.inl (by omega)⟩
      · exact ⟨hfit.1, Or.inr ⟨by omega, hz⟩⟩
    simpa [List.append_assoc] using ih hb' hk.tail hfit'

theorem readBytes_unfit {k : RecvSide} {len : Nat} {bytes : List Byte} (hb : bytes.length ≤ len)
    (hfit : ¬ k.Fits (len - bytes.length)) : (readBytes k len bytes).1 = -1 := by
  fun_induction readBytes k len bytes with
  | case1 k bytes k' hr => rfl
  | case2 k bytes k' hr ih =>
    obtain ⟨_, rfl⟩ := RecvSide.recv_interrupted hr
    exact ih hb hfit
  | case3 k bytes k' hr =>
    exfalso
    obtain ⟨hq, hs, hz, _⟩ := RecvSide.recv_again hr
    apply hfit
    refine ⟨hs, ?_⟩
    by_cases hn : len - bytes.length = 0
    · exact Or.inr ⟨by simp [hq, hn], hz hn⟩
    · exact Or.inl (by simp [hq]; omega)
  | case4 k bytes k' hr => rfl
  | case5 k bytes rc k' hr ih =>
    obtain ⟨hq, c, hc, hcn, rfl, rfl⟩ := RecvSide.recv_data hr
    have hl := List.length_pos_iff.mpr hq
    have hroom : bytes.length + min c k.queued.length ≤ len := by omega
    apply ih
    · simpa only [List.length_append, List.length_take] using hroom
    · intro hrest
      apply hfit
      simp only [RecvSide.Fits, List.length_append, List.length_take, List.length_drop] at hrest
      rcases hrest.2 with hlt | ⟨heq, hz⟩
      · exact ⟨hrest.1, Or.inl (by omega)⟩
      · exact ⟨hrest.1, Or.inr ⟨by omega, hz⟩⟩

/-- The messages a socket object makes of frames when the allocator stands at `addr`. -/
def framed (self : Nat) (fd : SOCKET) : Nat → List (List Byte) → List Servicemessage
  | _, [] => []
  | addr, f :: fs => ⟨addr, self, fd, f⟩ :: framed self fd (addr + 1) fs

theorem map_rawmsg_framed (self : Nat) (fd : SOCKET) (addr : Nat) (fs : List (List Byte)) :
    (framed self fd addr fs).map Servicemessage.rawmsg = fs := by
  induction fs generalizing addr with
  | nil => rfl
  | cons f fs ih => simp [framed, ih]

theorem map_addr_framed (self : Nat) (fd : SOCKET) (addr : Nat) (fs : List (List Byte)) :
    (framed self fd addr fs).map Servicemessage.addr = List.range' addr fs.length := by
  induction fs generalizing addr with
  | nil => rfl
  | cons f fs ih => simp [framed, ih, List.range'_succ]

theorem mem_framed {self : Nat} {fd : SOCKET} {addr : Nat} {fs : List (List Byte)}
    {m : Servicemessage} (h : m ∈ framed self fd addr fs) :
    m.fd = fd ∧ m.origin = self ∧ m.rawmsg ∈ fs := by
  induction fs generalizing addr with
  | nil => simp [framed] at h
  | cons f fs ih =>
    rcases List.mem_cons.mp h with rfl | h
    · exact ⟨rfl, rfl, by simp⟩
    · obtain ⟨hfd, ho, hm⟩ := ih h
      exact ⟨hfd, ho, List.mem_cons_of_mem f hm⟩

theorem framed_append (self : Nat) (fd : SOCKET) (addr : Nat) (fs gs : List (List Byte)) :
    framed self fd addr (fs ++ gs) =
      framed self fd addr fs ++ framed self fd (addr + fs.length) gs := by
  induction fs generalizing addr with
  | nil => rfl
  | cons f fs ih =>
    have hn : addr + (f :: fs).length = addr + 1 + fs.length := by
      simp only [List.length_cons]
      omega
    simp only [List.cons_append, framed, ih, hn]

theorem u32le_rbuffer {b : ByteBuffer} (h : sizeofLen ≤ b.size) :
    u32le (b.rbuffer sizeofLen) = u32le b.unread := by
  rw [ByteBuffer.rbuffer_eq_take h]
  exact u32le_take (Nat.le_refl _) (by simpa using h)

/-- The loop of `receive` frames the unread bytes as the rule parses them. -/
theorem frames_spec (s : SocketInternal) (heap : Heap) :
    ∃ b, b.unread = (socketRule.parse s.rbuffer.unread).rest ∧
      frames s heap = some (!(socketRule.parse s.rbuffer.unread).bad,
        { s with
          rlist := s.rlist ++ framed s.self s.fd heap.next (socketRule.parse s.rbuffer.unread).frames
          rbuffer := b },
        { heap with next := heap.next + (socketRule.parse s.rbuffer.unread).frames.length }) := by
  fun_induction frames s heap with
  | case1 s heap len hmore =>
    have hv : socketRule.verdict s.rbuffer.unread = .more := by
      simp only [socketRule, ByteBuffer.length_unread]
      apply if_pos
      by_cases h4 : s.rbuffer.size < sizeofLen
      · exact Or.inl h4
      · have hu := u32le_rbuffer (by omega : sizeofLen ≤ s.rbuffer.size)
        rw [← hu]
        exact hmore
    exact ⟨s.rbuffer, by simp [Rule.parse_more hv], by simp [Rule.parse_more hv, framed]⟩
  | case2 s heap len hmore hlen =>
    have hu := u32le_rbuffer (by omega : sizeofLen ≤ s.rbuffer.size)
    have hv : socketRule.verdict s.rbuffer.unread = .bad := by
      simp only [socketRule, ByteBuffer.length_unread, ← hu]
      rw [if_neg hmore, if_pos hlen]
    exact ⟨s.rbuffer, by simp [Rule.parse_bad hv], by simp [Rule.parse_bad hv, framed]⟩
  | case3 s heap len hmore hlen addr heap' halloc hr =>
    obtain ⟨b, hb, _⟩ := ByteBuffer.rlength_spec (by omega : len ≤ s.rbuffer.size)
    simp [hb] at hr
  | case4 s heap len hmore hlen addr heap' halloc newmsg buffer hr ih =>
    have hu := u32le_rbuffer (by omega : sizeofLen ≤ s.rbuffer.size)
    have hv : socketRule.verdict s.rbuffer.unread = .frame len := by
      simp only [socketRule, ByteBuffer.length_unread, ← hu]
      rw [if_neg hmore, if_neg hlen]
    obtain ⟨hdrop, hle⟩ := ByteBuffer.unread_rlength hr
    obtain ⟨b, hb, he⟩ := ih
    obtain ⟨rfl, rfl⟩ := Prod.mk.inj halloc
    simp only [hdrop] at hb he
    rw [Rule.parse_frame hv]
    refine ⟨b, hb, ?_⟩
    rw [he]
    have hn : heap.next + 1 + (socketRule.parse (s.rbuffer.unread.drop len)).frames.length =
        heap.next + ((socketRule.parse (s.rbuffer.unread.drop len)).frames.length + 1) := by omega
    simp [framed, newmsg, ByteBuffer.rbuffer_eq_take hle, hn]

/-- What a call of `receive` does when its read returns the bytes `stored`. -/
theorem receive_read (s : SocketInternal) {k k' : RecvSide} (heap : Heap) {stored : List Byte}
    (h : readBytes k readlen [] = ((stored.length : Int), stored, k')) :
    ∃ b, b.unread = (socketRule.parse (s.rbuffer.unread ++ stored)).rest ∧
      s.receive k heap = some (!(socketRule.parse (s.rbuffer.unread ++ stored)).bad,
        { s with
          rlist := s.rlist ++
            framed s.self s.fd heap.next (socketRule.parse (s.rbuffer.unread ++ stored)).frames
          rbuffer := b },
        k', { heap with
          next := heap.next + (socketRule.parse (s.rbuffer.unread ++ stored)).frames.length }) := by
  have hl : stored.length ≤ readlen := by
    simpa [h] using (readBytes_stored k readlen [] (by simp)).1
  have hroom := s.rbuffer.reserve_room readlen
  have hroom' : (s.rbuffer.wbuffer readlen).windex + stored.length ≤
      (s.rbuffer.wbuffer readlen).capacity := by
    simp only [ByteBuffer.wbuffer, ByteBuffer.windex_reserve]
    omega
  obtain ⟨c, d, hc, hd, hu⟩ := ByteBuffer.store_wlength_spec hroom'
  have hur : (s.rbuffer.wbuffer readlen).unread = s.rbuffer.unread := s.rbuffer.unread_reserve _
  have hbuf : ∃ e, (if (0 : Int) < stored.length then c.wlength stored.length else some c) = some e ∧
      e.unread = s.rbuffer.unread ++ stored := by
    by_cases hz : 0 < stored.length
    · exact ⟨d, by simp [hz, hd], by rw [hu, hur]⟩
    · have hnil : stored = [] := List.length_eq_zero_iff.mp (by omega)
      exact ⟨c, by simp [hnil], by rw [ByteBuffer.unread_store hc, hur, hnil, List.append_nil]⟩
  obtain ⟨e, he, heu⟩ := hbuf
  obtain ⟨b, hb, hf⟩ := frames_spec { s with rbuffer := e } heap
  simp only [heu] at hb hf
  refine ⟨b, hb, ?_⟩
  have hneg : ¬ ((stored.length : Int) < 0) := by omega
  simp only [receive, h, hc, Option.bind_eq_bind, Option.bind_some, hneg, if_false,
    Int.toNat_natCast]
  by_cases hz : (0 : Int) < stored.length
  · rw [if_pos hz] at he ⊢
    simp [he, hf]
  · rw [if_neg hz] at he ⊢
    cases Option.some.inj he
    simp [hf]

theorem receive_lost (s : SocketInternal) {k k' : RecvSide} (heap : Heap) {stored : List Byte}
    (h : readBytes k readlen [] = (-1, stored, k')) :
    ∃ b, s.receive k heap = some (false, { s with rbuffer := b }, k', heap) := by
  have hl : stored.length ≤ readlen := by
    simpa [h] using (readBytes_stored k readlen [] (by simp)).1
  have hroom := s.rbuffer.reserve_room readlen
  have hroom' : (s.rbuffer.wbuffer readlen).windex + stored.length ≤
      (s.rbuffer.wbuffer readlen).capacity := by
    simp only [ByteBuffer.wbuffer, ByteBuffer.windex_reserve]
    omega
  obtain ⟨c, _, hc, _⟩ := ByteBuffer.store_wlength_spec hroom'
  exact ⟨c, by simp [receive, h, hc]⟩

end SocketInternal

end Tnode
