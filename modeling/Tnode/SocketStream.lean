import Tnode.SocketReceive

namespace Tnode

open Framing

def StartsFrames (xs : List Byte) : Prop :=
  ∃ fs : List (List Byte), (∀ f ∈ fs, WellFormedFrame f) ∧ xs <+: fs.flatten

theorem StartsFrames.good {xs : List Byte} (h : StartsFrames xs) :
    (socketRule.parse xs).bad = false := by
  obtain ⟨fs, hf, hp⟩ := h
  exact Rule.good_of_prefix_frames (fun f hm => isFrame_iff.mpr (hf f hm)) socketRule_nil hp

namespace SocketInternal

/-- With nothing but interruptions in its way, a call of `receive` drains the kernel's
queue and keeps the connection exactly when the queue fits its one read. -/
theorem receive_drains_iff {s : SocketInternal} {k : RecvSide} {heap : Heap} (hk : k.NoError)
    (hshut : k.shut = false) (hw : StartsFrames (s.rbuffer.unread ++ k.queued)) :
    (∃ s' k' heap', s.receive k heap = some (true, s', k', heap') ∧
        k'.queued = [] ∧ k'.last = some .again) ↔
      k.queued.length < 960 ∨ k.queued.length = 960 ∧ k.zeroAgain = true := by
  constructor
  · rintro ⟨s', k', heap', hr, _, _⟩
    by_contra hlong
    have hfit : ¬ k.Fits (readlen - ([] : List Byte).length) := fun hf => hlong hf.2
    have hlost := readBytes_unfit (Nat.zero_le _) hfit
    obtain ⟨b, hb⟩ := receive_lost s heap (Prod.ext hlost rfl)
    simp [hb] at hr
  · intro hlen
    obtain ⟨k', hread, hq, hlast⟩ := readBytes_fits readlen [] (Nat.zero_le _) hk ⟨hshut, hlen⟩
    obtain ⟨b, _, hr⟩ := receive_read s heap hread
    rw [List.nil_append, hw.good] at hr
    exact ⟨_, k', _, hr, hq, hlast⟩

theorem receive_drains_one_frame :
    ∃ s' k' heap', (create 0 7).receive ⟨emptyFrame, false, true, [.interrupted, .upTo 3], none⟩ ⟨0, []⟩ =
      some (true, s', k', heap') ∧ k'.queued = [] ∧ k'.last = some .again :=
  (receive_drains_iff (by decide) rfl ⟨[emptyFrame], by simp [wellFormed_emptyFrame], by
    simp [create]⟩).mpr (Or.inl (by decide))

/-- Sixty-one whole frames queued at once: the read fills its 960 bytes, asks for none,
and takes the answer 0 for a lost connection. -/
theorem receive_loses_sixty_one_frames :
    StartsFrames ((create 0 7).rbuffer.unread ++ (List.replicate 61 emptyFrame).flatten) ∧
      ∃ s' k', (create 0 7).receive
        ⟨(List.replicate 61 emptyFrame).flatten, false, true, [], none⟩ ⟨0, []⟩ =
          some (false, s', k', ⟨0, []⟩) := by
  constructor
  · refine ⟨List.replicate 61 emptyFrame, ?_, by simp [create]⟩
    intro f hf
    rw [List.eq_of_mem_replicate hf]
    exact wellFormed_emptyFrame
  · have hfit : ¬ RecvSide.Fits ⟨(List.replicate 61 emptyFrame).flatten, false, true, [], none⟩
        (readlen - ([] : List Byte).length) := by
      have hl : ((List.replicate 61 emptyFrame).flatten).length = 976 := by
        rw [List.length_flatten, List.map_replicate, List.sum_replicate_nat]
        rfl
      simp only [RecvSide.Fits, readlen, hl]
      decide
    have hlost := readBytes_unfit (Nat.zero_le _) hfit
    obtain ⟨b, hb⟩ := receive_lost (create 0 7) ⟨0, []⟩ (Prod.ext hlost rfl)
    exact ⟨_, _, hb⟩

/-- The loop of `NetworkManager::run` over `getMessage`. -/
def getMessages (s : SocketInternal) : List Servicemessage × SocketInternal :=
  match _hm : s.getMessage with
  | none => ([], s)
  | some (message, s') =>
    let (rest, t) := getMessages s'
    (message :: rest, t)
termination_by s.rlist.length
decreasing_by
  unfold getMessage at _hm
  split at _hm
  next => simp at _hm
  next hl =>
    cases _hm
    simp [hl]

@[simp] theorem getMessages_eq (s : SocketInternal) :
    s.getMessages = (s.rlist, { s with rlist := [] }) := by
  fun_induction getMessages s with
  | case1 s hm =>
    have hnil : s.rlist = [] := by
      unfold getMessage at hm
      split at hm <;> simp_all
    rw [← hnil]
  | case2 s message s' hm rest t hrest ih =>
    unfold getMessage at hm
    split at hm
    next => simp at hm
    next hl =>
      cases hm
      obtain ⟨rfl, rfl⟩ := Prod.mk.inj (hrest.symm.trans ih)
      simp [hl]

/-- Calls of `receive`, each followed by taking out what it has framed. -/
def receiveCalls (s : SocketInternal) (heap : Heap) :
    List RecvSide → Option (List Bool × List Servicemessage × SocketInternal × Heap)
  | [] => some ([], [], s, heap)
  | k :: ks => do
    let (ok, s, _, heap) ← s.receive k heap
    let (messages, s) := s.getMessages
    let (oks, rest, s, heap) ← receiveCalls s heap ks
    return (ok :: oks, messages ++ rest, s, heap)

def Delivers (k : RecvSide) (chunk : List Byte) : Prop :=
  ∃ k', readBytes k readlen [] = ((chunk.length : Int), chunk, k')

theorem delivers_of_fits {k : RecvSide} (hk : k.NoError) (hfit : k.Fits readlen) :
    Delivers k k.queued := by
  obtain ⟨k', hread, _⟩ := readBytes_fits readlen [] (Nat.zero_le _) hk hfit
  exact ⟨k', hread⟩

theorem receiveCalls_spec {ks : List RecvSide} {chunks : List (List Byte)}
    (hd : List.Forall₂ Delivers ks chunks) (s : SocketInternal) (heap : Heap)
    (hr : s.rlist = []) (hmore : socketRule.verdict s.rbuffer.unread = .more)
    (hgood : (socketRule.parse (s.rbuffer.unread ++ chunks.flatten)).bad = false) :
    ∃ b heap', b.unread = (socketRule.parse (s.rbuffer.unread ++ chunks.flatten)).rest ∧
      receiveCalls s heap ks = some (List.replicate ks.length true,
        framed s.self s.fd heap.next (socketRule.parse (s.rbuffer.unread ++ chunks.flatten)).frames,
        { s with rbuffer := b }, heap') := by
  induction hd generalizing s heap with
  | nil => exact ⟨s.rbuffer, heap, by simp [Rule.parse_more hmore], by
      simp [receiveCalls, Rule.parse_more hmore, framed]⟩
  | @cons k chunk ks chunks hk _ ih =>
    obtain ⟨k', hread⟩ := hk
    obtain ⟨b, hb, hcall⟩ := receive_read s heap hread
    have hfirst : (socketRule.parse (s.rbuffer.unread ++ chunk)).bad = false := by
      by_contra hbad
      have hp : s.rbuffer.unread ++ chunk <+: s.rbuffer.unread ++ (chunk :: chunks).flatten :=
        ⟨chunks.flatten, by simp⟩
      have hb' := (Rule.bad_of_isPrefix hp (by simpa using hbad)).1
      rw [hgood] at hb'
      exact absurd hb' (by simp)
    have hrest := Rule.verdict_rest (r := socketRule) (s.rbuffer.unread ++ chunk)
    rw [hfirst, ← hb] at hrest
    have hwhole : socketRule.parse (s.rbuffer.unread ++ (chunk :: chunks).flatten) =
        ⟨(socketRule.parse (s.rbuffer.unread ++ chunk)).frames ++
            (socketRule.parse (b.unread ++ chunks.flatten)).frames,
          (socketRule.parse (b.unread ++ chunks.flatten)).rest,
          (socketRule.parse (b.unread ++ chunks.flatten)).bad⟩ := by
      rw [List.flatten_cons, ← List.append_assoc, Rule.parse_append, hfirst, ← hb]
      rfl
    rw [hwhole] at hgood
    obtain ⟨d, heap', hd, hcalls⟩ := ih
      { s with rlist := [], rbuffer := b }
      { heap with
        next := heap.next + (socketRule.parse (s.rbuffer.unread ++ chunk)).frames.length }
      rfl hrest hgood
    rw [hwhole]
    refine ⟨d, heap', hd, ?_⟩
    simp [receiveCalls, hcall, hcalls, hfirst, hr, framed_append, List.replicate_succ]

theorem receiveCalls_frames {s : SocketInternal} {ks : List RecvSide}
    {chunks fs : List (List Byte)} {f tail : List Byte} (heap : Heap)
    (hs : s.rlist = [] ∧ s.rbuffer.unread = [])
    (hfs : ∀ g ∈ fs, WellFormedFrame g) (hf : WellFormedFrame f) (ht : tail <+: f)
    (hlt : tail.length < f.length) (hcut : chunks.flatten = fs.flatten ++ tail)
    (hd : List.Forall₂ Delivers ks chunks) :
    ∃ b heap', b.unread = tail ∧
      receiveCalls s heap ks = some (List.replicate ks.length true,
        framed s.self s.fd heap.next fs, { s with rbuffer := b }, heap') := by
  have htail : socketRule.parse tail = ⟨[], tail, false⟩ :=
    Rule.parse_more (verdict_of_isPrefix hf ht hlt)
  have hwhole : socketRule.parse (s.rbuffer.unread ++ chunks.flatten) = ⟨fs, tail, false⟩ := by
    rw [hs.2, List.nil_append, hcut,
      Rule.parse_frames (fun g hg => isFrame_iff.mpr (hfs g hg)) tail, htail, List.append_nil]
  obtain ⟨b, heap', hb, hcalls⟩ := receiveCalls_spec hd s heap hs.1
    (by rw [hs.2]; exact socketRule_nil) (by rw [hwhole])
  rw [hwhole] at hb hcalls
  exact ⟨b, heap', hb, hcalls⟩

/-- However the stream of whole frames and one unfinished frame is cut, the calls deliver
exactly the frames and keep the unfinished one. -/
theorem receiveCalls_delivers_frames {s : SocketInternal} {heap : Heap} {ks : List RecvSide}
    {chunks fs : List (List Byte)} {f tail : List Byte}
    (hs : s.rlist = [] ∧ s.rbuffer.unread = [])
    (hfs : ∀ g ∈ fs, WellFormedFrame g) (hf : WellFormedFrame f) (ht : tail <+: f)
    (hlt : tail.length < f.length) (hcut : chunks.flatten = fs.flatten ++ tail)
    (hd : List.Forall₂ Delivers ks chunks) :
    ∃ messages s' heap',
      receiveCalls s heap ks = some (List.replicate ks.length true, messages, s', heap') ∧
      messages.map Servicemessage.rawmsg = fs ∧ (∀ m ∈ messages, m.fd = s.fd) ∧
      s'.rbuffer.unread = tail ∧ s'.rlist = [] ∧
      ∀ m ∈ messages, sizeofSocketmessage ≤ m.len ∧
        m.payloadLength = m.len - sizeofSocketmessage := by
  obtain ⟨b, heap', hb, hcalls⟩ := receiveCalls_frames heap hs hfs hf ht hlt hcut hd
  refine ⟨_, _, heap', hcalls, map_rawmsg_framed .., fun m hm => (mem_framed hm).1, hb, hs.1, ?_⟩
  intro m hm
  exact payloadLength_of_wellFormed (hfs _ (mem_framed hm).2.2)

theorem receiveCalls_delivers_one_frame :
    ∃ messages s' heap',
      receiveCalls (create 0 7) ⟨0, []⟩ [⟨[16, 0], false, true, [], none⟩,
        ⟨List.replicate 14 0 ++ [16], false, true, [.upTo 3], none⟩] =
          some ([true, true], messages, s', heap') ∧
      messages.map Servicemessage.rawmsg = [emptyFrame] ∧ (∀ m ∈ messages, m.fd = 7) ∧
      s'.rbuffer.unread = [16] ∧ s'.rlist = [] ∧
      ∀ m ∈ messages, sizeofSocketmessage ≤ m.len ∧
        m.payloadLength = m.len - sizeofSocketmessage :=
  @receiveCalls_delivers_frames (create 0 7) _ _ [[16, 0], List.replicate 14 0 ++ [16]] _
    emptyFrame [16] ⟨rfl, by simp [create]⟩
    (by simp [wellFormed_emptyFrame]) wellFormed_emptyFrame (by decide) (by decide) (by decide)
    (.cons (delivers_of_fits (by decide) (by decide))
      (.cons (delivers_of_fits (by decide) (by decide)) .nil))

end SocketInternal

end Tnode
