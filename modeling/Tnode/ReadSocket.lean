import Tnode.SocketStream
import Tnode.Transitions

namespace Tnode

open Framing Transitions

/-- A slot of `_sockets` that holds a connection, and the messages the loop of `run` has
handed to `ServiceManager::pushMessage`. -/
structure Connection where
  socket : Option SocketInternal
  heap : Heap
  handed : List Servicemessage

/-- `readSocket` of `NetworkManager::run` when the slot holds a connection. -/
def readSocket (c : Connection) (k : RecvSide) : Option Connection :=
  match c.socket with
  | none => some c
  | some socket => do
    let (ok, socket, _, heap) ← socket.receive k c.heap
    if ok then
      let (messages, socket) := socket.getMessages
      return { socket := some socket, heap := heap, handed := c.handed ++ messages }
    else
      return { c with socket := none, heap := socket.destroy heap }

def stream (ks : List RecvSide) : List Byte := (ks.map RecvSide.queued).flatten

/-- The complete legal frames in front of the end of a stream or of its illegal frame. -/
def legalFrames (xs : List Byte) : List (List Byte) := (socketRule.parse xs).frames

/-- No wake-up that brings the end of the stream or makes an illegal length visible
completes a legal frame as well. -/
def Timely (seen : List Byte) : List RecvSide → Prop
  | [] => True
  | k :: ks =>
    (k.shut = true ∨ (socketRule.parse (seen ++ k.queued)).bad = true →
      legalFrames (seen ++ k.queued) = legalFrames seen) ∧ Timely (seen ++ k.queued) ks

/-- What a peer can send between two wake-ups: fewer than 960 bytes, no receive error,
and nothing after it has shut down. -/
def Orderly : List RecvSide → Prop
  | [] => True
  | k :: ks => k.queued.length < 960 ∧ k.NoError ∧ (k.shut = true → ks = []) ∧ Orderly ks

theorem timely_of_bad {seen : List Byte} (h : (socketRule.parse seen).bad = true)
    (ks : List RecvSide) : Timely seen ks := by
  induction ks generalizing seen with
  | nil => trivial
  | cons k ks ih =>
    obtain ⟨hb, hf⟩ := Rule.bad_of_isPrefix (List.prefix_append seen k.queued) h
    exact ⟨fun _ => hf, ih hb⟩

theorem run_readSocket_closed {c : Connection} (h : c.socket = none) (ks : List RecvSide) :
    run readSocket c ks = some c := by
  induction ks with
  | nil => rfl
  | cons k ks ih => simpa [run, readSocket, h] using ih

/-- The connection stands behind the bytes `seen`: their frames have been handed over and
what is left of them is unread. -/
structure Connection.Behind (c : Connection) (s : SocketInternal) (seen : List Byte) : Prop where
  socket : c.socket = some s
  rlist : s.rlist = []
  unread : s.rbuffer.unread = (socketRule.parse seen).rest
  good : (socketRule.parse seen).bad = false
  handed : c.handed.map Servicemessage.rawmsg = legalFrames seen

theorem parse_behind {c : Connection} {s : SocketInternal} {seen : List Byte}
    (h : c.Behind s seen) (xs : List Byte) :
    legalFrames (seen ++ xs) = legalFrames seen ++ legalFrames (s.rbuffer.unread ++ xs) ∧
    (socketRule.parse (seen ++ xs)).rest = (socketRule.parse (s.rbuffer.unread ++ xs)).rest ∧
    (socketRule.parse (seen ++ xs)).bad = (socketRule.parse (s.rbuffer.unread ++ xs)).bad := by
  have hp := Rule.parse_append (r := socketRule) seen xs
  rw [h.good, ← h.unread] at hp
  simp [legalFrames, hp]

theorem readSocket_good {c : Connection} {s : SocketInternal} {seen : List Byte} {k : RecvSide}
    (h : c.Behind s seen) (hlen : k.queued.length < 960) (hk : k.NoError)
    (hshut : k.shut = false) (hgood : (socketRule.parse (seen ++ k.queued)).bad = false) :
    ∃ c' s', readSocket c k = some c' ∧ c'.Behind s' (seen ++ k.queued) := by
  obtain ⟨k', hread⟩ := SocketInternal.delivers_of_fits hk ⟨hshut, Or.inl hlen⟩
  obtain ⟨b, hb, hcall⟩ := SocketInternal.receive_read s c.heap hread
  obtain ⟨hf, hrest, hbad⟩ := parse_behind h k.queued
  rw [hgood] at hbad
  rw [← hbad] at hcall
  refine ⟨_, _, by simp [readSocket, h.socket, hcall]; rfl, rfl, rfl, ?_, hgood, ?_⟩
  · rw [hb, hrest]
  · simp only [List.map_append, h.handed, hf, h.rlist, List.nil_append,
      SocketInternal.map_rawmsg_framed]
    rfl

/-- A wake-up that ends the stream or shows a bad frame deletes the socket with all it
has framed in that wake-up. -/
theorem readSocket_closing {c : Connection} {s : SocketInternal} {seen : List Byte} {k : RecvSide}
    (h : c.Behind s seen) (hlen : k.queued.length < 960) (hk : k.NoError)
    (hclose : k.shut = true ∨ (socketRule.parse (seen ++ k.queued)).bad = true) :
    ∃ c', readSocket c k = some c' ∧ c'.socket = none ∧ c'.handed = c.handed := by
  have hfalse : ∃ s' k' heap', s.receive k c.heap = some (false, s', k', heap') := by
    by_cases hshut : k.shut = true
    · have hfit : ¬ k.Fits (SocketInternal.readlen - ([] : List Byte).length) := by
        rintro ⟨hs, _⟩
        simp [hshut] at hs
      have hlost := SocketInternal.readBytes_unfit (Nat.zero_le _) hfit
      obtain ⟨b, hb⟩ := SocketInternal.receive_lost s c.heap (Prod.ext hlost rfl)
      exact ⟨_, _, _, hb⟩
    · have hbad := hclose.resolve_left hshut
      obtain ⟨k', hread⟩ := SocketInternal.delivers_of_fits hk ⟨by simpa using hshut, Or.inl hlen⟩
      obtain ⟨b, _, hcall⟩ := SocketInternal.receive_read s c.heap hread
      rw [← (parse_behind h k.queued).2.2, hbad] at hcall
      exact ⟨_, _, _, hcall⟩
  obtain ⟨s', k', heap', hcall⟩ := hfalse
  refine ⟨{ socket := none, heap := s'.destroy heap', handed := c.handed }, ?_, rfl, rfl⟩
  simp [readSocket, h.socket, hcall]

theorem handed_iff_timely_behind {ks : List RecvSide} (ho : Orderly ks) {c : Connection}
    {s : SocketInternal} {seen : List Byte} (h : c.Behind s seen) :
    ∃ c', run readSocket c ks = some c' ∧
      (c'.handed.map Servicemessage.rawmsg = legalFrames (seen ++ stream ks) ↔
        Timely seen ks) := by
  induction ks generalizing c s seen with
  | nil => exact ⟨c, rfl, by simpa [stream, Timely] using h.handed⟩
  | cons k ks ih =>
    obtain ⟨hlen, hk, hlast, hrest⟩ := ho
    have hstream : seen ++ stream (k :: ks) = seen ++ k.queued ++ stream ks := by simp [stream]
    by_cases hclose : k.shut = true ∨ (socketRule.parse (seen ++ k.queued)).bad = true
    · obtain ⟨c', hc, hnone, hhanded⟩ := readSocket_closing h hlen hk hclose
      have hframes : legalFrames (seen ++ stream (k :: ks)) = legalFrames (seen ++ k.queued) ∧
          Timely (seen ++ k.queued) ks := by
        rw [hstream]
        by_cases hbad : (socketRule.parse (seen ++ k.queued)).bad = true
        · exact ⟨(Rule.bad_of_isPrefix (List.prefix_append _ _) hbad).2, timely_of_bad hbad ks⟩
        · have hks := hlast (hclose.resolve_right hbad)
          subst hks
          exact ⟨by simp [stream], trivial⟩
      refine ⟨c', by simp [run, hc, run_readSocket_closed hnone], ?_⟩
      rw [hhanded, h.handed, hframes.1]
      constructor
      · exact fun heq => ⟨fun _ => heq.symm, hframes.2⟩
      · exact fun ht => (ht.1 hclose).symm
    · have hgood : (socketRule.parse (seen ++ k.queued)).bad = false := by
        simpa using fun hb => hclose (Or.inr hb)
      obtain ⟨c', s', hc, hbehind⟩ := readSocket_good h hlen hk
        (by simpa using fun hs => hclose (Or.inl hs)) hgood
      obtain ⟨d, hd, hiff⟩ := ih hrest hbehind
      refine ⟨d, by simp [run, hc, hd], ?_⟩
      rw [hstream, hiff]
      exact ⟨fun ht => ⟨fun hcl => absurd hcl hclose, ht⟩, fun ht => ht.2⟩

/-- All complete legal frames of a stream are handed over before the socket is deleted
exactly when the wake-up that closes it completes none of them. -/
theorem handed_iff_timely {ks : List RecvSide} (ho : Orderly ks) {s : SocketInternal}
    {heap : Heap} (hs : s.rlist = [] ∧ s.rbuffer.unread = []) :
    ∃ c, run readSocket ⟨some s, heap, []⟩ ks = some c ∧
      (c.handed.map Servicemessage.rawmsg = legalFrames (stream ks) ↔ Timely [] ks) := by
  have hnil := Rule.parse_more socketRule_nil
  have hb : Connection.Behind ⟨some s, heap, []⟩ s [] :=
    ⟨rfl, hs.1, by rw [hs.2, hnil], by rw [hnil], by simp [legalFrames, hnil]⟩
  simpa using handed_iff_timely_behind ho hb

theorem handed_iff_timely_two_wakeups :
    ∃ c, run readSocket ⟨some (.create 0 7), ⟨0, []⟩, []⟩
        [⟨emptyFrame, false, true, [], none⟩, ⟨[], true, true, [], none⟩] = some c ∧
      (c.handed.map Servicemessage.rawmsg = legalFrames (emptyFrame ++ []) ↔
        Timely [] [⟨emptyFrame, false, true, [], none⟩, ⟨[], true, true, [], none⟩]) :=
  handed_iff_timely (by simp [Orderly, RecvSide.NoError, emptyFrame])
    ⟨rfl, by simp [SocketInternal.create]⟩

theorem handed_loses_frame_with_shutdown :
    Orderly [⟨emptyFrame, true, true, [], none⟩] ∧
      legalFrames (stream [⟨emptyFrame, true, true, [], none⟩]) = [emptyFrame] ∧
      ∃ c, run readSocket ⟨some (.create 0 7), ⟨0, []⟩, []⟩ [⟨emptyFrame, true, true, [], none⟩] =
        some c ∧ c.socket = none ∧ c.handed = [] := by
  have hf := Rule.parse_cons_frame (isFrame_iff.mpr wellFormed_emptyFrame) []
  have hnil := Rule.parse_more socketRule_nil
  have hb : Connection.Behind ⟨some (.create 0 7), ⟨0, []⟩, []⟩ (.create 0 7) [] :=
    ⟨rfl, rfl, by simp [SocketInternal.create, hnil], by rw [hnil], by simp [legalFrames, hnil]⟩
  obtain ⟨c, hc, hnone, hhanded⟩ := readSocket_closing (k := ⟨emptyFrame, true, true, [], none⟩)
    hb (by decide) (by decide) (Or.inl rfl)
  refine ⟨by simp [Orderly, RecvSide.NoError, emptyFrame], ?_, c, by simp [run, hc], hnone, hhanded⟩
  rw [hnil, List.append_nil] at hf
  simp [legalFrames, stream, hf]

end Tnode
