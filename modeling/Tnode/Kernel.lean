import Tnode.Servicemessage

namespace Tnode

/-- What the kernel may decide about one `::recv` call: a signal interrupts it, it fails
with another `errno`, or it copies at most `count` bytes. -/
inductive RecvChoice
  | interrupted
  | failed
  | upTo (count : Nat)
deriving DecidableEq, Repr

inductive RecvResult
  | data (bytes : List Byte)
  | zero
  | interrupted
  | again
  | error
deriving DecidableEq, Repr

/-- The receiving side of a connection: the bytes queued in the kernel, whether the peer
has shut down behind them, and the kernel's decisions about the coming calls; past the
script it copies all it can. `zeroAgain` is its answer to a request for no bytes on an
empty queue: `EAGAIN`, or else a return of 0. `last` is the result last reported. -/
structure RecvSide where
  queued : List Byte
  shut : Bool
  zeroAgain : Bool
  script : List RecvChoice
  last : Option RecvResult
deriving DecidableEq, Repr

namespace RecvSide

def report (k : RecvSide) (res : RecvResult) (queued : List Byte) : RecvResult × RecvSide :=
  (res, { k with queued := queued, script := k.script.tail, last := some res })

def emptyResult (k : RecvSide) (n : Nat) : RecvResult :=
  if k.shut || (n == 0 && !k.zeroAgain) then .zero else .again

/-- The answer to a request for `n` bytes that may copy up to `count` of them. -/
def answer (k : RecvSide) (n count : Nat) : RecvResult × RecvSide :=
  if k.queued = [] then k.report (k.emptyResult n) []
  else if n = 0 then k.report .zero k.queued
  else
    let c := max 1 (min count n)
    k.report (.data (k.queued.take c)) (k.queued.drop c)

/-- `::recv(fd, buffer, n, MSG_DONTWAIT | MSG_NOSIGNAL)`. -/
def recv (k : RecvSide) (n : Nat) : RecvResult × RecvSide :=
  match k.script with
  | [] => k.answer n n
  | .interrupted :: _ => k.report .interrupted k.queued
  | .failed :: _ => k.report .error k.queued
  | .upTo count :: _ => k.answer n count

def remaining (k : RecvSide) : Nat := k.script.length + k.queued.length

/-- The kernel reports nothing but `EINTR` and `EAGAIN` as errors. -/
def NoError (k : RecvSide) : Prop := .failed ∉ k.script

instance (k : RecvSide) : Decidable k.NoError := inferInstanceAs (Decidable (_ ∉ _))

theorem answer_cases (k : RecvSide) (n count : Nat) :
    (k.queued = [] ∧ k.answer n count = k.report (k.emptyResult n) []) ∨
    (k.queued ≠ [] ∧ n = 0 ∧ k.answer n count = k.report .zero k.queued) ∨
    (k.queued ≠ [] ∧ ∃ c, 0 < c ∧ c ≤ n ∧
      k.answer n count = k.report (.data (k.queued.take c)) (k.queued.drop c)) := by
  unfold answer
  by_cases hq : k.queued = []
  · exact Or.inl ⟨hq, if_pos hq⟩
  · by_cases hn : n = 0
    · exact Or.inr (Or.inl ⟨hq, hn, by rw [if_neg hq, if_pos hn]⟩)
    · exact Or.inr (Or.inr ⟨hq, max 1 (min count n), by omega, by omega,
        by rw [if_neg hq, if_neg hn]⟩)

/-- All the kernel can answer: every result with the state it leaves behind. -/
theorem recv_cases (k : RecvSide) (n : Nat) :
    (k.script ≠ [] ∧ k.recv n = k.report .interrupted k.queued) ∨
    (.failed ∈ k.script ∧ k.recv n = k.report .error k.queued) ∨
    (k.queued = [] ∧ k.recv n = k.report (k.emptyResult n) []) ∨
    (k.queued ≠ [] ∧ n = 0 ∧ k.recv n = k.report .zero k.queued) ∨
    (k.queued ≠ [] ∧ ∃ c, 0 < c ∧ c ≤ n ∧
      k.recv n = k.report (.data (k.queued.take c)) (k.queued.drop c)) := by
  unfold recv
  split
  next => exact Or.inr (Or.inr (k.answer_cases n n))
  next hs => exact Or.inl ⟨by simp [hs], rfl⟩
  next hs => exact Or.inr (Or.inl ⟨by simp [hs], rfl⟩)
  next count _ hs => exact Or.inr (Or.inr (k.answer_cases n count))

theorem emptyResult_cases (k : RecvSide) (n : Nat) :
    (k.emptyResult n = .zero ∧ (k.shut = true ∨ n = 0 ∧ k.zeroAgain = false)) ∨
    (k.emptyResult n = .again ∧ k.shut = false ∧ (n = 0 → k.zeroAgain = true)) := by
  unfold emptyResult
  split
  next h =>
    refine Or.inl ⟨rfl, ?_⟩
    simpa using h
  next h =>
    refine Or.inr ⟨rfl, ?_⟩
    simpa using h

theorem recv_data {k k' : RecvSide} {n : Nat} {bytes : List Byte}
    (h : k.recv n = (.data bytes, k')) :
    k.queued ≠ [] ∧ ∃ c, 0 < c ∧ c ≤ n ∧ bytes = k.queued.take c ∧
      k' = { k with queued := k.queued.drop c, script := k.script.tail, last := some (.data bytes) } := by
  rcases recv_cases k n with ⟨_, he⟩ | ⟨_, he⟩ | ⟨_, he⟩ | ⟨_, _, he⟩ | ⟨hq, c, hc, hcn, he⟩
  case inr.inr.inr.inr =>
    obtain ⟨hd, hk⟩ := Prod.mk.inj (he.symm.trans h)
    cases hd
    exact ⟨hq, c, hc, hcn, rfl, hk.symm⟩
  case inr.inr.inl =>
    have hd := (Prod.mk.inj (he.symm.trans h)).1
    rcases emptyResult_cases k n with ⟨hz, _⟩ | ⟨hz, _⟩ <;> simp [hz] at hd
  all_goals cases (Prod.mk.inj (he.symm.trans h)).1

theorem recv_interrupted {k k' : RecvSide} {n : Nat} (h : k.recv n = (.interrupted, k')) :
    k.script ≠ [] ∧ k' = { k with script := k.script.tail, last := some .interrupted } := by
  rcases recv_cases k n with ⟨hs, he⟩ | ⟨_, he⟩ | ⟨_, he⟩ | ⟨_, _, he⟩ | ⟨_, c, _, _, he⟩
  case inl => exact ⟨hs, (Prod.mk.inj (he.symm.trans h)).2.symm⟩
  case inr.inr.inl =>
    have hd := (Prod.mk.inj (he.symm.trans h)).1
    rcases emptyResult_cases k n with ⟨hz, _⟩ | ⟨hz, _⟩ <;> simp [hz] at hd
  all_goals cases (Prod.mk.inj (he.symm.trans h)).1

theorem recv_again {k k' : RecvSide} {n : Nat} (h : k.recv n = (.again, k')) :
    k.queued = [] ∧ k.shut = false ∧ (n = 0 → k.zeroAgain = true) ∧
      k' = { k with script := k.script.tail, last := some .again } := by
  rcases recv_cases k n with ⟨_, he⟩ | ⟨_, he⟩ | ⟨hq, he⟩ | ⟨_, _, he⟩ | ⟨_, c, _, _, he⟩
  case inr.inr.inl =>
    obtain ⟨hd, hk⟩ := Prod.mk.inj (he.symm.trans h)
    rcases emptyResult_cases k n with ⟨hz, _⟩ | ⟨_, hshut, hzero⟩
    · simp [hz] at hd
    · exact ⟨hq, hshut, hzero, by rw [← hk, hd, hq]⟩
  all_goals cases (Prod.mk.inj (he.symm.trans h)).1

theorem recv_zero {k k' : RecvSide} {n : Nat} (h : k.recv n = (.zero, k')) :
    (k.queued = [] ∧ (k.shut = true ∨ n = 0 ∧ k.zeroAgain = false)) ∨
      (k.queued ≠ [] ∧ n = 0) := by
  rcases recv_cases k n with ⟨_, he⟩ | ⟨_, he⟩ | ⟨hq, he⟩ | ⟨hq, hn, he⟩ | ⟨_, c, _, _, he⟩
  case inr.inr.inl =>
    have hd := (Prod.mk.inj (he.symm.trans h)).1
    rcases emptyResult_cases k n with ⟨_, hz⟩ | ⟨hz, _⟩
    · exact Or.inl ⟨hq, hz⟩
    · simp [hz] at hd
  case inr.inr.inr.inl => exact Or.inr ⟨hq, hn⟩
  all_goals cases (Prod.mk.inj (he.symm.trans h)).1

theorem recv_error {k k' : RecvSide} {n : Nat} (h : k.recv n = (.error, k')) :
    .failed ∈ k.script := by
  rcases recv_cases k n with ⟨_, he⟩ | ⟨hf, he⟩ | ⟨_, he⟩ | ⟨_, _, he⟩ | ⟨_, c, _, _, he⟩
  case inr.inl => exact hf
  case inr.inr.inl =>
    have hd := (Prod.mk.inj (he.symm.trans h)).1
    rcases emptyResult_cases k n with ⟨hz, _⟩ | ⟨hz, _⟩ <;> simp [hz] at hd
  all_goals cases (Prod.mk.inj (he.symm.trans h)).1

theorem remaining_interrupted {k k' : RecvSide} {n : Nat}
    (h : k.recv n = (.interrupted, k')) : k'.remaining < k.remaining := by
  obtain ⟨hs, rfl⟩ := recv_interrupted h
  have hl := List.length_pos_iff.mpr hs
  simp only [remaining, List.length_tail]
  omega

theorem remaining_data {k k' : RecvSide} {n : Nat} {bytes : List Byte}
    (h : k.recv n = (.data bytes, k')) : k'.remaining < k.remaining := by
  obtain ⟨hq, c, hc, _, _, rfl⟩ := recv_data h
  have hl := List.length_pos_iff.mpr hq
  simp only [remaining, List.length_tail, List.length_drop]
  omega

theorem NoError.tail {k : RecvSide} (h : k.NoError) {q : List Byte} {last : Option RecvResult} :
    NoError { k with queued := q, script := k.script.tail, last := last } :=
  fun hm => h (List.mem_of_mem_tail hm)

end RecvSide

inductive SendChoice
  | interrupted
  | wouldblock
  | closed
  | failed
  | accept (count : Nat)
deriving DecidableEq, Repr

inductive SendResult
  | accepted (count : Nat)
  | interrupted
  | again
  | zero
  | error
deriving DecidableEq, Repr

/-- The sending side of a connection: the bytes the kernel has accepted, its decisions
about the coming calls (past the script every call would block), and the last result. -/
structure SendSide where
  accepted : List Byte
  script : List SendChoice
  last : Option SendResult
deriving DecidableEq, Repr

namespace SendSide

def report (k : SendSide) (res : SendResult) (bytes : List Byte) : SendResult × SendSide :=
  (res, { accepted := k.accepted ++ bytes, script := k.script.tail, last := some res })

/-- `::send(fd, buffer, len, MSG_DONTWAIT | MSG_NOSIGNAL)` for a buffer of `len > 0` bytes. -/
def send (k : SendSide) (buffer : List Byte) : SendResult × SendSide :=
  match k.script with
  | [] => k.report .again []
  | .interrupted :: _ => k.report .interrupted []
  | .wouldblock :: _ => k.report .again []
  | .closed :: _ => k.report .zero []
  | .failed :: _ => k.report .error []
  | .accept count :: _ =>
    let c := max 1 (min count buffer.length)
    k.report (.accepted c) (buffer.take c)

/-- The kernel accepts bytes, is interrupted or would block, and nothing else. -/
def NoError (k : SendSide) : Prop := .closed ∉ k.script ∧ .failed ∉ k.script

instance (k : SendSide) : Decidable k.NoError := inferInstanceAs (Decidable (_ ∧ _))

theorem send_script {k k' : SendSide} {buffer : List Byte} {res : SendResult}
    (h : k.send buffer = (res, k')) (hr : res ≠ .again) : k'.script.length < k.script.length := by
  unfold send at h
  split at h
  next => exact absurd (Prod.mk.inj h).1.symm hr
  all_goals
    next hs =>
      obtain ⟨_, hk⟩ := Prod.mk.inj h
      subst k'
      simp [hs]

end SendSide

def SendResult.count : SendResult → Nat
  | .accepted count => count
  | _ => 0

namespace SendSide

theorem send_result {k k' : SendSide} {buffer : List Byte} {res : SendResult}
    (hb : buffer ≠ []) (h : k.send buffer = (res, k')) :
    k'.last = some res ∧ k'.accepted = k.accepted ++ buffer.take res.count ∧
      res.count ≤ buffer.length ∧
      (k.NoError → k'.NoError ∧ res ≠ .zero ∧ res ≠ .error) := by
  have hl := List.length_pos_iff.mpr hb
  have htail : k.NoError → ∀ bytes last, NoError ⟨k.accepted ++ bytes, k.script.tail, last⟩ :=
    fun hk _ _ => ⟨fun hm => hk.1 (List.mem_of_mem_tail hm), fun hm => hk.2 (List.mem_of_mem_tail hm)⟩
  have haccepted : k.accepted ++ [] = k.accepted ++ buffer.take 0 := by simp
  have hcount : 0 ≤ buffer.length := Nat.zero_le _
  unfold send at h
  split at h
  all_goals obtain ⟨rfl, rfl⟩ := Prod.mk.inj h
  next => exact ⟨rfl, haccepted, hcount, fun hk => ⟨htail hk _ _, by simp⟩⟩
  next => exact ⟨rfl, haccepted, hcount, fun hk => ⟨htail hk _ _, by simp⟩⟩
  next => exact ⟨rfl, haccepted, hcount, fun hk => ⟨htail hk _ _, by simp⟩⟩
  next hs => exact ⟨rfl, haccepted, hcount, fun hk => absurd (by simp [hs]) hk.1⟩
  next hs => exact ⟨rfl, haccepted, hcount, fun hk => absurd (by simp [hs]) hk.2⟩
  next count _ hs =>
    exact ⟨rfl, rfl, by simp only [SendResult.count]; omega, fun hk => ⟨htail hk _ _, by simp⟩⟩

end SendSide

end Tnode
