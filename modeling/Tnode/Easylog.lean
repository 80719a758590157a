import Tnode.ThreadPool

namespace Tnode

open Transitions

inductive EasylogSeverityLevel
  | global | debug | trace | alarm | error | panic | system | maxLevel
deriving DecidableEq, Repr

/-- The logger in `logProcess`: at its test of the queue, before it takes a message, with one to
write, at its test of `_stop`, between that and the block in `wait`, blocked, and returned. -/
inductive LoggerPc (μ : Type)
  | test
  | pop
  | write (m : μ)
  | askStop
  | block
  | blocked
  | exited
deriving DecidableEq

namespace LoggerPc

variable {μ : Type}

/-- What a notification does to the logger. -/
def wake : LoggerPc μ → LoggerPc μ
  | .blocked => .test
  | pc => pc

/-- The message that is taken and not written yet. -/
def inHand : LoggerPc μ → List μ
  | .write m => [m]
  | _ => []

def hasExited : LoggerPc μ → Bool
  | .exited => true
  | _ => false

end LoggerPc

/-- `EasylogInternal`. `entering` counts the calls of `log_message` between the test of `_stop` and
the push, `notifying` those between the push and `notify_all`; `pushed`, `written` and `before`
remember the messages pushed, those written, and those pushed before `stop()` set `_stop`. -/
structure Easylog (μ : Type) where
  stop : Bool
  queue : List μ
  logger : LoggerPc μ
  entering : Nat
  notifying : Nat
  stopping : StopPc
  pushed : List μ
  written : List μ
  before : List μ

namespace Easylog

variable {μ : Type}

def start : Easylog μ := ⟨false, [], .test, 0, 0, .idle, [], [], []⟩

/-- The next step of `logProcess`, if it can take one. -/
def loggerStep (s : Easylog μ) : Option (Easylog μ) :=
  match s.logger with
  | .test => some { s with logger := if s.queue.isEmpty then .askStop else .pop }
  | .pop =>
    match s.queue with
    | [] => none
    | m :: queue => some { s with queue := queue, logger := .write m }
  | .write m => some { s with logger := .test, written := s.written ++ [m] }
  | .askStop => some { s with logger := if s.stop then .exited else .block }
  | .block => some { s with logger := .blocked }
  | .blocked => none
  | .exited => none

/-- The next step of `stop()`. -/
def stopStep (s : Easylog μ) : Option (Easylog μ) :=
  match s.stopping with
  | .idle => some { s with stop := true, stopping := .stored, before := s.pushed }
  | .stored => some { s with logger := s.logger.wake, stopping := .joining }
  | .joining => if s.logger.hasExited then some { s with stopping := .returned } else none
  | .returned => none

inductive Label (μ : Type)
  | enter
  | push (m : μ)
  | notify
  | logger
  | spurious
  | stop

/-- One step of one thread; `enter`, `push` and `notify` are those of a call of `log_message`. -/
def step (s : Easylog μ) : Label μ → Option (Easylog μ)
  | .enter => if s.stop then some s else some { s with entering := s.entering + 1 }
  | .push m =>
    if s.entering = 0 then none
    else some { s with
      queue := s.queue ++ [m]
      entering := s.entering - 1
      notifying := s.notifying + 1
      pushed := s.pushed ++ [m] }
  | .notify =>
    if s.notifying = 0 then none
    else some { s with logger := s.logger.wake, notifying := s.notifying - 1 }
  | .logger => s.loggerStep
  | .spurious =>
    match s.logger with
    | .blocked => some { s with logger := .test }
    | _ => none
  | .stop => s.stopStep

/-- The invariant of every run. -/
structure Consistent (s : Easylog μ) : Prop where
  account : s.pushed = s.written ++ s.logger.inHand ++ s.queue
  stored : s.stop = true ↔ s.stopping ≠ .idle
  taking : s.logger = .pop → s.queue ≠ []
  joined : s.stopping = .returned → s.logger = .exited
  seen : s.logger = .exited → s.stop = true
  kept : s.before <+: s.pushed

/-- A notification changes nothing for a logger that is not blocked. -/
theorem wake_cases (pc : LoggerPc μ) :
    pc = .blocked ∧ pc.wake = .test ∨ pc ≠ .blocked ∧ pc.wake = pc := by
  cases pc <;> simp [LoggerPc.wake]

/-- The steps of the logger. -/
theorem logger_cases {s t : Easylog μ} (h : s.step .logger = some t) :
    (s.logger = .test ∧ s.queue = [] ∧ t = { s with logger := .askStop }) ∨
    (s.logger = .test ∧ s.queue ≠ [] ∧ t = { s with logger := .pop }) ∨
    (∃ m queue, s.logger = .pop ∧ s.queue = m :: queue ∧
      t = { s with queue := queue, logger := .write m }) ∨
    (∃ m, s.logger = .write m ∧ t = { s with logger := .test, written := s.written ++ [m] }) ∨
    (s.logger = .askStop ∧ s.stop = true ∧ t = { s with logger := .exited }) ∨
    (s.logger = .askStop ∧ s.stop = false ∧ t = { s with logger := .block }) ∨
    (s.logger = .block ∧ t = { s with logger := .blocked }) := by
  simp only [step, loggerStep] at h
  split at h
  next hpc =>
    cases hq : s.queue with
    | nil => simp_all
    | cons m queue => simp_all
  next hpc =>
    split at h
    next => cases h
    next m queue hq => simp_all
  next m hpc => simp_all
  next hpc =>
    cases hstop : s.stop with
    | true => simp_all
    | false => simp_all
  next hpc => simp_all
  next => cases h
  next => cases h

/-- The steps of `stop()`. -/
theorem stop_cases {s t : Easylog μ} (h : s.step .stop = some t) :
    (s.stopping = .idle ∧ t = { s with stop := true, stopping := .stored, before := s.pushed }) ∨
    (s.stopping = .stored ∧ t = { s with logger := s.logger.wake, stopping := .joining }) ∨
    (s.stopping = .joining ∧ s.logger = .exited ∧ t = { s with stopping := .returned }) := by
  simp only [step, stopStep] at h
  split at h
  next hpc => exact Or.inl ⟨hpc, (Option.some.inj h).symm⟩
  next hpc => exact Or.inr (Or.inl ⟨hpc, (Option.some.inj h).symm⟩)
  next hpc =>
    split at h
    next hexit =>
      have hlogger : s.logger = .exited := by
        cases hl : s.logger <;> simp_all [LoggerPc.hasExited]
      exact Or.inr (Or.inr ⟨hpc, hlogger, (Option.some.inj h).symm⟩)
    next => cases h
  next => cases h

theorem notify_cases {s t : Easylog μ} (h : s.step .notify = some t) :
    0 < s.notifying ∧ t = { s with logger := s.logger.wake, notifying := s.notifying - 1 } := by
  simp only [step] at h
  split at h
  next => cases h
  next hne => exact ⟨Nat.pos_of_ne_zero hne, (Option.some.inj h).symm⟩

theorem push_cases {s t : Easylog μ} {m : μ} (h : s.step (.push m) = some t) :
    0 < s.entering ∧ t = { s with
      queue := s.queue ++ [m]
      entering := s.entering - 1
      notifying := s.notifying + 1
      pushed := s.pushed ++ [m] } := by
  simp only [step] at h
  split at h
  next => cases h
  next hne => exact ⟨Nat.pos_of_ne_zero hne, (Option.some.inj h).symm⟩

theorem enter_cases {s t : Easylog μ} (h : s.step .enter = some t) :
    t = s ∧ s.stop = true ∨ t = { s with entering := s.entering + 1 } ∧ s.stop = false := by
  simp only [step] at h
  split at h
  next hstop => exact Or.inl ⟨(Option.some.inj h).symm, hstop⟩
  next hstop => exact Or.inr ⟨(Option.some.inj h).symm, by simpa using hstop⟩

theorem spurious_cases {s t : Easylog μ} (h : s.step .spurious = some t) :
    s.logger = .blocked ∧ t = { s with logger := .test } := by
  simp only [step] at h
  split at h
  next hpc => exact ⟨hpc, (Option.some.inj h).symm⟩
  next => cases h

theorem start_consistent : (start : Easylog μ).Consistent where
  account := rfl
  stored := by simp [start]
  taking := by simp [start]
  joined := by simp [start]
  seen := by simp [start]
  kept := List.nil_prefix

theorem logger_consistent {s t : Easylog μ} (hs : s.Consistent) (h : s.step .logger = some t) :
    t.Consistent := by
  have haccount := hs.account
  have hjoined := hs.joined
  rcases logger_cases h with ⟨hpc, hq, rfl⟩ | ⟨hpc, hq, rfl⟩ | ⟨m, queue, hpc, hq, rfl⟩ |
    ⟨m, hpc, rfl⟩ | ⟨hpc, hstop, rfl⟩ | ⟨hpc, hstop, rfl⟩ | ⟨hpc, rfl⟩
  all_goals
    rw [hpc] at haccount hjoined
    refine ⟨?_, hs.stored, ?_, ?_, ?_, hs.kept⟩
  all_goals simp_all [LoggerPc.inHand]

theorem wake_consistent {s : Easylog μ} (hs : s.Consistent) :
    Consistent { s with logger := s.logger.wake } := by
  have haccount := hs.account
  have hjoined := hs.joined
  rcases wake_cases s.logger with ⟨hpc, hwake⟩ | ⟨_, hwake⟩
  · rw [hpc] at haccount hjoined
    rw [hwake]
    refine ⟨haccount, hs.stored, ?_, ?_, ?_, hs.kept⟩
    · intro hpop
      cases hpop
    · intro hreturned
      cases hjoined hreturned
    · intro hexited
      cases hexited
  · rw [hwake]
    exact hs

theorem step_consistent {s t : Easylog μ} {l : Label μ} (hs : s.Consistent)
    (h : s.step l = some t) : t.Consistent := by
  cases l with
  | logger => exact logger_consistent hs h
  | enter =>
    rcases enter_cases h with ⟨rfl, _⟩ | ⟨rfl, _⟩
    · exact hs
    · exact ⟨hs.account, hs.stored, hs.taking, hs.joined, hs.seen, hs.kept⟩
  | push m =>
    obtain ⟨_, rfl⟩ := push_cases h
    refine ⟨?_, hs.stored, fun _ => by simp, hs.joined, hs.seen, ?_⟩
    · show s.pushed ++ [m] = s.written ++ s.logger.inHand ++ (s.queue ++ [m])
      rw [hs.account, List.append_assoc]
    · exact hs.kept.trans (List.prefix_append _ _)
  | notify =>
    obtain ⟨_, rfl⟩ := notify_cases h
    have hwake := wake_consistent hs
    exact ⟨hwake.account, hwake.stored, hwake.taking, hwake.joined, hwake.seen, hwake.kept⟩
  | spurious =>
    obtain ⟨hpc, rfl⟩ := spurious_cases h
    have hwake := wake_consistent hs
    rw [hpc] at hwake
    exact hwake
  | stop =>
    rcases stop_cases h with ⟨hpc, rfl⟩ | ⟨hpc, rfl⟩ | ⟨hpc, hexit, rfl⟩
    · refine ⟨hs.account, ?_, hs.taking, ?_, fun _ => rfl, List.prefix_refl _⟩
      · simp
      · intro hreturned
        cases hreturned
    · have hwake := wake_consistent hs
      have hstop : s.stop = true := hs.stored.mpr (by simp [hpc])
      refine ⟨hwake.account, ?_, hwake.taking, ?_, hwake.seen, hwake.kept⟩
      · simp [hstop]
      · intro hreturned
        cases hreturned
    · have hstop : s.stop = true := hs.stored.mpr (by simp [hpc])
      refine ⟨hs.account, ?_, hs.taking, fun _ => hexit, hs.seen, hs.kept⟩
      simp [hstop]

end Easylog

end Tnode
