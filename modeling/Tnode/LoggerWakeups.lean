import Tnode.Easylog

namespace Tnode

open Transitions

variable {μ : Type}

/-- How many steps the logger still takes at most without another message or notification, once
`_stop` is set. -/
def LoggerPc.left : LoggerPc μ → Nat
  | .exited => 0
  | .blocked => 1
  | .block | .askStop | .pop => 2
  | .test => 3
  | .write _ => 4

/-- The same for `stop()`, with the steps of a logger that its notification wakes up. -/
def StopPc.left : StopPc → Nat
  | .returned => 0
  | .joining => 1
  | .idle | .stored => 4

namespace Easylog

namespace Label

def isSpurious : Label μ → Bool
  | .spurious => true
  | _ => false

/-- A step that brings the return of `stop()` nearer once `_stop` is set. -/
def advances : Label μ → Bool
  | .enter | .spurious => false
  | .push _ | .notify | .logger | .stop => true

end Label

/-- How many steps that advance are left at most once `_stop` is set. -/
def left (s : Easylog μ) : Nat :=
  7 * s.entering + 3 * s.notifying + 3 * s.queue.length + s.logger.left + s.stopping.left

/-- A notification is still to come. -/
def Outstanding (s : Easylog μ) : Prop := 0 < s.notifying ∨ s.stopping = .stored

/-- The logger is blocked, or blocks without another look, and there is a message to write or
`_stop` to see. -/
def overlooks (s : Easylog μ) : Bool :=
  match s.logger with
  | .askStop => !s.stop && !s.queue.isEmpty
  | .block | .blocked => !s.queue.isEmpty || s.stop
  | _ => false

/-- The last notification that is outstanding does not come while the logger is on its way to
block and overlooks something, and `stop()` does not set `_stop` between the test of the queue and
that of `_stop` when a message has been pushed in between. -/
def Timely (s : Easylog μ) : Label μ → Prop
  | .notify => s.logger ≠ .blocked → s.overlooks → 1 < s.notifying ∨ s.stopping = .stored
  | .stop =>
    (s.stopping = .stored → s.logger ≠ .blocked → s.overlooks → 0 < s.notifying) ∧
      (s.stopping = .idle → s.logger = .askStop → s.queue = [])
  | _ => True

instance [DecidableEq μ] (s : Easylog μ) (l : Label μ) : Decidable (s.Timely l) :=
  match l with
  | .notify => inferInstanceAs (Decidable (_ → _ → _))
  | .stop => inferInstanceAs (Decidable ((_ → _ → _ → _) ∧ (_ → _ → _)))
  | .enter | .push _ | .logger | .spurious => isTrue trivial

/-- What holds besides when the steps are timely. -/
structure Attentive (s : Easylog μ) : Prop where
  awake : s.overlooks = true → s.Outstanding
  drained : s.stop = true → s.logger = .askStop ∨ s.logger = .exited → s.before <+: s.written

/-- A logger that is on its way to look at the queue overlooks nothing. -/
theorem attentive_of_looking {s : Easylog μ}
    (h : s.logger = .test ∨ s.logger = .pop ∨ ∃ m, s.logger = .write m) : s.Attentive := by
  rcases h with h | h | ⟨m, h⟩
  all_goals
    refine ⟨fun hover => ?_, fun _ hor => ?_⟩
    · simp [overlooks, h] at hover
    · simp [h] at hor

theorem logger_attentive {s t : Easylog μ} (hc : s.Consistent) (hs : s.Attentive)
    (h : s.step .logger = some t) : t.Attentive := by
  have hkept := hc.kept
  have haccount := hc.account
  rcases logger_cases h with ⟨hpc, hq, rfl⟩ | ⟨hpc, hq, rfl⟩ | ⟨m, queue, hpc, hq, rfl⟩ |
    ⟨m, hpc, rfl⟩ | ⟨hpc, hstop, rfl⟩ | ⟨hpc, hstop, rfl⟩ | ⟨hpc, rfl⟩
  · rw [haccount, hpc, hq] at hkept
    simp only [LoggerPc.inHand, List.append_nil] at hkept
    refine ⟨fun hover => ?_, fun _ _ => hkept⟩
    simp [overlooks, hq] at hover
  · exact attentive_of_looking (Or.inr (Or.inl rfl))
  · exact attentive_of_looking (Or.inr (Or.inr ⟨m, rfl⟩))
  · exact attentive_of_looking (Or.inl rfl)
  · refine ⟨fun hover => by simp [overlooks] at hover, fun _ _ => ?_⟩
    exact hs.drained hstop (Or.inl hpc)
  · refine ⟨fun hover => hs.awake ?_, fun _ hor => by simp at hor⟩
    simp only [overlooks, hstop, hpc, Bool.or_false, Bool.not_false, Bool.true_and] at hover ⊢
    exact hover
  · refine ⟨fun hover => hs.awake ?_, fun _ hor => by simp at hor⟩
    simp only [overlooks, hpc] at hover ⊢
    exact hover

theorem notify_attentive {s t : Easylog μ} (hs : s.Attentive) (hok : s.Timely .notify)
    (h : s.step .notify = some t) : t.Attentive := by
  obtain ⟨_, rfl⟩ := notify_cases h
  rcases wake_cases s.logger with ⟨_, hwake⟩ | ⟨hpc, hwake⟩
  · exact attentive_of_looking (Or.inl hwake)
  · rw [hwake]
    refine ⟨fun hover => ?_, hs.drained⟩
    rcases hok hpc hover with hmore | hstored
    · have hrest : 0 < s.notifying - 1 := by omega
      exact Or.inl hrest
    · exact Or.inr hstored

theorem stop_attentive {s t : Easylog μ} (hc : s.Consistent) (hs : s.Attentive)
    (hok : s.Timely .stop) (h : s.step .stop = some t) : t.Attentive := by
  rcases stop_cases h with ⟨hidle, rfl⟩ | ⟨hstored, rfl⟩ | ⟨hjoining, hexit, rfl⟩
  · refine ⟨fun _ => Or.inr rfl, fun _ hor => ?_⟩
    rcases hor with hask | hexit
    · have hq := hok.2 hidle hask
      have haccount := hc.account
      rw [hask, hq] at haccount
      simp only [LoggerPc.inHand, List.append_nil] at haccount
      show s.pushed <+: s.written
      exact ⟨[], by rw [List.append_nil, haccount]⟩
    · exact absurd hidle (hc.stored.mp (hc.seen hexit))
  · rcases wake_cases s.logger with ⟨_, hwake⟩ | ⟨hpc, hwake⟩
    · exact attentive_of_looking (Or.inl hwake)
    · rw [hwake]
      have hstop : s.stop = true := hc.stored.mpr (by simp [hstored])
      refine ⟨fun hover => Or.inl ?_, fun _ hor => hs.drained hstop hor⟩
      exact hok.1 hstored hpc hover
  · refine ⟨fun hover => ?_, hs.drained⟩
    simp [overlooks, hexit] at hover

theorem step_attentive {s t : Easylog μ} {l : Label μ} (hc : s.Consistent) (hs : s.Attentive)
    (hok : s.Timely l) (h : s.step l = some t) : t.Attentive := by
  cases l with
  | logger => exact logger_attentive hc hs h
  | notify => exact notify_attentive hs hok h
  | stop => exact stop_attentive hc hs hok h
  | enter =>
    rcases enter_cases h with ⟨rfl, _⟩ | ⟨rfl, _⟩
    · exact hs
    · exact ⟨hs.awake, hs.drained⟩
  | push m =>
    obtain ⟨_, rfl⟩ := push_cases h
    exact ⟨fun _ => Or.inl (Nat.succ_pos _), hs.drained⟩
  | spurious =>
    obtain ⟨_, rfl⟩ := spurious_cases h
    exact attentive_of_looking (Or.inl rfl)

theorem wake_left (pc : LoggerPc μ) : pc.wake.left ≤ pc.left + 2 := by
  rcases wake_cases pc with ⟨hpc, hwake⟩ | ⟨_, hwake⟩
  · rw [hwake, hpc]
    exact Nat.le_refl 3
  · rw [hwake]
    omega

theorem logger_left {s t : Easylog μ} (hstop : s.stop = true) (h : s.step .logger = some t) :
    t.left < s.left := by
  rcases logger_cases h with ⟨hpc, hq, rfl⟩ | ⟨hpc, hq, rfl⟩ | ⟨m, queue, hpc, hq, rfl⟩ |
    ⟨m, hpc, rfl⟩ | ⟨hpc, _, rfl⟩ | ⟨_, hrun, _⟩ | ⟨hpc, rfl⟩
  all_goals try simp only [left, hpc, LoggerPc.left]
  · omega
  · omega
  · rw [hq, List.length_cons]
    omega
  · omega
  · omega
  · simp [hstop] at hrun
  · omega

/-- Once `_stop` is set it stays. -/
theorem stop_stays {s t : Easylog μ} {l : Label μ} (hstop : s.stop = true)
    (h : s.step l = some t) : t.stop = true := by
  cases l with
  | logger =>
    rcases logger_cases h with ⟨_, _, rfl⟩ | ⟨_, _, rfl⟩ | ⟨_, _, _, _, rfl⟩ | ⟨_, _, rfl⟩ |
      ⟨_, _, rfl⟩ | ⟨_, _, rfl⟩ | ⟨_, rfl⟩
    all_goals exact hstop
  | enter =>
    rcases enter_cases h with ⟨rfl, _⟩ | ⟨rfl, _⟩
    · exact hstop
    · exact hstop
  | push m =>
    obtain ⟨_, rfl⟩ := push_cases h
    exact hstop
  | notify =>
    obtain ⟨_, rfl⟩ := notify_cases h
    exact hstop
  | spurious =>
    obtain ⟨_, rfl⟩ := spurious_cases h
    exact hstop
  | stop =>
    rcases stop_cases h with ⟨_, rfl⟩ | ⟨_, rfl⟩ | ⟨_, _, rfl⟩
    · rfl
    · exact hstop
    · exact hstop

theorem advance_left {s t : Easylog μ} {l : Label μ} (hc : s.Consistent) (hstop : s.stop = true)
    (hl : l.advances = true) (h : s.step l = some t) : t.left < s.left := by
  cases l with
  | enter => cases hl
  | spurious => cases hl
  | logger => exact logger_left hstop h
  | push m =>
    obtain ⟨hpos, rfl⟩ := push_cases h
    simp only [left, List.length_append, List.length_singleton]
    omega
  | notify =>
    obtain ⟨hpos, rfl⟩ := notify_cases h
    have hwake := wake_left s.logger
    simp only [left]
    omega
  | stop =>
    rcases stop_cases h with ⟨hidle, _⟩ | ⟨hstored, rfl⟩ | ⟨hjoining, _, rfl⟩
    · exact absurd hidle (hc.stored.mp hstop)
    · have hwake := wake_left s.logger
      simp only [left, hstored, StopPc.left]
      omega
    · simp only [left, hjoining, StopPc.left]
      omega

/-- A spurious wake-up puts the return of `stop()` off by no more than two steps, and a call of
`log_message` that comes too late changes nothing. -/
theorem step_left {s t : Easylog μ} {l : Label μ} (hc : s.Consistent) (hstop : s.stop = true)
    (h : s.step l = some t) :
    t.left + (if l.advances then 1 else 0) ≤ s.left + 2 * (if l.isSpurious then 1 else 0) := by
  cases hl : l.advances with
  | true =>
    have hlt := advance_left hc hstop hl h
    rw [if_pos rfl]
    omega
  | false =>
    cases l with
    | enter =>
      rcases enter_cases h with ⟨rfl, _⟩ | ⟨_, hrun⟩
      · exact Nat.le_add_right _ _
      · simp [hstop] at hrun
    | spurious =>
      obtain ⟨hpc, rfl⟩ := spurious_cases h
      have hspurious : (Label.spurious : Label μ).isSpurious = true := rfl
      rw [if_pos hspurious, if_neg Bool.false_ne_true]
      simp only [left, hpc, LoggerPc.left]
      omega
    | push m => cases hl
    | notify => cases hl
    | logger => cases hl
    | stop => cases hl

theorem steps_bounded {s u : Easylog μ} {ls : List (Label μ)} (hc : s.Consistent)
    (hstop : s.stop = true) (hr : run step s ls = some u) :
    u.left + ls.countP Label.advances ≤ s.left + 2 * ls.countP Label.isSpurious := by
  induction ls generalizing s with
  | nil =>
    cases Option.some.inj hr
    exact Nat.le_refl _
  | cons l ls ih =>
    obtain ⟨t, ht, hr⟩ := run_cons_iff.mp hr
    have hstep := step_left hc hstop ht
    have hrest := ih (step_consistent hc ht) (stop_stays hstop ht) hr
    rw [List.countP_cons, List.countP_cons]
    omega

/-- The logger can go on unless it is blocked or has returned. -/
theorem logger_enabled {s : Easylog μ} (hc : s.Consistent) (hblocked : s.logger ≠ .blocked)
    (hexited : s.logger ≠ .exited) : ∃ t, s.step .logger = some t := by
  have hpop := hc.taking
  simp only [step, loggerStep]
  split
  next => exact ⟨_, rfl⟩
  next hpc =>
    cases hq : s.queue with
    | nil => exact absurd hq (hpop hpc)
    | cons m queue => exact ⟨_, rfl⟩
  next => exact ⟨_, rfl⟩
  next => exact ⟨_, rfl⟩
  next => exact ⟨_, rfl⟩
  next hpc => exact absurd hpc hblocked
  next hpc => exact absurd hpc hexited

/-- Until `stop()` has returned there is a step that brings its return nearer. -/
theorem stop_goes_on {s : Easylog μ} (hc : s.Consistent) (hs : s.Attentive)
    (hstop : s.stop = true) (hreturned : s.stopping ≠ .returned) :
    ∃ l t, l ∈ [Label.logger, .notify, .stop] ∧ s.step l = some t := by
  by_cases hexited : s.logger = .exited
  · refine ⟨.stop, ?_⟩
    cases hpc : s.stopping with
    | returned => exact absurd hpc hreturned
    | idle | stored | joining => simp [step, stopStep, hpc, hexited, LoggerPc.hasExited]
  by_cases hblocked : s.logger = .blocked
  · have hover : s.overlooks = true := by simp [overlooks, hblocked, hstop]
    rcases hs.awake hover with hnotify | hstored
    · have hne : s.notifying ≠ 0 := by omega
      exact ⟨.notify, _, by simp, by simp only [step, if_neg hne]; rfl⟩
    · exact ⟨.stop, _, by simp, by simp only [step, stopStep, hstored]; rfl⟩
  · obtain ⟨t, ht⟩ := logger_enabled hc hblocked hexited
    exact ⟨.logger, t, by simp, ht⟩

theorem run_attentive {s : Easylog μ} {ls : List (Label μ)} (ha : Along step Timely start ls)
    (hr : run step start ls = some s) : s.Consistent ∧ s.Attentive := by
  have hstart : (start : Easylog μ).Attentive := attentive_of_looking (Or.inl rfl)
  have keep : ∀ (s : Easylog μ) l t, s.Consistent ∧ s.Attentive → s.Timely l →
      s.step l = some t → t.Consistent ∧ t.Attentive := by
    intro s l t hs hok h
    exact ⟨step_consistent hs.1 h, step_attentive hs.1 hs.2 hok h⟩
  exact run_invariant keep ⟨start_consistent, hstart⟩ ha hr

/-- In every run whose steps are timely the logger is not blocked with something to do and no
notification to come, messages are written once and in the order of their pushes, all those from
before `stop()` when it returns, and `stop()` does return: until then there is a step towards it,
and only so many of them. -/
theorem messages_written {s : Easylog μ} {ls : List (Label μ)} (ha : Along step Timely start ls)
    (hr : run step start ls = some s) :
    (s.logger = .blocked → s.queue ≠ [] ∨ s.stop = true → s.Outstanding) ∧
      s.written <+: s.pushed ∧ (s.stopping = .returned → s.before <+: s.written) ∧
      (s.stop = true → s.stopping ≠ .returned →
        ∃ l t, l ∈ [Label.logger, .notify, .stop] ∧ s.step l = some t) ∧
      ∀ ms u, s.stop = true → run step s ms = some u →
        u.left + ms.countP Label.advances ≤ s.left + 2 * ms.countP Label.isSpurious := by
  obtain ⟨hc, hs⟩ := run_attentive ha hr
  refine ⟨?_, ?_, ?_, fun hstop hpc => stop_goes_on hc hs hstop hpc,
    fun ms u hstop hu => steps_bounded hc hstop hu⟩
  · intro hpc hdo
    apply hs.awake
    simp only [overlooks, hpc, Bool.or_eq_true, Bool.not_eq_true', List.isEmpty_eq_false_iff]
    exact hdo
  · rw [hc.account, List.append_assoc]
    exact List.prefix_append _ _
  · intro hreturned
    have hexit := hc.joined hreturned
    exact hs.drained (hc.seen hexit) (Or.inr hexit)

theorem messages_written_two_pushes :
    ∃ s : Easylog String, run step start [.enter, .enter, .push "a", .notify, .logger, .push "b",
        .stop, .stop, .logger, .logger, .logger, .logger, .logger, .logger, .logger, .stop] =
        some s ∧ s.stopping = .returned ∧
      (s.logger = .blocked → s.queue ≠ [] ∨ s.stop = true → s.Outstanding) ∧
      s.written <+: s.pushed ∧ (s.stopping = .returned → s.before <+: s.written) ∧
      (s.stop = true → s.stopping ≠ .returned →
        ∃ l t, l ∈ [Label.logger, .notify, .stop] ∧ s.step l = some t) ∧
      ∀ ms u, s.stop = true → run step s ms = some u →
        u.left + ms.countP Label.advances ≤ s.left + 2 * ms.countP Label.isSpurious := by
  refine ⟨_, rfl, rfl, ?_⟩
  exact @messages_written String _ [.enter, .enter, .push "a", .notify, .logger, .push "b",
    .stop, .stop, .logger, .logger, .logger, .logger, .logger, .logger, .logger, .stop]
    (by decide) rfl

/-- When no notification is to come, a logger that overlooks something blocks for good. -/
theorem overlooking_blocks {s : Easylog μ} (hover : s.overlooks = true) (hout : ¬ s.Outstanding) :
    ∃ ms u, (∀ l ∈ ms, l = Label.logger) ∧ run step s ms = some u ∧ u.logger = .blocked ∧
      (u.queue ≠ [] ∨ u.stop = true) ∧ ¬ u.Outstanding := by
  unfold overlooks at hover
  split at hover
  next hpc =>
    simp only [Bool.and_eq_true, Bool.not_eq_true', List.isEmpty_eq_false_iff] at hover
    refine ⟨[.logger, .logger], { s with logger := .blocked }, ?_, ?_, rfl, Or.inl hover.2, hout⟩
    · simp
    · simp [run, step, loggerStep, hpc, hover.1]
  next hpc =>
    simp only [Bool.or_eq_true, Bool.not_eq_true', List.isEmpty_eq_false_iff] at hover
    refine ⟨[.logger], { s with logger := .blocked }, ?_, ?_, rfl, hover, hout⟩
    · simp
    · simp [run, step, loggerStep, hpc]
  next hpc =>
    simp only [Bool.or_eq_true, Bool.not_eq_true', List.isEmpty_eq_false_iff] at hover
    exact ⟨[], s, by simp, rfl, hpc, hover, hout⟩
  next => simp at hover

/-- Behind a notification that is not timely the logger's own steps block it. -/
theorem notification_missed {s t : Easylog μ} {l : Label μ}
    (hl : l = .notify ∨ l = .stop ∧ s.stopping = .stored) (hlate : ¬ s.Timely l)
    (h : s.step l = some t) :
    ∃ ms u, (∀ l ∈ ms, l = Label.logger) ∧ run step t ms = some u ∧ u.logger = .blocked ∧
      (u.queue ≠ [] ∨ u.stop = true) ∧ ¬ u.Outstanding := by
  rcases hl with rfl | ⟨rfl, hstored⟩
  · obtain ⟨_, rfl⟩ := notify_cases h
    simp only [Timely, Classical.not_imp, not_or] at hlate
    obtain ⟨hpc, hover, hlast, hstop⟩ := hlate
    rcases wake_cases s.logger with ⟨hblocked, _⟩ | ⟨_, hwake⟩
    · exact absurd hblocked hpc
    · rw [hwake]
      apply overlooking_blocks
      · exact hover
      · rintro (hmore | hstored)
        · have hpos : 0 < s.notifying - 1 := hmore
          omega
        · exact hstop hstored
  · rcases stop_cases h with ⟨hidle, _⟩ | ⟨_, rfl⟩ | ⟨hjoining, _, _⟩
    · simp [hidle] at hstored
    · have hlast : s.logger ≠ .blocked ∧ s.overlooks = true ∧ ¬ 0 < s.notifying := by
        simpa [Timely, hstored] using hlate
      obtain ⟨hpc, hover, hlast⟩ := hlast
      rcases wake_cases s.logger with ⟨hblocked, _⟩ | ⟨_, hwake⟩
      · exact absurd hblocked hpc
      · rw [hwake]
        apply overlooking_blocks
        · exact hover
        · rintro (hmore | hstored)
          · exact hlast hmore
          · cases hstored
    · simp [hjoining] at hstored

/-- A message pushed between the test of the queue and that of `_stop` is never written when
`stop()` comes in between too. -/
theorem message_left_behind {s t : Easylog μ} (hc : s.Consistent) (hidle : s.stopping = .idle)
    (hlate : ¬ s.Timely .stop) (h : s.step .stop = some t) :
    ∃ u, run step t [.logger, .stop, .stop] = some u ∧ u.stopping = .returned ∧
      ¬ u.before <+: u.written := by
  have hask : s.logger = .askStop ∧ s.queue ≠ [] := by
    simpa [Timely, hidle] using hlate
  obtain ⟨hpc, hq⟩ := hask
  rcases stop_cases h with ⟨_, rfl⟩ | ⟨hstored, _⟩ | ⟨hjoining, _, _⟩
  · refine ⟨⟨true, s.queue, .exited, s.entering, s.notifying, .returned, s.pushed, s.written,
      s.pushed⟩, ?_, rfl, ?_⟩
    · simp [run, step, loggerStep, stopStep, hpc, LoggerPc.wake, LoggerPc.hasExited]
    · intro hpre
      have hlen : s.pushed.length ≤ s.written.length := hpre.length_le
      have haccount := congrArg List.length hc.account
      simp only [hpc, LoggerPc.inHand, List.append_nil, List.length_append] at haccount
      have hpos : 0 < s.queue.length := List.length_pos_of_ne_nil hq
      omega
  · simp [hstored] at hidle
  · simp [hjoining] at hidle

/-- The logger blocks over a message whose notification came too early; it returns without
writing a message pushed before `stop()`; and it blocks with `_stop` set, with `stop()` waiting
for it in `join`. -/
theorem logger_misses_message :
    (∃ s : Easylog String, run step start [.enter, .logger, .logger, .push "lost", .notify,
        .logger] = some s ∧
      s.logger = .blocked ∧ s.queue = ["lost"] ∧ s.stop = false ∧ ¬ s.Outstanding) ∧
    (∃ s : Easylog String, run step start [.enter, .logger, .push "lost", .stop, .logger, .stop,
        .stop] = some s ∧ s.stopping = .returned ∧ s.before = ["lost"] ∧ s.written = []) ∧
    ∃ s : Easylog String, run step start [.logger, .logger, .stop, .stop, .logger] = some s ∧
      s.stopping = .joining ∧ s.logger = .blocked ∧ s.stop = true ∧ ¬ s.Outstanding ∧
      s.step .logger = none ∧ s.step .notify = none ∧ s.step .stop = none := by
  refine ⟨⟨_, rfl, rfl, rfl, rfl, ?_⟩, ⟨_, rfl, rfl, rfl, rfl⟩,
    ⟨_, rfl, rfl, rfl, rfl, ?_, rfl, rfl, rfl⟩⟩
  · simp [Outstanding, start]
  · simp [Outstanding, start]

end Easylog

end Tnode
