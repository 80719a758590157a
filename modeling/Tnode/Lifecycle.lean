import Tnode.ServiceThreads

namespace Tnode

open Transitions

namespace ServiceThreads

/-- The service has not been stopped, and nothing of it is on its way out. -/
structure Alive (s : ServiceThreads) : Prop where
  isstop : s.isstop = false
  luaClosed : s.luaClosed = false
  parserDeleted : s.parserDeleted = false
  deleted : s.deleted = false
  main : s.main ≠ .erase ∧ s.main ≠ .delete

theorem use_alive {s : ServiceThreads} (h : s.Alive) (r : Resource) : s.use r = s := by
  have hgone : s.gone r = false := by
    cases r with
    | luaState => exact h.luaClosed
    | messageParser => exact h.parserDeleted
    | object => exact h.deleted
  simp [use, hgone]

@[simp] theorem misused_prefix_use (s : ServiceThreads) (r : Resource) :
    s.misused <+: (s.use r).misused := List.prefix_append _ _

theorem start_alive (isInit : Bool) : (start isInit).Alive :=
  ⟨rfl, rfl, rfl, rfl, MainPc.noConfusion, MainPc.noConfusion⟩

theorem schedule_alive {s : ServiceThreads} (h : s.Alive) (pc : SchedulePc) :
    (s.schedule pc).1.Alive ∧ (s.schedule pc).1.misused = s.misused := by
  cases pc with
  | need =>
    simp only [schedule, use_alive h]
    exact ⟨h, trivial⟩
  | test =>
    simp only [schedule, use_alive h]
    exact ⟨h, trivial⟩
  | mark =>
    simp only [schedule, use_alive h]
    exact ⟨⟨h.isstop, h.luaClosed, h.parserDeleted, h.deleted, h.main⟩, trivial⟩
  | add => exact ⟨⟨h.isstop, h.luaClosed, h.parserDeleted, h.deleted, h.main⟩, rfl⟩

theorem networkStep_alive {s : ServiceThreads} (h : s.Alive) (sid : Bool) :
    (s.networkStep sid).Alive ∧ (s.networkStep sid).misused = s.misused := by
  have hkeep : ∀ pc queue, ({ s with network := pc, msgQueue := queue } : ServiceThreads).Alive :=
    fun pc queue => ⟨h.isstop, h.luaClosed, h.parserDeleted, h.deleted, h.main⟩
  cases hn : s.network with
  | idle =>
    cases hi : s.isInit <;> simp only [networkStep, hn, hi, if_true, if_false, Bool.false_eq_true]
    · exact ⟨⟨h.isstop, h.luaClosed, h.parserDeleted, h.deleted, h.main⟩, trivial⟩
    · exact ⟨⟨h.isstop, h.luaClosed, h.parserDeleted, h.deleted, h.main⟩, trivial⟩
  | dispatch =>
    simp only [networkStep, hn, use_alive h]
    exact ⟨hkeep _ _, trivial⟩
  | lookup =>
    simp only [networkStep, hn]
    exact ⟨hkeep _ _, trivial⟩
  | push =>
    simp only [networkStep, hn, use_alive h]
    exact ⟨hkeep _ _, trivial⟩
  | schedule pc =>
    obtain ⟨ha, hm⟩ := schedule_alive h pc
    simp only [networkStep, hn]
    exact ⟨⟨ha.isstop, ha.luaClosed, ha.parserDeleted, ha.deleted, ha.main⟩, hm⟩

theorem mainStep_alive {s : ServiceThreads} (h : s.Alive) :
    s.mainStep.Alive ∧ s.mainStep.misused = s.misused := by
  cases hn : s.main with
  | idle =>
    cases hm : s.inMap with
    | false =>
      simp only [mainStep, hn, hm, Bool.false_eq_true, if_false]
      exact ⟨h, trivial⟩
    | true =>
      simp only [mainStep, hn, hm, h.isstop, use_alive h, if_true, Bool.false_eq_true, if_false]
      exact ⟨⟨rfl, h.luaClosed, h.parserDeleted, h.deleted, by simp, by simp⟩, trivial⟩
  | erase => exact absurd hn h.main.1
  | delete => exact absurd hn h.main.2
  | schedule pc =>
    obtain ⟨ha, hm⟩ := schedule_alive h pc
    simp only [mainStep, hn]
    refine ⟨⟨ha.isstop, ha.luaClosed, ha.parserDeleted, ha.deleted, ?_⟩, hm⟩
    cases (s.schedule pc).2 <;> exact ⟨by simp, by simp⟩

theorem taskStep_alive {s : ServiceThreads} (h : s.Alive) (pc : TaskPc) :
    (s.taskStep pc).1.Alive ∧ (s.taskStep pc).1.misused = s.misused := by
  cases pc with
  | take =>
    simp only [taskStep, use_alive h]
    split
    next => exact ⟨h, rfl⟩
    next => exact ⟨⟨h.isstop, h.luaClosed, h.parserDeleted, h.deleted, h.main⟩, rfl⟩
  | clear =>
    simp only [taskStep, use_alive h]
    exact ⟨⟨h.isstop, h.luaClosed, h.parserDeleted, h.deleted, h.main⟩, trivial⟩
  | _ =>
    simp only [taskStep, use_alive h]
    exact ⟨h, trivial⟩

def IsExit : Label → Prop
  | .exitservice _ => True
  | _ => False

/-- As long as no script exits its service, no step uses anything that is gone. -/
theorem step_alive {s s' : ServiceThreads} {l : Label} (hs : s.Alive) (hl : ¬ IsExit l)
    (h : s.step l = some s') : s'.Alive ∧ s'.misused = s.misused := by
  cases l with
  | network sid =>
    cases Option.some.inj h
    exact networkStep_alive hs sid
  | main =>
    cases Option.some.inj h
    exact mainStep_alive hs
  | task i =>
    obtain ⟨pc, _, rfl⟩ := task_cases h
    obtain ⟨ha, hm⟩ := taskStep_alive hs pc
    exact ⟨⟨ha.isstop, ha.luaClosed, ha.parserDeleted, ha.deleted, ha.main⟩, hm⟩
  | encode i =>
    cases encode_cases h
    simp only [encode, use_alive hs]
    exact ⟨hs, trivial⟩
  | exitservice i => exact absurd trivial hl

theorem misused_prefix_schedule (s : ServiceThreads) (pc : SchedulePc) :
    s.misused <+: (s.schedule pc).1.misused := by
  cases pc with
  | add => exact List.prefix_refl _
  | _ => exact misused_prefix_use s _

theorem stop_misused (s : ServiceThreads) : s.stop.misused = s.misused := by
  unfold stop
  split <;> rfl

theorem step_misused {s s' : ServiceThreads} {l : Label} (h : s.step l = some s') :
    s.misused <+: s'.misused := by
  have htwo : ∀ r r', s.misused <+: ((s.use r).use r').misused :=
    fun r r' => (misused_prefix_use s r).trans (misused_prefix_use _ r')
  cases l with
  | network sid =>
    cases Option.some.inj h
    cases hn : s.network with
    | idle =>
      cases hi : s.isInit <;> simp [networkStep, hn, hi]
    | dispatch => simpa [networkStep, hn] using htwo .object .luaState
    | lookup => simp [networkStep, hn]
    | push => simp [networkStep, hn]
    | schedule pc => simpa [networkStep, hn] using misused_prefix_schedule s pc
  | main =>
    cases Option.some.inj h
    cases hn : s.main with
    | idle => cases hm : s.inMap <;> simp [mainStep, hn, hm]
    | erase => simp [mainStep, hn]
    | delete => simp [mainStep, hn]
    | schedule pc => simpa [mainStep, hn] using misused_prefix_schedule s pc
  | task i =>
    obtain ⟨pc, _, rfl⟩ := task_cases h
    cases pc with
    | take => by_cases hq : s.msgQueue = 0 <;> simp [taskStep, hq]
    | parse => exact (htwo .object .luaState).trans (misused_prefix_use _ _)
    | script => exact htwo .object .luaState
    | done => exact List.prefix_refl _
    | _ => exact misused_prefix_use s _
  | encode i =>
    cases encode_cases h
    exact (htwo .object .messageParser).trans (misused_prefix_use _ _)
  | exitservice i =>
    cases exitservice_cases h
    refine (misused_prefix_use s .object).trans ?_
    rw [← stop_misused]
    exact misused_prefix_use _ _

theorem run_misused {s s' : ServiceThreads} {ls : List Label} (h : run step s ls = some s') :
    s.misused <+: s'.misused :=
  run_invariant_always (fun t => s.misused <+: t.misused)
    (fun _ _ _ hp hst => hp.trans (step_misused hst)) (List.prefix_refl _) h

theorem exitservice_misused {s s' : ServiceThreads} {i : Nat} (hs : s.Alive)
    (h : s.step (.exitservice i) = some s') : s'.misused ≠ [] := by
  cases exitservice_cases h
  simp [exitservice, stop, hs.isstop, use, gone]

theorem misused_nil_iff_alive {s s' : ServiceThreads} {ls : List Label} (hs : s.Alive)
    (hm : s.misused = []) (h : run step s ls = some s') :
    s'.misused = [] ↔ ∀ l ∈ ls, ¬ IsExit l := by
  induction ls generalizing s with
  | nil =>
    cases Option.some.inj h
    simp [hm]
  | cons l ls ih =>
    obtain ⟨t, ht, hrun⟩ := run_cons_iff.mp h
    by_cases hl : IsExit l
    · cases l with
      | exitservice i =>
        have hne := exitservice_misused hs ht
        have hp := run_misused hrun
        constructor
        · intro hnil
          rw [hnil] at hp
          exact absurd (List.prefix_nil.mp hp) hne
        · exact fun hall => absurd hl (hall _ List.mem_cons_self)
      | _ => exact absurd hl id
    · obtain ⟨ha, he⟩ := step_alive hs hl ht
      rw [ih ha (he.trans hm) hrun]
      simp [hl]

/-- No step of a run uses a closed state, a deleted parser or a deleted service exactly
when no script in it calls `cc.exitservice`. -/
theorem misused_nil_iff {isInit : Bool} {s : ServiceThreads} {ls : List Label}
    (h : run step (start isInit) ls = some s) : s.misused = [] ↔ ∀ l ∈ ls, ¬ IsExit l :=
  misused_nil_iff_alive (start_alive isInit) rfl h

theorem misused_nil_iff_one_message :
    ∃ s, run step (start true) [.network true, .network true, .network true, .network true,
        .network true, .network true, .network true, .network true, .task 0, .task 0, .task 0,
        .task 0, .encode 0, .task 0, .main] = some s ∧
      (s.misused = [] ↔ ∀ l ∈ ([.network true, .network true, .network true, .network true,
        .network true, .network true, .network true, .network true, .task 0, .task 0, .task 0,
        .task 0, .encode 0, .task 0, .main] : List Label), ¬ IsExit l) :=
  ⟨_, rfl, @misused_nil_iff true _ _ rfl⟩

/-- The script of a message exits its service: the interpreter goes on in a closed state, and
so does the task behind it. -/
theorem misused_after_exitservice :
    (run step (start false) [.network true, .network true, .network true, .network true,
        .network true, .network true, .network true, .task 0, .task 0, .task 0, .task 0,
        .exitservice 0, .main, .main, .main, .task 0]).map misused =
      some [.luaState, .object, .luaState] := by
  decide

end ServiceThreads

end Tnode
