import Tnode.ServiceThreads

namespace Tnode

open Transitions

/-- A task counts from `sThreadPool.add` until it clears `_isrunning`. -/
def TaskPc.active : TaskPc → Bool
  | .report | .done => false
  | _ => true

/-- A worker is inside `Service::run`. -/
def TaskPc.inRun : TaskPc → Bool
  | .loop | .take | .parse | .script => true
  | _ => false

def SchedulePc.marked : SchedulePc → Nat
  | .add => 1
  | _ => 0

def NetworkPc.marked : NetworkPc → Nat
  | .schedule pc => pc.marked
  | _ => 0

def MainPc.marked : MainPc → Nat
  | .schedule pc => pc.marked
  | _ => 0

/-- A call of `Runnable::schedule()` has read `_isrunning` and not yet added its task. -/
def SchedulePc.HalfWay (pc : SchedulePc) : Prop := pc = .mark ∨ pc = .add

namespace ServiceThreads

def active (s : ServiceThreads) : Nat := s.tasks.countP TaskPc.active

def inRun (s : ServiceThreads) : Nat := s.tasks.countP TaskPc.inRun

def Settled (s : ServiceThreads) : Prop :=
  ∀ pc : SchedulePc, pc.HalfWay → s.network ≠ .schedule pc ∧ s.main ≠ .schedule pc

/-- The flag is up exactly for the one task that is queued, executing or about to be added. -/
def Flagged (s : ServiceThreads) : Prop :=
  s.network.marked + s.main.marked + s.active = s.isrunning.toNat

/-- A thread that sets `_isrunning` finds it still clear. -/
def MarksClear (s : ServiceThreads) : Label → Prop
  | .network _ => s.network = .schedule .mark → s.isrunning = false
  | .main => s.main = .schedule .mark → s.isrunning = false
  | _ => True

instance (s : ServiceThreads) (l : Label) : Decidable (s.MarksClear l) :=
  match l with
  | .network _ => inferInstanceAs (Decidable (s.network = .schedule .mark → s.isrunning = false))
  | .main => inferInstanceAs (Decidable (s.main = .schedule .mark → s.isrunning = false))
  | .task _ | .encode _ | .exitservice _ => isTrue trivial

theorem schedule_flag (s : ServiceThreads) (pc : SchedulePc)
    (h : pc = .mark → s.isrunning = false) :
    (s.schedule pc).2.elim 0 SchedulePc.marked + (s.schedule pc).1.active + s.isrunning.toNat =
      pc.marked + s.active + (s.schedule pc).1.isrunning.toNat := by
  cases pc with
  | need =>
    by_cases hn : (!s.isstop && s.msgQueue != 0) = true <;>
      simp [schedule, hn, SchedulePc.marked, use, active]
  | test => cases hr : s.isrunning <;> simp [schedule, hr, SchedulePc.marked, use, active]
  | mark =>
    simp only [schedule, h rfl, SchedulePc.marked, use, active, Option.elim_some, Bool.toNat_false,
      Bool.toNat_true]
    omega
  | add =>
    simp only [schedule, SchedulePc.marked, active, Option.elim_none, List.countP_append,
      List.countP_singleton, TaskPc.active, if_true]
    omega

theorem networkStep_flagged {s : ServiceThreads} {sid : Bool} (hs : s.Flagged)
    (h : s.network = .schedule .mark → s.isrunning = false) : (s.networkStep sid).Flagged := by
  unfold Flagged at hs ⊢
  cases hn : s.network with
  | idle =>
    cases hi : s.isInit <;> cases hm : s.inMap <;>
      simpa [networkStep, hn, hi, hm, NetworkPc.marked, active] using hs
  | dispatch => simpa [networkStep, hn, NetworkPc.marked, use, active] using hs
  | lookup =>
    cases hm : sid && s.inMap <;> simpa [networkStep, hn, hm, NetworkPc.marked, active] using hs
  | push => simpa [networkStep, hn, NetworkPc.marked, SchedulePc.marked, use, active] using hs
  | schedule pc =>
    have hflag := s.schedule_flag pc fun hp => h (by rw [hn, hp])
    have hmain : (s.schedule pc).1.main = s.main := by cases pc <;> rfl
    have hmarked : (((s.schedule pc).2.elim NetworkPc.idle .schedule)).marked =
        (s.schedule pc).2.elim 0 SchedulePc.marked := by cases (s.schedule pc).2 <;> rfl
    have hpc : s.network.marked = pc.marked := by rw [hn]; rfl
    have he : s.networkStep sid =
        { (s.schedule pc).1 with network := (s.schedule pc).2.elim .idle .schedule } := by
      simp [networkStep, hn]
    rw [he]
    show ((s.schedule pc).2.elim NetworkPc.idle .schedule).marked + (s.schedule pc).1.main.marked +
      (s.schedule pc).1.active = (s.schedule pc).1.isrunning.toNat
    rw [hmarked, hmain]
    omega

theorem mainStep_flagged {s : ServiceThreads} (hs : s.Flagged)
    (h : s.main = .schedule .mark → s.isrunning = false) : s.mainStep.Flagged := by
  unfold Flagged at hs ⊢
  cases hn : s.main with
  | idle =>
    cases hm : s.inMap <;> cases hstop : s.isstop <;>
      simpa [mainStep, hn, hm, hstop, MainPc.marked, SchedulePc.marked, use, active] using hs
  | erase => simpa [mainStep, hn, MainPc.marked, use, active] using hs
  | delete => simpa [mainStep, hn, MainPc.marked, active] using hs
  | schedule pc =>
    have hflag := s.schedule_flag pc fun hp => h (by rw [hn, hp])
    have hnetwork : (s.schedule pc).1.network = s.network := by cases pc <;> rfl
    have hmarked : (((s.schedule pc).2.elim MainPc.idle .schedule)).marked =
        (s.schedule pc).2.elim 0 SchedulePc.marked := by cases (s.schedule pc).2 <;> rfl
    have hpc : s.main.marked = pc.marked := by rw [hn]; rfl
    have he : s.mainStep =
        { (s.schedule pc).1 with main := (s.schedule pc).2.elim .idle .schedule } := by
      simp [mainStep, hn]
    rw [he]
    show (s.schedule pc).1.network.marked + ((s.schedule pc).2.elim MainPc.idle .schedule).marked +
      (s.schedule pc).1.active = (s.schedule pc).1.isrunning.toNat
    rw [hmarked, hnetwork]
    omega

theorem taskStep_flag {s : ServiceThreads} {pc : TaskPc} (h : pc = .clear → s.isrunning = true) :
    (s.taskStep pc).1.tasks = s.tasks ∧ (s.taskStep pc).1.network = s.network ∧
      (s.taskStep pc).1.main = s.main ∧
      (if (s.taskStep pc).2.active then 1 else 0) + s.isrunning.toNat =
        (if pc.active then 1 else 0) + (s.taskStep pc).1.isrunning.toNat := by
  cases pc with
  | loop => cases hs : s.isstop <;> simp [taskStep, hs, use, TaskPc.active]
  | take =>
    by_cases hq : s.msgQueue = 0 <;> simp [taskStep, hq, use, TaskPc.active]
  | clear => simp [taskStep, use, TaskPc.active, h rfl]
  | _ => simp [taskStep, use, TaskPc.active]

theorem task_flagged {s s' : ServiceThreads} {i : Nat} (hs : s.Flagged)
    (h : s.step (.task i) = some s') : s'.Flagged := by
  obtain ⟨pc, hpc, rfl⟩ := task_cases h
  obtain ⟨hi, hget⟩ := List.getElem?_eq_some_iff.mp hpc
  have hcount := List.countP_set (p := TaskPc.active) (a := (s.taskStep pc).2) hi
  have hle : (if pc.active then 1 else 0) ≤ s.active := by
    split
    next ha => exact List.countP_pos_iff.mpr ⟨pc, List.mem_of_getElem? hpc, ha⟩
    next => exact Nat.zero_le _
  unfold Flagged at hs
  have hup : pc = .clear → s.isrunning = true := by
    rintro rfl
    cases hr : s.isrunning with
    | true => rfl
    | false =>
      have hone : (if TaskPc.clear.active then 1 else 0) = 1 := rfl
      rw [hr, Bool.toNat_false] at hs
      omega
  obtain ⟨htasks, hnetwork, hmain, hflag⟩ := taskStep_flag hup
  show (s.taskStep pc).1.network.marked + (s.taskStep pc).1.main.marked +
    ((s.taskStep pc).1.tasks.set i (s.taskStep pc).2).countP TaskPc.active =
      (s.taskStep pc).1.isrunning.toNat
  rw [hget] at hcount
  rw [htasks, hnetwork, hmain, hcount]
  simp only [active] at hs hle
  omega

theorem step_flagged {s s' : ServiceThreads} {l : Label} (hs : s.Flagged) (hok : s.MarksClear l)
    (h : s.step l = some s') : s'.Flagged := by
  cases l with
  | network sid =>
    cases Option.some.inj h
    exact networkStep_flagged hs hok
  | main =>
    cases Option.some.inj h
    exact mainStep_flagged hs hok
  | task i => exact task_flagged hs h
  | encode i =>
    cases encode_cases h
    exact hs
  | exitservice i =>
    cases exitservice_cases h
    cases hstop : s.isstop <;> simpa [exitservice, stop, use, hstop, Flagged, active] using hs

theorem inRun_le_active (s : ServiceThreads) : s.inRun ≤ s.active := by
  refine List.countP_mono_left fun pc _ h => ?_
  cases pc <;> simp_all [TaskPc.inRun, TaskPc.active]

/-- In every run in which no thread sets a flag that is already set: at most one worker is
inside `Service::run`, and between `schedule()` calls the flag is up exactly when one task
is queued or executing. -/
theorem isrunning_iff_active {isInit : Bool} {s : ServiceThreads} {ls : List Label}
    (ha : Along step MarksClear (start isInit) ls) (hr : run step (start isInit) ls = some s) :
    s.inRun ≤ 1 ∧ (s.Settled → (s.isrunning = true ↔ s.active = 1)) := by
  have hstart : (start isInit).Flagged := rfl
  have hf : s.Flagged :=
    run_invariant (fun s l t hs hok hst => step_flagged hs hok hst) hstart ha hr
  have hle := inRun_le_active s
  have hb := s.isrunning.toNat_le
  unfold Flagged at hf
  refine ⟨by omega, fun hset => ?_⟩
  have hnetwork : s.network.marked = 0 := by
    cases hn : s.network with
    | schedule pc =>
      cases pc with
      | add => exact absurd hn (hset .add (Or.inr rfl)).1
      | _ => rfl
    | _ => rfl
  have hmain : s.main.marked = 0 := by
    cases hn : s.main with
    | schedule pc =>
      cases pc with
      | add => exact absurd hn (hset .add (Or.inr rfl)).2
      | _ => rfl
    | _ => rfl
  rw [hnetwork, hmain, Nat.zero_add] at hf
  rw [hf]
  cases s.isrunning <;> simp

theorem isrunning_iff_active_one_task :
    ∃ s, run step (start false) [.network true, .network true, .network true, .network true,
        .network true, .network true, .network true, .main, .main, .main, .task 0] = some s ∧
      s.isrunning = true ∧ s.inRun ≤ 1 ∧ (s.Settled → (s.isrunning = true ↔ s.active = 1)) := by
  have hrun : (run step (start false) [.network true, .network true, .network true, .network true,
      .network true, .network true, .network true, .main, .main, .main, .task 0]).map isrunning =
        some true := by decide
  obtain ⟨s, hs, hup⟩ := Option.map_eq_some_iff.mp hrun
  exact ⟨s, hs, hup, isrunning_iff_active (by decide) hs⟩

/-- The network thread and the main loop both find the flag clear: both set it, both add a
task, and two workers are inside `Service::run`. -/
theorem isrunning_two_workers :
    ∃ s, run step (start false) [.network true, .network true, .network true, .network true,
        .network true, .main, .main, .main, .network true, .network true, .main, .main,
        .task 0, .task 1] = some s ∧
      s.inRun = 2 ∧ s.Settled ∧ s.isrunning = true ∧ s.active = 2 := by
  refine ⟨_, rfl, by decide, ?_, by decide, by decide⟩
  rintro pc (rfl | rfl) <;> decide

end ServiceThreads

end Tnode
