import Tnode.Schedule

namespace Tnode

open Transitions

/-- `main` inside `ServiceManager::init`: before `new Service`, before the service is put into
`_services`, inside `Service::init` running the script, before the assignment to `_initid`,
in its loop, and on its way out after a failure. -/
inductive BootPc
  | create
  | insert
  | init
  | assign
  | running
  | failed
deriving DecidableEq, Repr

/-- The init service from the start of the process on. -/
structure InitService where
  boot : BootPc
  threads : ServiceThreads
deriving DecidableEq, Repr

/-- A worker is inside `msgParser`. -/
def TaskPc.onLuaState : TaskPc → Bool
  | .parse | .script => true
  | _ => false

/-- A task that has not yet left `Service::run`. -/
def TaskPc.ahead : TaskPc → Bool
  | .queued => true
  | pc => pc.inRun

/-- `main` has found messages in `need_schedule()` and may go on to add a task. -/
def MainPc.adds : MainPc → Bool
  | .schedule .test | .schedule .mark | .schedule .add => true
  | _ => false

/-- The messages of a service that are queued or in the hands of a worker. -/
def ServiceThreads.pending (s : ServiceThreads) : Nat :=
  s.msgQueue + s.tasks.countP TaskPc.onLuaState

/-- Every message routed to the service is finished, and so is every task, and no other is about to
be added. -/
structure ServiceThreads.Quiet (s : ServiceThreads) : Prop where
  pending : s.pending = 0
  tasks : s.tasks.countP TaskPc.ahead = 0
  main : s.main.adds = false

theorem ServiceThreads.quiet_iff (s : ServiceThreads) : s.Quiet ↔
    s.pending = 0 ∧ s.tasks.countP TaskPc.ahead = 0 ∧ s.main.adds = false :=
  ⟨fun h => ⟨h.pending, h.tasks, h.main⟩, fun h => ⟨h.1, h.2.1, h.2.2⟩⟩

instance (s : ServiceThreads) : Decidable s.Quiet := decidable_of_iff' _ s.quiet_iff

namespace InitService

def start : InitService := ⟨.create, { ServiceThreads.start true with inMap := false }⟩

/-- The next step of `ServiceManager::init`; `ok` is what the script's run returns. -/
def bootStep (s : InitService) (ok : Bool) : Option InitService :=
  match s.boot with
  | .create => some { s with boot := .insert }
  | .insert => some { boot := .init, threads := { s.threads with inMap := true } }
  | .init =>
    if ok then some { s with boot := .assign }
    else some { boot := .failed, threads := { s.threads with inMap := false, deleted := true } }
  | .assign => some { s with boot := .running }
  | .running | .failed => none

inductive Label
  | boot (ok : Bool)
  | threads (l : ServiceThreads.Label)
deriving DecidableEq, Repr

/-- One step of one thread. As long as `_initid` is not set, `pushMessage` finds no init
service and releases the message; the loop of `main` comes after `ServiceManager::init`. -/
def step (s : InitService) : Label → Option InitService
  | .boot ok => s.bootStep ok
  | .threads l =>
    match l with
    | .network _ =>
      if s.threads.network = .idle ∧ s.boot ≠ .running then some s
      else (s.threads.step l).map fun threads => { s with threads := threads }
    | .main =>
      if s.boot = .running then (s.threads.step l).map fun threads => { s with threads := threads }
      else none
    | _ => (s.threads.step l).map fun threads => { s with threads := threads }

/-- The threads that execute on the `lua_State` of the init service: `main` in the script,
the network thread in `dispatch`, and workers in `msgParser`. -/
def users (s : InitService) : Nat :=
  (if s.boot = .init then 1 else 0) + (if s.threads.network = .dispatch then 1 else 0) +
    s.threads.tasks.countP TaskPc.onLuaState

/-- `dispatch` is called only when every message and every task of the init service is finished. -/
def DispatchesAlone (s : InitService) : Label → Prop
  | .threads (.network _) =>
    s.boot = .running → s.threads.network = .idle → s.threads.inMap = true → s.threads.Quiet
  | _ => True

instance (s : InitService) (l : Label) : Decidable (s.DispatchesAlone l) :=
  match l with
  | .threads (.network _) => inferInstanceAs (Decidable (_ → _ → _ → _))
  | .threads .main | .threads (.task _) | .threads (.encode _) | .threads (.exitservice _)
  | .boot _ => isTrue trivial

end InitService

namespace ServiceThreads

/-- Between the call of `dispatch` and the push of the message. -/
def Routing (s : ServiceThreads) : Prop :=
  s.network = .dispatch ∨ s.network = .lookup ∨ s.network = .push

theorem schedule_pending (s : ServiceThreads) (pc : SchedulePc) :
    (s.schedule pc).1.pending = s.pending ∧ (s.schedule pc).1.network = s.network ∧
      (s.schedule pc).1.isInit = s.isInit := by
  cases pc <;> simp [schedule, pending, use, TaskPc.onLuaState]

theorem mainStep_pending (s : ServiceThreads) :
    s.mainStep.pending = s.pending ∧ s.mainStep.network = s.network ∧
      s.mainStep.isInit = s.isInit := by
  unfold mainStep
  split
  next => split <;> simp [pending, use]
  next => simp [pending, use]
  next => simp [pending]
  next => exact s.schedule_pending _

theorem taskStep_pending (s : ServiceThreads) (pc : TaskPc) :
    (s.taskStep pc).1.tasks = s.tasks ∧ (s.taskStep pc).1.network = s.network ∧
      (s.taskStep pc).1.isInit = s.isInit ∧
      (s.taskStep pc).1.msgQueue + (if (s.taskStep pc).2.onLuaState then 1 else 0) ≤
        s.msgQueue + (if pc.onLuaState then 1 else 0) := by
  cases pc with
  | loop => cases hs : s.isstop <;> simp [taskStep, hs, use, TaskPc.onLuaState]
  | take =>
    by_cases hq : s.msgQueue = 0
    · simp [taskStep, hq, use, TaskPc.onLuaState]
    · simp only [taskStep, hq, use, TaskPc.onLuaState, if_false, if_true]
      refine ⟨trivial, trivial, trivial, ?_⟩
      simp
      omega
  | _ => simp [taskStep, use, TaskPc.onLuaState]

theorem task_pending {s t : ServiceThreads} {i : Nat} (h : s.step (.task i) = some t) :
    t.pending ≤ s.pending ∧ t.network = s.network ∧ t.isInit = s.isInit := by
  obtain ⟨pc, hpc, rfl⟩ := task_cases h
  obtain ⟨hi, hget⟩ := List.getElem?_eq_some_iff.mp hpc
  obtain ⟨htasks, hnetwork, hinit, hle⟩ := s.taskStep_pending pc
  refine ⟨?_, hnetwork, hinit⟩
  have hcount := List.countP_set (p := TaskPc.onLuaState) (a := (s.taskStep pc).2) hi
  have hpos : (if pc.onLuaState then 1 else 0) ≤ s.tasks.countP TaskPc.onLuaState := by
    split
    next ha => exact List.countP_pos_iff.mpr ⟨pc, List.mem_of_getElem? hpc, ha⟩
    next => exact Nat.zero_le _
  rw [hget] at hcount
  show (s.taskStep pc).1.msgQueue +
    ((s.taskStep pc).1.tasks.set i (s.taskStep pc).2).countP TaskPc.onLuaState ≤ _
  rw [htasks, hcount, pending]
  omega

/-- Only the push of a message adds to what is pending. -/
theorem step_pending {s t : ServiceThreads} {l : Label} (hl : ∀ sid, l ≠ .network sid)
    (h : s.step l = some t) :
    t.pending ≤ s.pending ∧ t.network = s.network ∧ t.isInit = s.isInit := by
  cases l with
  | network sid => exact absurd rfl (hl sid)
  | main =>
    cases Option.some.inj h
    obtain ⟨hp, hn, hi⟩ := s.mainStep_pending
    exact ⟨Nat.le_of_eq hp, hn, hi⟩
  | task i => exact task_pending h
  | encode i =>
    cases encode_cases h
    exact ⟨Nat.le_refl _, rfl, rfl⟩
  | exitservice i =>
    cases exitservice_cases h
    cases hstop : s.isstop <;> simp [exitservice, stop, use, hstop, pending]

/-- What a step of the network thread does for the init service: it goes on, or pushes the
message that it has routed. -/
theorem network_pending {s t : ServiceThreads} {sid : Bool} (hinit : s.isInit = true)
    (h : s.step (.network sid) = some t) :
    t.isInit = true ∧
      ((t.pending = s.pending ∧ (t.Routing → s.Routing ∨ s.network = .idle ∧ s.inMap = true)) ∨
        s.network = .push ∧ t.pending = s.pending + 1 ∧ ¬ t.Routing) := by
  cases Option.some.inj h
  cases hn : s.network with
  | idle =>
    cases hm : s.inMap with
    | true => simp [networkStep, hn, hinit, hm, pending]
    | false => simp [networkStep, hn, hinit, hm, pending, Routing]
  | dispatch => simp [networkStep, hn, hinit, pending, Routing, use]
  | lookup => simp [networkStep, hn, hinit, pending, Routing]
  | push =>
    refine ⟨by simp [networkStep, hn, hinit, use], Or.inr ⟨rfl, ?_, ?_⟩⟩
    · simp only [networkStep, hn, pending, use]
      omega
    · simp [networkStep, hn, Routing]
  | schedule pc =>
    obtain ⟨hp, _, hi⟩ := s.schedule_pending pc
    have he : s.networkStep sid =
        { (s.schedule pc).1 with network := (s.schedule pc).2.elim .idle .schedule } := by
      simp [networkStep, hn]
    rw [he]
    refine ⟨hi.trans hinit, Or.inl ⟨hp, ?_⟩⟩
    intro hr
    cases hnext : (s.schedule pc).2 <;> simp [Routing, hnext] at hr

theorem schedule_main (s : ServiceThreads) (pc : SchedulePc) :
    (s.schedule pc).1.main = s.main ∧
      (s.schedule pc).1.tasks.countP TaskPc.ahead =
        s.tasks.countP TaskPc.ahead + (if pc = .add then 1 else 0) := by
  cases pc <;> simp [schedule, use, TaskPc.ahead]

theorem Quiet.of_eq {s t : ServiceThreads} (h : s.Quiet) (hqueue : t.msgQueue = s.msgQueue)
    (htasks : t.tasks = s.tasks) (hmain : t.main = s.main) : t.Quiet := by
  refine ⟨?_, by rw [htasks]; exact h.tasks, by rw [hmain]; exact h.main⟩
  rw [ServiceThreads.pending, hqueue, htasks]
  exact h.pending

theorem Quiet.inRun {s : ServiceThreads} (h : s.Quiet) : s.inRun = 0 := by
  refine List.countP_eq_zero.mpr fun pc hpc => ?_
  have hahead := List.countP_eq_zero.mp h.tasks pc hpc
  cases pc <;> simp_all [TaskPc.ahead, TaskPc.inRun]

/-- While nothing is queued `main` adds no task. -/
theorem mainStep_quiet {s : ServiceThreads} (h : s.Quiet) : s.mainStep.Quiet := by
  have hpending : s.mainStep.pending = 0 := s.mainStep_pending.1.trans h.pending
  have hqueue : s.msgQueue = 0 := Nat.eq_zero_of_add_eq_zero_right h.pending
  have hmain := h.main
  have htasks := h.tasks
  refine ⟨hpending, ?_, ?_⟩
  · cases hm : s.main with
    | idle =>
      cases hi : s.inMap <;> cases hs : s.isstop <;>
        simpa [mainStep, hm, hi, hs, use] using htasks
    | erase => simpa [mainStep, hm, use] using htasks
    | delete => simpa [mainStep, hm] using htasks
    | schedule pc =>
      have hadd : pc ≠ .add := by
        rintro rfl
        rw [hm] at hmain
        cases hmain
      have hcount := (s.schedule_main pc).2
      rw [if_neg hadd, htasks] at hcount
      simpa [mainStep, hm] using hcount
  · cases hm : s.main with
    | idle =>
      cases hi : s.inMap <;> cases hs : s.isstop <;>
        simp [mainStep, hm, hi, hs, use, MainPc.adds]
    | erase => simp [mainStep, hm, MainPc.adds]
    | delete => simp [mainStep, hm, MainPc.adds]
    | schedule pc =>
      cases pc with
      | need => simp [mainStep, hm, schedule, hqueue, MainPc.adds]
      | test | mark | add =>
        rw [hm] at hmain
        cases hmain

theorem task_quiet {s t : ServiceThreads} {i : Nat} (h : s.Quiet) (ht : s.step (.task i) = some t) :
    t.Quiet := by
  have hpending := (task_pending ht).1
  obtain ⟨pc, hpc, rfl⟩ := task_cases ht
  have hdone : pc.ahead = false := by
    have hnone := List.countP_eq_zero.mp h.tasks pc (List.mem_of_getElem? hpc)
    simpa using hnone
  have htasks : (s.taskStep pc).1.tasks = s.tasks := (s.taskStep_pending pc).1
  have hmain : (s.taskStep pc).1.main = s.main ∧ (s.taskStep pc).2.ahead = false := by
    cases pc with
    | clear | report | done => simp [taskStep, use, TaskPc.ahead, TaskPc.inRun]
    | queued | loop | take | parse | script => cases hdone
  have hzero := h.pending
  refine ⟨by omega, ?_, by rw [← h.main, ← hmain.1]⟩
  refine List.countP_eq_zero.mpr fun x hx => ?_
  rcases List.mem_or_eq_of_mem_set hx with hx | rfl
  · rw [htasks] at hx
    exact List.countP_eq_zero.mp h.tasks x hx
  · simp [hmain.2]

/-- What is quiet stays so until the network thread pushes a message. -/
theorem step_quiet {s t : ServiceThreads} {l : Label} (hl : ∀ sid, l ≠ .network sid)
    (h : s.Quiet) (ht : s.step l = some t) : t.Quiet := by
  cases l with
  | network sid => exact absurd rfl (hl sid)
  | main =>
    cases Option.some.inj ht
    exact mainStep_quiet h
  | task i => exact task_quiet h ht
  | encode i =>
    cases encode_cases ht
    exact h.of_eq rfl rfl rfl
  | exitservice i =>
    cases exitservice_cases ht
    cases hstop : s.isstop <;> simp only [exitservice, stop, use, hstop]
    · exact h.of_eq rfl rfl rfl
    · exact h.of_eq rfl rfl rfl

/-- The network thread is not behind the push of a message. -/
def Unpushed (s : ServiceThreads) : Prop :=
  s.network = .idle ∨ s.network = .dispatch ∨ s.network = .lookup

theorem network_unpushed {s : ServiceThreads} (h : s.Unpushed) :
    (s.networkStep false).Unpushed ∧ (s.networkStep false).msgQueue = s.msgQueue ∧
      (s.networkStep false).tasks = s.tasks ∧ (s.networkStep false).main = s.main := by
  rcases h with hn | hn | hn
  · cases hi : s.isInit <;> cases hm : s.inMap <;> simp [networkStep, hn, hi, hm, Unpushed]
  · simp [networkStep, hn, Unpushed, use]
  · simp [networkStep, hn, Unpushed]

/-- Into `dispatch` the network thread comes from the front of `pushMessage` only. -/
theorem network_dispatches {s : ServiceThreads} {sid : Bool}
    (h : (s.networkStep sid).network = .dispatch) :
    s.network = .idle ∧ s.inMap = true ∧ s.networkStep sid = { s with network := .dispatch } := by
  cases hn : s.network with
  | idle =>
    cases hi : s.isInit <;> cases hm : s.inMap <;> simp [networkStep, hn, hi, hm] at h ⊢
  | dispatch => simp [networkStep, hn] at h
  | lookup =>
    cases hs : sid && s.inMap <;> simp [networkStep, hn, hs] at h
  | push => simp [networkStep, hn] at h
  | schedule pc => cases hnext : (s.schedule pc).2 <;> simp [networkStep, hn, hnext] at h

end ServiceThreads

namespace InitService

structure Exclusive (s : InitService) : Prop where
  isInit : s.threads.isInit = true
  booting : s.boot ≠ .running →
    s.threads.network = .idle ∧ s.threads.msgQueue = 0 ∧ s.threads.tasks = []
  pending : s.threads.pending ≤ 1
  routing : s.threads.Routing → s.threads.pending = 0
  dispatching : s.threads.network = .dispatch → s.threads.Quiet

theorem start_exclusive : start.Exclusive where
  isInit := rfl
  booting := fun _ => ⟨rfl, rfl, rfl⟩
  pending := by decide
  routing := by rintro (h | h | h) <;> simp [start, ServiceThreads.start] at h
  dispatching := fun h => by simp [start, ServiceThreads.start] at h

theorem boot_cases {s t : InitService} {ok : Bool} (h : s.step (.boot ok) = some t) :
    s.boot ≠ .running ∧ t.threads.isInit = s.threads.isInit ∧
      t.threads.network = s.threads.network ∧ t.threads.msgQueue = s.threads.msgQueue ∧
      t.threads.tasks = s.threads.tasks ∧ t.threads.main = s.threads.main := by
  simp only [step, bootStep] at h
  split at h
  next hb => cases h; simp [hb]
  next hb => cases h; simp [hb]
  next hb => split at h <;> cases h <;> simp [hb]
  next hb => cases h; simp [hb]
  next => simp at h
  next => simp at h

/-- While `main` is inside `ServiceManager::init`, the network thread finds no init service
and no task is there. -/
theorem threads_booting {s t : InitService} {l : ServiceThreads.Label} (hs : s.Exclusive)
    (hb : s.boot ≠ .running) (h : s.step (.threads l) = some t) : t = s := by
  obtain ⟨hidle, _, htasks⟩ := hs.booting hb
  cases l with
  | network sid =>
    simp only [step, hidle, ne_eq, hb, not_false_eq_true, and_self, if_true] at h
    exact (Option.some.inj h).symm
  | main => simp [step, hb] at h
  | task i | encode i | exitservice i => simp [step, ServiceThreads.step, htasks] at h

theorem threads_running {s t : InitService} {l : ServiceThreads.Label} (hb : s.boot = .running)
    (h : s.step (.threads l) = some t) : t.boot = .running ∧ s.threads.step l = some t.threads := by
  have hmap : (s.threads.step l).map (fun threads => { s with threads := threads }) = some t := by
    cases l <;> simpa [step, hb] using h
  obtain ⟨threads, ht, rfl⟩ := Option.map_eq_some_iff.mp hmap
  exact ⟨hb, ht⟩

theorem step_exclusive {s t : InitService} {l : Label} (hs : s.Exclusive)
    (hok : s.DispatchesAlone l) (h : s.step l = some t) : t.Exclusive := by
  cases l with
  | boot ok =>
    obtain ⟨hb, hinit, hnetwork, hqueue, htasks, _⟩ := boot_cases h
    obtain ⟨hidle, hempty, hnone⟩ := hs.booting hb
    have hpending : t.threads.pending = 0 := by
      rw [ServiceThreads.pending, hqueue, htasks, hempty, hnone]
      rfl
    have hidle' := hnetwork.trans hidle
    exact ⟨hinit.trans hs.isInit, fun _ => ⟨hidle', hqueue.trans hempty, htasks.trans hnone⟩,
      by omega, fun _ => hpending, fun hn => by rw [hidle'] at hn; cases hn⟩
  | threads l =>
    by_cases hb : s.boot = .running
    · obtain ⟨hb', hstep⟩ := threads_running hb h
      have hbooting : t.boot ≠ .running → t.threads.network = .idle ∧ t.threads.msgQueue = 0 ∧
          t.threads.tasks = [] := fun hne => absurd hb' hne
      have hle := hs.pending
      by_cases hl : ∃ sid, l = .network sid
      · obtain ⟨sid, rfl⟩ := hl
        have hdispatching : t.threads.network = .dispatch → t.threads.Quiet := by
          intro hn
          rw [← Option.some.inj hstep] at hn ⊢
          obtain ⟨hidle, hmap, hnext⟩ := ServiceThreads.network_dispatches hn
          have hquiet := hok hb hidle hmap
          rw [hnext]
          exact ⟨hquiet.pending, hquiet.tasks, hquiet.main⟩
        obtain ⟨hinit, ⟨hp, hrouting⟩ | ⟨hpush, hp, hrouting⟩⟩ :=
          ServiceThreads.network_pending hs.isInit hstep
        · refine ⟨hinit, hbooting, by omega, ?_, hdispatching⟩
          intro hr
          rw [hp]
          rcases hrouting hr with hr | ⟨hidle, hmap⟩
          · exact hs.routing hr
          · exact (hok hb hidle hmap).pending
        · have hzero := hs.routing (Or.inr (Or.inr hpush))
          exact ⟨hinit, hbooting, by omega, fun hr => absurd hr hrouting, hdispatching⟩
      · have hother : ∀ sid, l ≠ .network sid := fun sid he => hl ⟨sid, he⟩
        obtain ⟨hp, hnetwork, hinit⟩ := ServiceThreads.step_pending hother hstep
        refine ⟨hinit.trans hs.isInit, hbooting, by omega, ?_, ?_⟩
        · intro hr
          rw [ServiceThreads.Routing, hnetwork] at hr
          have hzero := hs.routing hr
          omega
        · intro hn
          rw [hnetwork] at hn
          exact ServiceThreads.step_quiet hother (hs.dispatching hn) hstep
    · rw [threads_booting hs hb h]
      exact hs

/-- In every run in which `dispatch` is called only when all messages and tasks of the init service
are finished, no two threads execute on its `lua_State`, and while one is in `dispatch`, the script
has completed and no worker is in `run`. -/
theorem one_user {s : InitService} {ls : List Label} (ha : Along step DispatchesAlone start ls)
    (hr : run step start ls = some s) :
    s.users ≤ 1 ∧ (s.threads.network = .dispatch → s.boot = .running ∧ s.threads.inRun = 0) := by
  have hs : s.Exclusive :=
    run_invariant (fun s l t hs hok h => step_exclusive hs hok h) start_exclusive ha hr
  have hle := hs.pending
  rw [ServiceThreads.pending] at hle
  have hdispatch : s.threads.network = .dispatch → s.boot = .running ∧ s.threads.inRun = 0 := by
    intro hn
    refine ⟨?_, (hs.dispatching hn).inRun⟩
    by_contra hb
    have hidle := (hs.booting hb).1
    simp [hn] at hidle
  refine ⟨?_, hdispatch⟩
  unfold users
  by_cases hb : s.boot = .init
  · obtain ⟨hidle, _, htasks⟩ := hs.booting (by simp [hb])
    simp [hb, hidle, htasks]
  · rw [if_neg hb]
    split
    next hn =>
      have hzero := hs.routing (Or.inl hn)
      rw [ServiceThreads.pending] at hzero
      omega
    next => omega

/-- Nothing is routed to the init service. -/
structure RoutedElsewhere (s : InitService) : Prop where
  exclusive : s.Exclusive
  quiet : s.threads.Quiet
  unpushed : s.threads.Unpushed

theorem RoutedElsewhere.dispatchesAlone {s : InitService} (hs : s.RoutedElsewhere) (l : Label) :
    s.DispatchesAlone l := by
  cases l with
  | boot ok => trivial
  | threads l =>
    cases l with
    | network sid => exact fun _ _ _ => hs.quiet
    | _ => trivial

theorem step_routedElsewhere {s t : InitService} {l : Label} (hs : s.RoutedElsewhere)
    (hl : l ≠ .threads (.network true)) (h : s.step l = some t) : t.RoutedElsewhere := by
  have ht := step_exclusive hs.exclusive (hs.dispatchesAlone l) h
  cases l with
  | boot ok =>
    obtain ⟨_, _, hnetwork, hqueue, htasks, hmain⟩ := boot_cases h
    refine ⟨ht, ?_, by rw [ServiceThreads.Unpushed, hnetwork]; exact hs.unpushed⟩
    exact hs.quiet.of_eq hqueue htasks hmain
  | threads l =>
    by_cases hb : s.boot = .running
    · obtain ⟨_, hstep⟩ := threads_running hb h
      by_cases hn : ∃ sid, l = .network sid
      · obtain ⟨sid, rfl⟩ := hn
        have hsid : sid = false := by
          cases sid with
          | true => exact absurd rfl hl
          | false => rfl
        obtain ⟨hunpushed, hqueue, htasks, hmain⟩ := ServiceThreads.network_unpushed hs.unpushed
        rw [hsid] at hstep
        rw [Option.some.inj hstep] at hunpushed hqueue htasks hmain
        exact ⟨ht, hs.quiet.of_eq hqueue htasks hmain, hunpushed⟩
      · have hother : ∀ sid, l ≠ .network sid := fun sid he => hn ⟨sid, he⟩
        refine ⟨ht, ServiceThreads.step_quiet hother hs.quiet hstep, ?_⟩
        rw [ServiceThreads.Unpushed, (ServiceThreads.step_pending hother hstep).2.1]
        exact hs.unpushed
    · rw [threads_booting hs.exclusive hb h]
      exact hs

/-- A script whose `dispatch` never names the init service meets the condition. -/
theorem dispatchesAlone_of_routedElsewhere {s : InitService} {ls : List Label}
    (hs : s.RoutedElsewhere) (hl : ∀ l ∈ ls, l ≠ .threads (.network true)) :
    Along step DispatchesAlone s ls := by
  induction ls generalizing s with
  | nil => trivial
  | cons l ls ih =>
    rw [List.forall_mem_cons] at hl
    exact ⟨hs.dispatchesAlone l, fun t ht => ih (step_routedElsewhere hs hl.1 ht) hl.2⟩

/-- The init service takes the connection of an early message for none, and handles one of its
own before the next is dispatched. -/
theorem one_user_own_message :
    ∃ s, run step start ([.boot true, .boot true, .threads (.network true), .boot true, .boot true] ++
        List.replicate 8 (.threads (.network true)) ++ List.replicate 9 (.threads (.task 0)) ++
        [.threads (.network true)]) = some s ∧
      s.threads.network = .dispatch ∧
      s.users ≤ 1 ∧ (s.threads.network = .dispatch → s.boot = .running ∧ s.threads.inRun = 0) := by
  refine ⟨_, rfl, rfl, ?_⟩
  exact @one_user _ ([.boot true, .boot true, .threads (.network true), .boot true, .boot true] ++
    List.replicate 8 (.threads (.network true)) ++ List.replicate 9 (.threads (.task 0)) ++
    [.threads (.network true)]) (by decide) rfl

/-- A worker runs the init service's own message while the next one is dispatched. -/
theorem two_users :
    ∃ s, run step start [.boot true, .boot true, .boot true, .boot true,
        .threads (.network true), .threads (.network true), .threads (.network true),
        .threads (.network true), .threads (.network true), .threads (.network true),
        .threads (.network true), .threads (.network true), .threads (.task 0), .threads (.task 0),
        .threads (.task 0), .threads (.network true)] = some s ∧
      s.users = 2 ∧ s.threads.network = .dispatch ∧ s.threads.tasks = [.parse] := by
  exact ⟨_, rfl, by decide, rfl, rfl⟩

end InitService

end Tnode
