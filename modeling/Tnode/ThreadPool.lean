import Tnode.Transitions

namespace Tnode

open Transitions

/-- A worker of `ThreadPool::init`: at the test of its loop, before it takes `_mtx`, holding it
before the predicate of the wait, between a predicate that was false and the block, blocked,
woken up, holding `_mtx` behind the wait, holding it before it takes a task, running one, and
returned. -/
inductive WorkerPc
  | loop
  | lock
  | predicate
  | block
  | blocked
  | woken
  | leave
  | take
  | run
  | returned
deriving DecidableEq, Repr

def WorkerPc.holdsMutex : WorkerPc → Bool
  | .predicate | .block | .leave | .take => true
  | _ => false

/-- What a notification does to a worker. -/
def WorkerPc.wake : WorkerPc → WorkerPc
  | .blocked => .woken
  | pc => pc

/-- How many steps a worker still takes at most once the pool has stopped. -/
def WorkerPc.left : WorkerPc → Nat
  | .returned => 0
  | .loop | .leave => 1
  | .predicate | .run => 2
  | .lock | .woken | .take => 3
  | .block | .blocked => 4

def leftAll : List WorkerPc → Nat
  | [] => 0
  | pc :: workers => pc.left + leftAll workers

/-- `stop()`: not called yet, after the store to `_stop`, in `join()` after `notify_all`, and
over. -/
inductive StopPc
  | idle
  | stored
  | joining
  | returned
deriving DecidableEq, Repr

/-- `ThreadPool`; `adding` counts the calls of `add` between the unlocking and `notify_one`. -/
structure ThreadPool where
  stop : Bool
  tasks : Nat
  workers : List WorkerPc
  adding : Nat
  stopping : StopPc
deriving DecidableEq, Repr

namespace ThreadPool

/-- After `init(n)`. -/
def start (n : Nat) : ThreadPool where
  stop := false
  tasks := 0
  workers := List.replicate n .loop
  adding := 0
  stopping := .idle

def locked (s : ThreadPool) : Bool := s.workers.any WorkerPc.holdsMutex

/-- The next step of a worker, if it can take one, and the number of tasks after it. -/
def workerStep (s : ThreadPool) : WorkerPc → Option (WorkerPc × Nat)
  | .loop => some (if s.stop then .returned else .lock, s.tasks)
  | .lock => if s.locked then none else some (.predicate, s.tasks)
  | .predicate => some (if s.stop || s.tasks != 0 then .leave else .block, s.tasks)
  | .block => some (.blocked, s.tasks)
  | .blocked => none
  | .woken => if s.locked then none else some (.predicate, s.tasks)
  | .leave => some (if s.stop then .returned else .take, s.tasks)
  | .take => some (.run, s.tasks - 1)
  | .run => some (.loop, s.tasks)
  | .returned => none

def stopStep (s : ThreadPool) : Option ThreadPool :=
  match s.stopping with
  | .idle => some { s with stop := true, stopping := .stored }
  | .stored => some { s with workers := s.workers.map WorkerPc.wake, stopping := .joining }
  | .joining =>
    if s.workers.all (· = .returned) then some { s with stopping := .returned } else none
  | .returned => none

inductive Label
  | worker (i : Nat)
  | add
  | notifyOne (i : Nat)
  | spurious (i : Nat)
  | stop
deriving DecidableEq, Repr

/-- One step of one thread. `add` throws once the pool has stopped; `notify_one` wakes any
blocked worker if there is one. -/
def step (s : ThreadPool) : Label → Option ThreadPool
  | .worker i => do
    let pc ← s.workers[i]?
    let (pc, tasks) ← s.workerStep pc
    return { s with workers := s.workers.set i pc, tasks := tasks }
  | .add =>
    if s.locked then none
    else if s.stop then some s
    else some { s with tasks := s.tasks + 1, adding := s.adding + 1 }
  | .notifyOne i =>
    if s.adding = 0 then none
    else if s.workers[i]? = some .blocked then
      some { s with workers := s.workers.set i .woken, adding := s.adding - 1 }
    else if .blocked ∈ s.workers then none
    else some { s with adding := s.adding - 1 }
  | .spurious i =>
    if s.workers[i]? = some .blocked then some { s with workers := s.workers.set i .woken }
    else none
  | .stop => s.stopStep

/-- When `stop()` notifies, no worker stands between its predicate and its block. -/
def NotifiesAll (s : ThreadPool) : Label → Prop
  | .stop => s.stopping = .stored → .block ∉ s.workers
  | _ => True

instance (s : ThreadPool) (l : Label) : Decidable (s.NotifiesAll l) :=
  match l with
  | .stop => inferInstanceAs (Decidable (s.stopping = .stored → .block ∉ s.workers))
  | .worker _ | .add | .notifyOne _ | .spurious _ => isTrue trivial

/-- No worker is or is going to be blocked. -/
def AllAwake (s : ThreadPool) : Prop := ∀ pc ∈ s.workers, pc ≠ .block ∧ pc ≠ .blocked

def Notified (s : ThreadPool) : Prop := s.stopping = .joining ∨ s.stopping = .returned

structure Stopping (s : ThreadPool) : Prop where
  stored : s.stopping ≠ .idle → s.stop = true
  notified : s.Notified → s.AllAwake

theorem worker_cases {s t : ThreadPool} {i : Nat} (h : s.step (.worker i) = some t) :
    ∃ pc pc' tasks, s.workers[i]? = some pc ∧ s.workerStep pc = some (pc', tasks) ∧
      t = { s with workers := s.workers.set i pc', tasks := tasks } := by
  obtain ⟨pc, hpc, h⟩ := Option.bind_eq_some_iff.mp h
  obtain ⟨⟨pc', tasks⟩, hstep, h⟩ := Option.bind_eq_some_iff.mp h
  exact ⟨pc, pc', tasks, hpc, hstep, (Option.some.inj h).symm⟩

/-- Any step but those of the workers and of `stop()` leaves the workers alone or wakes one. -/
theorem other_cases {s t : ThreadPool} {l : Label} (h : s.step l = some t)
    (hworker : ∀ i, l ≠ .worker i) (hstop : l ≠ .stop) :
    t.stop = s.stop ∧ t.stopping = s.stopping ∧
      (t.workers = s.workers ∨ ∃ i, s.workers[i]? = some .blocked ∧
        t.workers = s.workers.set i .woken) := by
  cases l with
  | worker i => exact absurd rfl (hworker i)
  | stop => exact absurd rfl hstop
  | add =>
    simp only [step] at h
    split at h
    next => simp at h
    next =>
      split at h <;> cases h <;> exact ⟨rfl, rfl, Or.inl rfl⟩
  | notifyOne i =>
    simp only [step] at h
    split at h
    next => simp at h
    next =>
      split at h
      next hb => cases h; exact ⟨rfl, rfl, Or.inr ⟨i, hb, rfl⟩⟩
      next =>
        split at h
        next => simp at h
        next => cases h; exact ⟨rfl, rfl, Or.inl rfl⟩
  | spurious i =>
    simp only [step] at h
    split at h
    next hb => cases h; exact ⟨rfl, rfl, Or.inr ⟨i, hb, rfl⟩⟩
    next => simp at h

theorem allAwake_set {s : ThreadPool} (h : s.AllAwake) {i : Nat} {pc : WorkerPc}
    (hpc : pc ≠ .block ∧ pc ≠ .blocked) : ∀ x ∈ s.workers.set i pc, x ≠ .block ∧ x ≠ .blocked := by
  intro x hx
  rcases List.mem_or_eq_of_mem_set hx with hx | rfl
  · exact h x hx
  · exact hpc

/-- Once `_stop` is stored, a worker that is not already on its way to block does not block. -/
theorem workerStep_awake {s : ThreadPool} (hstop : s.stop = true) {pc pc' : WorkerPc} {tasks : Nat}
    (h : s.workerStep pc = some (pc', tasks)) (hpc : pc ≠ .block) :
    pc' ≠ .block ∧ pc' ≠ .blocked := by
  cases pc with
  | block => exact absurd rfl hpc
  | blocked | returned => simp [workerStep] at h
  | lock | woken =>
    simp only [workerStep] at h
    split at h
    next => simp at h
    next => cases h; decide
  | take | run => cases h; decide
  | loop | predicate | leave =>
    simp only [workerStep, hstop, Bool.true_or, if_true, Option.some.injEq, Prod.mk.injEq] at h
    rw [← h.1]
    decide

theorem worker_stopping {s t : ThreadPool} {i : Nat} (hs : s.Stopping)
    (h : s.step (.worker i) = some t) : t.Stopping := by
  obtain ⟨pc, pc', tasks, hpc, hstep, rfl⟩ := worker_cases h
  refine ⟨hs.stored, ?_⟩
  intro hn
  have hawake := hs.notified hn
  have hidle : s.stopping ≠ .idle := by
    intro hidle
    have hset : s.stopping = .joining ∨ s.stopping = .returned := hn
    simp [hidle] at hset
  have hblock := (hawake pc (List.mem_of_getElem? hpc)).1
  exact allAwake_set hawake (workerStep_awake (hs.stored hidle) hstep hblock)

theorem stop_stopping {s t : ThreadPool} (hs : s.Stopping) (hok : s.NotifiesAll .stop)
    (h : s.step .stop = some t) : t.Stopping := by
  simp only [step, stopStep] at h
  split at h
  next =>
    cases h
    refine ⟨fun _ => rfl, ?_⟩
    rintro (hn | hn) <;> simp at hn
  next hstored =>
    cases h
    refine ⟨fun _ => hs.stored (by simp [hstored]), ?_⟩
    intro _ pc hpc
    obtain ⟨pc', hmem, rfl⟩ := List.mem_map.mp hpc
    have hne : pc' ≠ .block := fun he => hok hstored (he ▸ hmem)
    cases pc' with
    | block => exact absurd rfl hne
    | _ => decide
  next hjoin =>
    split at h
    next =>
      cases h
      exact ⟨fun _ => hs.stored (by simp [hjoin]), fun _ => hs.notified (Or.inl hjoin)⟩
    next => simp at h
  next => simp at h

theorem step_stopping {s t : ThreadPool} {l : Label} (hs : s.Stopping) (hok : s.NotifiesAll l)
    (h : s.step l = some t) : t.Stopping := by
  by_cases hworker : ∃ i, l = .worker i
  · obtain ⟨i, rfl⟩ := hworker
    exact worker_stopping hs h
  by_cases hstop : l = .stop
  · subst hstop
    exact stop_stopping hs hok h
  obtain ⟨hflag, hpc, hworkers⟩ := other_cases h (fun i he => hworker ⟨i, he⟩) hstop
  refine ⟨by rw [hpc, hflag]; exact hs.stored, ?_⟩
  intro hn
  have hawake : s.AllAwake := hs.notified (by rw [Notified, ← hpc]; exact hn)
  rcases hworkers with he | ⟨i, _, he⟩
  · rw [AllAwake, he]
    exact hawake
  · rw [AllAwake, he]
    exact allAwake_set hawake (by decide)

def left (s : ThreadPool) : Nat := leftAll s.workers

theorem leftAll_set {workers : List WorkerPc} {i : Nat} {pc pc' : WorkerPc}
    (h : workers[i]? = some pc) (hlt : pc'.left < pc.left) :
    leftAll (workers.set i pc') < leftAll workers := by
  induction workers generalizing i with
  | nil => simp at h
  | cons w workers ih =>
    cases i with
    | zero =>
      simp only [List.getElem?_cons_zero, Option.some.injEq] at h
      subst h
      simp only [List.set_cons_zero, leftAll]
      omega
    | succ i =>
      rw [List.getElem?_cons_succ] at h
      have hrest := ih h
      simp only [List.set_cons_succ, leftAll]
      omega

theorem workerStep_left {s : ThreadPool} (hstop : s.stop = true) {pc pc' : WorkerPc} {tasks : Nat}
    (h : s.workerStep pc = some (pc', tasks)) (hpc : pc ≠ .block) : pc'.left < pc.left := by
  cases pc with
  | block => exact absurd rfl hpc
  | blocked | returned => simp [workerStep] at h
  | lock | woken =>
    simp only [workerStep] at h
    split at h
    next => simp at h
    next => cases h; decide
  | take | run => cases h; decide
  | loop | predicate | leave =>
    simp only [workerStep, hstop, Bool.true_or, if_true, Option.some.injEq, Prod.mk.injEq] at h
    rw [← h.1]
    decide

theorem worker_left {s t : ThreadPool} {i : Nat} (hstop : s.stop = true) (hawake : s.AllAwake)
    (h : s.step (.worker i) = some t) : t.left < s.left := by
  obtain ⟨pc, pc', tasks, hpc, hstep, rfl⟩ := worker_cases h
  have hlt := workerStep_left hstop hstep (hawake pc (List.mem_of_getElem? hpc)).1
  exact leftAll_set hpc hlt

/-- Unless a worker is blocked, one that has not returned can go on: the one that holds `_mtx`,
or any if none does. -/
theorem worker_enabled {s : ThreadPool} (hawake : s.AllAwake) {pc : WorkerPc} (hmem : pc ∈ s.workers)
    (hpc : pc ≠ .returned) : ∃ i t, s.step (.worker i) = some t := by
  have hgo : ∀ pc ∈ s.workers, (s.workerStep pc).isSome → ∃ i t, s.step (.worker i) = some t := by
    intro pc hmem hsome
    obtain ⟨i, hi⟩ := List.mem_iff_getElem?.mp hmem
    obtain ⟨⟨pc', tasks⟩, hstep⟩ := Option.isSome_iff_exists.mp hsome
    exact ⟨i, _, by simp [step, hi, hstep]; rfl⟩
  cases hlock : s.locked with
  | true =>
    obtain ⟨holder, hholder, hholds⟩ := List.any_eq_true.mp hlock
    apply hgo holder hholder
    cases holder <;> simp_all [WorkerPc.holdsMutex, workerStep]
  | false =>
    apply hgo pc hmem
    have hb := (hawake pc hmem).2
    cases pc <;> simp_all [workerStep]

/-- In every run in which `stop()` notifies only when no worker is about to block, no worker is
blocked behind `notify_all`, every step of a worker brings the return of `join()` nearer, and
there is such a step until all have returned. -/
theorem stop_wakes_all {n : Nat} {s : ThreadPool} {ls : List Label}
    (ha : Along step NotifiesAll (start n) ls) (hr : run step (start n) ls = some s)
    (hn : s.Notified) :
    .blocked ∉ s.workers ∧
      (∀ i t, s.step (.worker i) = some t → t.left < s.left) ∧
      ((∀ pc ∈ s.workers, pc = .returned) ∨ ∃ i t, s.step (.worker i) = some t) := by
  have hstart : (start n).Stopping :=
    ⟨fun h => absurd rfl h, by rintro (h | h) <;> simp [start] at h⟩
  have hs : s.Stopping := run_invariant (fun s l t hs hok h => step_stopping hs hok h) hstart ha hr
  have hawake := hs.notified hn
  have hstop : s.stop = true := by
    apply hs.stored
    intro hidle
    have hset : s.stopping = .joining ∨ s.stopping = .returned := hn
    simp [hidle] at hset
  refine ⟨fun hmem => (hawake .blocked hmem).2 rfl, fun i t h => worker_left hstop hawake h, ?_⟩
  by_cases hall : ∀ pc ∈ s.workers, pc = .returned
  · exact Or.inl hall
  · obtain ⟨pc, hmem, hpc⟩ := by simpa only [not_forall] using hall
    exact Or.inr (worker_enabled hawake hmem hpc)

theorem stop_wakes_all_blocked_worker :
    ∃ s, run step (start 2) [.worker 0, .worker 0, .worker 0, .worker 0, .worker 1, .add, .stop,
        .worker 1, .stop] = some s ∧
      .blocked ∉ s.workers ∧ (∀ i t, s.step (.worker i) = some t → t.left < s.left) ∧
      ((∀ pc ∈ s.workers, pc = .returned) ∨ ∃ i t, s.step (.worker i) = some t) := by
  refine ⟨_, rfl, ?_⟩
  exact @stop_wakes_all 2 _ [.worker 0, .worker 0, .worker 0, .worker 0, .worker 1, .add, .stop,
    .worker 1, .stop] (by decide) rfl (Or.inl rfl)

/-- A worker that is about to block when `stop()` notifies is blocked behind it. -/
theorem block_missed {s t : ThreadPool} {i : Nat} (hstored : s.stopping = .stored)
    (hi : s.workers[i]? = some .block) (h : s.step .stop = some t) :
    ∃ u, t.step (.worker i) = some u ∧ u.Notified ∧ .blocked ∈ u.workers := by
  simp only [step, stopStep, hstored, Option.some.injEq] at h
  subst h
  have hmap : (s.workers.map WorkerPc.wake)[i]? = some .block := by
    rw [List.getElem?_map, hi]
    rfl
  obtain ⟨hlt, _⟩ := List.getElem?_eq_some_iff.mp hmap
  refine ⟨_, by simp only [step, hmap, Option.bind_eq_bind, Option.bind_some, workerStep]; rfl,
    Or.inl rfl, ?_⟩
  exact List.mem_of_getElem? (List.getElem?_set_self hlt)

/-- A worker that has found its predicate false blocks after `notify_all`: nothing but a
spurious wake-up can move it, and `join()` waits for it. -/
theorem stop_misses_worker :
    ∃ s, run step (start 1) [.worker 0, .worker 0, .worker 0, .stop, .stop, .worker 0] = some s ∧
      s.Notified ∧ s.workers = [.blocked] ∧ s.step .stop = none ∧ s.step (.worker 0) = none ∧
      s.step .add = some s ∧ ∀ i, s.step (.notifyOne i) = none := by
  refine ⟨_, rfl, Or.inl rfl, rfl, rfl, rfl, rfl, ?_⟩
  intro i
  rfl

end ThreadPool

end Tnode
