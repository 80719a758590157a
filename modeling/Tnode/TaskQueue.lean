import Tnode.ThreadPool
import Mathlib.Data.List.Perm.Basic
import Mathlib.Data.List.ReduceOption

namespace Tnode

open Transitions

theorem countP_set_add {α : Type} (p : α → Bool) {xs : List α} {i : Nat} {a b : α}
    (h : xs[i]? = some b) :
    (xs.set i a).countP p + (if p b then 1 else 0) = xs.countP p + if p a then 1 else 0 := by
  induction xs generalizing i with
  | nil => cases h
  | cons x xs ih =>
    cases i with
    | zero =>
      cases Option.some.inj h
      simp only [List.set_cons_zero, List.countP_cons]
      omega
    | succ i =>
      have hrest := ih (by simpa using h)
      simp only [List.set_cons_succ, List.countP_cons]
      omega

theorem reduceOption_set_perm {α : Type} {xs : List (Option α)} {i : Nat} {b : Option α}
    (h : xs[i]? = some b) (a : Option α) :
    ((xs.set i a).reduceOption ++ b.toList).Perm (xs.reduceOption ++ a.toList) := by
  induction xs generalizing i with
  | nil => cases h
  | cons x xs ih =>
    cases i with
    | zero =>
      cases Option.some.inj h
      have hcons : ∀ (y : Option α), (y :: xs).reduceOption = y.toList ++ xs.reduceOption := by
        intro y
        cases y <;> rfl
      rw [List.set_cons_zero, hcons, hcons, List.append_assoc b.toList]
      exact List.perm_append_comm.trans (List.perm_append_comm.append_left _)
    | succ i =>
      have hrest := ih (by simpa using h)
      cases x with
      | none => exact hrest
      | some x => exact hrest.cons x

/-- Behind a notification or the predicate, on the way to the tasks. -/
def WorkerPc.onWay : WorkerPc → Bool
  | .woken | .predicate | .leave | .take => true
  | _ => false

namespace ThreadPool

def At (s : ThreadPool) (i : Nat) (pc : WorkerPc) : Prop := s.workers[i]? = some pc

/-- One worker at most holds `_mtx`, each finds what its predicate has promised, and while the
pool has not stopped somebody is on the way for each task that a blocked worker could take. -/
structure Serving (s : ThreadPool) : Prop where
  mutex : ∀ {i j pc pc'}, s.At i pc → s.At j pc' → pc.holdsMutex = true →
    pc'.holdsMutex = true → i = j
  block : ∀ i, s.At i .block → s.tasks = 0
  leave : ∀ i, s.At i .leave → s.stop = true ∨ s.tasks ≠ 0
  take : ∀ i, s.At i .take → s.tasks ≠ 0
  returned : ∀ i, s.At i .returned → s.stop = true
  stored : s.stopping ≠ .idle → s.stop = true
  awake : s.stop = false → .blocked ∈ s.workers →
    s.tasks ≤ s.adding + s.workers.countP WorkerPc.onWay

variable {s t : ThreadPool} {i : Nat} {pc pc' : WorkerPc}

theorem set_cases {workers : List WorkerPc} {j : Nat} {x : WorkerPc}
    (h : (workers.set i pc)[j]? = some x) :
    j = i ∧ x = pc ∨ j ≠ i ∧ workers[j]? = some x := by
  rw [List.getElem?_set] at h
  by_cases hij : i = j
  · rw [if_pos hij] at h
    split at h
    next => exact Or.inl ⟨hij.symm, (Option.some.inj h).symm⟩
    next => cases h
  · rw [if_neg hij] at h
    exact Or.inr ⟨fun he => hij he.symm, h⟩

theorem not_holds_of_free (h : s.locked = false) (hi : s.At i pc) : pc.holdsMutex = false := by
  by_contra hno
  have hany : s.locked = true := List.any_eq_true.mpr ⟨pc, List.mem_of_getElem? hi, by simpa using hno⟩
  rw [h] at hany
  cases hany

theorem locked_of_holds (hi : s.At i pc) (hpc : pc.holdsMutex = true) : s.locked = true :=
  List.any_eq_true.mpr ⟨pc, List.mem_of_getElem? hi, hpc⟩

/-- What a worker finds when it has moved to `pc`. -/
def Finds (s : ThreadPool) : WorkerPc → Prop
  | .block => s.tasks = 0
  | .leave => s.stop = true ∨ s.tasks ≠ 0
  | .take => s.tasks ≠ 0
  | .returned => s.stop = true
  | _ => True

theorem Serving.finds (hs : s.Serving) (hi : s.At i pc) : s.Finds pc := by
  cases pc with
  | block => exact hs.block i hi
  | leave => exact hs.leave i hi
  | take => exact hs.take i hi
  | returned => exact hs.returned i hi
  | _ => trivial

theorem serving_of_finds (hmutex : ∀ {i j pc pc'}, s.At i pc → s.At j pc' →
      pc.holdsMutex = true → pc'.holdsMutex = true → i = j)
    (hfinds : ∀ i pc, s.At i pc → s.Finds pc) (hstored : s.stopping ≠ .idle → s.stop = true)
    (hawake : s.stop = false → .blocked ∈ s.workers →
      s.tasks ≤ s.adding + s.workers.countP WorkerPc.onWay) : s.Serving :=
  ⟨hmutex, fun i => hfinds i _, fun i => hfinds i _, fun i => hfinds i _, fun i => hfinds i _,
    hstored, hawake⟩

/-- A worker moves: the others stay where they are, and it holds `_mtx` afterwards only if it
held it before or nobody did. -/
theorem mutex_set (hs : s.Serving) (hi : s.At i pc)
    (hpc : pc'.holdsMutex = true → pc.holdsMutex = true ∨ s.locked = false) {j k : Nat}
    {x y : WorkerPc} (hj : (s.workers.set i pc')[j]? = some x)
    (hk : (s.workers.set i pc')[k]? = some y) (hx : x.holdsMutex = true)
    (hy : y.holdsMutex = true) : j = k := by
  have hother : ∀ {k y}, s.At k y → y.holdsMutex = true → pc'.holdsMutex = true → k = i := by
    intro k y hk hy hpc'
    rcases hpc hpc' with hold | hfree
    · exact hs.mutex hk hi hy hold
    · rw [not_holds_of_free hfree hk] at hy
      cases hy
  rcases set_cases hj with ⟨rfl, rfl⟩ | ⟨-, hj'⟩
  · rcases set_cases hk with ⟨rfl, -⟩ | ⟨-, hk'⟩
    · rfl
    · exact (hother hk' hy hx).symm
  · rcases set_cases hk with ⟨rfl, rfl⟩ | ⟨-, hk'⟩
    · exact hother hj' hx hy
    · exact hs.mutex hj' hk' hx hy

/-- The tasks change only in the hands of the holder of `_mtx`. -/
theorem workerStep_tasks {tasks : Nat} (h : s.workerStep pc = some (pc', tasks)) :
    tasks = s.tasks ∨ pc = .take ∧ pc' = .run ∧ tasks = s.tasks - 1 := by
  cases pc with
  | take => cases h; exact Or.inr ⟨rfl, rfl, rfl⟩
  | blocked | returned => simp [workerStep] at h
  | lock | woken =>
    simp only [workerStep] at h
    split at h <;> cases h
    exact Or.inl rfl
  | _ => cases h; exact Or.inl rfl

theorem workerStep_holds {tasks : Nat} (h : s.workerStep pc = some (pc', tasks))
    (hpc : pc'.holdsMutex = true) : pc.holdsMutex = true ∨ s.locked = false := by
  cases pc with
  | predicate | block | leave | take => exact Or.inl rfl
  | lock | woken =>
    simp only [workerStep] at h
    split at h
    next => cases h
    next hfree => exact Or.inr (by simpa using hfree)
  | blocked | returned => simp [workerStep] at h
  | run => cases h; cases hpc
  | loop =>
    cases h
    split at hpc <;> cases hpc

/-- What the step of a worker makes sure of. -/
theorem workerStep_finds {tasks : Nat} (hs : s.Finds pc) (h : s.workerStep pc = some (pc', tasks)) :
    Finds { s with tasks } pc' := by
  cases pc with
  | blocked | returned => simp [workerStep] at h
  | block | take | run => cases h; trivial
  | lock | woken =>
    simp only [workerStep] at h
    split at h <;> cases h
    trivial
  | loop =>
    cases h
    cases hstop : s.stop <;> trivial
  | predicate =>
    cases h
    cases hstop : s.stop with
    | true => exact Or.inl rfl
    | false => by_cases htasks : s.tasks = 0 <;> simp [Finds, htasks]
  | leave =>
    cases h
    cases hstop : s.stop with
    | true => trivial
    | false =>
      have htasks := hs.resolve_left (by simp [hstop])
      simpa [Finds] using htasks

/-- The number of workers on the way makes up for the tasks that are taken. -/
theorem workerStep_onWay {tasks : Nat} (hs : s.Finds pc) (hstop : s.stop = false)
    (h : s.workerStep pc = some (pc', tasks)) :
    tasks = 0 ∨ tasks + (if pc.onWay then 1 else 0) ≤ s.tasks + if pc'.onWay then 1 else 0 := by
  cases pc with
  | blocked | returned => simp [workerStep] at h
  | block => cases h; exact Or.inl hs
  | take =>
    cases h
    have hpos : s.tasks ≠ 0 := hs
    simp only [WorkerPc.onWay, if_true, Bool.false_eq_true, if_false]
    omega
  | run => cases h; exact Or.inr (by simp [WorkerPc.onWay])
  | lock | woken =>
    simp only [workerStep] at h
    split at h <;> cases h
    exact Or.inr (by simp [WorkerPc.onWay])
  | loop =>
    cases h
    exact Or.inr (by simp [hstop, WorkerPc.onWay])
  | leave =>
    cases h
    exact Or.inr (by simp [hstop, WorkerPc.onWay])
  | predicate =>
    cases h
    by_cases htasks : s.tasks = 0
    · exact Or.inl htasks
    · exact Or.inr (by simp [hstop, htasks, WorkerPc.onWay])

theorem workerStep_blocked {tasks : Nat} (h : s.workerStep pc = some (.blocked, tasks)) :
    pc = .block ∧ tasks = s.tasks := by
  cases pc with
  | block => cases h; exact ⟨rfl, rfl⟩
  | blocked | returned | take | run => simp [workerStep] at h
  | lock | woken =>
    simp only [workerStep] at h
    split at h <;> cases h
  | loop | predicate | leave =>
    simp only [workerStep, Option.some.injEq, Prod.mk.injEq] at h
    have hpc := h.1
    split at hpc <;> cases hpc

theorem worker_serving (hs : s.Serving) (h : s.step (.worker i) = some t) : t.Serving := by
  obtain ⟨pc, pc', tasks, hi, hstep, rfl⟩ := worker_cases h
  have hfinds := hs.finds hi
  refine serving_of_finds (mutex_set hs hi (workerStep_holds hstep)) ?_ hs.stored ?_
  · intro j x hj
    rcases set_cases hj with ⟨-, rfl⟩ | ⟨hne, hj'⟩
    · exact workerStep_finds hfinds hstep
    · have hx := hs.finds hj'
      rcases workerStep_tasks hstep with rfl | ⟨rfl, -, -⟩
      · exact hx
      · have hfree : x.holdsMutex = true → False := fun hxm => hne (hs.mutex hj' hi hxm rfl)
        cases x with
        | block | leave | take => exact (hfree rfl).elim
        | _ => exact hx
  · intro hstop hblocked
    have hcount := countP_set_add WorkerPc.onWay (a := pc') hi
    rcases workerStep_onWay hfinds hstop hstep with hzero | hle
    · simp [hzero]
    · have hold : .blocked ∈ s.workers ∨ tasks = 0 := by
        rcases List.mem_or_eq_of_mem_set hblocked with hmem | rfl
        · exact Or.inl hmem
        · obtain ⟨rfl, rfl⟩ := workerStep_blocked hstep
          exact Or.inr hfinds
      rcases hold with hold | hzero
      · have hawake := hs.awake hstop hold
        dsimp only
        omega
      · simp [hzero]

/-- A blocked worker is woken up. -/
theorem wake_serving (hs : s.Serving) (hi : s.At i .blocked) {adding : Nat}
    (hadding : s.adding ≤ adding + 1) :
    Serving { s with workers := s.workers.set i .woken, adding } := by
  refine serving_of_finds (mutex_set hs hi fun hpc => absurd hpc (by decide)) ?_ hs.stored ?_
  · intro j x hj
    rcases set_cases hj with ⟨-, rfl⟩ | ⟨-, hj'⟩
    · trivial
    · exact hs.finds hj'
  · intro hstop _
    have hcount := countP_set_add WorkerPc.onWay (a := .woken) hi
    have hawake := hs.awake hstop (List.mem_of_getElem? hi)
    simp only [WorkerPc.onWay, Bool.false_eq_true, if_false, if_true] at hcount
    dsimp only
    omega

theorem notifyAll_serving (hs : s.Serving) (hstop : s.stop = true) :
    Serving { s with workers := s.workers.map WorkerPc.wake, stopping := .joining } := by
  have hat : ∀ {j x}, (s.workers.map WorkerPc.wake)[j]? = some x →
      ∃ y, s.At j y ∧ (x = y ∨ x = .woken) := by
    intro j x hj
    rw [List.getElem?_map, Option.map_eq_some_iff] at hj
    obtain ⟨y, hy, rfl⟩ := hj
    exact ⟨y, hy, by cases y <;> simp [WorkerPc.wake]⟩
  refine serving_of_finds ?_ ?_ (fun _ => hstop) (fun hno => by simp [hstop] at hno)
  · intro j k x y hj hk hx hy
    obtain ⟨x', hj', rfl | rfl⟩ := hat hj
    · obtain ⟨y', hk', rfl | rfl⟩ := hat hk
      · exact hs.mutex hj' hk' hx hy
      · cases hy
    · cases hx
  · intro j x hj
    obtain ⟨x', hj', rfl | rfl⟩ := hat hj
    · exact hs.finds hj'
    · trivial

theorem step_serving (hs : s.Serving) {l : Label} (h : s.step l = some t) : t.Serving := by
  cases l with
  | worker i => exact worker_serving hs h
  | add =>
    simp only [step] at h
    split at h
    next => cases h
    next hfree =>
      split at h
      next => cases h; exact hs
      next hstop =>
        cases h
        refine ⟨hs.mutex, fun i hi => absurd (locked_of_holds hi rfl) hfree,
          fun _ _ => Or.inr (Nat.succ_ne_zero _), fun _ _ => Nat.succ_ne_zero _, hs.returned,
          hs.stored, fun _ hmem => ?_⟩
        have hawake := hs.awake (by simpa using hstop) hmem
        dsimp only
        omega
  | notifyOne i =>
    simp only [step] at h
    split at h
    next => cases h
    next hpos =>
      split at h
      next hi => cases h; exact wake_serving hs hi (by omega)
      next =>
        split at h
        next => cases h
        next hno =>
          cases h
          exact ⟨hs.mutex, hs.block, hs.leave, hs.take, hs.returned, hs.stored,
            fun _ hmem => absurd hmem hno⟩
  | spurious i =>
    simp only [step] at h
    split at h
    next hi => cases h; exact wake_serving hs hi (Nat.le_succ _)
    next => cases h
  | stop =>
    simp only [step, stopStep] at h
    split at h
    next =>
      cases h
      exact ⟨hs.mutex, hs.block, fun _ _ => Or.inl rfl, hs.take, fun _ _ => rfl, fun _ => rfl,
        by simp⟩
    next hstored => cases h; exact notifyAll_serving hs (hs.stored (by simp [hstored]))
    next hjoin =>
      split at h
      next =>
        cases h
        exact ⟨hs.mutex, hs.block, hs.leave, hs.take, hs.returned,
          fun _ => hs.stored (by simp [hjoin]), hs.awake⟩
      next => cases h
    next => cases h

theorem start_serving (n : Nat) : (start n).Serving := by
  have hat : ∀ {i pc}, (start n).At i pc → pc = .loop := by
    intro i pc hi
    exact List.eq_of_mem_replicate (List.mem_of_getElem? hi)
  refine serving_of_finds ?_ ?_ (fun h => absurd rfl h) (fun _ _ => Nat.zero_le _)
  · intro i j pc pc' hi _ hpc
    rw [hat hi] at hpc
    cases hpc
  · intro i pc hi
    rw [hat hi]
    trivial

/-- While there are tasks and the pool has not stopped, some thread can go on. -/
theorem Serving.enabled (hs : s.Serving) (hstop : s.stop = false) (htasks : s.tasks ≠ 0)
    (hworkers : s.workers ≠ []) :
    (∃ i t, s.step (.worker i) = some t) ∨ ∃ i t, s.step (.notifyOne i) = some t := by
  have hgo : ∀ i pc, s.At i pc → (s.workerStep pc).isSome → ∃ i t, s.step (.worker i) = some t := by
    intro i pc hi hsome
    have hget : s.workers[i]? = some pc := hi
    obtain ⟨⟨pc', tasks⟩, hstep⟩ := Option.isSome_iff_exists.mp hsome
    exact ⟨i, _, by simp [step, hget, hstep]; rfl⟩
  cases hlock : s.locked with
  | true =>
    obtain ⟨holder, hmem, hholds⟩ := List.any_eq_true.mp hlock
    obtain ⟨i, hi⟩ := List.mem_iff_getElem?.mp hmem
    refine Or.inl (hgo i holder hi ?_)
    cases holder <;> simp_all [WorkerPc.holdsMutex, workerStep]
  | false =>
    by_cases hall : ∀ pc ∈ s.workers, pc = .blocked
    · have hzero : s.workers.countP WorkerPc.onWay = 0 :=
        List.countP_eq_zero.mpr fun pc hpc => by simp [hall pc hpc, WorkerPc.onWay]
      obtain ⟨pc, hmem⟩ := List.exists_mem_of_ne_nil _ hworkers
      have hawake := hs.awake hstop (hall pc hmem ▸ hmem)
      obtain ⟨i, hi⟩ := List.mem_iff_getElem?.mp hmem
      rw [hall pc hmem] at hi
      exact Or.inr ⟨i, _, by simp [step, hi, show s.adding ≠ 0 by omega]; rfl⟩
    · obtain ⟨pc, hmem, hpc⟩ := by simpa only [not_forall] using hall
      obtain ⟨i, hi⟩ := List.mem_iff_getElem?.mp hmem
      refine Or.inl (hgo i pc hi ?_)
      have hreturned : pc ≠ .returned := by
        rintro rfl
        rw [hs.returned i hi] at hstop
        cases hstop
      cases pc <;> simp_all [workerStep]

end ThreadPool

/-- A pool with the tasks themselves: those in `_tasks`, what each worker is running, and the
tasks that have been added, taken and finished so far. -/
structure TaskPool (τ : Type) where
  pool : ThreadPool
  tasks : List τ
  running : List (Option τ)
  added : List τ
  taken : List τ
  finished : List τ

inductive TaskLabel (τ : Type)
  | worker (i : Nat)
  | add (task : τ)
  | notifyOne (i : Nat)
  | spurious (i : Nat)
  | stop
deriving DecidableEq, Repr

namespace TaskLabel

def pool {τ : Type} : TaskLabel τ → ThreadPool.Label
  | .worker i => .worker i
  | .add _ => .add
  | .notifyOne i => .notifyOne i
  | .spurious i => .spurious i
  | .stop => .stop

end TaskLabel

namespace TaskPool

variable {τ : Type}

def start (n : Nat) : TaskPool τ := ⟨.start n, [], List.replicate n none, [], [], []⟩

/-- What a worker does with the tasks when it goes on from `pc`. `front()` of an empty queue is
undefined. -/
def workerTasks (s : TaskPool τ) (i : Nat) (pool : ThreadPool) : WorkerPc → Option (TaskPool τ)
  | .take =>
    match s.tasks with
    | [] => none
    | task :: tasks =>
      some { s with pool, tasks, running := s.running.set i (some task), taken := s.taken ++ [task] }
  | .run =>
    some { s with
      pool, running := s.running.set i none
      finished := s.finished ++ (s.running[i]?.join).toList }
  | _ => some { s with pool }

def step (s : TaskPool τ) (l : TaskLabel τ) : Option (TaskPool τ) := do
  let pool ← s.pool.step l.pool
  match l with
  | .worker i => s.workerTasks i pool (← s.pool.workers[i]?)
  | .add task =>
    if s.pool.stop then some { s with pool }
    else some { s with pool, tasks := s.tasks ++ [task], added := s.added ++ [task] }
  | _ => some { s with pool }

/-- The tasks that are in the queue, being run and finished are those that have been added. -/
structure Keeps (s : TaskPool τ) : Prop where
  serving : s.pool.Serving
  count : s.pool.tasks = s.tasks.length
  order : s.added = s.taken ++ s.tasks
  once : s.taken.Perm (s.finished ++ s.running.reduceOption)
  size : s.running.length = s.pool.workers.length
  running : ∀ i, (s.running[i]?.join).isSome = true ↔ s.pool.At i .run

variable {s : TaskPool τ} {p : ThreadPool}

theorem Keeps.of_pool (h : s.Keeps) (hserving : p.Serving) (htasks : p.tasks = s.pool.tasks)
    (hsize : p.workers.length = s.pool.workers.length)
    (hrun : ∀ i, p.At i .run ↔ s.pool.At i .run) : { s with pool := p }.Keeps :=
  ⟨hserving, htasks.trans h.count, h.order, h.once, h.size.trans hsize.symm,
    fun i => (h.running i).trans (hrun i).symm⟩

theorem at_run_set {pool : ThreadPool} {i j : Nat} {pc pc' : WorkerPc} (hi : pool.At i pc)
    (hpc : pc ≠ .run) (hpc' : pc' ≠ .run) :
    (pool.workers.set i pc')[j]? = some .run ↔ pool.At j .run := by
  constructor
  · intro hj
    rcases ThreadPool.set_cases hj with ⟨-, h⟩ | ⟨-, hj'⟩
    · exact absurd h.symm hpc'
    · exact hj'
  · intro hj
    have hne : i ≠ j := by
      rintro rfl
      exact hpc (Option.some.inj (hi.symm.trans hj))
    rw [List.getElem?_set_ne hne]
    exact hj

theorem at_run_iff {pool : ThreadPool} {i : Nat} (workers : List WorkerPc) (pc' : WorkerPc)
    (hi : i < workers.length) (hworkers : pool.workers = workers.set i pc') :
    pool.At i .run ↔ pc' = .run := by
  rw [ThreadPool.At, hworkers, List.getElem?_set_self hi, Option.some.injEq]

/-- The worker at the head of the queue finds a task there and keeps it. -/
theorem take_keeps (h : s.Keeps) {i : Nat} (hi : s.pool.At i .take) (hserving : p.Serving)
    (htasks : p.tasks = s.pool.tasks - 1) (hworkers : p.workers = s.pool.workers.set i .run) :
    ∃ t, s.workerTasks i p .take = some t ∧ t.pool = p ∧ t.Keeps := by
  have hpos := h.serving.take i hi
  have hcount := h.count
  cases hs : s.tasks with
  | nil => simp [hs, hpos] at hcount
  | cons task tasks =>
    rw [hs, List.length_cons] at hcount
    obtain ⟨hlt, -⟩ := List.getElem?_eq_some_iff.mp hi
    have hnone : s.running[i]? = some none := by
      have hno : ¬(s.running[i]?.join).isSome = true := by
        rw [h.running i]
        intro hrun
        cases Option.some.inj (hi.symm.trans hrun)
      have hlt' : i < s.running.length := h.size ▸ hlt
      rw [List.getElem?_eq_getElem hlt'] at hno ⊢
      simpa using hno
    refine ⟨_, by simp only [workerTasks, hs]; rfl, rfl, hserving, ?_, ?_, ?_, ?_, ?_⟩
    · dsimp only
      omega
    · simp [h.order, hs]
    · have hset := reduceOption_set_perm hnone (some task)
      simp only [Option.toList_none, List.append_nil, Option.toList_some] at hset
      refine (h.once.append_right [task]).trans ?_
      rw [List.append_assoc]
      exact hset.symm.append_left _
    · simp [hworkers, h.size]
    · intro j
      by_cases hij : i = j
      · subst hij
        have hlt' : i < s.running.length := h.size ▸ hlt
        rw [at_run_iff s.pool.workers .run hlt hworkers]
        simp [hlt']
      · rw [List.getElem?_set_ne hij, ThreadPool.At, hworkers, List.getElem?_set_ne hij]
        exact h.running j

theorem finish_keeps (h : s.Keeps) {i : Nat} (hi : s.pool.At i .run) (hserving : p.Serving)
    (htasks : p.tasks = s.pool.tasks) (hworkers : p.workers = s.pool.workers.set i .loop) :
    ∃ t, s.workerTasks i p .run = some t ∧ t.pool = p ∧ t.Keeps := by
  obtain ⟨hlt, -⟩ := List.getElem?_eq_some_iff.mp hi
  obtain ⟨task, htask⟩ := Option.isSome_iff_exists.mp ((h.running i).mpr hi)
  have hsome : s.running[i]? = some (some task) := by
    cases hget : s.running[i]? with
    | none => simp [hget] at htask
    | some held => simpa [hget] using htask
  refine ⟨_, rfl, rfl, hserving, htasks.trans h.count, h.order, ?_, ?_, ?_⟩
  · have hset := reduceOption_set_perm hsome none
    simp only [Option.toList_none, List.append_nil, Option.toList_some] at hset
    refine h.once.trans ?_
    rw [htask, Option.toList_some, List.append_assoc]
    exact (hset.symm.trans List.perm_append_comm).append_left _
  · simp [hworkers, h.size]
  · intro j
    by_cases hij : i = j
    · subst hij
      have hlt' : i < s.running.length := h.size ▸ hlt
      rw [at_run_iff s.pool.workers .loop hlt hworkers]
      simp [hlt']
    · rw [List.getElem?_set_ne hij, ThreadPool.At, hworkers, List.getElem?_set_ne hij]
      exact h.running j

theorem workerStep_other {pool : ThreadPool} {pc pc' : WorkerPc} {tasks : Nat}
    (h : pool.workerStep pc = some (pc', tasks)) (htake : pc ≠ .take) :
    pc' ≠ .run ∧ tasks = pool.tasks := by
  cases pc with
  | take => exact absurd rfl htake
  | blocked | returned => simp [ThreadPool.workerStep] at h
  | block | run => cases h; exact ⟨by decide, rfl⟩
  | lock | woken =>
    simp only [ThreadPool.workerStep] at h
    split at h <;> cases h
    exact ⟨by decide, rfl⟩
  | loop | predicate | leave =>
    simp only [ThreadPool.workerStep, Option.some.injEq, Prod.mk.injEq] at h
    obtain ⟨rfl, rfl⟩ := h
    exact ⟨by split <;> decide, rfl⟩

theorem worker_keeps (h : s.Keeps) {i : Nat} (hp : s.pool.step (.worker i) = some p) :
    ∃ t, s.step (.worker i) = some t ∧ t.pool = p ∧ t.Keeps := by
  have hserving := ThreadPool.step_serving h.serving hp
  obtain ⟨pc, pc', tasks, hi, hstep, rfl⟩ := ThreadPool.worker_cases hp
  have hgo : s.step (.worker i) =
      s.workerTasks i { s.pool with workers := s.pool.workers.set i pc', tasks } pc := by
    simp only [step, TaskLabel.pool, hp, hi, Option.bind_eq_bind, Option.bind_some]
  rw [hgo]
  by_cases htake : pc = .take
  · subst htake
    cases hstep
    exact take_keeps h hi hserving rfl rfl
  obtain ⟨hpc', htasks⟩ := workerStep_other hstep htake
  by_cases hrun : pc = .run
  · subst hrun
    cases hstep
    exact finish_keeps h hi hserving rfl rfl
  · refine ⟨{ s with pool := _ }, ?_, rfl, h.of_pool hserving htasks (by simp) fun j =>
      at_run_set hi hrun hpc'⟩
    cases pc with
    | take => exact absurd rfl htake
    | run => exact absurd rfl hrun
    | _ => rfl

theorem at_run_wake {workers : List WorkerPc} {i : Nat} :
    (workers.map WorkerPc.wake)[i]? = some .run ↔ workers[i]? = some .run := by
  rw [List.getElem?_map, Option.map_eq_some_iff]
  constructor
  · rintro ⟨pc, hpc, hwake⟩
    cases pc <;> simp_all [WorkerPc.wake]
  · exact fun h => ⟨.run, h, rfl⟩

/-- A notification and `stop()` leave the tasks alone. -/
theorem other_keeps (h : s.Keeps) {l : ThreadPool.Label} (hp : s.pool.step l = some p)
    (hworker : ∀ i, l ≠ .worker i) (hadd : l ≠ .add) : { s with pool := p }.Keeps := by
  have hserving := ThreadPool.step_serving h.serving hp
  have hsame : p.tasks = s.pool.tasks ∧ p.workers.length = s.pool.workers.length ∧
      ∀ i, p.At i .run ↔ s.pool.At i .run := by
    cases l with
    | worker i => exact absurd rfl (hworker i)
    | add => exact absurd rfl hadd
    | notifyOne i =>
      simp only [ThreadPool.step] at hp
      split at hp
      next => cases hp
      next =>
        split at hp
        next hi =>
          cases hp
          exact ⟨rfl, by simp, fun j => at_run_set hi (by decide) (by decide)⟩
        next =>
          split at hp <;> cases hp
          exact ⟨rfl, rfl, fun _ => Iff.rfl⟩
    | spurious i =>
      simp only [ThreadPool.step] at hp
      split at hp
      next hi =>
        cases hp
        exact ⟨rfl, by simp, fun j => at_run_set hi (by decide) (by decide)⟩
      next => cases hp
    | stop =>
      simp only [ThreadPool.step, ThreadPool.stopStep] at hp
      split at hp
      next => cases hp; exact ⟨rfl, rfl, fun _ => Iff.rfl⟩
      next => cases hp; exact ⟨rfl, by simp, fun _ => at_run_wake⟩
      next =>
        split at hp <;> cases hp
        exact ⟨rfl, rfl, fun _ => Iff.rfl⟩
      next => cases hp
  exact h.of_pool hserving hsame.1 hsame.2.1 hsame.2.2

theorem add_keeps (h : s.Keeps) (task : τ) (hp : s.pool.step .add = some p) :
    ∃ t, s.step (.add task) = some t ∧ t.pool = p ∧ t.Keeps := by
  have hserving := ThreadPool.step_serving h.serving hp
  have hgo : s.step (.add task) = if s.pool.stop then some { s with pool := p }
      else some { s with pool := p, tasks := s.tasks ++ [task], added := s.added ++ [task] } := by
    simp only [step, TaskLabel.pool, hp, Option.bind_eq_bind, Option.bind_some]
  rw [hgo]
  simp only [ThreadPool.step] at hp
  split at hp
  next => cases hp
  next =>
    split at hp
    next hstop =>
      cases hp
      exact ⟨s, by rw [if_pos hstop], rfl, h⟩
    next hstop =>
      cases hp
      refine ⟨_, if_neg hstop, rfl, hserving, ?_, ?_, h.once, h.size, h.running⟩
      · simp [h.count]
      · simp [h.order]

theorem step_keeps (h : s.Keeps) {l : TaskLabel τ} (hp : s.pool.step l.pool = some p) :
    ∃ t, s.step l = some t ∧ t.pool = p ∧ t.Keeps := by
  cases l with
  | worker i => exact worker_keeps h hp
  | add task => exact add_keeps h task hp
  | notifyOne | spurious | stop =>
    have hkeeps := other_keeps h hp nofun nofun
    refine ⟨_, ?_, rfl, hkeeps⟩
    simp only [step, hp, Option.bind_eq_bind, Option.bind_some]

/-- Any number of workers and of callers of `add`, with `stop()` at any moment and spurious
wake-ups: no worker takes a task off an empty queue, the tasks are taken in the order in which they
were added and each is run once. While the pool has not stopped, a task that waits next to a
blocked worker has a notification or another worker on the way, and some thread can go on. -/
theorem tasks_run_once {n : Nat} {ls : List (TaskLabel τ)} {p : ThreadPool}
    (hp : run ThreadPool.step (.start n) (ls.map TaskLabel.pool) = some p) :
    ∃ s : TaskPool τ, run step (start n) ls = some s ∧ s.pool = p ∧
      p.tasks = s.tasks.length ∧ s.added = s.taken ++ s.tasks ∧
      s.taken.Perm (s.finished ++ s.running.reduceOption) ∧
      (p.stop = false → .blocked ∈ p.workers → s.tasks.length ≤
        p.adding + p.workers.countP WorkerPc.onWay) ∧
      (p.stop = false → s.tasks ≠ [] → p.workers ≠ [] →
        (∃ i t, p.step (.worker i) = some t) ∨ ∃ i t, p.step (.notifyOne i) = some t) := by
  have hstart : (start n : TaskPool τ).Keeps := by
    refine ⟨ThreadPool.start_serving n, rfl, rfl, ?_, by simp [start, ThreadPool.start], ?_⟩
    · simp [start, List.reduceOption_replicate_none]
    · intro i
      constructor
      · intro h
        simp only [start, List.getElem?_replicate] at h
        split at h <;> cases h
      · intro h
        cases List.eq_of_mem_replicate (List.mem_of_getElem? h)
  have hrun : ∀ (s : TaskPool τ), s.Keeps →
      run ThreadPool.step s.pool (ls.map TaskLabel.pool) = some p →
        ∃ t, run step s ls = some t ∧ t.pool = p ∧ t.Keeps := by
    clear hp
    induction ls with
    | nil =>
      intro s hs hp
      exact ⟨s, rfl, Option.some.inj hp, hs⟩
    | cons l ls ih =>
      intro s hs hp
      obtain ⟨q, hq, hp⟩ := run_cons_iff.mp hp
      obtain ⟨t, ht, rfl, hkeeps⟩ := step_keeps hs hq
      obtain ⟨u, hu, hpool, hkeeps'⟩ := ih t hkeeps hp
      exact ⟨u, run_cons_iff.mpr ⟨t, ht, hu⟩, hpool, hkeeps'⟩
  obtain ⟨s, hs, rfl, hkeeps⟩ := hrun _ hstart hp
  refine ⟨s, hs, rfl, hkeeps.count, hkeeps.order, hkeeps.once, ?_, ?_⟩
  · intro hstop hblocked
    rw [← hkeeps.count]
    exact hkeeps.serving.awake hstop hblocked
  · intro hstop htasks hworkers
    refine hkeeps.serving.enabled hstop ?_ hworkers
    rw [hkeeps.count]
    exact Nat.pos_iff_ne_zero.mp (List.length_pos_iff.mpr htasks)

/-- A worker that is not woken up takes the task of one that is. -/
def stolenTask : List (TaskLabel Nat) :=
  [.worker 0, .worker 0, .worker 0, .worker 0, .add 7, .worker 1, .worker 1, .notifyOne 0, .worker 1,
    .worker 1, .worker 1, .worker 0, .worker 0, .worker 0, .worker 1]

theorem tasks_run_once_stolen_task : ∃ p, run ThreadPool.step (.start 2)
    (stolenTask.map TaskLabel.pool) = some p ∧
    ∃ s : TaskPool Nat, run step (start 2) stolenTask = some s ∧ s.pool = p ∧
      p.tasks = s.tasks.length ∧ s.added = s.taken ++ s.tasks ∧
      s.taken.Perm (s.finished ++ s.running.reduceOption) ∧
      (p.stop = false → .blocked ∈ p.workers → s.tasks.length ≤
        p.adding + p.workers.countP WorkerPc.onWay) ∧
      (p.stop = false → s.tasks ≠ [] → p.workers ≠ [] →
        (∃ i t, p.step (.worker i) = some t) ∨ ∃ i t, p.step (.notifyOne i) = some t) :=
  ⟨_, rfl, @tasks_run_once Nat 2 stolenTask _ rfl⟩

end TaskPool

end Tnode
