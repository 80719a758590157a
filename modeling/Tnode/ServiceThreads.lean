import Tnode.Transitions

namespace Tnode

/-- What the threads of one service share and must not use once it is gone. -/
inductive Resource
  | luaState
  | messageParser
  | object
deriving DecidableEq, Repr

/-- Inside `ServiceManager::schedule(service)`: before `need_schedule()`, before the test of
`_isrunning`, before the write to it, and before `sThreadPool.add`. -/
inductive SchedulePc
  | need
  | test
  | mark
  | add
deriving DecidableEq, Repr

inductive NetworkPc
  | idle
  | dispatch
  | lookup
  | push
  | schedule (pc : SchedulePc)
deriving DecidableEq, Repr

inductive MainPc
  | idle
  | erase
  | delete
  | schedule (pc : SchedulePc)
deriving DecidableEq, Repr

/-- A task of the pool: queued, in the loop of `Service::run`, in `msgParser` before and
inside the script, before the write that clears `_isrunning`, and before its last line. -/
inductive TaskPc
  | queued
  | loop
  | take
  | parse
  | script
  | clear
  | report
  | done
deriving DecidableEq, Repr

/-- One service and the threads that share it. `misused` records the resources used after
their end. -/
structure ServiceThreads where
  isInit : Bool
  isrunning : Bool
  isstop : Bool
  msgQueue : Nat
  luaClosed : Bool
  parserDeleted : Bool
  deleted : Bool
  inMap : Bool
  network : NetworkPc
  main : MainPc
  tasks : List TaskPc
  misused : List Resource
deriving DecidableEq, Repr

namespace ServiceThreads

/-- A service after `newservice`; `isInit` says whether it is the init service. -/
def start (isInit : Bool) : ServiceThreads where
  isInit := isInit
  isrunning := false
  isstop := false
  msgQueue := 0
  luaClosed := false
  parserDeleted := false
  deleted := false
  inMap := true
  network := .idle
  main := .idle
  tasks := []
  misused := []

def gone (s : ServiceThreads) : Resource → Bool
  | .luaState => s.luaClosed
  | .messageParser => s.parserDeleted
  | .object => s.deleted

def use (s : ServiceThreads) (r : Resource) : ServiceThreads :=
  { s with misused := s.misused ++ if s.gone r then [r] else [] }

def stop (s : ServiceThreads) : ServiceThreads :=
  if s.isstop then s
  else { s with isstop := true, parserDeleted := true, luaClosed := true }

/-- One step of `ServiceManager::schedule(service)` and `Runnable::schedule()`, and where
the caller stands afterwards. -/
def schedule (s : ServiceThreads) : SchedulePc → ServiceThreads × Option SchedulePc
  | .need => (s.use .object, if !s.isstop && s.msgQueue != 0 then some .test else none)
  | .test => (s.use .object, if s.isrunning then none else some .mark)
  | .mark => ({ s.use .object with isrunning := true }, some .add)
  | .add => ({ s with tasks := s.tasks ++ [.queued] }, none)

/-- One step of the network thread; `sid` says whether `dispatch` names this service. -/
def networkStep (s : ServiceThreads) (sid : Bool) : ServiceThreads :=
  match s.network with
  | .idle =>
    if s.isInit then { s with network := if s.inMap then .dispatch else .idle }
    else { s with network := .lookup }
  | .dispatch => { (s.use .object).use .luaState with network := .lookup }
  | .lookup => { s with network := if sid && s.inMap then .push else .idle }
  | .push => { s.use .object with msgQueue := s.msgQueue + 1, network := .schedule .need }
  | .schedule pc =>
    let (s, next) := s.schedule pc
    { s with network := next.elim .idle .schedule }

def mainStep (s : ServiceThreads) : ServiceThreads :=
  match s.main with
  | .idle =>
    if s.inMap then
      { s.use .object with main := if s.isstop then .erase else .schedule .need }
    else s
  | .erase => { s.use .object with inMap := false, main := .delete }
  | .delete => { s with deleted := true, main := .idle }
  | .schedule pc =>
    let (s, next) := s.schedule pc
    { s with main := next.elim .idle .schedule }

/-- What the next step of a task does to the state, and where the task stands afterwards. -/
def taskStep (s : ServiceThreads) : TaskPc → ServiceThreads × TaskPc
  | .queued => (s.use .object, .loop)
  | .loop => (s.use .object, if s.isstop then .clear else .take)
  | .take =>
    if s.msgQueue = 0 then (s.use .object, .clear)
    else ({ s.use .object with msgQueue := s.msgQueue - 1 }, .parse)
  | .parse => (((s.use .object).use .luaState).use .messageParser, .script)
  | .script => ((s.use .object).use .luaState, .loop)
  | .clear => ({ s.use .object with isrunning := false }, .report)
  | .report => (s.use .object, .done)
  | .done => (s, .done)

/-- A call of `cc.response` or another function that goes through the message parser. -/
def encode (s : ServiceThreads) : ServiceThreads :=
  ((s.use .object).use .messageParser).use .luaState

/-- `cc_exitservice`, with its return to the interpreter that runs the script. -/
def exitservice (s : ServiceThreads) : ServiceThreads :=
  (s.use .object).stop.use .luaState

inductive Label
  | network (sid : Bool)
  | main
  | task (i : Nat)
  | encode (i : Nat)
  | exitservice (i : Nat)
deriving DecidableEq, Repr

/-- One step of one thread. A script's own calls happen while its task runs it, and
`cc_exitservice` asserts that the service is found. -/
def step (s : ServiceThreads) : Label → Option ServiceThreads
  | .network sid => some (s.networkStep sid)
  | .main => some s.mainStep
  | .task i => do
    let pc ← s.tasks[i]?
    let (s, pc) := s.taskStep pc
    return { s with tasks := s.tasks.set i pc }
  | .encode i => if s.tasks[i]? = some .script ∧ s.inMap then some s.encode else none
  | .exitservice i => if s.tasks[i]? = some .script ∧ s.inMap then some s.exitservice else none

theorem task_cases {s s' : ServiceThreads} {i : Nat} (h : s.step (.task i) = some s') :
    ∃ pc, s.tasks[i]? = some pc ∧
      s' = { (s.taskStep pc).1 with tasks := (s.taskStep pc).1.tasks.set i (s.taskStep pc).2 } := by
  obtain ⟨pc, hpc, h⟩ := Option.bind_eq_some_iff.mp h
  exact ⟨pc, hpc, (Option.some.inj h).symm⟩

theorem encode_cases {s s' : ServiceThreads} {i : Nat} (h : s.step (.encode i) = some s') :
    s' = s.encode := by
  by_cases hi : s.tasks[i]? = some .script ∧ s.inMap
  · simp only [step, hi, and_self, if_true, Option.some.injEq] at h
    exact h.symm
  · simp [step, hi] at h

theorem exitservice_cases {s s' : ServiceThreads} {i : Nat}
    (h : s.step (.exitservice i) = some s') : s' = s.exitservice := by
  by_cases hi : s.tasks[i]? = some .script ∧ s.inMap
  · simp only [step, hi, and_self, if_true, Option.some.injEq] at h
    exact h.symm
  · simp [step, hi] at h

end ServiceThreads

end Tnode
