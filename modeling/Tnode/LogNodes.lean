import Tnode.Easylog
import Mathlib.Data.List.Count
import Mathlib.Data.List.Perm.Basic

namespace Tnode

open Transitions

namespace EasylogSeverityLevel

/-- The number of a level in the enumeration. -/
def value : EasylogSeverityLevel → Nat
  | .global => 0
  | .debug => 1
  | .trace => 2
  | .alarm => 3
  | .error => 4
  | .panic => 5
  | .system => 6
  | .maxLevel => 7

end EasylogSeverityLevel

/-- An `EasylogMessage` with the node that its constructor has allocated. -/
structure EasylogMessage where
  level : EasylogSeverityLevel
  log : Nat
deriving DecidableEq

/-- `EasylogInternal` with the nodes as messages of its queue, and the heap. `composing` are the
messages before the test of `_stop` in `log_message`, `asking` those between it and the test of the
level, `entered` the nodes of those that have passed both. -/
structure LogNodes where
  log : Easylog Nat
  level : EasylogSeverityLevel
  composing : List EasylogMessage
  asking : List EasylogMessage
  entered : List Nat
  live : List Nat
  deleted : List Nat
  next : Nat

namespace LogNodes

def start (level : EasylogSeverityLevel) : LogNodes := ⟨.start, level, [], [], [], [], [], 0⟩

inductive Label
  | construct (level : EasylogSeverityLevel)
  | askStop (m : EasylogMessage)
  | askLevel (m : EasylogMessage)
  | push (node : Nat)
  | notify
  | logger
  | spurious
  | stop
  | setLevel (level : EasylogSeverityLevel)

/-- One step of one thread. Every message is flushed, since the constructor has written the time to
it; the logger deletes a node when it has written it. -/
def step (s : LogNodes) : Label → Option LogNodes
  | .construct level =>
    some { s with
      composing := s.composing ++ [⟨level, s.next⟩]
      live := s.live ++ [s.next]
      next := s.next + 1 }
  | .askStop m =>
    if m ∈ s.composing then
      if s.log.stop then some { s with composing := s.composing.erase m }
      else (s.log.step .enter).map fun log =>
        { s with log := log, composing := s.composing.erase m, asking := s.asking ++ [m] }
    else none
  | .askLevel m =>
    if m ∈ s.asking then
      if s.level.value ≤ m.level.value then
        some { s with asking := s.asking.erase m, entered := s.entered ++ [m.log] }
      else
        some { s with
          log := { s.log with entering := s.log.entering - 1 }
          asking := s.asking.erase m }
    else none
  | .push node =>
    if node ∈ s.entered then
      (s.log.step (.push node)).map fun log => { s with log := log, entered := s.entered.erase node }
    else none
  | .logger =>
    (s.log.step .logger).map fun log =>
      { s with
        log := log
        live := s.live.diff s.log.logger.inHand
        deleted := s.deleted ++ s.log.logger.inHand }
  | .notify => (s.log.step .notify).map fun log => { s with log := log }
  | .spurious => (s.log.step .spurious).map fun log => { s with log := log }
  | .stop => (s.log.step .stop).map fun log => { s with log := log }
  | .setLevel level => some { s with level := level }

/-- The nodes of messages that are not pushed yet, those in the queue, and the one in the logger's
hand. -/
def held (s : LogNodes) : List Nat :=
  (s.composing ++ s.asking).map EasylogMessage.log ++ s.entered ++
    (s.log.queue ++ s.log.logger.inHand)

/-- The live nodes are those that are held, and each node that has been allocated is live or has been
deleted, and that once. -/
structure Balanced (s : LogNodes) : Prop where
  live_held : s.live.Perm s.held
  once : (s.live ++ s.deleted).Perm (List.range s.next)

/-- No message reaches a test that it fails. -/
def Passes (s : LogNodes) : Label → Prop
  | .askStop m => m ∈ s.composing → s.log.stop = false
  | .askLevel m => m ∈ s.asking → s.level.value ≤ m.level.value
  | _ => True

theorem start_balanced (level : EasylogSeverityLevel) : (start level).Balanced where
  live_held := .refl []
  once := .refl []

theorem erase_map_log {l : List EasylogMessage} {m : EasylogMessage} (h : m ∈ l) :
    (l.map EasylogMessage.log).Perm (m.log :: (l.erase m).map EasylogMessage.log) :=
  (List.perm_cons_erase h).map EasylogMessage.log

/-- The steps of the logger move a node from the queue to its hand, or take the one there away. -/
theorem logger_nodes {s t : Easylog Nat} (h : s.step .logger = some t) :
    (s.queue ++ s.logger.inHand).Perm (s.logger.inHand ++ (t.queue ++ t.logger.inHand)) := by
  rcases Easylog.logger_cases h with ⟨hpc, hq, rfl⟩ | ⟨hpc, hq, rfl⟩ | ⟨m, queue, hpc, hq, rfl⟩ |
    ⟨m, hpc, rfl⟩ | ⟨hpc, hstop, rfl⟩ | ⟨hpc, hstop, rfl⟩ | ⟨hpc, rfl⟩
  · simp [hpc, LoggerPc.inHand]
  · simp [hpc, LoggerPc.inHand]
  · rw [hpc, hq]
    simp only [LoggerPc.inHand, List.append_nil, List.nil_append]
    exact (List.perm_append_singleton m queue).symm
  · simp only [hpc, LoggerPc.inHand, List.append_nil, List.singleton_append]
    exact List.perm_append_singleton m s.queue
  · simp [hpc, LoggerPc.inHand]
  · simp [hpc, LoggerPc.inHand]
  · simp [hpc, LoggerPc.inHand]

theorem inHand_wake (pc : LoggerPc Nat) : pc.wake.inHand = pc.inHand := by
  rcases Easylog.wake_cases pc with ⟨hpc, hwake⟩ | ⟨_, hwake⟩
  · rw [hwake, hpc]
    rfl
  · rw [hwake]

theorem askStop_cases {s t : LogNodes} {m : EasylogMessage} (h : s.step (.askStop m) = some t) :
    m ∈ s.composing ∧
      ((s.log.stop = true ∧ t = { s with composing := s.composing.erase m }) ∨
        (s.log.stop = false ∧ t = { s with
          log := { s.log with entering := s.log.entering + 1 }
          composing := s.composing.erase m
          asking := s.asking ++ [m] })) := by
  simp only [step] at h
  split at h
  next hm =>
    refine ⟨hm, ?_⟩
    split at h
    next hstop => exact Or.inl ⟨hstop, (Option.some.inj h).symm⟩
    next hstop =>
      obtain ⟨log, hlog, rfl⟩ := Option.map_eq_some_iff.mp h
      rcases Easylog.enter_cases hlog with ⟨_, htrue⟩ | ⟨rfl, hfalse⟩
      · exact absurd htrue hstop
      · exact Or.inr ⟨hfalse, rfl⟩
  next => cases h

theorem askLevel_cases {s t : LogNodes} {m : EasylogMessage} (h : s.step (.askLevel m) = some t) :
    m ∈ s.asking ∧
      ((s.level.value ≤ m.level.value ∧
          t = { s with asking := s.asking.erase m, entered := s.entered ++ [m.log] }) ∨
        (m.level.value < s.level.value ∧ t = { s with
          log := { s.log with entering := s.log.entering - 1 }
          asking := s.asking.erase m })) := by
  simp only [step] at h
  split at h
  next hm =>
    refine ⟨hm, ?_⟩
    split at h
    next hle => exact Or.inl ⟨hle, (Option.some.inj h).symm⟩
    next hle => exact Or.inr ⟨Nat.lt_of_not_le hle, (Option.some.inj h).symm⟩
  next => cases h

theorem pushNode_cases {s t : LogNodes} {node : Nat} (h : s.step (.push node) = some t) :
    node ∈ s.entered ∧ t.log.queue = s.log.queue ++ [node] ∧ t.log.logger = s.log.logger ∧
      t = { s with log := t.log, entered := s.entered.erase node } := by
  simp only [step] at h
  split at h
  next hm =>
    obtain ⟨log, hlog, rfl⟩ := Option.map_eq_some_iff.mp h
    obtain ⟨_, rfl⟩ := Easylog.push_cases hlog
    exact ⟨hm, rfl, rfl, rfl⟩
  next => cases h

/-- The other steps of the threads leave the nodes where they are. -/
theorem thread_cases {s t : LogNodes} {l : Label} (hl : l = .notify ∨ l = .spurious ∨ l = .stop)
    (h : s.step l = some t) : t.log.queue = s.log.queue ∧
      t.log.logger.inHand = s.log.logger.inHand ∧ t = { s with log := t.log } := by
  rcases hl with rfl | rfl | rfl
  · obtain ⟨log, hlog, rfl⟩ := Option.map_eq_some_iff.mp h
    obtain ⟨_, rfl⟩ := Easylog.notify_cases hlog
    exact ⟨rfl, inHand_wake _, rfl⟩
  · obtain ⟨log, hlog, rfl⟩ := Option.map_eq_some_iff.mp h
    obtain ⟨hpc, rfl⟩ := Easylog.spurious_cases hlog
    refine ⟨rfl, ?_, rfl⟩
    show [] = s.log.logger.inHand
    rw [hpc]
    rfl
  · obtain ⟨log, hlog, rfl⟩ := Option.map_eq_some_iff.mp h
    rcases Easylog.stop_cases hlog with ⟨_, rfl⟩ | ⟨_, rfl⟩ | ⟨_, _, rfl⟩
    · exact ⟨rfl, rfl, rfl⟩
    · exact ⟨rfl, inHand_wake _, rfl⟩
    · exact ⟨rfl, rfl, rfl⟩

/-- A step that only moves nodes from one holder to another. -/
theorem balanced_of_moved {s t : LogNodes} (hs : s.Balanced) (hlive : t.live = s.live)
    (hdeleted : t.deleted = s.deleted) (hnext : t.next = s.next) (hheld : s.held.Perm t.held) :
    t.Balanced where
  live_held := by
    rw [hlive]
    exact hs.live_held.trans hheld
  once := by
    rw [hlive, hdeleted, hnext]
    exact hs.once

theorem construct_balanced {s t : LogNodes} {level : EasylogSeverityLevel} (hs : s.Balanced)
    (h : s.step (.construct level) = some t) : t.Balanced := by
  cases Option.some.inj h
  constructor
  · apply List.perm_iff_count.mpr
    intro a
    have hcount := hs.live_held.count_eq a
    simp only [held, List.map_append, List.count_append, List.map_singleton] at hcount ⊢
    omega
  · apply List.perm_iff_count.mpr
    intro a
    have hcount := hs.once.count_eq a
    rw [List.range_succ]
    simp only [List.count_append] at hcount ⊢
    omega

theorem askStop_balanced {s t : LogNodes} {m : EasylogMessage} (hs : s.Balanced)
    (hstop : s.log.stop = false) (h : s.step (.askStop m) = some t) : t.Balanced := by
  obtain ⟨hm, ⟨htrue, _⟩ | ⟨_, rfl⟩⟩ := askStop_cases h
  · rw [hstop] at htrue
    cases htrue
  · refine balanced_of_moved hs rfl rfl rfl ?_
    apply List.perm_iff_count.mpr
    intro a
    have hcount := (erase_map_log hm).count_eq a
    simp only [held, List.map_append, List.count_append, List.map_singleton, List.count_cons,
      List.count_nil] at hcount ⊢
    omega

theorem askLevel_balanced {s t : LogNodes} {m : EasylogMessage} (hs : s.Balanced)
    (hle : s.level.value ≤ m.level.value) (h : s.step (.askLevel m) = some t) : t.Balanced := by
  obtain ⟨hm, ⟨_, rfl⟩ | ⟨hlt, _⟩⟩ := askLevel_cases h
  · refine balanced_of_moved hs rfl rfl rfl ?_
    apply List.perm_iff_count.mpr
    intro a
    have hcount := (erase_map_log hm).count_eq a
    simp only [held, List.map_append, List.count_append, List.count_cons, List.count_nil] at hcount ⊢
    omega
  · omega

theorem push_balanced {s t : LogNodes} {node : Nat} (hs : s.Balanced)
    (h : s.step (.push node) = some t) : t.Balanced := by
  obtain ⟨hm, hqueue, hlogger, ht⟩ := pushNode_cases h
  rw [ht]
  refine balanced_of_moved hs rfl rfl rfl ?_
  apply List.perm_iff_count.mpr
  intro a
  have hcount := (List.perm_cons_erase hm).count_eq a
  simp only [held, hqueue, hlogger, List.count_append, List.count_cons, List.count_nil] at hcount ⊢
  omega

theorem thread_balanced {s t : LogNodes} {l : Label} (hl : l = .notify ∨ l = .spurious ∨ l = .stop)
    (hs : s.Balanced) (h : s.step l = some t) : t.Balanced := by
  obtain ⟨hqueue, hhand, ht⟩ := thread_cases hl h
  rw [ht]
  refine balanced_of_moved hs rfl rfl rfl ?_
  simp only [held, hqueue, hhand]
  exact .refl _

/-- What the logger deletes is live, and is held by nobody then. -/
theorem logger_balanced {s t : LogNodes} (hs : s.Balanced) (h : s.step .logger = some t) :
    t.Balanced := by
  obtain ⟨log, hlog, rfl⟩ := Option.map_eq_some_iff.mp h
  have hnodes := logger_nodes hlog
  constructor
  · apply List.perm_iff_count.mpr
    intro a
    have hheld := hs.live_held.count_eq a
    have hmoved := hnodes.count_eq a
    simp only [held, List.count_append, List.count_diff] at hheld hmoved ⊢
    omega
  · apply List.perm_iff_count.mpr
    intro a
    have hheld := hs.live_held.count_eq a
    have hmoved := hnodes.count_eq a
    have honce := hs.once.count_eq a
    simp only [held, List.count_append, List.count_diff] at hheld hmoved honce ⊢
    omega

theorem step_balanced {s t : LogNodes} {l : Label} (hs : s.Balanced) (hok : s.Passes l)
    (h : s.step l = some t) : t.Balanced := by
  cases l with
  | construct level => exact construct_balanced hs h
  | askStop m => exact askStop_balanced hs (hok (askStop_cases h).1) h
  | askLevel m => exact askLevel_balanced hs (hok (askLevel_cases h).1) h
  | push node => exact push_balanced hs h
  | notify => exact thread_balanced (Or.inl rfl) hs h
  | spurious => exact thread_balanced (Or.inr (Or.inl rfl)) hs h
  | stop => exact thread_balanced (Or.inr (Or.inr rfl)) hs h
  | logger => exact logger_balanced hs h
  | setLevel level =>
    cases Option.some.inj h
    exact balanced_of_moved hs rfl rfl rfl (.refl _)

/-- A message that fails a test takes its node with it. -/
theorem fails_unbalanced {s : LogNodes} {l : Label} (hs : s.Balanced) (hno : ¬s.Passes l) :
    ∃ t, s.step l = some t ∧ ¬t.Balanced := by
  have hlength := hs.live_held.length_eq
  cases l with
  | askStop m =>
    obtain ⟨hm, hstop⟩ := Classical.not_imp.mp hno
    rw [Bool.not_eq_false] at hstop
    have herase := List.length_erase_of_mem hm
    have hpos := List.length_pos_of_mem hm
    refine ⟨{ s with composing := s.composing.erase m }, by simp only [step, if_pos hm, if_pos hstop], ?_⟩
    intro ht
    have hheld := ht.live_held.length_eq
    simp only [held, List.length_append, List.length_map] at hlength hheld
    omega
  | askLevel m =>
    obtain ⟨hm, hlevel⟩ := Classical.not_imp.mp hno
    have herase := List.length_erase_of_mem hm
    have hpos := List.length_pos_of_mem hm
    refine ⟨_, by simp only [step, if_pos hm, if_neg hlevel]; rfl, ?_⟩
    intro ht
    have hheld := ht.live_held.length_eq
    simp only [held, List.length_append, List.length_map] at hlength hheld
    omega
  | construct | push | notify | logger | spurious | stop | setLevel => exact absurd trivial hno

end LogNodes

open LogNodes

/-- In every state of a run the live nodes are those that are held, each deleted once, exactly where
no message is ended with `_stop` set or with a level below that of the logger. -/
theorem nodes_balanced_iff (level : EasylogSeverityLevel) (ls : List LogNodes.Label) :
    (∀ pre s, pre <+: ls → run LogNodes.step (LogNodes.start level) pre = some s → s.Balanced) ↔
      Along LogNodes.step Passes (LogNodes.start level) ls :=
  always_iff_along (fun _ _ _ hs hok h => step_balanced hs hok h)
    (fun _ _ hs hno => fails_unbalanced hs hno) (start_balanced level)

/-- A message of a level below that of the logger. -/
theorem filtered_node_leaks : ∃ s,
    run LogNodes.step (LogNodes.start .trace)
      [.construct .debug, .askStop ⟨.debug, 0⟩, .askLevel ⟨.debug, 0⟩] = some s ∧ ¬s.Balanced := by
  refine ⟨_, rfl, ?_⟩
  intro h
  have hlength := h.live_held.length_eq
  revert hlength
  decide

end Tnode
