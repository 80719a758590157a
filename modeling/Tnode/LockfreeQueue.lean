import Tnode.Spinlock

namespace Tnode

open Transitions Spinlock

/-- The operations of `LockfreeQueue` that take its lock. -/
inductive QueueOp (T : Type)
  | pushBack (node : T)
  | pushFront (node : T)
  | popBack
  | popFront
  | traverse
deriving DecidableEq, Repr

/-- Inside an operation: before its first access to `_list`, with the node that `back()` or
`front()` gave, at the `n`-th node of a traversal, and behind the last access with the nodes it
returns or has shown. `undefined` is reached by an access to an end of an empty list. -/
inductive QueueLocal (T : Type)
  | start (op : QueueOp T)
  | back (node : T)
  | front (node : T)
  | visit (n : Nat) (seen : List T)
  | ended (nodes : List T)
  | undefined
deriving DecidableEq, Repr

variable {T : Type}

/-- The next access to `_list` under the lock. -/
def queueBody : QueueLocal T → List T → Option (QueueLocal T × List T)
  | .start (.pushBack node), list => some (.ended [], list ++ [node])
  | .start (.pushFront node), list => some (.ended [], node :: list)
  | .start .popBack, list => some (list.getLast?.elim .undefined .back, list)
  | .start .popFront, list => some (list.head?.elim .undefined .front, list)
  | .start .traverse, list => some (.visit 0 [], list)
  | .back node, list => some (.ended [node], list.dropLast)
  | .front node, list => some (.ended [node], list.tail)
  | .visit n seen, list =>
    match list[n]? with
    | some node => some (.visit (n + 1) (seen ++ [node]), list)
    | none => some (.ended seen, list)
  | .ended _, _ => none
  | .undefined, _ => none

def lockfreeQueue : Code (List T) (QueueOp T) (QueueLocal T) where
  before _ list := list
  enter := .start
  body := queueBody

namespace LockfreeQueue

variable {Thread : Type}

/-- The nodes that the operations which have returned pushed, in order. -/
def pushed (returned : List (Thread × QueueOp T × QueueLocal T)) : List T :=
  returned.flatMap fun e => match e.2.1 with
    | .pushBack node => [node]
    | _ => []

/-- The nodes that they popped. -/
def popped (returned : List (Thread × QueueOp T × QueueLocal T)) : List T :=
  returned.flatMap fun e => match e.2 with
    | (.popFront, .ended nodes) => nodes
    | _ => []

/-- One thread pops, from the front and only when it has seen that the queue is not empty; all
may push to the back and traverse. -/
def OneConsumer (consumer : Thread) (t : Thread) : QueueOp T → List T → Prop
  | .pushBack _, _ => True
  | .traverse, _ => True
  | .popFront, list => t = consumer ∧ list ≠ []
  | _, _ => False

instance [DecidableEq Thread] [DecidableEq T] (consumer t : Thread) (op : QueueOp T) (list : List T) :
    Decidable (OneConsumer consumer t op list) :=
  match op with
  | .pushBack _ | .traverse => isTrue trivial
  | .popFront => inferInstanceAs (Decidable (t = consumer ∧ list ≠ []))
  | .pushFront _ | .popBack => isFalse id

/-- The queue and what has returned, with the nodes `taken` that an operation has popped without
having returned. -/
structure Balanced (returned : List (Thread × QueueOp T × QueueLocal T)) (taken list : List T) :
    Prop where
  defined : ∀ e ∈ returned, e.2.2 ≠ .undefined
  nodes : pushed returned = popped returned ++ (taken ++ list)

/-- In the middle of an operation. -/
inductive Held (consumer : Thread) : Thread → QueueOp T → QueueLocal T → List T →
    List (Thread × QueueOp T × QueueLocal T) → Prop
  | push {t : Thread} {node : T} {list : List T} {returned : List (Thread × QueueOp T × QueueLocal T)}
      (h : Balanced returned [] list) :
      Held consumer t (.pushBack node) (.start (.pushBack node)) list returned
  | pushed {t : Thread} {node : T} {list : List T}
      {returned : List (Thread × QueueOp T × QueueLocal T)} (h : Balanced returned [] list) :
      Held consumer t (.pushBack node) (.ended []) (list ++ [node]) returned
  | pop {node : T} {list : List T} {returned : List (Thread × QueueOp T × QueueLocal T)}
      (h : Balanced returned [] (node :: list)) :
      Held consumer consumer .popFront (.start .popFront) (node :: list) returned
  | front {node : T} {list : List T} {returned : List (Thread × QueueOp T × QueueLocal T)}
      (h : Balanced returned [] (node :: list)) :
      Held consumer consumer .popFront (.front node) (node :: list) returned
  | popped {node : T} {list : List T} {returned : List (Thread × QueueOp T × QueueLocal T)}
      (h : Balanced returned [node] list) :
      Held consumer consumer .popFront (.ended [node]) list returned
  | traverse {t : Thread} {list : List T} {returned : List (Thread × QueueOp T × QueueLocal T)}
      (h : Balanced returned [] list) :
      Held consumer t .traverse (.start .traverse) list returned
  | visit {t : Thread} {n : Nat} {seen list : List T}
      {returned : List (Thread × QueueOp T × QueueLocal T)} (h : Balanced returned [] list) :
      Held consumer t .traverse (.visit n seen) list returned
  | visited {t : Thread} {seen list : List T}
      {returned : List (Thread × QueueOp T × QueueLocal T)} (h : Balanced returned [] list) :
      Held consumer t .traverse (.ended seen) list returned

theorem pushed_snoc (returned : List (Thread × QueueOp T × QueueLocal T))
    (e : Thread × QueueOp T × QueueLocal T) :
    pushed (returned ++ [e]) = pushed returned ++ pushed [e] := by
  simp [pushed]

theorem popped_snoc (returned : List (Thread × QueueOp T × QueueLocal T))
    (e : Thread × QueueOp T × QueueLocal T) :
    popped (returned ++ [e]) = popped returned ++ popped [e] := by
  simp [popped]

/-- An operation returns what it has pushed or popped. -/
theorem Balanced.snoc {returned : List (Thread × QueueOp T × QueueLocal T)} {taken list : List T}
    (h : Balanced returned taken list) {e : Thread × QueueOp T × QueueLocal T}
    (he : e.2.2 ≠ .undefined) (htaken : popped [e] = taken) :
    Balanced (returned ++ [e]) [] (list ++ pushed [e]) where
  defined := by
    intro x hx
    rcases List.mem_append.mp hx with hx | hx
    · exact h.defined x hx
    · rw [List.mem_singleton.mp hx]
      exact he
  nodes := by
    rw [pushed_snoc, popped_snoc, htaken, h.nodes]
    simp only [List.append_assoc, List.nil_append]

theorem Balanced.front {returned : List (Thread × QueueOp T × QueueLocal T)} {node : T} {list : List T}
    (h : Balanced returned [] (node :: list)) : Balanced returned [node] list :=
  ⟨h.defined, h.nodes⟩

theorem Balanced.isPrefix {returned : List (Thread × QueueOp T × QueueLocal T)} {taken list : List T}
    (h : Balanced returned taken list) : popped returned <+: pushed returned := by
  rw [h.nodes]
  exact List.prefix_append ..

theorem held_body {consumer t : Thread} {op : QueueOp T} {l l' : QueueLocal T} {list list' : List T}
    {returned : List (Thread × QueueOp T × QueueLocal T)} (h : Held consumer t op l list returned)
    (hbody : queueBody l list = some (l', list')) : Held consumer t op l' list' returned := by
  cases h with
  | push h =>
    cases hbody
    exact .pushed h
  | pushed h => cases hbody
  | pop h =>
    cases hbody
    exact .front h
  | front h =>
    cases hbody
    exact .popped h.front
  | popped h => cases hbody
  | traverse h =>
    cases hbody
    exact .visit h
  | @visit _ n seen _ _ h =>
    simp only [queueBody] at hbody
    split at hbody
    next => cases hbody; exact .visit h
    next => cases hbody; exact .visited h
  | visited h => cases hbody

/-- Only the consumer makes the queue shorter. -/
theorem held_length {consumer t : Thread} {op : QueueOp T} {l l' : QueueLocal T} {list list' : List T}
    {returned : List (Thread × QueueOp T × QueueLocal T)} (h : Held consumer t op l list returned)
    (hbody : queueBody l list = some (l', list')) (hne : t ≠ consumer) :
    list.length ≤ list'.length := by
  cases h with
  | push h => cases hbody; simp
  | pop h | front h | popped h => exact absurd rfl hne
  | traverse h => cases hbody; exact Nat.le_refl _
  | visit h =>
    simp only [queueBody] at hbody
    split at hbody <;> cases hbody <;> exact Nat.le_refl _
  | pushed h | visited h => cases hbody

theorem held_ended {consumer t : Thread} {op : QueueOp T} {l : QueueLocal T} {list : List T}
    {returned : List (Thread × QueueOp T × QueueLocal T)} (h : Held consumer t op l list returned)
    (hbody : queueBody l list = none) : Balanced (returned ++ [(t, op, l)]) [] list := by
  cases h with
  | pushed h => exact h.snoc (by simp) rfl
  | popped h => simpa [pushed] using h.snoc (e := (consumer, .popFront, .ended [_])) (by simp) rfl
  | visited h => simpa [pushed] using h.snoc (e := (t, .traverse, .ended _)) (by simp) rfl
  | push h | pop h | front h | traverse h => cases hbody
  | visit h =>
    simp only [queueBody] at hbody
    split at hbody <;> cases hbody

/-- What holds of the operations that have returned, whoever is inside. -/
theorem held_balanced {consumer t : Thread} {op : QueueOp T} {l : QueueLocal T} {list : List T}
    {returned : List (Thread × QueueOp T × QueueLocal T)} (h : Held consumer t op l list returned) :
    ∃ taken list', Balanced returned taken list' := by
  cases h with
  | push h | pop h | front h | traverse h | visit h | visited h | popped h | pushed h =>
    exact ⟨_, _, h⟩

theorem rule (consumer : Thread) :
    Rule (lockfreeQueue (T := T)) (OneConsumer consumer) (OneConsumer consumer)
      (fun list returned => Balanced returned [] list) (Held consumer) where
  call _ _ _ h := h
  call_wait _ _ _ _ _ _ _ h := h
  call_free _ _ _ _ _ h := h
  call_held _ _ _ _ _ _ _ _ _ h := h
  enter := by
    intro t op list returned hwait hfree
    cases op with
    | pushBack node => exact .push hfree
    | pushFront node => exact hwait.elim
    | popBack => exact hwait.elim
    | popFront =>
      obtain ⟨rfl, hne⟩ := hwait
      obtain ⟨node, rest, rfl⟩ := List.exists_cons_of_ne_nil hne
      exact .pop hfree
    | traverse => exact .traverse hfree
  body _ _ _ _ _ _ _ h hbody := held_body h hbody
  body_wait := by
    intro t op l list l' list' returned t' op' hne hheld hbody hwait
    cases op' with
    | pushBack node => trivial
    | pushFront node => exact hwait
    | popBack => exact hwait
    | popFront =>
      obtain ⟨rfl, hlist⟩ := hwait
      have hlen := held_length hheld hbody hne.symm
      have hpos := List.length_pos_iff.mpr hlist
      exact ⟨rfl, List.length_pos_iff.mp (by omega)⟩
    | traverse => trivial
  leave _ _ _ _ _ h hbody := held_ended h hbody

variable [DecidableEq Thread]

/-- With one thread that pops, and only when it has seen the list non-empty, however the steps of the
threads interleave: no end of an empty list is ever read, the nodes come out in the order in which
they went in, none is lost or doubled, and what has not come out is in the list while nobody is
inside. -/
theorem one_consumer {consumer : Thread} {s : State Thread (List T) (QueueOp T) (QueueLocal T)}
    {ls : List (Label Thread (QueueOp T))}
    (hcalls : Along (step lockfreeQueue) (CallsReady (OneConsumer consumer)) (start []) ls)
    (hrun : run (step lockfreeQueue) (start []) ls = some s) :
    (∀ t op, s.pc t ≠ .inside op .undefined) ∧ (∀ e ∈ s.returned, e.2.2 ≠ .undefined) ∧
      popped s.returned <+: pushed s.returned ∧
      (s.flag = false → pushed s.returned = popped s.returned ++ s.data) := by
  have hempty : Balanced ([] : List (Thread × QueueOp T × QueueLocal T)) [] [] := ⟨by simp, rfl⟩
  have hkeeps := run_keeps (rule consumer) hempty hcalls hrun
  have hinside : ∀ t op, s.pc t ≠ .inside op .undefined := by
    intro t op hpc
    cases hkeeps.held t op .undefined hpc
  have hnodes : s.flag = false → pushed s.returned = popped s.returned ++ s.data := by
    intro hflag
    simpa using (hkeeps.free hflag).nodes
  cases hflag : s.flag with
  | false =>
    have hfree := hkeeps.free hflag
    exact ⟨hinside, hfree.defined, hfree.isPrefix, fun _ => hnodes hflag⟩
  | true =>
    obtain ⟨t, op, l, hpc⟩ := hkeeps.someone hflag
    obtain ⟨taken, list, hbalanced⟩ := held_balanced (hkeeps.held t op l hpc)
    exact ⟨hinside, hbalanced.defined, hbalanced.isPrefix, by simp⟩

/-- The producer pushes a second node while the consumer spins and pops. -/
def twoThreads : List (Label Nat (QueueOp Nat)) :=
  [.call 0 (.pushBack 5), .step 0, .step 0, .step 0, .call 1 .popFront, .call 0 (.pushBack 6),
    .step 0, .step 1, .step 0, .step 1, .step 0, .step 1, .step 1, .step 1, .step 1]

theorem one_consumer_two_threads : ∃ s : State Nat (List Nat) (QueueOp Nat) (QueueLocal Nat),
    run (step lockfreeQueue) (start []) twoThreads = some s ∧
      (∀ t op, s.pc t ≠ .inside op .undefined) ∧ (∀ e ∈ s.returned, e.2.2 ≠ .undefined) ∧
      popped s.returned <+: pushed s.returned ∧
      (s.flag = false → pushed s.returned = popped s.returned ++ s.data) :=
  ⟨_, rfl, @one_consumer Nat Nat _ 1 _ twoThreads (by decide) rfl⟩

end LockfreeQueue

end Tnode
