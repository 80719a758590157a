import Tnode.Transitions
import Mathlib.Logic.Function.Basic
import Mathlib.Logic.Relation

open Transitions Relation

namespace Spinlock

/-- Where a thread stands: outside of every operation, at the test-and-set before one, or
behind it with what the operation has computed so far. -/
inductive Pc (Op Local : Type)
  | outside
  | spin (op : Op)
  | inside (op : Op) (l : Local)

/-- The operations on data that a lock guards: what a caller does before it takes the lock, and
the steps it takes under the lock until there is none. -/
structure Code (Data Op Local : Type) where
  before : Op → Data → Data
  enter : Op → Local
  body : Local → Data → Option (Local × Data)

/-- `returned` lists the operations in the order in which they gave the lock back, each with what
it had computed by then. -/
structure State (Thread Data Op Local : Type) where
  flag : Bool
  data : Data
  pc : Thread → Pc Op Local
  returned : List (Thread × Op × Local)

inductive Label (Thread Op : Type)
  | call (t : Thread) (op : Op)
  | step (t : Thread)

variable {Thread Data Op Local : Type}

def start (d : Data) : State Thread Data Op Local := ⟨false, d, fun _ => .outside, []⟩

variable {code : Code Data Op Local} {s s' : State Thread Data Op Local}

/-- The flag is set while a thread is inside, and at most one is. -/
structure Exclusive (s : State Thread Data Op Local) : Prop where
  free : s.flag = false → ∀ t op l, s.pc t ≠ .inside op l
  one : ∀ t t' op op' l l', s.pc t = .inside op l → s.pc t' = .inside op' l' → t = t'

theorem Exclusive.flag (h : Exclusive s) {t : Thread} {op : Op} {l : Local}
    (ht : s.pc t = .inside op l) : s.flag = true := by
  by_contra hno
  exact h.free (by simpa using hno) t op l ht

/-- Nobody else is inside while a thread is. -/
theorem Exclusive.alone (h : Exclusive s) {t t' : Thread} {op op' : Op} {l l' : Local}
    (ht : s.pc t = .inside op l) (hne : t' ≠ t) : s.pc t' ≠ .inside op' l' := by
  intro ht'
  exact hne (h.one t' t op' op l' l ht' ht)

theorem exclusive_start (d : Data) :
    Exclusive (start d : State Thread Data Op Local) where
  free _ _ _ _ := by simp [start]
  one _ _ _ _ _ _ h := by simp [start] at h

variable [DecidableEq Thread]

/-- One step of one thread; the test-and-set of a flag that is set leaves all as it is. -/
def step (code : Code Data Op Local) (s : State Thread Data Op Local) :
    Label Thread Op → Option (State Thread Data Op Local)
  | .call t op =>
    match s.pc t with
    | .outside =>
      some { s with data := code.before op s.data, pc := Function.update s.pc t (.spin op) }
    | _ => none
  | .step t =>
    match s.pc t with
    | .outside => none
    | .spin op =>
      if s.flag then some s
      else some { s with flag := true, pc := Function.update s.pc t (.inside op (code.enter op)) }
    | .inside op l =>
      match code.body l s.data with
      | some (l', d) => some { s with data := d, pc := Function.update s.pc t (.inside op l') }
      | none => some { s with
          flag := false
          pc := Function.update s.pc t .outside
          returned := s.returned ++ [(t, op, l)] }

theorem call_cases {t : Thread} {op : Op} (h : step code s (.call t op) = some s') :
    s.pc t = .outside ∧
      s' = { s with data := code.before op s.data, pc := Function.update s.pc t (.spin op) } := by
  simp only [step] at h
  split at h
  next hpc => exact ⟨hpc, (Option.some.inj h).symm⟩
  next => cases h

/-- All that a step of a thread does: it spins, takes the lock, goes on under it or gives it
back. -/
theorem step_cases {t : Thread} (h : step code s (.step t) = some s') :
    (∃ op, s.pc t = .spin op ∧ s.flag = true ∧ s' = s) ∨
    (∃ op, s.pc t = .spin op ∧ s.flag = false ∧
      s' = { s with flag := true, pc := Function.update s.pc t (.inside op (code.enter op)) }) ∨
    (∃ op l l' d, s.pc t = .inside op l ∧ code.body l s.data = some (l', d) ∧
      s' = { s with data := d, pc := Function.update s.pc t (.inside op l') }) ∨
    (∃ op l, s.pc t = .inside op l ∧ code.body l s.data = none ∧
      s' = { s with
        flag := false
        pc := Function.update s.pc t .outside
        returned := s.returned ++ [(t, op, l)] }) := by
  simp only [step] at h
  split at h
  next => cases h
  next op hpc =>
    cases hflag : s.flag with
    | true =>
      rw [hflag, if_pos rfl] at h
      exact Or.inl ⟨op, hpc, rfl, (Option.some.inj h).symm⟩
    | false =>
      rw [hflag, if_neg Bool.false_ne_true] at h
      exact Or.inr (Or.inl ⟨op, hpc, rfl, (Option.some.inj h).symm⟩)
  next op l hpc =>
    split at h
    next l' d hbody =>
      exact Or.inr (Or.inr (Or.inl ⟨op, l, l', d, hpc, hbody, (Option.some.inj h).symm⟩))
    next hbody => exact Or.inr (Or.inr (Or.inr ⟨op, l, hpc, hbody, (Option.some.inj h).symm⟩))

/-- Where a thread stands after one was moved. -/
theorem pc_update {pc : Thread → Pc Op Local} {t t' : Thread} {x y : Pc Op Local}
    (h : Function.update pc t x t' = y) : x = y ∧ t' = t ∨ t' ≠ t ∧ pc t' = y := by
  by_cases heq : t' = t
  · rw [heq, Function.update_self] at h
    exact Or.inl ⟨h, heq⟩
  · rw [Function.update_of_ne heq] at h
    exact Or.inr ⟨heq, h⟩

theorem exclusive_update (h : Exclusive s) {t : Thread} {pc : Pc Op Local} {flag : Bool} {d : Data}
    {returned : List (Thread × Op × Local)}
    (hin : ∀ op l, pc = .inside op l → flag = true ∧ ∀ t', t' ≠ t → ∀ op l, s.pc t' ≠ .inside op l)
    (hout : flag = false → ∀ t', t' ≠ t → ∀ op l, s.pc t' ≠ .inside op l) :
    Exclusive (⟨flag, d, Function.update s.pc t pc, returned⟩ : State Thread Data Op Local) where
  free := by
    intro hflag t' op l h'
    rcases pc_update h' with ⟨hpc, _⟩ | ⟨hne, hpc⟩
    · have := (hin op l hpc).1
      simp [show flag = false from hflag] at this
    · exact hout hflag t' hne op l hpc
  one := by
    intro t₁ t₂ op₁ op₂ l₁ l₂ h₁ h₂
    rcases pc_update h₁ with ⟨hpc₁, rfl⟩ | ⟨hne₁, hpc₁⟩ <;>
      rcases pc_update h₂ with ⟨hpc₂, rfl⟩ | ⟨hne₂, hpc₂⟩
    · rfl
    · exact absurd hpc₂ ((hin op₁ l₁ hpc₁).2 t₂ hne₂ op₂ l₂)
    · exact absurd hpc₁ ((hin op₂ l₂ hpc₂).2 t₁ hne₁ op₁ l₁)
    · exact h.one t₁ t₂ op₁ op₂ l₁ l₂ hpc₁ hpc₂

theorem step_exclusive {l : Label Thread Op} (h : Exclusive s) (hs : step code s l = some s') :
    Exclusive s' := by
  cases l with
  | call t op =>
    obtain ⟨_, rfl⟩ := call_cases hs
    exact exclusive_update h (by simp) fun hflag t' _ => h.free hflag t'
  | step t =>
    rcases step_cases hs with ⟨_, _, _, rfl⟩ | ⟨op, _, hflag, rfl⟩ | ⟨op, l, l', d, hpc, _, rfl⟩ |
      ⟨op, l, hpc, _, rfl⟩
    · exact h
    · exact exclusive_update h (fun _ _ _ => ⟨rfl, fun t' _ => h.free hflag t'⟩) (by simp)
    · refine exclusive_update h (fun _ _ _ => ⟨h.flag hpc, fun t' hne _ _ => h.alone hpc hne⟩) ?_
      exact fun _ t' hne _ _ => h.alone hpc hne
    · exact exclusive_update h (by simp) fun _ t' hne _ _ => h.alone hpc hne

theorem run_exclusive {ls : List (Label Thread Op)} (h : Exclusive s)
    (hr : run (step code) s ls = some s') : Exclusive s' :=
  run_invariant_always Exclusive (fun _ _ _ hs ht => step_exclusive hs ht) h hr

section Rule

variable {Ready Wait : Thread → Op → Data → Prop} {Free : Data → List (Thread × Op × Local) → Prop}
  {Held : Thread → Op → Local → Data → List (Thread × Op × Local) → Prop}

/-- What threads may rely on. `Ready` is what a caller has seen to, `Wait` what is left of that
while it spins; `Free` holds of the data and the operations that have returned while nobody is
inside, and `Held` while a thread is in the middle of its operation. -/
structure Rule (code : Code Data Op Local) (Ready Wait : Thread → Op → Data → Prop)
    (Free : Data → List (Thread × Op × Local) → Prop)
    (Held : Thread → Op → Local → Data → List (Thread × Op × Local) → Prop) : Prop where
  call : ∀ t op d, Ready t op d → Wait t op (code.before op d)
  call_wait : ∀ t op t' op' d, t' ≠ t → Ready t' op' d → Wait t op d → Wait t op (code.before op' d)
  call_free : ∀ t op d r, Ready t op d → Free d r → Free (code.before op d) r
  call_held : ∀ t op l t' op' d r, t' ≠ t → Ready t' op' d → Held t op l d r →
    Held t op l (code.before op' d) r
  enter : ∀ t op d r, Wait t op d → Free d r → Held t op (code.enter op) d r
  body : ∀ t op l d l' d' r, Held t op l d r → code.body l d = some (l', d') → Held t op l' d' r
  body_wait : ∀ t op l d l' d' r t' op', t' ≠ t → Held t op l d r →
    code.body l d = some (l', d') → Wait t' op' d → Wait t' op' d'
  leave : ∀ t op l d r, Held t op l d r → code.body l d = none → Free d (r ++ [(t, op, l)])

/-- Whoever calls an operation has seen to what it needs. -/
def CallsReady (Ready : Thread → Op → Data → Prop) (s : State Thread Data Op Local) :
    Label Thread Op → Prop
  | .call t op => Ready t op s.data
  | .step _ => True

instance [∀ t op d, Decidable (Ready t op d)] (s : State Thread Data Op Local)
    (l : Label Thread Op) : Decidable (CallsReady Ready s l) :=
  match l with
  | .call t op => inferInstanceAs (Decidable (Ready t op s.data))
  | .step _ => isTrue trivial

structure Keeps (Wait : Thread → Op → Data → Prop)
    (Free : Data → List (Thread × Op × Local) → Prop)
    (Held : Thread → Op → Local → Data → List (Thread × Op × Local) → Prop)
    (s : State Thread Data Op Local) : Prop where
  exclusive : Exclusive s
  wait : ∀ t op, s.pc t = .spin op → Wait t op s.data
  free : s.flag = false → Free s.data s.returned
  held : ∀ t op l, s.pc t = .inside op l → Held t op l s.data s.returned
  someone : s.flag = true → ∃ t op l, s.pc t = .inside op l

theorem call_keeps {t : Thread} {op : Op} (rule : Rule code Ready Wait Free Held)
    (h : Keeps Wait Free Held s) (hready : Ready t op s.data)
    (hs : step code s (.call t op) = some s') : Keeps Wait Free Held s' := by
  have hexclusive := step_exclusive h.exclusive hs
  obtain ⟨hpc, rfl⟩ := call_cases hs
  refine ⟨hexclusive, ?_, fun hflag => rule.call_free t op _ _ hready (h.free hflag), ?_, ?_⟩
  · intro t' op' ht'
    rcases pc_update ht' with ⟨hop, rfl⟩ | ⟨hne, hpc'⟩
    · cases hop
      exact rule.call _ _ _ hready
    · exact rule.call_wait t' op' t op _ hne.symm hready (h.wait t' op' hpc')
  · intro t' op' l' ht'
    rcases pc_update ht' with ⟨hpc', _⟩ | ⟨hne, hpc'⟩
    · cases hpc'
    · exact rule.call_held t' op' l' t op _ _ hne.symm hready (h.held t' op' l' hpc')
  · intro hflag
    obtain ⟨t', op', l', ht'⟩ := h.someone hflag
    have hne : t' ≠ t := by
      rintro rfl
      rw [hpc] at ht'
      cases ht'
    exact ⟨t', op', l', (Function.update_of_ne hne ..).trans ht'⟩

theorem step_keeps {t : Thread} (rule : Rule code Ready Wait Free Held) (h : Keeps Wait Free Held s)
    (hs : step code s (.step t) = some s') : Keeps Wait Free Held s' := by
  have hexclusive := step_exclusive h.exclusive hs
  rcases step_cases hs with ⟨_, _, _, rfl⟩ | ⟨op, hpc, hflag, rfl⟩ | ⟨op, l, l', d, hpc, hb, rfl⟩ |
    ⟨op, l, hpc, hb, rfl⟩
  · exact h
  · refine ⟨hexclusive, ?_, by simp, ?_, fun _ => ⟨t, op, _, Function.update_self ..⟩⟩
    · intro t' op' ht'
      rcases pc_update ht' with ⟨hop, _⟩ | ⟨_, hpc'⟩
      · cases hop
      · exact h.wait t' op' hpc'
    · intro t' op' l' ht'
      rcases pc_update ht' with ⟨hpc', rfl⟩ | ⟨_, hpc'⟩
      · cases hpc'
        exact rule.enter t' op _ _ (h.wait t' op hpc) (h.free hflag)
      · exact absurd hpc' (h.exclusive.free hflag t' op' l')
  · refine ⟨hexclusive, ?_, ?_, ?_, fun _ => ⟨t, op, l', Function.update_self ..⟩⟩
    · intro t' op' ht'
      rcases pc_update ht' with ⟨hop, _⟩ | ⟨hne, hpc'⟩
      · cases hop
      · exact rule.body_wait t op l _ l' d _ t' op' hne (h.held t op l hpc) hb (h.wait t' op' hpc')
    · intro hflag
      exact absurd hpc (h.exclusive.free hflag t op l)
    · intro t' op' l'' ht'
      rcases pc_update ht' with ⟨hpc', rfl⟩ | ⟨hne, hpc'⟩
      · cases hpc'
        exact rule.body t' op l _ l' d _ (h.held t' op l hpc) hb
      · exact absurd hpc' (h.exclusive.alone hpc hne)
  · refine ⟨hexclusive, ?_, fun _ => rule.leave t op l _ _ (h.held t op l hpc) hb, ?_, by simp⟩
    · intro t' op' ht'
      rcases pc_update ht' with ⟨hop, _⟩ | ⟨_, hpc'⟩
      · cases hop
      · exact h.wait t' op' hpc'
    · intro t' op' l' ht'
      rcases pc_update ht' with ⟨hpc', _⟩ | ⟨hne, hpc'⟩
      · cases hpc'
      · exact absurd hpc' (h.exclusive.alone hpc hne)

omit [DecidableEq Thread] in
theorem keeps_start {d : Data} (h : Free d []) :
    Keeps Wait Free Held (start d : State Thread Data Op Local) where
  exclusive := exclusive_start d
  wait _ _ h := by simp [start] at h
  free _ := h
  held _ _ _ h := by simp [start] at h
  someone := by simp [start]

theorem run_keeps {d : Data} {ls : List (Label Thread Op)} (rule : Rule code Ready Wait Free Held)
    (h : Free d []) (hready : Along (step code) (CallsReady Ready) (start d) ls)
    (hr : run (step code) (start d) ls = some s') : Keeps Wait Free Held s' := by
  refine run_invariant ?_ (keeps_start h) hready hr
  intro s l t hs hok ht
  cases l with
  | call t op => exact call_keeps rule hs hok ht
  | step t => exact step_keeps rule hs ht

end Rule

section Atomic

/-- One step under the lock. -/
def Moves (code : Code Data Op Local) (p q : Local × Data) : Prop := code.body p.1 p.2 = some q

/-- A whole operation, run alone: it takes the data from `d` to `d'` and ends with `l`. -/
def Performs (code : Code Data Op Local) (op : Op) (d : Data) (l : Local) (d' : Data) : Prop :=
  ReflTransGen (Moves code) (code.enter op, d) (l, d') ∧ code.body l d' = none

/-- The operations take the data from `d` to the last argument when they run one after the
other, each alone. -/
inductive Sequential (code : Code Data Op Local) (d : Data) :
    List (Thread × Op × Local) → Data → Prop
  | nil : Sequential code d [] d
  | snoc {r : List (Thread × Op × Local)} {d' d'' : Data} {t : Thread} {op : Op} {l : Local}
      (before : Sequential code d r d') (last : Performs code op d' l d'') :
      Sequential code d (r ++ [(t, op, l)]) d''

/-- Operations under a lock are atomic: however the steps of the threads interleave, those that
have returned computed what they compute when run one after the other. -/
theorem run_sequential {d : Data} {ls : List (Label Thread Op)}
    (hbefore : ∀ op d, code.before op d = d) (hr : run (step code) (start d) ls = some s') :
    ∃ d', Sequential code d s'.returned d' ∧ (s'.flag = false → s'.data = d') := by
  have rule : Rule code (fun _ _ _ => True) (fun _ _ _ => True)
      (fun data (r : List (Thread × Op × Local)) => Sequential code d r data)
      (fun _ op l data r => ∃ d', Sequential code d r d' ∧
        ReflTransGen (Moves code) (code.enter op, d') (l, data)) := by
    refine ⟨fun _ _ _ _ => trivial, fun _ _ _ _ _ _ _ _ => trivial, ?_, ?_, ?_, ?_,
      fun _ _ _ _ _ _ _ _ _ _ _ _ _ => trivial, ?_⟩
    · intro t op data r _ h
      rwa [hbefore]
    · intro t op l t' op' data r _ _ h
      rwa [hbefore]
    · exact fun t op data r _ h => ⟨data, h, .refl⟩
    · rintro t op l data l' data' r ⟨d', hseq, hsteps⟩ hb
      exact ⟨d', hseq, hsteps.tail hb⟩
    · rintro t op l data r ⟨d', hseq, hsteps⟩ hb
      exact .snoc hseq ⟨hsteps, hb⟩
  have hready : Along (step code) (CallsReady fun _ _ _ => True) (start d) ls :=
    .of_forall (fun _ l => by cases l <;> trivial) (start d) ls
  have hkeeps := run_keeps rule .nil hready hr
  cases hflag : s'.flag with
  | false => exact ⟨s'.data, hkeeps.free hflag, fun _ => rfl⟩
  | true =>
    obtain ⟨t, op, l, hpc⟩ := hkeeps.someone hflag
    obtain ⟨d', hseq, _⟩ := hkeeps.held t op l hpc
    exact ⟨d', hseq, by simp⟩

end Atomic

end Spinlock
