import Mathlib.Data.Fintype.Pigeonhole
import Mathlib.Data.Set.Finite.Basic
import Mathlib.Logic.Relation
import Mathlib.Order.WellFounded
import Mathlib.Order.Monotone.Basic

namespace Walks

/-- How looking at a node ends. A failure is `last` when, at each level above it, nothing of the
group it lies in was left to look at. -/
inductive Verdict
  | passes
  | fails (last : Bool)
deriving DecidableEq

/-- A node is judged at once, or by looking at the members of its groups in turn. -/
inductive Shape (ν : Type)
  | leaf (verdict : Verdict)
  | inner (groups : List (List ν))

variable {ν : Type}

/-- Looks at the members of a group, up to the first one that fails. -/
def visitGroup (f : ν → Option Verdict) : List ν → Option Verdict
  | [] => some .passes
  | c :: cs =>
    match f c with
    | none => none
    | some .passes => visitGroup f cs
    | some (.fails last) => some (.fails (last && cs.isEmpty))

def visitGroups (f : ν → Option Verdict) : List (List ν) → Option Verdict
  | [] => some .passes
  | g :: gs =>
    match visitGroup f g with
    | some .passes => visitGroups f gs
    | v => v

/-- The walk to a depth below `fuel`; `none` means that this was not deep enough. -/
def visit (shape : ν → Shape ν) : Nat → ν → Option Verdict
  | 0, _ => none
  | fuel + 1, n =>
    match shape n with
    | .leaf verdict => some verdict
    | .inner groups => visitGroups (visit shape fuel) groups

/-- Nothing the walk looks at below the node fails. -/
inductive Passes (shape : ν → Shape ν) : ν → Prop
  | leaf {n : ν} (h : shape n = .leaf .passes) : Passes shape n
  | inner {n : ν} {groups : List (List ν)} (h : shape n = .inner groups)
    (all : ∀ g ∈ groups, ∀ c ∈ g, Passes shape c) : Passes shape n

/-- `c` is in one of the groups, and what comes before it has the property. -/
def Behind (P : ν → Prop) (groups : List (List ν)) (c : ν) (ds : List ν) : Prop :=
  ∃ before cs after, groups = before ++ (cs ++ c :: ds) :: after ∧
    (∀ g ∈ before, ∀ p ∈ g, P p) ∧ ∀ p ∈ cs, P p

/-- The first failure below the node is one at a leaf, and at each level the member that holds it
is the last of its group. -/
inductive FailsLast (shape : ν → Shape ν) : ν → Prop
  | leaf {n : ν} (h : shape n = .leaf (.fails true)) : FailsLast shape n
  | inner {n c : ν} {groups : List (List ν)} (h : shape n = .inner groups)
    (behind : Behind (Passes shape) groups c []) (last : FailsLast shape c) : FailsLast shape n

/-- The walk from `n` goes into `c`, as everything before it passes. -/
def Enters (shape : ν → Shape ν) (n c : ν) : Prop :=
  ∃ groups ds, shape n = .inner groups ∧ Behind (Passes shape) groups c ds

theorem Behind.imp {P Q : ν → Prop} {groups : List (List ν)} {c : ν} {ds : List ν}
    (h : Behind P groups c ds) (hPQ : ∀ p, P p → Q p) : Behind Q groups c ds := by
  obtain ⟨before, cs, after, hgroups, hbefore, hcs⟩ := h
  exact ⟨before, cs, after, hgroups, fun g hg p hp => hPQ p (hbefore g hg p hp),
    fun p hp => hPQ p (hcs p hp)⟩

theorem Behind.mem {P : ν → Prop} {groups : List (List ν)} {c : ν} {ds : List ν}
    (h : Behind P groups c ds) : ∃ g ∈ groups, c ∈ g := by
  obtain ⟨before, cs, after, rfl, _, _⟩ := h
  exact ⟨cs ++ c :: ds, by simp, by simp⟩

theorem behind_head {P : ν → Prop} {cs ds : List ν} {c : ν} (groups : List (List ν))
    (h : ∀ p ∈ cs, P p) : Behind P ((cs ++ c :: ds) :: groups) c ds :=
  ⟨[], cs, groups, rfl, by simp, h⟩

theorem Behind.cons {P : ν → Prop} {g : List ν} {groups : List (List ν)} {c : ν} {ds : List ν}
    (h : Behind P groups c ds) (hg : ∀ p ∈ g, P p) : Behind P (g :: groups) c ds := by
  obtain ⟨before, cs, after, rfl, hbefore, hcs⟩ := h
  exact ⟨g :: before, cs, after, rfl, List.forall_mem_cons.mpr ⟨hg, hbefore⟩, hcs⟩

/-- The member lies in the first group, or the first group is before it. -/
theorem behind_cons_iff {P : ν → Prop} {g : List ν} {groups : List (List ν)} {c : ν}
    {ds : List ν} : Behind P (g :: groups) c ds ↔
      (∃ cs, g = cs ++ c :: ds ∧ ∀ p ∈ cs, P p) ∨ (∀ p ∈ g, P p) ∧ Behind P groups c ds := by
  constructor
  · intro h
    obtain ⟨before, cs, after, hgroups, hbefore, hcs⟩ := h
    cases before with
    | nil =>
      obtain ⟨hg, -⟩ := List.cons.inj hgroups
      exact Or.inl ⟨cs, hg, hcs⟩
    | cons b before =>
      obtain ⟨rfl, rfl⟩ := List.cons.inj hgroups
      obtain ⟨hb, hbefore⟩ := List.forall_mem_cons.mp hbefore
      exact Or.inr ⟨hb, before, cs, after, rfl, hbefore, hcs⟩
  · intro h
    rcases h with ⟨cs, rfl, hcs⟩ | ⟨hg, h⟩
    · exact behind_head groups hcs
    · exact h.cons hg

section

variable {f : ν → Option Verdict}

theorem visitGroup_passes_iff {g : List ν} :
    visitGroup f g = some .passes ↔ ∀ c ∈ g, f c = some .passes := by
  induction g with
  | nil => simp [visitGroup]
  | cons c cs ih =>
    rw [visitGroup, List.forall_mem_cons, ← ih]
    split
    next h => simp [h]
    next h => simp [h]
    next h => simp [h]

theorem visitGroup_fails_iff {g : List ν} {last : Bool} :
    visitGroup f g = some (.fails last) ↔ ∃ cs c ds l, g = cs ++ c :: ds ∧
      (∀ p ∈ cs, f p = some .passes) ∧ f c = some (.fails l) ∧ last = (l && ds.isEmpty) := by
  induction g with
  | nil => simp [visitGroup]
  | cons c cs ih =>
    rw [visitGroup]
    constructor
    · intro h
      split at h
      next => cases h
      next hc =>
        obtain ⟨cs', d, ds, l, rfl, hcs, hd, hl⟩ := ih.mp h
        exact ⟨c :: cs', d, ds, l, rfl, List.forall_mem_cons.mpr ⟨hc, hcs⟩, hd, hl⟩
      next l hc =>
        cases h
        exact ⟨[], c, cs, l, rfl, by simp, hc, rfl⟩
    · intro h
      obtain ⟨cs', d, ds, l, hg, hcs, hd, rfl⟩ := h
      cases cs' with
      | nil =>
        obtain ⟨rfl, rfl⟩ := List.cons.inj hg
        rw [hd]
      | cons c' cs' =>
        obtain ⟨rfl, rfl⟩ := List.cons.inj hg
        obtain ⟨hc, hcs⟩ := List.forall_mem_cons.mp hcs
        rw [hc]
        exact ih.mpr ⟨cs', d, ds, l, rfl, hcs, hd, rfl⟩

theorem visitGroups_passes_iff {groups : List (List ν)} :
    visitGroups f groups = some .passes ↔ ∀ g ∈ groups, ∀ c ∈ g, f c = some .passes := by
  induction groups with
  | nil => simp [visitGroups]
  | cons g gs ih =>
    rw [visitGroups, List.forall_mem_cons, ← ih, ← visitGroup_passes_iff]
    split
    next h => simp [h]
    next hne =>
      constructor
      · intro h
        exact absurd h hne
      · intro h
        exact absurd h.1 hne

theorem visitGroups_fails_iff {groups : List (List ν)} {last : Bool} :
    visitGroups f groups = some (.fails last) ↔ ∃ c ds l,
      Behind (fun p => f p = some .passes) groups c ds ∧ f c = some (.fails l) ∧
        last = (l && ds.isEmpty) := by
  induction groups with
  | nil => simp [visitGroups, Behind]
  | cons g gs ih =>
    simp only [behind_cons_iff, ← visitGroup_passes_iff]
    rw [visitGroups]
    constructor
    · intro h
      split at h
      next hg =>
        obtain ⟨c, ds, l, hbehind, hc, hl⟩ := ih.mp h
        exact ⟨c, ds, l, Or.inr ⟨hg, hbehind⟩, hc, hl⟩
      next =>
        obtain ⟨cs, c, ds, l, hg, hcs, hc, hl⟩ := visitGroup_fails_iff.mp h
        exact ⟨c, ds, l, Or.inl ⟨cs, hg, visitGroup_passes_iff.mpr hcs⟩, hc, hl⟩
    · intro h
      obtain ⟨c, ds, l, hg | ⟨hg, hbehind⟩, hc, hl⟩ := h
      · obtain ⟨cs, hg, hcs⟩ := hg
        have hfails := visitGroup_fails_iff.mpr
          ⟨cs, c, ds, l, hg, visitGroup_passes_iff.mp hcs, hc, hl⟩
        rw [hfails]
      · rw [hg]
        exact ih.mpr ⟨c, ds, l, hbehind, hc, hl⟩

theorem visitGroup_none {cs ds : List ν} {c : ν} (h : ∀ p ∈ cs, ∀ v, f p = some v → v = .passes)
    (hc : f c = none) : visitGroup f (cs ++ c :: ds) = none := by
  induction cs with
  | nil => simp [visitGroup, hc]
  | cons p cs ih =>
    obtain ⟨hp, h⟩ := List.forall_mem_cons.mp h
    rw [List.cons_append, visitGroup]
    split
    next => rfl
    next => exact ih h
    next l hl => cases hp _ hl

/-- The walk does not end when it does not end at a member that it comes to. -/
theorem visitGroups_none {groups : List (List ν)} {c : ν} {ds : List ν}
    (h : Behind (fun p => ∀ v, f p = some v → v = .passes) groups c ds) (hc : f c = none) :
    visitGroups f groups = none := by
  induction groups with
  | nil => simp [Behind] at h
  | cons g gs ih =>
    rw [visitGroups]
    rcases behind_cons_iff.mp h with ⟨cs, rfl, hcs⟩ | ⟨hg, hbehind⟩
    · rw [visitGroup_none hcs hc]
    · split
      next => exact ih hbehind
      next hne =>
        cases hv : visitGroup f g with
        | none => rfl
        | some v =>
          cases v with
          | passes => exact absurd hv hne
          | fails last =>
            obtain ⟨cs, d, ds', l, rfl, _, hd, _⟩ := visitGroup_fails_iff.mp hv
            cases hg d (by simp) _ hd

end

variable {shape : ν → Shape ν}

theorem visit_leaf {n : ν} {v : Verdict} (h : shape n = .leaf v) (fuel : Nat) :
    visit shape (fuel + 1) n = some v := by
  rw [visit, h]

theorem visit_inner {n : ν} {groups : List (List ν)} (h : shape n = .inner groups) (fuel : Nat) :
    visit shape (fuel + 1) n = visitGroups (visit shape fuel) groups := by
  rw [visit, h]

theorem visit_succ {fuel : Nat} {n : ν} {v : Verdict} (h : visit shape fuel n = some v) :
    visit shape (fuel + 1) n = some v := by
  induction fuel generalizing n v with
  | zero => cases h
  | succ fuel ih =>
    cases hs : shape n with
    | leaf w =>
      rw [visit_leaf hs] at h ⊢
      exact h
    | inner groups =>
      rw [visit_inner hs] at h ⊢
      cases v with
      | passes =>
        have hall := visitGroups_passes_iff.mp h
        exact visitGroups_passes_iff.mpr fun g hg c hc => ih (hall g hg c hc)
      | fails last =>
        obtain ⟨c, ds, l, hbehind, hc, hl⟩ := visitGroups_fails_iff.mp h
        exact visitGroups_fails_iff.mpr ⟨c, ds, l, hbehind.imp fun p hp => ih hp, ih hc, hl⟩

/-- More fuel does not change the verdict. -/
theorem visit_mono {fuel fuel' : Nat} (hle : fuel ≤ fuel') {n : ν} {v : Verdict}
    (h : visit shape fuel n = some v) : visit shape fuel' n = some v := by
  induction hle with
  | refl => exact h
  | step _ ih => exact visit_succ ih

theorem visit_unique {fuel fuel' : Nat} {n : ν} {v w : Verdict}
    (h : visit shape fuel n = some v) (h' : visit shape fuel' n = some w) : v = w := by
  have hv := visit_mono (Nat.le_max_left fuel fuel') h
  have hw := visit_mono (Nat.le_max_right fuel fuel') h'
  exact Option.some.inj (hv.symm.trans hw)

theorem exists_fuel_forall {v : Verdict} {l : List ν}
    (h : ∀ c ∈ l, ∃ fuel, visit shape fuel c = some v) :
    ∃ fuel, ∀ c ∈ l, visit shape fuel c = some v := by
  induction l with
  | nil => exact ⟨0, by simp⟩
  | cons c cs ih =>
    obtain ⟨⟨fuel, hc⟩, h⟩ := List.forall_mem_cons.mp h
    obtain ⟨fuel', hcs⟩ := ih h
    refine ⟨max fuel fuel', List.forall_mem_cons.mpr ⟨?_, fun p hp => ?_⟩⟩
    · exact visit_mono (Nat.le_max_left _ _) hc
    · exact visit_mono (Nat.le_max_right _ _) (hcs p hp)

/-- A node passes exactly when the walk says so. -/
theorem passes_iff {n : ν} : Passes shape n ↔ ∃ fuel, visit shape fuel n = some .passes := by
  constructor
  · intro h
    induction h with
    | leaf h => exact ⟨1, visit_leaf h 0⟩
    | @inner n groups h _ ih =>
      obtain ⟨fuel, hall⟩ := exists_fuel_forall (l := groups.flatten) fun c hc => by
        obtain ⟨g, hg, hcg⟩ := List.mem_flatten.mp hc
        exact ih g hg c hcg
      refine ⟨fuel + 1, ?_⟩
      rw [visit_inner h]
      exact visitGroups_passes_iff.mpr fun g hg c hc =>
        hall c (List.mem_flatten.mpr ⟨g, hg, hc⟩)
  · intro h
    obtain ⟨fuel, h⟩ := h
    induction fuel generalizing n with
    | zero => cases h
    | succ fuel ih =>
      cases hs : shape n with
      | leaf v =>
        rw [visit_leaf hs] at h
        exact Passes.leaf (Option.some.inj h ▸ hs)
      | inner groups =>
        rw [visit_inner hs] at h
        have hall := visitGroups_passes_iff.mp h
        exact Passes.inner hs fun g hg c hc => ih (hall g hg c hc)

theorem Passes.of_visit {fuel : Nat} {n : ν} (h : visit shape fuel n = some .passes) :
    Passes shape n := passes_iff.mpr ⟨fuel, h⟩

theorem Passes.eq_passes {fuel : Nat} {n : ν} {v : Verdict} (h : Passes shape n)
    (hv : visit shape fuel n = some v) : v = .passes := by
  obtain ⟨fuel', h⟩ := passes_iff.mp h
  exact visit_unique hv h

/-- With enough fuel what is before a member passes. -/
theorem Behind.exists_fuel {groups : List (List ν)} {c : ν} {ds : List ν}
    (h : Behind (Passes shape) groups c ds) :
    ∃ fuel, ∀ fuel', fuel ≤ fuel' →
      Behind (fun p => visit shape fuel' p = some .passes) groups c ds := by
  obtain ⟨before, cs, after, hgroups, hbefore, hcs⟩ := h
  obtain ⟨fuel, hall⟩ := exists_fuel_forall (l := before.flatten ++ cs) fun p hp => by
    rcases List.mem_append.mp hp with hp | hp
    · obtain ⟨g, hg, hpg⟩ := List.mem_flatten.mp hp
      exact passes_iff.mp (hbefore g hg p hpg)
    · exact passes_iff.mp (hcs p hp)
  refine ⟨fuel, fun fuel' hle => ⟨before, cs, after, hgroups, fun g hg p hp => ?_, fun p hp => ?_⟩⟩
  · have hmem : p ∈ before.flatten := List.mem_flatten.mpr ⟨g, hg, hp⟩
    exact visit_mono hle (hall p (List.mem_append_left _ hmem))
  · exact visit_mono hle (hall p (List.mem_append_right _ hp))

/-- A failure is last exactly when the walk says so. -/
theorem failsLast_iff {n : ν} :
    FailsLast shape n ↔ ∃ fuel, visit shape fuel n = some (.fails true) := by
  constructor
  · intro h
    induction h with
    | leaf h => exact ⟨1, visit_leaf h 0⟩
    | @inner n c groups h hbehind _ ih =>
      obtain ⟨fuel, hc⟩ := ih
      obtain ⟨fuel', hall⟩ := hbehind.exists_fuel
      refine ⟨max fuel fuel' + 1, ?_⟩
      rw [visit_inner h]
      have hc := visit_mono (Nat.le_max_left fuel fuel') hc
      exact visitGroups_fails_iff.mpr ⟨c, [], true, hall _ (Nat.le_max_right _ _), hc, rfl⟩
  · intro h
    obtain ⟨fuel, h⟩ := h
    induction fuel generalizing n with
    | zero => cases h
    | succ fuel ih =>
      cases hs : shape n with
      | leaf v =>
        rw [visit_leaf hs] at h
        exact FailsLast.leaf (Option.some.inj h ▸ hs)
      | inner groups =>
        rw [visit_inner hs] at h
        obtain ⟨c, ds, l, hbehind, hc, hl⟩ := visitGroups_fails_iff.mp h
        have hand := hl.symm
        rw [Bool.and_eq_true, List.isEmpty_iff] at hand
        obtain ⟨rfl, rfl⟩ := hand
        exact FailsLast.inner hs (hbehind.imp fun p hp => .of_visit hp) (ih hc)

theorem exists_visitGroup {cs g : List ν} (hcs : ∀ p ∈ cs, Passes shape p)
    (h : ∀ c ds ds', (∀ p ∈ ds, Passes shape p) → cs ++ g = ds ++ c :: ds' →
      ∃ fuel v, visit shape fuel c = some v) :
    ∃ fuel v, ∀ fuel', fuel ≤ fuel' → visitGroup (visit shape fuel') g = some v := by
  induction g generalizing cs with
  | nil => exact ⟨0, .passes, fun _ _ => rfl⟩
  | cons c g ih =>
    obtain ⟨fuel, v, hc⟩ := h c cs g hcs rfl
    cases v with
    | passes =>
      have hcs' : ∀ p ∈ cs ++ [c], Passes shape p := by
        intro p hp
        rcases List.mem_append.mp hp with hp | hp
        · exact hcs p hp
        · exact List.mem_singleton.mp hp ▸ .of_visit hc
      obtain ⟨fuel', v, hg⟩ := ih hcs' (by simpa using h)
      refine ⟨max fuel fuel', v, fun k hk => ?_⟩
      rw [visitGroup, visit_mono (by omega) hc]
      exact hg k (by omega)
    | fails last =>
      refine ⟨fuel, .fails (last && g.isEmpty), fun k hk => ?_⟩
      rw [visitGroup, visit_mono hk hc]

theorem exists_visitGroups (before groups : List (List ν))
    (hbefore : ∀ g ∈ before, ∀ p ∈ g, Passes shape p)
    (h : ∀ c ds, Behind (Passes shape) (before ++ groups) c ds →
      ∃ fuel v, visit shape fuel c = some v) :
    ∃ fuel v, ∀ fuel', fuel ≤ fuel' → visitGroups (visit shape fuel') groups = some v := by
  induction groups generalizing before with
  | nil => exact ⟨0, .passes, fun _ _ => rfl⟩
  | cons g groups ih =>
    have hmembers : ∀ c ds ds', (∀ p ∈ ds, Passes shape p) → [] ++ g = ds ++ c :: ds' →
        ∃ fuel v, visit shape fuel c = some v := by
      intro c ds ds' hds hg
      rw [List.nil_append] at hg
      exact h c ds' ⟨before, ds, groups, by rw [hg], hbefore, hds⟩
    obtain ⟨fuel, v, hg⟩ := exists_visitGroup (by simp) hmembers
    cases v with
    | passes =>
      have hpass := visitGroup_passes_iff.mp (hg fuel (Nat.le_refl _))
      have hbefore' : ∀ g' ∈ before ++ [g], ∀ p ∈ g', Passes shape p := by
        intro g' hg' p hp
        rcases List.mem_append.mp hg' with hg' | hg'
        · exact hbefore g' hg' p hp
        · rw [List.mem_singleton.mp hg'] at hp
          exact .of_visit (hpass p hp)
      obtain ⟨fuel', v, hgs⟩ := ih (before ++ [g]) hbefore' (by simpa using h)
      refine ⟨max fuel fuel', v, fun k hk => ?_⟩
      rw [visitGroups, hg k (by omega)]
      exact hgs k (by omega)
    | fails last =>
      refine ⟨fuel, .fails last, fun k hk => ?_⟩
      rw [visitGroups, hg k hk]

/-- The walk ends exactly when no path of nodes it enters is infinite. -/
theorem terminates_iff_acc {n : ν} :
    (∃ fuel v, visit shape fuel n = some v) ↔ Acc (fun c n => Enters shape n c) n := by
  constructor
  · intro h
    obtain ⟨fuel, v, h⟩ := h
    induction fuel generalizing n v with
    | zero => cases h
    | succ fuel ih =>
      refine Acc.intro n fun c hc => ?_
      obtain ⟨groups, ds, hs, hbehind⟩ := hc
      rw [visit_inner hs] at h
      cases hc : visit shape fuel c with
      | some w => exact ih w hc
      | none =>
        have hnone := visitGroups_none (hbehind.imp fun p hp w hw => hp.eq_passes hw) hc
        rw [hnone] at h
        cases h
  · intro h
    induction h with
    | intro n _ ih =>
      cases hs : shape n with
      | leaf v => exact ⟨1, v, visit_leaf hs 0⟩
      | inner groups =>
        obtain ⟨fuel, v, hall⟩ := exists_visitGroups [] groups (by simp)
          fun c ds hbehind => ih c ⟨groups, ds, hs, hbehind⟩
        refine ⟨fuel + 1, v, ?_⟩
        rw [visit_inner hs]
        exact hall fuel (Nat.le_refl _)

/-- Starting at `n` the walk comes to a node that it then enters again from within itself. -/
def Reenters (shape : ν → Shape ν) (n : ν) : Prop :=
  ∃ m, Relation.ReflTransGen (Enters shape) n m ∧ Relation.TransGen (Enters shape) m m

theorem Acc.not_transGen {r : ν → ν → Prop} {n : ν} (h : Acc r n) : ¬Relation.TransGen r n n := by
  have htrans := h.transGen
  clear h
  induction htrans with
  | intro n _ ih =>
    intro hcycle
    exact ih n hcycle hcycle

theorem not_reenters_of_acc {n : ν} (h : Acc (fun c n => Enters shape n c) n) :
    ¬Reenters shape n := by
  intro hre
  obtain ⟨m, hpath, hcycle⟩ := hre
  have hm : Acc (fun c n => Enters shape n c) m := by
    clear hcycle
    induction hpath with
    | refl => exact h
    | tail _ hstep ih => exact ih.inv hstep
  exact Acc.not_transGen hm (Relation.transGen_swap.mpr hcycle)

/-- A walk does not end at a node that enters itself. -/
theorem endless_of_enters_self {n : ν} (h : Enters shape n n) :
    ¬∃ fuel v, visit shape fuel n = some v := by
  rw [terminates_iff_acc]
  intro hacc
  exact Acc.not_transGen hacc (.single h)

/-- When finitely many nodes can be left downwards, an endless walk goes round. -/
theorem acc_of_not_reenters (hfin : {n | ∃ c, Enters shape n c}.Finite) {n : ν}
    (h : ¬Reenters shape n) : Acc (fun c n => Enters shape n c) n := by
  by_contra hacc
  obtain ⟨f, hzero, hchain⟩ := not_acc_iff_exists_descending_chain.mp hacc
  have hfinite : Finite {n | ∃ c, Enters shape n c} := hfin
  obtain ⟨i, j, hne, heq⟩ := Finite.exists_ne_map_eq_of_infinite
    fun k => (⟨f k, f (k + 1), hchain k⟩ : {n | ∃ c, Enters shape n c})
  have hsame : f i = f j := congrArg Subtype.val heq
  have hpath : ∀ k, Relation.ReflTransGen (Enters shape) n (f k) := by
    intro k
    induction k with
    | zero => rw [hzero]
    | succ k ih => exact ih.tail (hchain k)
  have hlater : ∀ k l, k < l → Relation.TransGen (Enters shape) (f k) (f l) := fun k l hlt =>
    Nat.rel_of_forall_rel_succ_of_lt _ (fun k => Relation.TransGen.single (hchain k)) hlt
  rcases Nat.lt_or_gt_of_ne hne with hlt | hlt
  · have hcycle := hlater i j hlt
    rw [← hsame] at hcycle
    exact h ⟨f i, hpath i, hcycle⟩
  · have hcycle := hlater j i hlt
    rw [hsame] at hcycle
    exact h ⟨f j, hpath j, hcycle⟩

/-- The walk over a finite graph ends exactly when no node on it is entered from within itself. -/
theorem terminates_iff (hfin : {n | ∃ c, Enters shape n c}.Finite) {n : ν} :
    (∃ fuel v, visit shape fuel n = some v) ↔ ¬Reenters shape n := by
  rw [terminates_iff_acc]
  exact ⟨not_reenters_of_acc, acc_of_not_reenters hfin⟩

end Walks
