import Tnode.Transitions
import Tnode.ByteBuffer

namespace Tnode

open Transitions

/-- What passes bytes through a buffer; `commit` is `wbuffer(n)`, bytes put at the pointer it
returns, and `wlength` of as many. -/
inductive Traffic
  | append (s : List Byte)
  | commit (n : Nat) (s : List Byte)
  | read (len : Nat)
  | rlength (len : Nat)
deriving DecidableEq

namespace Traffic

def step (b : ByteBuffer) : Traffic → Option ByteBuffer
  | append s => b.append s
  | commit n s => do
    let b ← (b.wbuffer n).store s
    b.wlength s.length
  | read len | rlength len => b.rlength len

/-- The size an operation asks for. -/
def request : Traffic → Nat
  | append s => s.length
  | commit n _ => n
  | read len | rlength len => len

def written : Traffic → Nat
  | append s | commit _ s => s.length
  | read _ | rlength _ => 0

/-- No more is committed than was reserved, no request exceeds `R`, and no more than `B` bytes
are unread afterwards. -/
def Within (B R : Nat) (b : ByteBuffer) (op : Traffic) : Prop :=
  op.written ≤ op.request ∧ op.request ≤ R ∧ ∀ t, step b op = some t → t.size ≤ B

/-- The bytes written since the buffer was last empty, of which there were `k` at the start. -/
def sinceEmpty : ByteBuffer → Nat → List Traffic → Nat
  | _, k, [] => k
  | b, k, op :: ops =>
    match step b op with
    | none => k
    | some t => sinceEmpty t (if t.size = 0 then 0 else k + op.written) ops

theorem store_fields {b c : ByteBuffer} {s : List Byte} (h : b.store s = some c) :
    c.windex = b.windex ∧ c.rindex = b.rindex ∧ c.capacity = b.capacity := by
  unfold ByteBuffer.store at h
  split at h
  next => cases h; exact ⟨rfl, rfl, rfl⟩
  next => simp at h

theorem wlength_fields {b c : ByteBuffer} {len : Nat} (h : b.wlength len = some c) :
    c.windex = b.windex + len ∧ c.rindex = b.rindex ∧ c.capacity = b.capacity := by
  unfold ByteBuffer.wlength at h
  split at h
  next => cases h; exact ⟨rfl, rfl, rfl⟩
  next => simp at h

theorem write_cases {b t : ByteBuffer} {n : Nat} {s : List Byte}
    (h : (((b.wbuffer n).store s).bind fun c => c.wlength s.length) = some t) :
    t.windex = b.windex + s.length ∧ t.rindex = b.rindex ∧
      t.capacity = (b.reserve n).capacity := by
  obtain ⟨c, hc, hd⟩ := Option.bind_eq_some_iff.mp h
  obtain ⟨hcw, hcr, hcc⟩ := store_fields hc
  obtain ⟨hdw, hdr, hdc⟩ := wlength_fields hd
  refine ⟨?_, ?_, ?_⟩
  · rw [hdw, hcw, ByteBuffer.wbuffer, ByteBuffer.windex_reserve]
  · rw [hdr, hcr, ByteBuffer.wbuffer, ByteBuffer.rindex_reserve]
  · rw [hdc, hcc, ByteBuffer.wbuffer]

theorem read_cases {b t : ByteBuffer} {len : Nat} (h : b.rlength len = some t) :
    t.capacity = b.capacity ∧ len ≤ b.size ∧
      (t.windex = 0 ∧ t.rindex = 0 ∧ b.size = len ∨
        t.windex = b.windex ∧ t.rindex = b.rindex + len ∧ t.size ≠ 0) := by
  unfold ByteBuffer.rlength at h
  split at h
  next hle =>
    cases h
    have hs := b.windex_eq
    unfold ByteBuffer.shrink
    split
    next hz =>
      simp only [ByteBuffer.size] at hz
      exact ⟨rfl, by omega, Or.inl ⟨rfl, rfl, by omega⟩⟩
    next hz => exact ⟨rfl, by omega, Or.inr ⟨rfl, rfl, hz⟩⟩
  next => simp at h

/-- An operation either writes behind room of its request, or reads. -/
theorem step_cases {b t : ByteBuffer} {op : Traffic} (h : step b op = some t) :
    (t.windex = b.windex + op.written ∧ t.rindex = b.rindex ∧
      t.capacity = (b.reserve op.request).capacity) ∨
    (op.written = 0 ∧ t.capacity = b.capacity ∧
      (t.windex = 0 ∧ t.rindex = 0 ∨ t.windex = b.windex ∧ t.size ≠ 0)) := by
  cases op with
  | append s => exact Or.inl (write_cases h)
  | commit n s => exact Or.inl (write_cases h)
  | read len | rlength len =>
    obtain ⟨hc, -, hi⟩ := read_cases h
    refine Or.inr ⟨rfl, hc, ?_⟩
    rcases hi with ⟨hw, hr, -⟩ | ⟨hw, -, hz⟩
    · exact Or.inl ⟨hw, hr⟩
    · exact Or.inr ⟨hw, hz⟩

/-- The least capacity after a growth at write index `k`. -/
theorem reserve_capacity_le {b : ByteBuffer} {n k R M : Nat} (hk : b.windex ≤ k) (hn : n ≤ R)
    (hcap : b.capacity ≤ M) (hM : k + 2 * R + BUFFER_CHUNK_SIZE ≤ M) :
    (b.reserve n).capacity ≤ M := by
  unfold ByteBuffer.reserve
  split
  next => exact hcap
  next hb =>
    simp only [ByteBuffer.blank] at hb
    have hfull : b.capacity ≤ k + R := by split at hb <;> omega
    dsimp only
    split <;> omega

/-- What a run keeps: the write index counts the bytes since the buffer was last empty. -/
structure Counts (b : ByteBuffer) (k : Nat) : Prop where
  windex : b.windex = k
  empty : b.size = 0 → k = 0

theorem step_counts {b t : ByteBuffer} {k : Nat} {op : Traffic} (hb : Counts b k)
    (h : step b op = some t) : Counts t (if t.size = 0 then 0 else k + op.written) := by
  have hbw := b.windex_eq
  have htw := t.windex_eq
  have hk := hb.windex
  have hz := hb.empty
  split
  next hempty =>
    refine ⟨?_, fun _ => rfl⟩
    rcases step_cases h with ⟨hw, hr, -⟩ | ⟨-, -, ⟨hw, -⟩ | ⟨-, hne⟩⟩
    · have hbz : b.size = 0 := by omega
      have hk0 := hz hbz
      omega
    · exact hw
    · exact absurd hempty hne
  next hne =>
    refine ⟨?_, fun hempty => absurd hempty hne⟩
    rcases step_cases h with ⟨hw, -, -⟩ | ⟨hn, -, ⟨hw, hr⟩ | ⟨hw, -⟩⟩
    · omega
    · omega
    · omega

theorem new_counts (size : Nat) : Counts (.new size) 0 := by
  have hw : (ByteBuffer.new size).windex = 0 := by
    simp only [ByteBuffer.new, ByteBuffer.windex_reserve]
  exact ⟨hw, fun _ => rfl⟩

theorem run_counts {b t : ByteBuffer} {k : Nat} {ops : List Traffic} (hb : Counts b k)
    (h : run step b ops = some t) : Counts t (sinceEmpty b k ops) := by
  induction ops generalizing b k with
  | nil => cases Option.some.inj h; exact hb
  | cons op ops ih =>
    obtain ⟨c, hc, h⟩ := run_cons_iff.mp h
    have hrest := ih (step_counts hb hc) h
    simpa only [sinceEmpty, hc] using hrest

/-- As long as the bytes since the buffer was last empty are bounded, so is the capacity. -/
theorem run_capacity_le {b t : ByteBuffer} {k K B R M : Nat} {ops : List Traffic}
    (hb : Counts b k) (hin : Along step (Within B R) b ops) (h : run step b ops = some t)
    (hK : ∀ pre, pre <+: ops → sinceEmpty b k pre ≤ K) (hcap : b.capacity ≤ M)
    (hM : K + 2 * R + BUFFER_CHUNK_SIZE ≤ M) : t.capacity ≤ M := by
  induction ops generalizing b k with
  | nil => cases Option.some.inj h; exact hcap
  | cons op ops ih =>
    obtain ⟨c, hc, h⟩ := run_cons_iff.mp h
    have hk : k ≤ K := by simpa [sinceEmpty] using hK [] List.nil_prefix
    have hccap : c.capacity ≤ M := by
      rcases step_cases hc with ⟨-, -, he⟩ | ⟨-, he, -⟩
      · rw [he]
        exact reserve_capacity_le (by rw [hb.windex]; exact hk) hin.1.2.1 hcap hM
      · omega
    apply ih (step_counts hb hc) (hin.2 c hc) h ?_ hccap
    intro pre hpre
    have hlong := hK (op :: pre) (List.cons_prefix_cons.mpr ⟨rfl, hpre⟩)
    simpa only [sinceEmpty, hc] using hlong

theorem step_small {b t : ByteBuffer} {k B R : Nat} {op : Traffic} (hBR : B ≤ 1 ∨ R = 0)
    (hb : Counts b k) (hk : k ≤ 1) (hin : Within B R b op) (h : step b op = some t) :
    (if t.size = 0 then 0 else k + op.written) ≤ 1 := by
  obtain ⟨hreq, hR, hB⟩ := hin
  have hsize := hB t h
  have hbw := b.windex_eq
  have htw := t.windex_eq
  have hz := hb.empty
  split
  next => exact Nat.zero_le _
  next hne =>
    rcases step_cases h with ⟨hw, hr, -⟩ | ⟨hn, -, -⟩
    · rcases hBR with hB1 | hR0
      · by_cases hempty : b.size = 0
        · have hk0 := hz hempty
          omega
        · omega
      · omega
    · omega

theorem sinceEmpty_le_one {b : ByteBuffer} {k B R : Nat} {ops : List Traffic}
    (hBR : B ≤ 1 ∨ R = 0) (hb : Counts b k) (hk : k ≤ 1)
    (hin : Along step (Within B R) b ops) : sinceEmpty b k ops ≤ 1 := by
  induction ops generalizing b k with
  | nil => exact hk
  | cons op ops ih =>
    cases hc : step b op with
    | none => simpa only [sinceEmpty, hc] using hk
    | some c =>
      simp only [sinceEmpty, hc]
      exact ih (step_counts hb hc) (step_small hBR hb hk hin.1 hc) (hin.2 c hc)

/-- One byte in and one byte out, over and over. -/
def churn : Nat → List Traffic
  | 0 => []
  | n + 1 => append [0] :: read 1 :: churn n

theorem append_one (b : ByteBuffer) :
    ∃ t, step b (append [0]) = some t ∧ t.size = b.size + 1 ∧ t.windex = b.windex + 1 := by
  obtain ⟨t, ht, hu⟩ := b.append_spec [0]
  obtain ⟨hw, -, -⟩ := write_cases ht
  refine ⟨t, ht, ?_, hw⟩
  rw [← ByteBuffer.length_unread, hu]
  simp

theorem read_one {b : ByteBuffer} (h : b.size = 2) :
    ∃ t, step b (read 1) = some t ∧ t.size = 1 ∧ t.windex = b.windex := by
  obtain ⟨t, ht, hu⟩ := ByteBuffer.rlength_spec (show 1 ≤ b.size by omega)
  obtain ⟨-, -, hi⟩ := read_cases ht
  refine ⟨t, ht, ?_, ?_⟩
  · rw [← ByteBuffer.length_unread, hu]
    simp [h]
  · rcases hi with ⟨-, -, hb⟩ | ⟨hw, -, -⟩
    · omega
    · exact hw

/-- A buffer that is never empty moves its write index on for ever. -/
theorem churn_run {B R : Nat} (hB : 2 ≤ B) (hR : 1 ≤ R) {b : ByteBuffer} (hb : b.size = 1)
    (n : Nat) :
    Along step (Within B R) b (churn n) ∧
      ∃ t, run step b (churn n) = some t ∧ t.windex = b.windex + n := by
  induction n generalizing b with
  | zero => exact ⟨trivial, b, rfl, rfl⟩
  | succ n ih =>
    obtain ⟨c, hc, hcs, hcw⟩ := append_one b
    obtain ⟨d, hd, hds, hdw⟩ := read_one (show c.size = 2 by omega)
    obtain ⟨hin, t, ht, htw⟩ := ih hds
    refine ⟨⟨⟨Nat.le_refl _, hR, ?_⟩, ?_⟩, t, ?_, by omega⟩
    · intro t ht
      rw [hc] at ht
      cases ht
      omega
    · intro c' hc'
      rw [hc] at hc'
      cases hc'
      refine ⟨⟨Nat.zero_le _, hR, ?_⟩, ?_⟩
      · intro t ht
        rw [hd] at ht
        cases ht
        omega
      · intro d' hd'
        rw [hd] at hd'
        cases hd'
        exact hin
    · exact run_cons_iff.mpr ⟨c, hc, run_cons_iff.mpr ⟨d, hd, ht⟩⟩

/-- A run on a fresh buffer within the bounds. -/
def IsRun (size B R : Nat) (ops : List Traffic) : Prop :=
  Along step (Within B R) (.new size) ops ∧ ∃ t, run step (.new size) ops = some t

theorem churn_isRun {B R : Nat} (hB : 2 ≤ B) (hR : 1 ≤ R) (size n : Nat) :
    Along step (Within B R) (.new size) (append [0] :: churn n) ∧
      ∃ t, run step (.new size) (append [0] :: churn n) = some t ∧ t.windex = n + 1 := by
  obtain ⟨c, hc, hcs, hcw⟩ := append_one (.new size)
  have hnew : (ByteBuffer.new size).size = 0 := by
    rw [← ByteBuffer.length_unread, ByteBuffer.unread_new]
    rfl
  have hw : (ByteBuffer.new size).windex = 0 := (new_counts size).windex
  obtain ⟨hin, t, ht, htw⟩ := churn_run hB hR (show c.size = 1 by omega) n
  refine ⟨⟨⟨Nat.le_refl _, hR, ?_⟩, ?_⟩, t, run_cons_iff.mpr ⟨c, hc, ht⟩, by omega⟩
  · intro t ht
    rw [hc] at ht
    cases ht
    omega
  · intro c' hc'
    rw [hc] at hc'
    cases hc'
    exact hin

/-- The capacity stays below a bound that depends on `B` and `R` alone. -/
def Bounded (size B R : Nat) : Prop :=
  ∃ C, ∀ ops t, Along step (Within B R) (.new size) ops → run step (.new size) ops = some t →
    t.capacity ≤ C

theorem not_bounded {B R : Nat} (hB : 2 ≤ B) (hR : 1 ≤ R) (size : Nat) : ¬ Bounded size B R := by
  intro h
  obtain ⟨C, hC⟩ := h
  obtain ⟨hin, t, ht, hw⟩ := churn_isRun hB hR size C
  have hcap := hC _ t hin ht
  have hle := t.windex_le
  omega

theorem bounded_of_sinceEmpty {size B R K : Nat} {ops : List Traffic} {t : ByteBuffer}
    (hin : Along step (Within B R) (.new size) ops) (h : run step (.new size) ops = some t)
    (hK : ∀ pre, pre <+: ops → sinceEmpty (.new size) 0 pre ≤ K) :
    t.capacity ≤ (ByteBuffer.new size).capacity + K + 2 * R + BUFFER_CHUNK_SIZE :=
  run_capacity_le (new_counts size) hin h hK (by omega) (by omega)

/-- The capacity is bounded by `B` and `R` alone only where a buffer with unread bytes takes no
more; and over any collection of runs it is bounded exactly if the bytes written between two
moments at which the buffer is empty are. -/
theorem bounded_iff (size B R : Nat) :
    (Bounded size B R ↔ B ≤ 1 ∨ R = 0) ∧
    ∀ F : List Traffic → Prop, (∀ ops, F ops → IsRun size B R ops) →
      ((∃ C, ∀ ops, F ops → ∀ pre t, pre <+: ops → run step (.new size) pre = some t →
          t.capacity ≤ C) ↔
        ∃ K, ∀ ops, F ops → ∀ pre, pre <+: ops → sinceEmpty (.new size) 0 pre ≤ K) := by
  constructor
  · constructor
    · intro h
      by_contra hnot
      exact not_bounded (by omega) (by omega) size h
    · intro hBR
      refine ⟨(ByteBuffer.new size).capacity + 1 + 2 * R + BUFFER_CHUNK_SIZE, ?_⟩
      intro ops t hin h
      apply bounded_of_sinceEmpty hin h
      intro pre hpre
      exact sinceEmpty_le_one hBR (new_counts size) (Nat.zero_le 1) (hin.of_isPrefix hpre)
  · intro F hF
    constructor
    · rintro ⟨C, hC⟩
      refine ⟨C, ?_⟩
      intro ops hops pre hpre
      obtain ⟨-, t, ht⟩ := hF ops hops
      obtain ⟨u, hu⟩ := run_of_isPrefix hpre ht
      have hcap := hC ops hops pre u hpre hu
      have hcount := (run_counts (new_counts size) hu).windex
      have hle := u.windex_le
      omega
    · rintro ⟨K, hK⟩
      refine ⟨(ByteBuffer.new size).capacity + K + 2 * R + BUFFER_CHUNK_SIZE, ?_⟩
      intro ops hops pre t hpre ht
      apply bounded_of_sinceEmpty ((hF ops hops).1.of_isPrefix hpre) ht
      intro pre' hpre'
      exact hK ops hops pre' (hpre'.trans hpre)

theorem two_unread_unbounded : ¬ ∀ B R, Bounded 65535 B R := by
  intro h
  exact not_bounded (Nat.le_refl 2) (Nat.le_refl 1) 65535 (h 2 1)

end Traffic

end Tnode
