import Tnode.HttpParser
import Mathlib.Data.List.Chain

namespace Tnode

theorem slice_append {data before xs after : List Byte} (h : data = before ++ (xs ++ after))
    {i : Nat} (hi : i = before.length) : slice data i xs.length = xs := by
  subst hi
  rw [slice, h, List.drop_left, List.take_left]

/-- A slice that is read already is the same when more data follows. -/
theorem slice_more {data : List Byte} (more : List Byte) {i count : Nat}
    (h : i + count ≤ data.length) : slice (data ++ more) i count = slice data i count := by
  have hdrop : count ≤ (data.drop i).length := by
    rw [List.length_drop]
    omega
  rw [slice, slice, List.drop_append_of_le_length (by omega), List.take_append_of_le_length hdrop]

namespace HttpScan

/-- The scan behind bytes that are only read. -/
def read (s : HttpScan) (xs : List Byte) : HttpScan :=
  { s with nread := s.nread + xs.length, c := xs.getLastD s.c }

theorem read_cons (s : HttpScan) (b : Byte) (xs : List Byte) :
    (s.read [b]).read xs = s.read (b :: xs) := by
  have hlen : s.nread + [b].length + xs.length = s.nread + (b :: xs).length := by
    simp only [List.length_cons, List.length_nil]
    omega
  simp only [read, hlen, List.getLastD_cons, List.getLastD_nil]

end HttpScan

namespace HttpParser

section

variable {step : HttpScan → Byte → Except HttpScan HttpScan} {last : HttpState}

theorem scan_last {s : HttpScan} (h : s.ps = last) (xs : List Byte) :
    scan step last xs s = .ok s := by
  cases xs with
  | nil => rfl
  | cons b xs => rw [scan, if_pos h]

theorem scan_append (xs ys : List Byte) (s : HttpScan) :
    scan step last (xs ++ ys) s =
      match scan step last xs s with
      | .ok t => scan step last ys t
      | .error t => .error t := by
  induction xs generalizing s with
  | nil => rfl
  | cons b xs ih =>
    by_cases h : s.ps = last
    · rw [scan_last h, scan_last h]
      exact (scan_last h ys).symm
    · rw [List.cons_append, scan, scan, if_neg h, if_neg h]
      cases step s b with
      | ok t => exact ih t
      | error t => rfl

theorem scan_of_scan {xs : List Byte} {s t : HttpScan} (h : scan step last xs s = .ok t)
    (ys : List Byte) : scan step last (xs ++ ys) s = scan step last ys t := by
  rw [scan_append, h]

/-- Behind the end of a loop nothing is looked at. -/
theorem scan_through {xs : List Byte} {s t : HttpScan} (h : scan step last xs s = .ok t)
    (ht : t.ps = last) (ys : List Byte) : scan step last (xs ++ ys) s = .ok t :=
  (scan_of_scan h ys).trans (scan_last ht ys)

/-- In the state `ps` a byte that stands in the relation `Q` to the one before it is only read. -/
def OnlyReads (step : HttpScan → Byte → Except HttpScan HttpScan) (ps : HttpState)
    (Q : Byte → Byte → Prop) : Prop :=
  ∀ s b, s.ps = ps → Q s.c b → step s b = .ok (s.read [b])

theorem scan_read {ps : HttpState} {Q : Byte → Byte → Prop} (hstep : OnlyReads step ps Q)
    (hps : ps ≠ last) {xs : List Byte} {s : HttpScan} (hs : s.ps = ps)
    (hxs : (s.c :: xs).IsChain Q) : scan step last xs s = .ok (s.read xs) := by
  induction xs generalizing s with
  | nil => rfl
  | cons b xs ih =>
    obtain ⟨hb, hxs⟩ := List.isChain_cons_cons.mp hxs
    have hread := ih (s := s.read [b]) hs hxs
    have hne : s.ps ≠ last := fun h => hps (hs.symm.trans h)
    rw [scan, if_neg hne, hstep s b hs hb]
    exact hread.trans (congrArg Except.ok (s.read_cons b xs))

/-- Bytes that are only read, and the one behind them that is not. -/
theorem scan_segment {ps : HttpState} {Q : Byte → Byte → Prop} (hstep : OnlyReads step ps Q)
    (hps : ps ≠ last) {xs : List Byte} {b : Byte} {s t : HttpScan} (hs : s.ps = ps)
    (hxs : (s.c :: xs).IsChain Q) (hend : step (s.read xs) b = .ok t) :
    scan step last (xs ++ [b]) s = .ok t := by
  have hne : (s.read xs).ps ≠ last := fun h => hps (hs.symm.trans h)
  rw [scan_append, scan_read hstep hps hs hxs]
  show scan step last [b] (s.read xs) = .ok t
  rw [scan, if_neg hne, hend]
  rfl

theorem scan_nread (hstep : ∀ s b t, step s b = .ok t → t.nread = s.nread + 1) {xs : List Byte}
    {s t : HttpScan} (h : scan step last xs s = .ok t) : t.nread ≤ s.nread + xs.length := by
  induction xs generalizing s with
  | nil =>
    cases h
    omega
  | cons b xs ih =>
    rw [scan] at h
    rw [List.length_cons]
    split at h
    next =>
      cases h
      omega
    next =>
      split at h
      next u hu =>
        have hread := hstep s b u hu
        have hrest := ih h
        omega
      next => cases h

/-- A loop that needs all the bytes to end has not ended when some are missing. -/
theorem scan_missing (hstep : ∀ s b t, step s b = .ok t → t.nread = s.nread + 1)
    {xs ys : List Byte} {s t : HttpScan} (h : scan step last (xs ++ ys) s = .ok t)
    (hread : t.nread = s.nread + (xs ++ ys).length) (hys : ys ≠ []) :
    ∃ u, scan step last xs s = .ok u ∧ u.ps ≠ last := by
  rw [scan_append] at h
  cases hu : scan step last xs s with
  | error u =>
    rw [hu] at h
    cases h
  | ok u =>
    rw [hu] at h
    refine ⟨u, rfl, fun hlast => ?_⟩
    have hle := scan_nread hstep hu
    have hpos := List.length_pos_of_ne_nil hys
    have heq : u = t := Except.ok.inj ((scan_last hlast ys).symm.trans h)
    rw [← heq, List.length_append] at hread
    omega

end

/-- Where a loop has come within the data, it does the same when more data follows. -/
theorem scan_more {stepOf : List Byte → HttpScan → Byte → Except HttpScan HttpScan}
    {last : HttpState} {data : List Byte} (more : List Byte)
    (hmore : ∀ s b, s.prevread ≤ s.nread → s.nread < data.length →
      stepOf (data ++ more) s b = stepOf data s b)
    (hstep : ∀ s b t, stepOf data s b = .ok t → s.prevread ≤ s.nread →
      t.prevread ≤ t.nread ∧ t.nread = s.nread + 1) {xs : List Byte} {s : HttpScan}
    (hprev : s.prevread ≤ s.nread) (hlen : s.nread + xs.length ≤ data.length) :
    scan (stepOf (data ++ more)) last xs s = scan (stepOf data) last xs s := by
  induction xs generalizing s with
  | nil => rfl
  | cons b xs ih =>
    rw [List.length_cons] at hlen
    rw [scan, scan, hmore s b hprev (by omega)]
    split
    next => rfl
    next =>
      cases ht : stepOf data s b with
      | error t => rfl
      | ok t =>
        obtain ⟨hle, hread⟩ := hstep s b t ht hprev
        exact ih hle (by omega)

/-- A part that is read is the same when more data follows. -/
theorem slice_part_more {data : List Byte} (more : List Byte) {s : HttpScan} {k : Nat} (hk : 0 < k)
    (hprev : s.prevread ≤ s.nread) (hlt : s.nread < data.length) :
    slice (data ++ more) s.prevread (s.nread + 1 - s.prevread - k) =
      slice data s.prevread (s.nread + 1 - s.prevread - k) := by
  apply slice_more
  omega

theorem lineStep_more {data : List Byte} (more : List Byte) (s : HttpScan) (b : Byte)
    (hprev : s.prevread ≤ s.nread) (hlt : s.nread < data.length) :
    lineStep (data ++ more) s b = lineStep data s b := by
  have hone := slice_part_more more (Nat.zero_lt_one) hprev hlt
  have htwo := slice_part_more more (Nat.zero_lt_two) hprev hlt
  simp only [lineStep, hone, htwo]

theorem headerStep_more {data : List Byte} (more : List Byte) (s : HttpScan) (b : Byte)
    (hprev : s.prevread ≤ s.nread) (hlt : s.nread < data.length) :
    headerStep (data ++ more) s b = headerStep data s b := by
  have hone := slice_part_more more (Nat.zero_lt_one) hprev hlt
  have htwo := slice_part_more more (Nat.zero_lt_two) hprev hlt
  simp only [headerStep, hone, htwo]

/-- A turn reads one byte, and a part begins where the reading is or before. -/
theorem lineStep_read {data : List Byte} {s t : HttpScan} {b : Byte}
    (h : lineStep data s b = .ok t) :
    t.nread = s.nread + 1 ∧ (s.prevread ≤ s.nread → t.prevread ≤ t.nread) := by
  simp only [lineStep] at h
  split at h
  next =>
    split at h
    next => cases h; exact ⟨rfl, fun _ => Nat.le_refl _⟩
    next => cases h; exact ⟨rfl, fun hle => Nat.le_succ_of_le hle⟩
  next =>
    split at h
    next => cases h; exact ⟨rfl, fun _ => Nat.le_refl _⟩
    next => cases h; exact ⟨rfl, fun hle => Nat.le_succ_of_le hle⟩
  next =>
    split at h
    next => cases h; exact ⟨rfl, fun hle => Nat.le_succ_of_le hle⟩
    next => cases h; exact ⟨rfl, fun hle => Nat.le_succ_of_le hle⟩
  next => cases h

theorem headerStep_read {data : List Byte} {s t : HttpScan} {b : Byte}
    (h : headerStep data s b = .ok t) :
    t.nread = s.nread + 1 ∧ (s.prevread ≤ s.nread → t.prevread ≤ t.nread) := by
  simp only [headerStep] at h
  split at h
  next =>
    split at h
    next => cases h; exact ⟨rfl, fun hle => Nat.le_succ_of_le hle⟩
    next =>
      split at h
      next => cases h; exact ⟨rfl, fun _ => Nat.le_refl _⟩
      next => cases h; exact ⟨rfl, fun hle => Nat.le_succ_of_le hle⟩
  next =>
    split at h
    next =>
      split at h
      next => cases h; exact ⟨rfl, fun _ => Nat.le_refl _⟩
      next => cases h
    next => cases h; exact ⟨rfl, fun hle => Nat.le_succ_of_le hle⟩
  next => cases h

theorem scan_line_more {data : List Byte} (more : List Byte) {xs : List Byte} {s : HttpScan}
    (hprev : s.prevread ≤ s.nread) (hlen : s.nread + xs.length ≤ data.length) :
    scan (lineStep (data ++ more)) .requestLineDone xs s =
      scan (lineStep data) .requestLineDone xs s :=
  scan_more more (lineStep_more more)
    (fun _ _ _ ht hle => ⟨(lineStep_read ht).2 hle, (lineStep_read ht).1⟩) hprev hlen

theorem scan_headers_more {data : List Byte} (more : List Byte) {xs : List Byte} {s : HttpScan}
    (hprev : s.prevread ≤ s.nread) (hlen : s.nread + xs.length ≤ data.length) :
    scan (headerStep (data ++ more)) .requestHeaderDone xs s =
      scan (headerStep data) .requestHeaderDone xs s :=
  scan_more more (headerStep_more more)
    (fun _ _ _ ht hle => ⟨(headerStep_read ht).2 hle, (headerStep_read ht).1⟩) hprev hlen

end HttpParser

end Tnode
