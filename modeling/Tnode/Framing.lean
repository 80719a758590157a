import Mathlib.Data.List.Basic

namespace Framing

inductive Verdict
  | more
  | bad
  | frame (n : Nat)
deriving DecidableEq, Repr

/-- A rule cuts frames off the front of a stream. Bytes arriving later never
change a verdict once it is given. -/
structure Rule (α : Type) where
  verdict : List α → Verdict
  frame_pos : ∀ {xs n}, verdict xs = .frame n → 0 < n
  frame_le : ∀ {xs n}, verdict xs = .frame n → n ≤ xs.length
  frame_append : ∀ {xs n} (ys), verdict xs = .frame n → verdict (xs ++ ys) = .frame n
  bad_append : ∀ {xs} (ys), verdict xs = .bad → verdict (xs ++ ys) = .bad

structure Parsed (α : Type) where
  frames : List (List α)
  rest : List α
  bad : Bool
deriving DecidableEq, Repr

variable {α : Type} (r : Rule α)

/-- All frames at the front of a stream, and what stands behind them. -/
def Rule.parse (xs : List α) : Parsed α :=
  match _hv : r.verdict xs with
  | .more => ⟨[], xs, false⟩
  | .bad => ⟨[], xs, true⟩
  | .frame n =>
    let p := Rule.parse (xs.drop n)
    ⟨xs.take n :: p.frames, p.rest, p.bad⟩
termination_by xs.length
decreasing_by
  have hp := r.frame_pos _hv
  have hl := r.frame_le _hv
  simp only [List.length_drop]
  omega

variable {r}

theorem Rule.parse_more {xs : List α} (h : r.verdict xs = .more) :
    r.parse xs = ⟨[], xs, false⟩ := by
  rw [Rule.parse]
  split <;> simp_all

theorem Rule.parse_bad {xs : List α} (h : r.verdict xs = .bad) :
    r.parse xs = ⟨[], xs, true⟩ := by
  rw [Rule.parse]
  split <;> simp_all

theorem Rule.parse_frame {xs : List α} {n : Nat} (h : r.verdict xs = .frame n) :
    r.parse xs = ⟨xs.take n :: (r.parse (xs.drop n)).frames,
      (r.parse (xs.drop n)).rest, (r.parse (xs.drop n)).bad⟩ := by
  rw [Rule.parse]
  split
  next hm => simp [hm] at h
  next hb => simp [hb] at h
  next m hf =>
    have he : m = n := by simpa [hf] using h
    subst m
    rfl

theorem Rule.stream_induction {P : List α → Prop}
    (more : ∀ xs, r.verdict xs = .more → P xs) (bad : ∀ xs, r.verdict xs = .bad → P xs)
    (frame : ∀ xs n, r.verdict xs = .frame n → P (xs.drop n) → P xs) (xs : List α) : P xs := by
  induction hn : xs.length using Nat.strongRecOn generalizing xs with
  | ind len ih =>
    cases hv : r.verdict xs with
    | more => exact more xs hv
    | bad => exact bad xs hv
    | frame n =>
      have hp := r.frame_pos hv
      have hl := r.frame_le hv
      exact frame xs n hv (ih (xs.drop n).length (by simp only [List.length_drop]; omega) _ rfl)

theorem Rule.verdict_rest (xs : List α) :
    r.verdict (r.parse xs).rest = if (r.parse xs).bad then .bad else .more := by
  induction xs using Rule.stream_induction (r := r) with
  | more xs hv => simp [Rule.parse_more hv, hv]
  | bad xs hv => simp [Rule.parse_bad hv, hv]
  | frame xs n hv ih => rw [Rule.parse_frame hv]; exact ih

/-- Parsing in two pieces: the second piece is read behind what the first left. -/
theorem Rule.parse_append (xs ys : List α) :
    r.parse (xs ++ ys) =
      if (r.parse xs).bad then ⟨(r.parse xs).frames, (r.parse xs).rest ++ ys, true⟩
      else ⟨(r.parse xs).frames ++ (r.parse ((r.parse xs).rest ++ ys)).frames,
        (r.parse ((r.parse xs).rest ++ ys)).rest, (r.parse ((r.parse xs).rest ++ ys)).bad⟩ := by
  induction xs using Rule.stream_induction (r := r) with
  | more xs hv => simp [Rule.parse_more hv]
  | bad xs hv => simp [Rule.parse_bad hv, Rule.parse_bad (r.bad_append ys hv)]
  | frame xs n hv ih =>
    have hl := r.frame_le hv
    rw [Rule.parse_frame (r.frame_append ys hv), Rule.parse_frame hv]
    rw [List.take_append_of_le_length hl, List.drop_append_of_le_length hl, ih]
    split <;> simp_all

theorem Rule.bad_of_isPrefix {xs zs : List α} (hp : xs <+: zs) (hb : (r.parse xs).bad = true) :
    (r.parse zs).bad = true ∧ (r.parse zs).frames = (r.parse xs).frames := by
  obtain ⟨ys, rfl⟩ := hp
  rw [Rule.parse_append, if_pos hb]
  exact ⟨rfl, rfl⟩

variable (r) in
/-- A byte string that the rule takes as one frame, whole. -/
def Rule.IsFrame (f : List α) : Prop := r.verdict f = .frame f.length

theorem Rule.parse_cons_frame {f : List α} (hf : r.IsFrame f) (ys : List α) :
    r.parse (f ++ ys) = ⟨f :: (r.parse ys).frames, (r.parse ys).rest, (r.parse ys).bad⟩ := by
  rw [Rule.parse_frame (r.frame_append ys hf)]
  simp

theorem Rule.parse_frames {fs : List (List α)} (hf : ∀ f ∈ fs, r.IsFrame f) (ys : List α) :
    r.parse (fs.flatten ++ ys) =
      ⟨fs ++ (r.parse ys).frames, (r.parse ys).rest, (r.parse ys).bad⟩ := by
  induction fs with
  | nil => simp
  | cons f fs ih =>
    have hh := ih (fun g hg => hf g (List.mem_cons_of_mem f hg))
    rw [List.flatten_cons, List.append_assoc, Rule.parse_cons_frame (hf f (by simp)), hh]
    simp

theorem Rule.good_of_prefix_frames {fs : List (List α)} (hf : ∀ f ∈ fs, r.IsFrame f)
    (hnil : r.verdict [] = .more) {xs : List α} (hp : xs <+: fs.flatten) :
    (r.parse xs).bad = false := by
  by_contra hb
  have hbad := (Rule.bad_of_isPrefix hp (by simpa using hb)).1
  have hh := Rule.parse_frames hf []
  rw [List.append_nil, Rule.parse_more hnil] at hh
  simp [hh] at hbad

theorem Rule.frames_isPrefix {fs : List (List α)} (hf : ∀ f ∈ fs, r.IsFrame f)
    (hnil : r.verdict [] = .more) {xs : List α} (hp : xs <+: fs.flatten) :
    (r.parse xs).frames <+: fs := by
  have hgood := Rule.good_of_prefix_frames hf hnil hp
  obtain ⟨ys, hys⟩ := hp
  have hh := Rule.parse_frames hf []
  rw [List.append_nil, Rule.parse_more hnil, ← hys, Rule.parse_append, hgood] at hh
  exact ⟨_, by simpa using congrArg Parsed.frames hh⟩

end Framing
