import Tnode.HttpScanning

namespace Tnode

namespace HttpParser

/-- What is in front of the body, if the data has all of it: its length and what it says. -/
def headOf (data : List Byte) : Option (Nat × HttpParser) :=
  match scan (lineStep data) .requestLineDone data
    ⟨0, 0, .requestMethod, 0, [], ⟨[], [], [], []⟩⟩ with
  | .error _ => none
  | .ok s =>
    if s.ps ≠ .requestLineDone then none
    else
      match scan (headerStep data) .requestHeaderDone (data.drop s.nread)
        { s with prevread := s.nread, ps := .requestFieldName } with
      | .error _ => none
      | .ok s => if s.ps ≠ .requestHeaderDone then none else some (s.nread, s.parser)

theorem headOf_cases {data : List Byte} {h : Nat} {p : HttpParser}
    (hhead : headOf data = some (h, p)) :
    ∃ s t, scan (lineStep data) .requestLineDone data
        ⟨0, 0, .requestMethod, 0, [], ⟨[], [], [], []⟩⟩ = .ok s ∧ s.ps = .requestLineDone ∧
      scan (headerStep data) .requestHeaderDone (data.drop s.nread)
        { s with prevread := s.nread, ps := .requestFieldName } = .ok t ∧
      t.ps = .requestHeaderDone ∧ h = t.nread ∧ p = t.parser := by
  unfold headOf at hhead
  split at hhead
  next => cases hhead
  next s hline =>
    split at hhead
    next => cases hhead
    next hps =>
      split at hhead
      next => cases hhead
      next t hfields =>
        split at hhead
        next => cases hhead
        next hdone =>
          cases hhead
          exact ⟨s, t, hline, not_not.mp hps, hfields, not_not.mp hdone, rfl, rfl⟩

theorem scan_nread_le {step : HttpScan → Byte → Except HttpScan HttpScan} {last : HttpState}
    (hstep : ∀ s b t, step s b = .ok t → t.nread = s.nread + 1) {xs : List Byte}
    {s t : HttpScan} (h : scan step last xs s = .ok t) : s.nread ≤ t.nread := by
  induction xs generalizing s with
  | nil =>
    cases h
    exact Nat.le_refl _
  | cons b xs ih =>
    rw [scan] at h
    split at h
    next =>
      cases h
      exact Nat.le_refl _
    next =>
      split at h
      next u hu =>
        have hread := hstep s b u hu
        have hrest := ih h
        omega
      next => cases h

/-- A loop that comes to its end has read something. -/
theorem scan_advances {step : HttpScan → Byte → Except HttpScan HttpScan} {last : HttpState}
    (hstep : ∀ s b t, step s b = .ok t → t.nread = s.nread + 1) {xs : List Byte}
    {s t : HttpScan} (h : scan step last xs s = .ok t) (hs : s.ps ≠ last) (ht : t.ps = last) :
    s.nread < t.nread := by
  cases xs with
  | nil =>
    cases h
    exact absurd ht hs
  | cons b xs =>
    rw [scan, if_neg hs] at h
    split at h
    next u hu =>
      have hread := hstep s b u hu
      have hrest := scan_nread_le hstep h
      omega
    next => cases h

/-- A turn remembers the byte, and the headers end at a line end. -/
theorem headerStep_end {data : List Byte} {s t : HttpScan} {b : Byte}
    (h : headerStep data s b = .ok t) :
    t.c = b ∧ (t.ps = .requestHeaderDone → s.c = CR ∧ b = LF) := by
  simp only [headerStep] at h
  split at h
  next hps =>
    split at h
    next hend => cases h; exact ⟨rfl, fun _ => ⟨hend.2, hend.1⟩⟩
    next =>
      split at h
      next => cases h; exact ⟨rfl, fun hdone => by cases hdone⟩
      next => cases h; exact ⟨rfl, fun hdone => by rw [hps] at hdone; cases hdone⟩
  next hps =>
    split at h
    next =>
      split at h
      next => cases h; exact ⟨rfl, fun hdone => by cases hdone⟩
      next => cases h
    next => cases h; exact ⟨rfl, fun hdone => by rw [hps] at hdone; cases hdone⟩
  next => cases h

theorem lineStep_c {data : List Byte} {s t : HttpScan} {b : Byte}
    (h : lineStep data s b = .ok t) : t.c = b := by
  simp only [lineStep] at h
  split at h
  next =>
    split at h
    next => cases h; rfl
    next => cases h; rfl
  next =>
    split at h
    next => cases h; rfl
    next => cases h; rfl
  next =>
    split at h
    next => cases h; rfl
    next => cases h; rfl
  next => cases h

/-- The bytes that a loop reads, and the last of them. -/
theorem scan_reads {step : HttpScan → Byte → Except HttpScan HttpScan} {last : HttpState}
    (hstep : ∀ s b t, step s b = .ok t → t.nread = s.nread + 1)
    (hc : ∀ s b t, step s b = .ok t → t.c = b) {xs : List Byte} {s t : HttpScan}
    (h : scan step last xs s = .ok t) :
    ∃ ys zs, xs = ys ++ zs ∧ t.nread = s.nread + ys.length ∧ t.c = ys.getLastD s.c := by
  induction xs generalizing s with
  | nil =>
    cases h
    exact ⟨[], [], rfl, rfl, rfl⟩
  | cons b xs ih =>
    rw [scan] at h
    split at h
    next =>
      cases h
      exact ⟨[], b :: xs, rfl, rfl, rfl⟩
    next =>
      split at h
      next u hu =>
        obtain ⟨ys, zs, rfl, hread, hlast⟩ := ih h
        refine ⟨b :: ys, zs, rfl, ?_, ?_⟩
        · rw [hread, hstep s b u hu, List.length_cons]
          omega
        · rw [hlast, hc s b u hu, List.getLastD_cons]
      next => cases h

theorem scan_headers_end {data xs : List Byte} {s t : HttpScan}
    (h : scan (headerStep data) .requestHeaderDone xs s = .ok t) (hs : s.ps ≠ .requestHeaderDone)
    (ht : t.ps = .requestHeaderDone) :
    ∃ ys zs before, xs = ys ++ zs ∧ t.nread = s.nread + ys.length ∧
      s.c :: ys = before ++ [CR, LF] := by
  induction xs generalizing s with
  | nil =>
    cases h
    exact absurd ht hs
  | cons b xs ih =>
    rw [scan, if_neg hs] at h
    split at h
    next u hu =>
      have hread := (headerStep_read hu).1
      obtain ⟨hc, hend⟩ := headerStep_end hu
      by_cases hdone : u.ps = .requestHeaderDone
      · rw [scan_last hdone] at h
        cases h
        obtain ⟨hcr, hlf⟩ := hend hdone
        refine ⟨[b], xs, [], rfl, hread, ?_⟩
        rw [hcr, hlf]
        rfl
      · obtain ⟨ys, zs, before, rfl, hlen, hcrlf⟩ := ih h hdone
        refine ⟨b :: ys, zs, s.c :: before, rfl, ?_, ?_⟩
        · rw [hlen, hread, List.length_cons]
          omega
        · rw [List.cons_append, ← hcrlf, hc]
    next => cases h

/-- The head ends just behind a line end. -/
theorem headOf_line_end {data : List Byte} {h : Nat} {p : HttpParser}
    (hhead : headOf data = some (h, p)) : ∃ before, data.take h = before ++ [CR, LF] := by
  obtain ⟨s, t, hline, hps, hfields, hdone, rfl, _⟩ := headOf_cases hhead
  have hstart : HttpState.requestMethod ≠ .requestLineDone := by decide
  have hpos := scan_advances (fun s b t ht => (lineStep_read ht).1) hline hstart hps
  obtain ⟨line, rest, hdata, hread, hlast⟩ :=
    scan_reads (fun s b t ht => (lineStep_read ht).1) (fun s b t ht => lineStep_c ht) hline
  have hfirst : HttpState.requestFieldName ≠ .requestHeaderDone := by decide
  obtain ⟨fields, more, before, hrest, hlen, hcrlf⟩ := scan_headers_end hfields hfirst hdone
  simp only [Nat.zero_add] at hread hpos
  have hdrop : data.drop s.nread = rest := by
    rw [hdata, hread, List.drop_left]
  rw [hdrop] at hrest
  rcases List.eq_nil_or_concat line with hnil | ⟨front, b, hfront⟩
  · rw [hnil, List.length_nil] at hread
    omega
  · refine ⟨front ++ before, ?_⟩
    have hb : s.c = b := by
      rw [hlast, hfront]
      simp
    have htake : data.take t.nread = line ++ fields := by
      have hlength : t.nread = (line ++ fields).length := by
        rw [hlen, List.length_append]
        show s.nread + fields.length = line.length + fields.length
        omega
      rw [hdata, hrest, ← List.append_assoc, hlength, List.take_left]
    rw [htake, hfront, List.concat_eq_append, List.append_assoc, List.singleton_append, ← hb, hcrlf,
      List.append_assoc]

end HttpParser

end Tnode
