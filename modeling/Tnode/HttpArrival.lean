import Tnode.HttpBodyLength

namespace Tnode

namespace HttpParser

/-- A loop that is over, or has failed, does not look at what follows. -/
theorem scan_settled {step : HttpScan → Byte → Except HttpScan HttpScan} {last : HttpState}
    {xs : List Byte} {s : HttpScan} (h : ∀ t, scan step last xs s = .ok t → t.ps = last)
    (ys : List Byte) : scan step last (xs ++ ys) s = scan step last xs s := by
  rw [scan_append]
  cases hs : scan step last xs s with
  | error t => rfl
  | ok t => exact scan_last (h t hs) ys

theorem takeBody_more {data : List Byte} {nread : Nat} {p : HttpParser}
    (h : takeBody data nread p ≠ 0) (more : List Byte) :
    takeBody (data ++ more) nread p = takeBody data nread p := by
  unfold takeBody at h ⊢
  cases hheader : p.header contentLength with
  | none => rfl
  | some lengthValue =>
    simp only [hheader] at h ⊢
    cases hn : stol lengthValue with
    | none => rfl
    | some n =>
      simp only [hn] at h ⊢
      split at h
      next => exact absurd rfl h
      next hle => rw [if_neg hle, if_neg (by rw [List.length_append]; omega)]

/-- The headers of a request line that was read, with more data behind. -/
theorem scan_headers_settled {data : List Byte} (more : List Byte) {s : HttpScan}
    (hread : s.nread ≤ data.length)
    (h : ∀ t, scan (headerStep data) .requestHeaderDone (data.drop s.nread)
      { s with prevread := s.nread, ps := .requestFieldName } = .ok t → t.ps = .requestHeaderDone) :
    scan (headerStep (data ++ more)) .requestHeaderDone ((data ++ more).drop s.nread)
        { s with prevread := s.nread, ps := .requestFieldName } =
      scan (headerStep data) .requestHeaderDone (data.drop s.nread)
        { s with prevread := s.nread, ps := .requestFieldName } := by
  have hmore : scan (headerStep (data ++ more)) .requestHeaderDone (data.drop s.nread)
      { s with prevread := s.nread, ps := .requestFieldName } =
        scan (headerStep data) .requestHeaderDone (data.drop s.nread)
          { s with prevread := s.nread, ps := .requestFieldName } :=
    scan_headers_more more (Nat.le_refl _) (by simp only [List.length_drop]; omega)
  rw [List.drop_append_of_le_length hread, scan_settled, hmore]
  intro t ht
  exact h t (hmore ▸ ht)

theorem parse_more {data : List Byte} {this : HttpParser} (h : (parse this data).1 ≠ 0)
    (more : List Byte) (that : HttpParser) : parse that (data ++ more) = parse this data := by
  have hne : data.isEmpty = false := by
    cases data with
    | nil => exact absurd rfl h
    | cons b data => rfl
  have hne' : (data ++ more).isEmpty = false := by
    cases data with
    | nil => cases hne
    | cons b data => rfl
  simp only [parse, hne, hne', Bool.false_eq_true, if_false, clear] at h ⊢
  have hmore : scan (lineStep (data ++ more)) .requestLineDone data
      ⟨0, 0, .requestMethod, 0, [], ⟨[], [], [], []⟩⟩ = scan (lineStep data) .requestLineDone data
        ⟨0, 0, .requestMethod, 0, [], ⟨[], [], [], []⟩⟩ :=
    scan_line_more more (Nat.le_refl 0) (by simp)
  cases hline : scan (lineStep data) .requestLineDone data
      ⟨0, 0, .requestMethod, 0, [], ⟨[], [], [], []⟩⟩ with
  | error s =>
    rw [scan_settled (by simp [hmore, hline]), hmore, hline]
  | ok s =>
    simp only [hline] at h
    by_cases hps : s.ps = .requestLineDone
    swap
    · rw [if_pos hps] at h
      exact absurd rfl h
    have hnread : s.nread ≤ data.length := by
      simpa using scan_nread (fun s b t ht => (lineStep_read ht).1) hline
    rw [scan_settled (by simp [hmore, hline, hps]), hmore, hline]
    simp only [hps, ne_eq, not_true_eq_false, if_false] at h ⊢
    cases hfields : scan (headerStep data) .requestHeaderDone (data.drop s.nread)
        { s with prevread := s.nread, ps := .requestFieldName } with
    | error t =>
      rw [scan_headers_settled more hnread (by simp [hfields]), hfields]
    | ok t =>
      simp only [hfields] at h
      by_cases hdone : t.ps = .requestHeaderDone
      swap
      · rw [if_pos hdone] at h
        exact absurd rfl h
      rw [scan_headers_settled more hnread (by simp [hfields, hdone]), hfields]
      simp only [hdone, not_true_eq_false, if_false] at h ⊢
      rw [takeBody_more h]

/-- What is read of a connection may be cut anywhere: the first prefix for which `parse` has an
answer, an end or an error, has the answer of every longer one, whatever the object held before. -/
theorem answer_settled {p q : List Byte} (hpq : p <+: q) {this : HttpParser}
    (h : (parse this p).1 ≠ 0) (that : HttpParser) : parse that q = parse this p := by
  obtain ⟨more, rfl⟩ := hpq
  exact parse_more h more that

theorem answer_settled_two_requests :
    parse ⟨[], [], [], []⟩ (bytes "GET / HTTP/1.1\r\n\r\nGET /next") =
      parse ⟨[], [], [], []⟩ (bytes "GET / HTTP/1.1\r\n\r\n") :=
  answer_settled ⟨bytes "GET /next", by decide +kernel⟩ (by decide +kernel) _

end HttpParser

end Tnode
