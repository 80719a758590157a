import Tnode.HttpScanning

namespace Tnode

def CRLF : List Byte := [CR, LF]

/-- No line end goes from the first byte to the second. -/
def Within (p b : Byte) : Prop := ¬(b = LF ∧ p = CR)

theorem chain_within {p : Byte} {v : List Byte} (hp : p ≠ CR) (hv : ¬CRLF <:+: v) :
    (p :: v).IsChain Within := by
  have hchain : v.IsChain Within := by
    apply (List.isChain_isInfix v).imp
    intro a b hab hend
    obtain ⟨rfl, rfl⟩ := hend
    exact hv hab
  cases v with
  | nil => exact List.isChain_singleton p
  | cons b v => exact List.isChain_cons_cons.mpr ⟨fun hend => hp hend.2, hchain⟩

theorem chain_within_concat {p : Byte} {v : List Byte} (h : (p :: v).IsChain Within) :
    (p :: (v ++ [CR])).IsChain Within := by
  rw [← List.cons_append, List.isChain_append]
  refine ⟨h, List.isChain_singleton CR, fun x _ y hy => ?_⟩
  intro hend
  cases hy
  exact absurd hend.1 (by decide)

namespace HttpRequest

def headerLines : List (List Byte × List Byte) → List Byte
  | [] => []
  | h :: hs => h.1 ++ COLON :: SP :: h.2 ++ CRLF ++ headerLines hs

end HttpRequest

namespace HttpParser

section

variable {data : List Byte} {i : Nat} {c : Byte} {name : List Byte} {p : HttpParser}

theorem chain_of_not_mem {sep : Byte} {xs : List Byte} (h : sep ∉ xs) (c : Byte) :
    (c :: xs).IsChain fun _ b => b ≠ sep := by
  induction xs generalizing c with
  | nil => exact List.isChain_singleton c
  | cons b xs ih =>
    rw [List.mem_cons, not_or] at h
    exact List.isChain_cons_cons.mpr ⟨Ne.symm h.1, ih h.2 b⟩

theorem onlyReads_method : OnlyReads (lineStep data) .requestMethod fun _ b => b ≠ SP := by
  intro s b hs hb
  obtain ⟨nread, prevread, ps, c, name, p⟩ := s
  cases hs
  simp only [lineStep, if_neg hb]
  rfl

theorem onlyReads_url : OnlyReads (lineStep data) .requestUrl fun _ b => b ≠ SP := by
  intro s b hs hb
  obtain ⟨nread, prevread, ps, c, name, p⟩ := s
  cases hs
  simp only [lineStep, if_neg hb]
  rfl

theorem onlyReads_version : OnlyReads (lineStep data) .requestVersion Within := by
  intro s b hs hb
  obtain ⟨nread, prevread, ps, c, name, p⟩ := s
  cases hs
  simp only [lineStep, if_neg hb]
  rfl

theorem onlyReads_name :
    OnlyReads (headerStep data) .requestFieldName fun a b => Within a b ∧ b ≠ COLON := by
  intro s b hs hb
  obtain ⟨nread, prevread, ps, c, name, p⟩ := s
  cases hs
  simp only [headerStep, if_neg hb.1, if_neg hb.2]
  rfl

theorem onlyReads_value : OnlyReads (headerStep data) .requestFieldValue Within := by
  intro s b hs hb
  obtain ⟨nread, prevread, ps, c, name, p⟩ := s
  cases hs
  simp only [headerStep, if_neg hb]
  rfl

theorem scan_method {m : List Byte} (hslice : slice data i m.length = m) (hfree : SP ∉ m) :
    scan (lineStep data) .requestLineDone (m ++ [SP]) ⟨i, i, .requestMethod, c, name, p⟩ =
      .ok ⟨i + m.length + 1, i + m.length + 1, .requestUrl, SP, name, { p with reqMethod := m }⟩ := by
  apply scan_segment onlyReads_method (by decide) rfl (chain_of_not_mem hfree c)
  have hlen : i + m.length + 1 - i - 1 = m.length := by omega
  simp only [lineStep, HttpScan.read, if_true, hlen, hslice]

theorem scan_url {u : List Byte} (hslice : slice data i u.length = u) (hfree : SP ∉ u) :
    scan (lineStep data) .requestLineDone (u ++ [SP]) ⟨i, i, .requestUrl, c, name, p⟩ =
      .ok ⟨i + u.length + 1, i + u.length + 1, .requestVersion, SP, name, { p with reqUrl := u }⟩ := by
  apply scan_segment onlyReads_url (by decide) rfl (chain_of_not_mem hfree c)
  have hlen : i + u.length + 1 - i - 1 = u.length := by omega
  simp only [lineStep, HttpScan.read, if_true, hlen, hslice]

theorem getLastD_concat_CR (v : List Byte) (c : Byte) : (v ++ [CR]).getLastD c = CR := by
  simp

theorem scan_version {v : List Byte} (hslice : slice data i v.length = v) (hfree : ¬CRLF <:+: v) :
    scan (lineStep data) .requestLineDone (v ++ CRLF) ⟨i, i, .requestVersion, SP, name, p⟩ =
      .ok ⟨i + v.length + 2, i, .requestLineDone, LF, name, { p with reqVersion := v }⟩ := by
  have hcrlf : v ++ CRLF = (v ++ [CR]) ++ [LF] := by simp [CRLF]
  rw [hcrlf]
  have hsp : SP ≠ CR := by decide
  apply scan_segment onlyReads_version (by decide) rfl (chain_within_concat (chain_within hsp hfree))
  have hlen : i + (v ++ [CR]).length + 1 - i - 2 = v.length := by
    rw [List.length_append, List.length_singleton]
    omega
  simp only [lineStep, HttpScan.read, getLastD_concat_CR, and_self, if_true, hlen, hslice]
  rw [List.length_append, List.length_singleton]
  rfl

theorem chain_name {n : List Byte} (hcolon : COLON ∉ n) (hfree : ¬CRLF <:+: n) :
    (LF :: n).IsChain fun a b => Within a b ∧ b ≠ COLON := by
  have hlf : LF ≠ CR := by decide
  have hwithin := chain_within hlf hfree
  generalize LF = c at hwithin
  induction n generalizing c with
  | nil => exact List.isChain_singleton c
  | cons b n ih =>
    rw [List.mem_cons, not_or] at hcolon
    obtain ⟨hb, hwithin⟩ := List.isChain_cons_cons.mp hwithin
    have hfree' : ¬CRLF <:+: n := fun h => hfree (List.infix_cons h)
    exact List.isChain_cons_cons.mpr ⟨⟨hb, Ne.symm hcolon.1⟩, ih hcolon.2 hfree' b hwithin⟩

theorem scan_name {n : List Byte} (hslice : slice data i n.length = n) (hcolon : COLON ∉ n)
    (hfree : ¬CRLF <:+: n) :
    scan (headerStep data) .requestHeaderDone (n ++ [COLON]) ⟨i, i, .requestFieldName, LF, name, p⟩ =
      .ok ⟨i + n.length + 1, i + n.length + 1, .requestFieldValue, COLON, n, p⟩ := by
  apply scan_segment onlyReads_name (by decide) rfl (chain_name hcolon hfree)
  have hlen : i + n.length + 1 - i - 1 = n.length := by omega
  have hne : ¬(COLON = LF ∧ n.getLastD LF = CR) := fun h => absurd h.1 (by decide)
  simp only [headerStep, HttpScan.read, if_neg hne, if_true, hlen, hslice]

/-- The space in front of a value is erased, and nothing else. -/
theorem eraseSpaces_cons {v : List Byte} (hhead : v.head? ≠ some SP)
    (hlast : v.getLast? ≠ some SP) : eraseSpaces (SP :: v) = v := by
  have hdrop : (SP :: v).dropWhile (· = SP) = v := by
    rw [List.dropWhile_cons_of_pos (by decide)]
    cases v with
    | nil => rfl
    | cons b v =>
      have hb : b ≠ SP := fun h => hhead (congrArg some h)
      exact List.dropWhile_cons_of_neg (by simpa using hb)
  rw [eraseSpaces, if_neg (by simp), hdrop]
  rcases List.eq_nil_or_concat v with rfl | ⟨l, b, rfl⟩
  · rfl
  · rw [List.concat_eq_append, List.getLast?_concat] at hlast
    have hb : b ≠ SP := fun h => hlast (congrArg some h)
    rw [List.concat_eq_append]
    exact List.rdropWhile_concat_neg _ _ _ (by simpa using hb)

theorem scan_value {v : List Byte} (hslice : slice data i (v.length + 1) = SP :: v)
    (hfree : ¬CRLF <:+: v) (hhead : v.head? ≠ some SP) (hlast : v.getLast? ≠ some SP)
    (hname : name ∉ p.reqHeaders.map Prod.fst) :
    scan (headerStep data) .requestHeaderDone (SP :: v ++ CRLF)
        ⟨i, i, .requestFieldValue, COLON, name, p⟩ =
      .ok ⟨i + v.length + 3, i + v.length + 3, .requestFieldName, LF, name,
        { p with reqHeaders := p.reqHeaders ++ [(name, v)] }⟩ := by
  have hcrlf : SP :: v ++ CRLF = (SP :: (v ++ [CR])) ++ [LF] := by simp [CRLF]
  have hsp : SP ≠ CR := by decide
  have hcolon : Within COLON SP := fun h => absurd h.1 (by decide)
  have hchain := List.isChain_cons_cons.mpr ⟨hcolon, chain_within_concat (chain_within hsp hfree)⟩
  rw [hcrlf]
  apply scan_segment onlyReads_value (by decide) rfl hchain
  have hlen : i + (SP :: (v ++ [CR])).length + 1 - i - 2 = v.length + 1 := by
    rw [List.length_cons, List.length_append, List.length_singleton]
    omega
  have hc : (SP :: (v ++ [CR])).getLastD COLON = CR := by
    rw [List.getLastD_cons, getLastD_concat_CR]
  simp only [headerStep, HttpScan.read, hc, and_self, if_true, hlen, hslice,
    eraseSpaces_cons hhead hlast, insertHeader, if_neg hname]
  rw [List.length_cons, List.length_append, List.length_singleton]
  rfl

theorem scan_blank :
    scan (headerStep data) .requestHeaderDone CRLF ⟨i, i, .requestFieldName, LF, name, p⟩ =
      .ok ⟨i + 2, i, .requestHeaderDone, LF, name, p⟩ := rfl

/-- One line of the headers. -/
theorem scan_header {n v before after : List Byte}
    (hdata : data = before ++ ((n ++ [COLON]) ++ (SP :: v ++ CRLF) ++ after))
    (hi : i = before.length) (hn : COLON ∉ n ∧ ¬CRLF <:+: n)
    (hv : ¬CRLF <:+: v ∧ v.head? ≠ some SP ∧ v.getLast? ≠ some SP)
    (hfresh : n ∉ p.reqHeaders.map Prod.fst) :
    scan (headerStep data) .requestHeaderDone ((n ++ [COLON]) ++ (SP :: v ++ CRLF))
        ⟨i, i, .requestFieldName, LF, name, p⟩ =
      .ok ⟨i + n.length + 1 + v.length + 3, i + n.length + 1 + v.length + 3, .requestFieldName, LF,
        n, { p with reqHeaders := p.reqHeaders ++ [(n, v)] }⟩ := by
  have hname : slice data i n.length = n := by
    have hall : data = before ++ (n ++ ([COLON] ++ (SP :: v ++ CRLF) ++ after)) := by
      rw [hdata]
      simp
    exact slice_append hall hi
  have hvalue : slice data (i + n.length + 1) (v.length + 1) = SP :: v := by
    have hall : data = (before ++ n ++ [COLON]) ++ ((SP :: v) ++ (CRLF ++ after)) := by
      rw [hdata]
      simp
    have hpos : i + n.length + 1 = (before ++ n ++ [COLON]).length := by
      simp only [List.length_append, List.length_singleton, hi]
    exact slice_append hall hpos
  rw [scan_of_scan (scan_name hname hn.1 hn.2)]
  exact scan_value hvalue hv.1 hv.2.1 hv.2.2 hfresh

/-- The loop over the headers reads the lines of any number of them. -/
theorem scan_headers {hs : List (List Byte × List Byte)} {before after : List Byte}
    (hdata : data = before ++ (HttpRequest.headerLines hs ++ after)) (hi : i = before.length)
    (hnames : ∀ h ∈ hs, COLON ∉ h.1 ∧ ¬CRLF <:+: h.1)
    (hvalues : ∀ h ∈ hs, ¬CRLF <:+: h.2 ∧ h.2.head? ≠ some SP ∧ h.2.getLast? ≠ some SP)
    (hdistinct : ((p.reqHeaders ++ hs).map Prod.fst).Nodup) :
    ∃ name', scan (headerStep data) .requestHeaderDone (HttpRequest.headerLines hs)
        ⟨i, i, .requestFieldName, LF, name, p⟩ =
      .ok ⟨i + (HttpRequest.headerLines hs).length, i + (HttpRequest.headerLines hs).length,
        .requestFieldName, LF, name', { p with reqHeaders := p.reqHeaders ++ hs }⟩ := by
  induction hs generalizing i before name p with
  | nil => exact ⟨name, by simp [HttpRequest.headerLines, scan]⟩
  | cons h hs ih =>
    obtain ⟨n, v⟩ := h
    obtain ⟨hn, hnames⟩ := List.forall_mem_cons.mp hnames
    obtain ⟨hv, hvalues⟩ := List.forall_mem_cons.mp hvalues
    have hlines : HttpRequest.headerLines ((n, v) :: hs) =
        ((n ++ [COLON]) ++ (SP :: v ++ CRLF)) ++ HttpRequest.headerLines hs := by
      simp [HttpRequest.headerLines]
    have hfresh : n ∉ p.reqHeaders.map Prod.fst := by
      rw [List.map_append, List.map_cons, List.nodup_append] at hdistinct
      intro hmem
      exact hdistinct.2.2 n hmem n (by simp) rfl
    have hrest : ((p.reqHeaders ++ [(n, v)] ++ hs).map Prod.fst).Nodup := by
      rw [List.append_assoc]
      exact hdistinct
    rw [hlines, List.append_assoc] at hdata
    have hlater : data = (before ++ ((n ++ [COLON]) ++ (SP :: v ++ CRLF))) ++
        (HttpRequest.headerLines hs ++ after) := by
      rw [hdata, List.append_assoc before]
    have hpos : i + n.length + 1 + v.length + 3 =
        (before ++ ((n ++ [COLON]) ++ (SP :: v ++ CRLF))).length := by
      simp only [List.length_append, List.length_cons, List.length_nil, hi, CRLF]
      omega
    obtain ⟨name', htail⟩ := @ih (i + n.length + 1 + v.length + 3) n
      { p with reqHeaders := p.reqHeaders ++ [(n, v)] } _ hlater hpos hnames hvalues hrest
    have hlen : i + (HttpRequest.headerLines ((n, v) :: hs)).length =
        i + n.length + 1 + v.length + 3 + (HttpRequest.headerLines hs).length := by
      rw [hlines]
      simp only [List.length_append, List.length_cons, List.length_nil, CRLF]
      omega
    refine ⟨name', ?_⟩
    rw [hlen, hlines, scan_of_scan (scan_header hdata hi hn hv hfresh), htail, List.append_assoc,
      List.singleton_append]

end

end HttpParser

end Tnode
