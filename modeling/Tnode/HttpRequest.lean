import Tnode.HttpParts
import Tnode.JsonDecimal

namespace Tnode

/-- The digits of a decimal number. -/
def IsDecimal (v : List Byte) (n : Nat) : Prop :=
  v ≠ [] ∧ (∀ d ∈ v, isdigit d = true) ∧ digitsValue v = n

theorem isDecimal_of_all {v : List Byte} {n : Nat} (hne : v ≠ []) (hall : v.all isdigit = true)
    (hv : digitsValue v = n) : IsDecimal v n :=
  ⟨hne, List.all_eq_true.mp hall, hv⟩

/-- A request that can be written to the wire. -/
structure HttpRequest where
  method : List Byte
  url : List Byte
  version : List Byte
  headers : List (List Byte × List Byte)
  body : List Byte
  method_free : SP ∉ method
  url_free : SP ∉ url
  version_free : ¬CRLF <:+: version
  names_distinct : (headers.map Prod.fst).Nodup
  names_free : ∀ h ∈ headers, COLON ∉ h.1 ∧ ¬CRLF <:+: h.1
  values_free : ∀ h ∈ headers, ¬CRLF <:+: h.2 ∧ h.2.head? ≠ some SP ∧ h.2.getLast? ≠ some SP
  body_length : match headers.lookup HttpParser.contentLength with
    | some v => IsDecimal v body.length
    | none => body = []

namespace HttpRequest

def requestLine (q : HttpRequest) : List Byte :=
  q.method ++ SP :: q.url ++ SP :: q.version ++ CRLF

/-- What is in front of the body. -/
def head (q : HttpRequest) : List Byte := q.requestLine ++ (headerLines q.headers ++ CRLF)

def wire (q : HttpRequest) : List Byte := q.head ++ q.body

/-- What parsing the request makes of the object. -/
def parsed (q : HttpRequest) : HttpParser := ⟨q.method, q.url, q.version, q.headers⟩

end HttpRequest

namespace HttpParser

theorem stol_decimal {v : List Byte} {n : Nat} (h : IsDecimal v n) (hn : n < 2 ^ 63) :
    stol (cstr v) = some (n : Int) := by
  obtain ⟨hne, hdigits, hvalue⟩ := h
  obtain ⟨d, ds, rfl⟩ := List.exists_cons_of_ne_nil hne
  have hzero : (0 : Byte) ∉ d :: ds := fun hmem => absurd (hdigits 0 hmem) (by decide)
  have hd : isdigit d = true := hdigits d (by simp)
  have hbound : LONG_MIN ≤ (n : Int) ∧ (n : Int) ≤ LONG_MAX := by
    rw [LONG_MIN, LONG_MAX]
    omega
  have hhead : (d :: ds).head?.any isdigit = true := hd
  rw [cstr_eq_self_iff.mpr hzero, stol, signed_digits hd]
  simp only [Bool.false_eq_true, if_false, hvalue, hhead, true_and, if_pos hbound]

end HttpParser

namespace HttpRequest

open HttpParser

theorem length_requestLine (q : HttpRequest) : q.requestLine.length =
    q.method.length + 1 + q.url.length + 1 + q.version.length + 2 := by
  simp only [requestLine, CRLF, List.length_append, List.length_cons, List.length_nil]
  omega

theorem scan_requestLine (q : HttpRequest) (rest : List Byte) :
    scan (lineStep (q.requestLine ++ rest)) .requestLineDone q.requestLine
        ⟨0, 0, .requestMethod, 0, [], ⟨[], [], [], []⟩⟩ =
      .ok ⟨q.requestLine.length, q.method.length + 1 + q.url.length + 1, .requestLineDone, LF, [],
        ⟨q.method, q.url, q.version, []⟩⟩ := by
  have hparts : q.requestLine =
      (q.method ++ [SP]) ++ ((q.url ++ [SP]) ++ (q.version ++ CRLF)) := by
    simp [requestLine]
  have hmethod : slice (q.requestLine ++ rest) 0 q.method.length = q.method := by
    have hall : q.requestLine ++ rest = [] ++ (q.method ++
        ([SP] ++ ((q.url ++ [SP]) ++ (q.version ++ CRLF)) ++ rest)) := by
      rw [hparts]
      simp
    exact slice_append hall rfl
  have hurl : slice (q.requestLine ++ rest) (0 + q.method.length + 1) q.url.length = q.url := by
    have hall : q.requestLine ++ rest = (q.method ++ [SP]) ++ (q.url ++
        ([SP] ++ (q.version ++ CRLF) ++ rest)) := by
      rw [hparts]
      simp
    apply slice_append hall
    rw [List.length_append, List.length_singleton]
    omega
  have hversion : slice (q.requestLine ++ rest) (0 + q.method.length + 1 + q.url.length + 1)
      q.version.length = q.version := by
    have hall : q.requestLine ++ rest = (q.method ++ [SP] ++ (q.url ++ [SP])) ++ (q.version ++
        (CRLF ++ rest)) := by
      rw [hparts]
      simp
    apply slice_append hall
    simp only [List.length_append, List.length_singleton]
    omega
  have hlen : q.requestLine.length = 0 + q.method.length + 1 + q.url.length + 1 +
      q.version.length + 2 := by
    rw [length_requestLine]
    omega
  generalize q.requestLine ++ rest = data at hmethod hurl hversion ⊢
  rw [hlen, hparts, scan_of_scan (scan_method hmethod q.method_free),
    scan_of_scan (scan_url hurl q.url_free), scan_version hversion q.version_free, Nat.zero_add]

theorem scan_fields (q : HttpRequest) (rest : List Byte) :
    ∃ prevread name, scan (headerStep (q.head ++ rest)) .requestHeaderDone
        (headerLines q.headers ++ CRLF)
        ⟨q.requestLine.length, q.requestLine.length, .requestFieldName, LF, [],
          ⟨q.method, q.url, q.version, []⟩⟩ =
      .ok ⟨q.head.length, prevread, .requestHeaderDone, LF, name, q.parsed⟩ := by
  have hdata : q.head ++ rest = q.requestLine ++ (headerLines q.headers ++ (CRLF ++ rest)) := by
    simp [head]
  obtain ⟨name, hlines⟩ := @scan_headers _ _ [] ⟨q.method, q.url, q.version, []⟩ q.headers
    q.requestLine _ hdata rfl q.names_free q.values_free q.names_distinct
  have hlen : q.head.length = q.requestLine.length + (headerLines q.headers).length + 2 := by
    simp only [head, CRLF, List.length_append, List.length_cons, List.length_nil]
    omega
  refine ⟨q.requestLine.length + (headerLines q.headers).length, name, ?_⟩
  rw [hlen, scan_of_scan hlines, scan_blank]
  rfl

theorem requestLine_ne_nil (q : HttpRequest) : q.requestLine ≠ [] := by
  intro h
  have hlen := q.length_requestLine
  rw [h, List.length_nil] at hlen
  omega

/-- The whole head is read, whatever follows it. -/
theorem parse_head (q : HttpRequest) (rest : List Byte) (this : HttpParser) :
    parse this (q.head ++ rest) =
      (takeBody (q.head ++ rest) q.head.length q.parsed, q.parsed) := by
  have hparts : q.head ++ rest = q.requestLine ++ ((headerLines q.headers ++ CRLF) ++ rest) := by
    simp [head]
  have hne : (q.head ++ rest).isEmpty = false := by
    rw [hparts]
    simp [q.requestLine_ne_nil]
  have hline := q.scan_requestLine ((headerLines q.headers ++ CRLF) ++ rest)
  have hall := scan_through hline rfl ((headerLines q.headers ++ CRLF) ++ rest)
  rw [← hparts] at hall
  obtain ⟨prevread, name, hfields⟩ := q.scan_fields rest
  have hdrop : (q.head ++ rest).drop q.requestLine.length =
      (headerLines q.headers ++ CRLF) ++ rest := by
    rw [hparts, List.drop_left]
  have hrest := scan_through hfields rfl rest
  rw [parse, hne, clear, hall]
  simp only [Bool.false_eq_true, if_false, ne_eq, not_true_eq_false]
  rw [hdrop, hrest]
  simp

/-- With the whole head the return value is the length of the request, or 0 while the body is not
complete. -/
theorem takeBody_head (q : HttpRequest) (hbody : q.body.length < 2 ^ 63)
    (hwire : q.wire.length < 2 ^ 64) {data : List Byte} (hdata : q.head.length ≤ data.length) :
    takeBody data q.head.length q.parsed =
      if data.length < q.wire.length then 0 else q.wire.length := by
  have hlen : q.wire.length = q.head.length + q.body.length := List.length_append
  have hdecl := q.body_length
  cases hlookup : q.headers.lookup contentLength with
  | none =>
    rw [hlookup] at hdecl
    have hbody : q.body.length = 0 := List.length_eq_zero_iff.mpr hdecl
    rw [if_neg (by omega)]
    simp only [takeBody, header, parsed, hlookup, Option.map_none]
    omega
  | some v =>
    rw [hlookup] at hdecl
    have hmod : (q.head.length + ((q.body.length : Int) % 2 ^ 64).toNat) % 2 ^ 64 = q.wire.length := by
      omega
    simp only [takeBody, header, parsed, hlookup, Option.map_some, stol_decimal hdecl hbody, hmod]

theorem parse_part_of_line (q : HttpRequest) {p z : List Byte} (h : q.requestLine = p ++ z)
    (hz : z ≠ []) (this : HttpParser) : (parse this p).1 = 0 := by
  cases hp : p.isEmpty with
  | true => simp only [parse, hp, if_true]
  | false =>
    have hline := q.scan_requestLine []
    rw [List.append_nil, h] at hline
    obtain ⟨u, hu, hps⟩ := scan_missing (fun s b t ht => (lineStep_read ht).1) hline
      (Nat.zero_add _).symm hz
    rw [scan_line_more z (Nat.le_refl 0) (Nat.le_of_eq (Nat.zero_add _))] at hu
    simp only [parse, hp, Bool.false_eq_true, if_false, clear, hu, ne_eq, hps, not_false_eq_true,
      if_true]

theorem parse_part_of_fields (q : HttpRequest) {p z : List Byte}
    (h : headerLines q.headers ++ CRLF = p ++ z) (hz : z ≠ []) (this : HttpParser) :
    (parse this (q.requestLine ++ p)).1 = 0 := by
  have hne : (q.requestLine ++ p).isEmpty = false := by simp [q.requestLine_ne_nil]
  have hall := scan_through (q.scan_requestLine p) rfl p
  obtain ⟨prevread, name, hfields⟩ := q.scan_fields []
  have hhead : q.head ++ [] = q.requestLine ++ p ++ z := by
    rw [List.append_nil, head, h, List.append_assoc]
  rw [hhead, h] at hfields
  have hlen : q.head.length = q.requestLine.length + (p ++ z).length := by
    rw [head, h, List.length_append]
  obtain ⟨u, hu, hps⟩ := scan_missing (fun s b t ht => (headerStep_read ht).1) hfields hlen hz
  rw [scan_headers_more z (Nat.le_refl _) (Nat.le_of_eq List.length_append.symm)] at hu
  simp only [parse, hne, Bool.false_eq_true, if_false, clear, hall, ne_eq, not_true_eq_false,
    List.drop_left, hu, hps, not_false_eq_true, if_true]

theorem parse_part_of_body (q : HttpRequest) (hbody : q.body.length < 2 ^ 63)
    (hwire : q.wire.length < 2 ^ 64) {b z : List Byte} (h : q.body = b ++ z) (hz : z ≠ [])
    (this : HttpParser) : (parse this (q.head ++ b)).1 = 0 := by
  have hpos := List.length_pos_of_ne_nil hz
  have hmissing : (q.head ++ b).length < q.wire.length := by
    rw [wire, h, List.length_append, List.length_append, List.length_append]
    omega
  have hhead : q.head.length ≤ (q.head ++ b).length := by
    rw [List.length_append]
    omega
  rw [q.parse_head, q.takeBody_head hbody hwire hhead, if_pos hmissing]

/-- A proper prefix ends within the request line, within the headers or within the body. -/
theorem prefix_cases {q : HttpRequest} {p : List Byte} (h : p <+: q.wire) (hne : p ≠ q.wire) :
    (∃ z, q.requestLine = p ++ z ∧ z ≠ []) ∨
    (∃ p' z, p = q.requestLine ++ p' ∧ headerLines q.headers ++ CRLF = p' ++ z ∧ z ≠ []) ∨
    ∃ b z, p = q.head ++ b ∧ q.body = b ++ z ∧ z ≠ [] := by
  obtain ⟨rest, hrest⟩ := h
  have hrest_ne : rest ≠ [] := by
    intro hnil
    rw [hnil, List.append_nil] at hrest
    exact hne hrest
  have hwire : p ++ rest =
      q.requestLine ++ ((headerLines q.headers ++ CRLF) ++ q.body) := by
    rw [hrest, wire, head, List.append_assoc]
  rcases List.append_eq_append_iff.mp hwire with ⟨z, hline, _⟩ | ⟨p', hp, hfields⟩
  · by_cases hz : z = []
    · refine Or.inr (Or.inl ⟨[], headerLines q.headers ++ CRLF, ?_, rfl, by simp [CRLF]⟩)
      rw [hline, hz, List.append_nil, List.append_nil]
    · exact Or.inl ⟨z, hline, hz⟩
  · rcases List.append_eq_append_iff.mp hfields with ⟨b, hb, hbody⟩ | ⟨z, hz, hbody⟩
    · refine Or.inr (Or.inr ⟨b, rest, ?_, hbody, hrest_ne⟩)
      rw [hp, hb, head, List.append_assoc q.requestLine]
    · by_cases hnil : z = []
      · rw [hnil, List.nil_append] at hbody
        rw [hnil, List.append_nil] at hz
        refine Or.inr (Or.inr ⟨[], rest, ?_, hbody.symm, hrest_ne⟩)
        rw [hp, ← hz, head, List.append_nil]
      · exact Or.inr (Or.inl ⟨p', z, hp, hz, hnil⟩)

/-- A request whose body is shorter than 2^63 bytes is parsed whatever follows it, and nothing is
taken from a part of it. -/
theorem parse_request (q : HttpRequest) (hbody : q.body.length < 2 ^ 63)
    (hwire : q.wire.length < 2 ^ 64) (this : HttpParser) :
    (∀ r, parse this (q.wire ++ r) =
      (q.wire.length, ⟨q.method, q.url, q.version, q.headers⟩)) ∧
    ∀ p, p <+: q.wire → p ≠ q.wire → (parse this p).1 = 0 := by
  constructor
  · intro r
    have hdata : q.wire.length ≤ (q.head ++ (q.body ++ r)).length := by
      rw [wire, List.length_append, List.length_append, List.length_append]
      omega
    have hhead : q.head.length ≤ (q.head ++ (q.body ++ r)).length := by
      rw [List.length_append]
      omega
    rw [wire, List.append_assoc, q.parse_head, q.takeBody_head hbody hwire hhead,
      if_neg (Nat.not_lt.mpr hdata)]
    rfl
  · intro p hp hne
    rcases prefix_cases hp hne with ⟨z, hline, hz⟩ | ⟨p', z, rfl, hfields, hz⟩ | ⟨b, z, rfl, hb, hz⟩
    · exact q.parse_part_of_line hline hz this
    · exact q.parse_part_of_fields hfields hz this
    · exact q.parse_part_of_body hbody hwire hb hz this

/-- A request with a body of two bytes. -/
def shortPost : HttpRequest where
  method := bytes "POST"
  url := bytes "/a"
  version := bytes "HTTP/1.1"
  headers := [(bytes "Host", bytes "a b"), (contentLength, bytes "2")]
  body := bytes "hi"
  method_free := by decide
  url_free := by decide
  version_free := by decide
  names_distinct := by decide
  names_free := by decide
  values_free := by decide
  body_length := isDecimal_of_all (by decide) (by decide) (by decide)

theorem shortPost_parsed :
    parse ⟨[], [], [], []⟩ (shortPost.wire ++ bytes "GET") =
        (52, ⟨bytes "POST", bytes "/a", bytes "HTTP/1.1",
          [(bytes "Host", bytes "a b"), (contentLength, bytes "2")]⟩) ∧
      (parse ⟨[], [], [], []⟩ shortPost.head).1 = 0 := by
  have hbody : shortPost.body.length < 2 ^ 63 := by decide
  have hwire : shortPost.wire.length < 2 ^ 64 := by decide
  obtain ⟨hall, hpart⟩ := shortPost.parse_request hbody hwire ⟨[], [], [], []⟩
  exact ⟨hall (bytes "GET"), hpart _ (List.prefix_append _ _) (by decide)⟩

/-- A request that announces a body of 2^63 bytes and has it. -/
def longPost : HttpRequest where
  method := bytes "POST"
  url := bytes "/a"
  version := bytes "HTTP/1.1"
  headers := [(contentLength, bytes "9223372036854775808")]
  body := List.replicate (2 ^ 63) 0
  method_free := by decide
  url_free := by decide
  version_free := by decide
  names_distinct := by decide
  names_free := by decide
  values_free := by decide
  body_length := by
    have hlookup : [(contentLength, bytes "9223372036854775808")].lookup contentLength =
        some (bytes "9223372036854775808") := by decide
    rw [hlookup]
    show IsDecimal (bytes "9223372036854775808") (List.replicate (2 ^ 63) 0).length
    rw [List.length_replicate]
    exact isDecimal_of_all (by decide) (by decide) (by decide)

/-- `std::stol` throws for a length of 2^63, so the head of such a request is refused. -/
theorem longPost_refused :
    ¬∀ (q : HttpRequest) (this : HttpParser),
      (∀ r, parse this (q.wire ++ r) =
        (q.wire.length, ⟨q.method, q.url, q.version, q.headers⟩)) ∧
      ∀ p, p <+: q.wire → p ≠ q.wire → (parse this p).1 = 0 := by
  intro h
  have hne : longPost.head ≠ longPost.wire := by
    intro heq
    have hlen := congrArg List.length heq
    rw [wire, List.length_append, show longPost.body = List.replicate (2 ^ 63) 0 from rfl,
      List.length_replicate] at hlen
    omega
  have hzero := (h longPost ⟨[], [], [], []⟩).2 longPost.head (List.prefix_append _ _) hne
  have hillegal : (parse ⟨[], [], [], []⟩ longPost.head).1 = ILLEGAL := by decide +kernel
  rw [hillegal] at hzero
  exact absurd hzero (by decide)

end HttpRequest

end Tnode
