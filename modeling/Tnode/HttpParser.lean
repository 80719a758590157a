import Tnode.JsonParser
import Mathlib.Data.List.DropRight

namespace Tnode

def CR : Byte := 13

def LF : Byte := 10

def SP : Byte := 32

def COLON : Byte := 58

/-- `PARSER_STATE`. -/
inductive HttpState
  | requestStart
  | requestMethod
  | requestUrl
  | requestVersion
  | requestLineDone
  | requestFieldName
  | requestFieldValue
  | requestHeaderDone
deriving DecidableEq, Repr

/-- The headers are a map: no name is twice among them. -/
structure HttpParser where
  reqMethod : List Byte
  reqUrl : List Byte
  reqVersion : List Byte
  reqHeaders : List (List Byte × List Byte)
deriving DecidableEq

/-- The locals of `HttpParser::parse`. -/
structure HttpScan where
  nread : Nat
  prevread : Nat
  ps : HttpState
  c : Byte
  name : List Byte
  parser : HttpParser

/-- `std::string::assign(&data[start], count)`. -/
def slice (data : List Byte) (start count : Nat) : List Byte := (data.drop start).take count

/-- `std::stol`; `none` is an exception. -/
def stol (s : List Byte) : Option Int :=
  let (negative, digits) := signed (s.dropWhile isspace)
  let n : Int := if negative then -digitsValue digits else digitsValue digits
  if digits.head?.any isdigit = true ∧ LONG_MIN ≤ n ∧ n ≤ LONG_MAX then some n else none

/-- Erases the spaces at both ends of a value. -/
def eraseSpaces (value : List Byte) : List Byte :=
  if value.isEmpty then value else (value.dropWhile (· = SP)).rdropWhile (· = SP)

namespace HttpParser

/-- `size_t(-1)`. -/
def ILLEGAL : Nat := 2 ^ 64 - 1

def clear (_this : HttpParser) : HttpParser := ⟨[], [], [], []⟩

def contentLength : List Byte := bytes "Content-Length"

/-- `header`, as the string of C that it returns; `none` is `nullptr`. -/
def header (this : HttpParser) (name : List Byte) : Option (List Byte) :=
  (this.reqHeaders.lookup name).map cstr

/-- `_req_headers.insert`; `none` is a name that is there. -/
def insertHeader (this : HttpParser) (name value : List Byte) : Option HttpParser :=
  if name ∈ this.reqHeaders.map Prod.fst then none
  else some { this with reqHeaders := this.reqHeaders ++ [(name, value)] }

/-- A turn of the loop over the request line. An error is a return of -1. -/
def lineStep (data : List Byte) (s : HttpScan) (b : Byte) : Except HttpScan HttpScan :=
  let prevc := s.c
  let t := { s with c := b, nread := s.nread + 1 }
  match s.ps with
  | .requestMethod =>
    if b = SP then
      let method := slice data s.prevread (t.nread - s.prevread - 1)
      .ok { t with ps := .requestUrl, prevread := t.nread, parser := { s.parser with reqMethod := method } }
    else .ok t
  | .requestUrl =>
    if b = SP then
      let url := slice data s.prevread (t.nread - s.prevread - 1)
      .ok { t with ps := .requestVersion, prevread := t.nread, parser := { s.parser with reqUrl := url } }
    else .ok t
  | .requestVersion =>
    if b = LF ∧ prevc = CR then
      let version := slice data s.prevread (t.nread - s.prevread - 2)
      .ok { t with ps := .requestLineDone, parser := { s.parser with reqVersion := version } }
    else .ok t
  | _ => .error t

/-- A turn of the loop over the headers. -/
def headerStep (data : List Byte) (s : HttpScan) (b : Byte) : Except HttpScan HttpScan :=
  let prevc := s.c
  let t := { s with c := b, nread := s.nread + 1 }
  match s.ps with
  | .requestFieldName =>
    if b = LF ∧ prevc = CR then .ok { t with ps := .requestHeaderDone }
    else if b = COLON then
      let name := slice data s.prevread (t.nread - s.prevread - 1)
      .ok { t with ps := .requestFieldValue, prevread := t.nread, name := name }
    else .ok t
  | .requestFieldValue =>
    if b = LF ∧ prevc = CR then
      let value := eraseSpaces (slice data s.prevread (t.nread - s.prevread - 2))
      let u := { t with ps := .requestFieldName, prevread := t.nread }
      match s.parser.insertHeader s.name value with
      | some parser => .ok { u with parser := parser }
      | none => .error u
    else .ok t
  | _ => .error t

/-- A loop over the bytes, up to the state `last`. -/
def scan (step : HttpScan → Byte → Except HttpScan HttpScan) (last : HttpState) :
    List Byte → HttpScan → Except HttpScan HttpScan
  | [], s => .ok s
  | b :: data, s =>
    if s.ps = last then .ok s
    else
      match step s b with
      | .ok t => scan step last data t
      | .error t => .error t

/-- The end of `parse`, with the body that `Content-Length` announces. -/
def takeBody (data : List Byte) (nread : Nat) (this : HttpParser) : Nat :=
  match this.header contentLength with
  | none => nread
  | some lengthValue =>
    match stol lengthValue with
    | none => ILLEGAL
    | some n =>
      let nread := (nread + (n % 2 ^ 64).toNat) % 2 ^ 64
      if data.length < nread then 0 else nread

/-- `parse`: what it returns, and the object after it. -/
def parse (this : HttpParser) (data : List Byte) : Nat × HttpParser :=
  if data.isEmpty then (0, this)
  else
    match scan (lineStep data) .requestLineDone data
      ⟨0, 0, .requestMethod, 0, [], this.clear⟩ with
    | .error s => (ILLEGAL, s.parser)
    | .ok s =>
      if s.ps ≠ .requestLineDone then (0, s.parser)
      else
        match scan (headerStep data) .requestHeaderDone (data.drop s.nread)
          { s with prevread := s.nread, ps := .requestFieldName } with
        | .error s => (ILLEGAL, s.parser)
        | .ok s =>
          if s.ps ≠ .requestHeaderDone then (0, s.parser)
          else (takeBody data s.nread s.parser, s.parser)

example : (parse ⟨[], [], [], []⟩ (bytes "GET / HTTP/1.1\r\nHost: a b \r\n\r\nmore")).1 = 30 := by
  decide +kernel

end HttpParser

end Tnode
