import Tnode.ConfigRegistry

namespace Tnode

/-- How the parser ends without a result; a parser that is out of turns has not ended. -/
inductive XmlError
  | parseError
  | outOfTurns
deriving DecidableEq, Repr

/-- A `parse_error` where there is no result. -/
def orParseError {α : Type} : Option α → Except XmlError α
  | some a => .ok a
  | none => .error .parseError

def isXmlSpace (c : Byte) : Bool := c = 9 || c = 10 || c = 13 || c = 32

/-- `lookup_node_name`. -/
def isNodeName (c : Byte) : Bool := c ≠ 0 && !isXmlSpace c && c ≠ 47 && c ≠ 62 && c ≠ 63

/-- `lookup_attribute_name`. -/
def isAttributeName (c : Byte) : Bool := isNodeName c && c ≠ 33 && c ≠ 60 && c ≠ 61

/-- `lookup_text`. -/
def isText (c : Byte) : Bool := c ≠ 0 && c ≠ 60

/-- `lookup_text_pure_no_ws`. -/
def isTextPure (c : Byte) : Bool := isText c && c ≠ 38

/-- `lookup_attribute_data_1` and `lookup_attribute_data_2`. -/
def isAttributeData (quote c : Byte) : Bool := c ≠ 0 && c ≠ quote

/-- `lookup_attribute_data_1_pure` and `lookup_attribute_data_2_pure`. -/
def isAttributeDataPure (quote c : Byte) : Bool := isAttributeData quote c && c ≠ 38

/-- `insert_coded_character`; `none` is a `parse_error`. -/
def insertCodedCharacter (code : Nat) : Option (List Byte) :=
  if code < 0x80 then some [.ofNat code]
  else if code < 0x800 then
    some [.ofNat (code >>> 6 ||| 0xC0), .ofNat ((code ||| 0x80) &&& 0xBF)]
  else if code < 0x10000 then
    some [.ofNat (code >>> 6 >>> 6 ||| 0xE0), .ofNat ((code >>> 6 ||| 0x80) &&& 0xBF),
      .ofNat ((code ||| 0x80) &&& 0xBF)]
  else if code < 0x110000 then
    some [.ofNat (code >>> 6 >>> 6 >>> 6 ||| 0xF0), .ofNat ((code >>> 6 >>> 6 ||| 0x80) &&& 0xBF),
      .ofNat ((code >>> 6 ||| 0x80) &&& 0xBF), .ofNat ((code ||| 0x80) &&& 0xBF)]
  else none

/-- The loops over the digits of a reference, which are hexadecimal ones in both. -/
def refDigits (base : Nat) : Nat → List Byte → Nat × List Byte
  | code, [] => (code, [])
  | code, c :: src =>
    match xdigit c with
    | some digit => refDigits base ((code * base + digit) % 2 ^ 64) src
    | none => (code, c :: src)

/-- A reference by its number. -/
def codedRef (base : Nat) (src : List Byte) : Option (List Byte × List Byte) := do
  let (code, src) := refDigits base 0 src
  let out ← insertCodedCharacter code
  match src with
  | 59 :: src => return (out, src)
  | _ => none

/-- A turn of the loop of `skip_and_expand_character_refs`: what it writes, and what is left. -/
def expandTurn (src : List Byte) : Option (List Byte × List Byte) :=
  if bytes "&amp;" <+: src then some ([38], src.drop 5)
  else if bytes "&apos;" <+: src then some ([39], src.drop 6)
  else if bytes "&quot;" <+: src then some ([34], src.drop 6)
  else if bytes "&gt;" <+: src then some ([62], src.drop 4)
  else if bytes "&lt;" <+: src then some ([60], src.drop 4)
  else if bytes "&#x" <+: src then codedRef 16 (src.drop 3)
  else if bytes "&#" <+: src then codedRef 10 (src.drop 2)
  else some (src.take 1, src.drop 1)

def expandLoop (pred : Byte → Bool) :
    Nat → List Byte → Except XmlError (List Byte × List Byte)
  | 0, _ => .error .outOfTurns
  | n + 1, src =>
    if src.head?.any pred then do
      let (out, src) ← orParseError (expandTurn src)
      let (value, src) ← expandLoop pred n src
      return (out ++ value, src)
    else .ok ([], src)

/-- `skip_and_expand_character_refs`, which skips what needs no change at once. -/
def skipAndExpand (pred predPure : Byte → Bool) (text : List Byte) :
    Except XmlError (List Byte × List Byte) := do
  let src := text.dropWhile predPure
  let (value, src) ← expandLoop pred (src.length + 1) src
  return (text.takeWhile predPure ++ value, src)

/-- `parse_node_attributes`. Names and values are read as strings of C. -/
def parseNodeAttributes :
    Nat → List Byte → Except XmlError (List (List Byte × List Byte) × List Byte)
  | 0, _ => .error .outOfTurns
  | n + 1, text =>
    if text.head?.any isAttributeName then
      match (text.dropWhile isAttributeName).dropWhile isXmlSpace with
      | 61 :: src =>
        match src.dropWhile isXmlSpace with
        | quote :: src =>
          if quote = 39 ∨ quote = 34 then do
            let (value, src) ← skipAndExpand (isAttributeData quote) (isAttributeDataPure quote) src
            if src.head? = some quote then do
              let (attributes, src) ← parseNodeAttributes n ((src.drop 1).dropWhile isXmlSpace)
              return ((text.takeWhile isAttributeName, cstr value) :: attributes, src)
            else .error .parseError
          else .error .parseError
        | [] => .error .parseError
      | _ => .error .parseError
    else .ok ([], text)

/-- The loops of `parse_xml_declaration`, `parse_comment`, `parse_pi` and `parse_cdata`, and the one
over an unrecognized node: they go behind `mark`. -/
def skipBehind (mark : List Byte) : List Byte → Option (List Byte)
  | [] => none
  | c :: text =>
    if mark <+: c :: text then some ((c :: text).drop mark.length) else skipBehind mark text

/-- `parse_doctype`, with the depth of its inner loop. -/
def skipDoctype : Nat → List Byte → Option (List Byte)
  | _, [] => none
  | 0, c :: text =>
    if c = 62 then some text
    else if c = 91 then skipDoctype 1 text
    else skipDoctype 0 text
  | depth + 1, c :: text =>
    if c = 91 then skipDoctype (depth + 2) text
    else if c = 93 then skipDoctype depth text
    else skipDoctype (depth + 1) text

/-- The node that `parse_node` returns, if any; a data node stands for a CDATA node too. -/
inductive ParsedNode
  | null
  | element (name : List Byte) (attributes : List (List Byte × List Byte)) (child : XmlNode)
  | data

/-- `append_node`, with the nodes that are appended later. -/
def ParsedNode.append : ParsedNode → XmlNode → XmlNode
  | null, next => next
  | element name attributes child, next => .element name attributes child next
  | data, next => .data next

/-- The cases `!` and `?` of `parse_node`. -/
def parseMarkup (text : List Byte) : Option (ParsedNode × List Byte) :=
  if text.head? = some 63 then
    let src := text.drop 1
    if (src.take 3).map (fun c => c ||| 32) = bytes "xml" ∧ (src.drop 3).head?.any isXmlSpace then
      (skipBehind (bytes "?>") (src.drop 4)).map fun src => (.null, src)
    else (skipBehind (bytes "?>") src).map fun src => (.null, src)
  else if bytes "!--" <+: text then
    (skipBehind (bytes "-->") (text.drop 3)).map fun src => (.null, src)
  else if bytes "![CDATA[" <+: text then
    (skipBehind (bytes "]]>") (text.drop 8)).map fun src => (.data, src)
  else if bytes "!DOCTYPE" <+: text ∧ (text.drop 8).head?.any isXmlSpace then
    (skipDoctype 0 (text.drop 9)).map fun src => (.null, src)
  else (skipBehind [62] (text.drop 1)).map fun src => (.null, src)

mutual

/-- `parse_node`, and `parse_element` in its default case. -/
def parseNode : Nat → List Byte → Except XmlError (ParsedNode × List Byte)
  | 0, _ => .error .outOfTurns
  | n + 1, text =>
    if text.head? = some 63 ∨ text.head? = some 33 then
      orParseError (parseMarkup text)
    else if text.head?.any isNodeName then do
      let name := text.takeWhile isNodeName
      let src := (text.dropWhile isNodeName).dropWhile isXmlSpace
      let (attributes, src) ← parseNodeAttributes (src.length + 1) src
      match src with
      | 62 :: src => do
        let (child, src) ← parseNodeContents n src
        return (.element name attributes child, src)
      | 47 :: 62 :: src => return (.element name attributes .nil, src)
      | _ => .error .parseError
    else .error .parseError

/-- `parse_node_contents`. A data node ends in front of a `<` or at the end of the text, so that the
loop comes to the same as the jump behind it. -/
def parseNodeContents : Nat → List Byte → Except XmlError (XmlNode × List Byte)
  | 0, _ => .error .outOfTurns
  | n + 1, text =>
    match text.dropWhile isXmlSpace with
    | [] => .error .parseError
    | 60 :: 47 :: src =>
      match (src.dropWhile isNodeName).dropWhile isXmlSpace with
      | 62 :: src => .ok (.nil, src)
      | _ => .error .parseError
    | 60 :: src => do
      let (node, src) ← parseNode n src
      let (nodes, src) ← parseNodeContents n src
      return (node.append nodes, src)
    | _ => do
      let (_, src) ← skipAndExpand isText isTextPure text
      let (nodes, src) ← parseNodeContents n src
      return (.data nodes, src)

end

/-- The loop of `xml_document::parse`. -/
def parseChildren : Nat → List Byte → Except XmlError XmlNode
  | 0, _ => .error .outOfTurns
  | n + 1, text =>
    match text.dropWhile isXmlSpace with
    | [] => .ok .nil
    | 60 :: src => do
      let (node, src) ← parseNode n src
      return node.append (← parseChildren n src)
    | _ => .error .parseError

/-- `parse_bom`. -/
def skipBom (text : List Byte) : List Byte :=
  if [0xEF, 0xBB, 0xBF] <+: text then text.drop 3 else text

/-- `xml_document::parse<0>` on the content of a file, with the first node of the document. Names
and values are read here, while the text that they point into is there: `XmlParser::open` frees it
when it returns. -/
def xmlDocumentParse (file : List Byte) : Except XmlError XmlNode :=
  let text := skipBom (cstr file)
  parseChildren (text.length + 1) text

namespace XmlError

variable {α β : Type}

@[simp] theorem ok_bind (a : α) (f : α → Except XmlError β) : (Except.ok a >>= f) = f a := rfl

@[simp] theorem error_bind (e : XmlError) (f : α → Except XmlError β) :
    (Except.error e >>= f) = .error e := rfl

@[simp] theorem pure_eq (a : α) : (pure a : Except XmlError α) = .ok a := rfl

@[simp] theorem orParseError_some (a : α) : orParseError (some a) = .ok a := rfl

theorem bind_ok {x : Except XmlError α} {f : α → Except XmlError β} {b : β}
    (h : (x >>= f) = .ok b) : ∃ a, x = .ok a ∧ f a = .ok b := by
  cases x with
  | error e => cases h
  | ok a => exact ⟨a, rfl, h⟩

theorem orParseError_ok {x : Option α} {a : α} (h : orParseError x = .ok a) : x = some a := by
  cases x with
  | none => cases h
  | some b =>
    cases h
    rfl

end XmlError

end Tnode
