import Tnode.ConfigRegistry
import Tnode.JsonMeaning

namespace Tnode

open Assignments

/-- A push on a Lua stack that has `room` slots; `luaT_xml_parser` does not ask whether one is left,
and `none` is what comes of that. -/
def luaPush (room : Nat) (v : LuaValue) (L : List LuaValue) : Option (List LuaValue) :=
  if L.length < room then some (v :: L) else none

/-- One turn of the loop over the attributes. -/
def pushAttribute (room : Nat) (L : List LuaValue) (attr : List Byte × List Byte) :
    Option (List LuaValue) := do
  let L ← luaPush room (pushstring attr.1) L
  let L ← luaPush room (pushstring attr.2) L
  luaSettable L

/-- `luaT_xml_parser`, for nodes whose names and values are still there; a text is a node with an
empty name that has nothing below it. `luaT_xml_parser_decode` calls it on nodes whose text `open`
has freed, of which nothing is said here. -/
def luaTXmlParser (room : Nat) (isRoot : Bool) : XmlNode → List LuaValue → Option (List LuaValue)
  | .nil, L => some L
  | .element name attributes child next, L => do
    let L ← if isRoot then some L else luaPush room (pushstring name) L
    let L ← luaPush room (.table []) L
    let L ← attributes.foldlM (pushAttribute room) L
    let L ← luaTXmlParser room false child L
    let L ← if isRoot then some L else luaSettable L
    luaTXmlParser room false next L
  | .data next, L => do
    let L ← luaPush room (pushstring []) L
    let L ← luaPush room (.table []) L
    let L ← luaSettable L
    luaTXmlParser room false next L

/-- What an attribute, and what the nodes of a chain of siblings assign to the table above them. -/
def attributeAssigned (attr : List Byte × List Byte) : LuaKey × LuaValue :=
  (.string (cstr attr.1), .string (cstr attr.2))

def XmlNode.assigned : XmlNode → List (LuaKey × LuaValue)
  | nil => []
  | element name attributes child next =>
    (.string (cstr name),
      .table (assignAll [] (attributes.map attributeAssigned ++ child.assigned))) :: next.assigned
  | data next => (.string [], .table []) :: next.assigned

def attributeSlots (attributes : List (List Byte × List Byte)) : Nat :=
  if attributes = [] then 0 else 2

/-- The slots that a chain of siblings needs above the table it is put into. -/
def XmlNode.slots : XmlNode → Nat
  | nil => 0
  | element _ attributes child next =>
    max (2 + max (attributeSlots attributes) child.slots) next.slots
  | data next => max 2 next.slots

/-- A chain of siblings with more behind it. -/
def XmlNode.append : XmlNode → XmlNode → XmlNode
  | nil, siblings => siblings
  | element name attributes child next, siblings =>
    element name attributes child (next.append siblings)
  | data next, siblings => data (next.append siblings)

theorem XmlNode.assigned_append (node siblings : XmlNode) :
    (node.append siblings).assigned = node.assigned ++ siblings.assigned := by
  induction node with
  | nil => rfl
  | element name attributes child next _ ih =>
    simp only [append, assigned, ih, List.cons_append]
  | data next ih => simp only [append, assigned, ih, List.cons_append]

theorem XmlNode.slots_append (node siblings : XmlNode) :
    (node.append siblings).slots = max node.slots siblings.slots := by
  induction node with
  | nil => simp [append, slots]
  | element name attributes child next _ ih => simp only [append, slots, ih, Nat.max_assoc]
  | data next ih => simp only [append, slots, ih, Nat.max_assoc]

theorem assignAll_append (t : LuaTable) (ws vs : List (LuaKey × LuaValue)) :
    assignAll t (ws ++ vs) = assignAll (assignAll t ws) vs := List.foldl_append

section

variable {room : Nat} {t : LuaTable} {L : List LuaValue}

theorem luaPush_two {β : Type} (v w : LuaValue) (f : List LuaValue → Option β) :
    ((luaPush room v L).bind fun L => (luaPush room w L).bind f) =
      if L.length + 2 ≤ room then f (w :: v :: L) else none := by
  unfold luaPush
  by_cases h : L.length < room
  · rw [if_pos h, Option.bind_some]
    by_cases h' : L.length + 2 ≤ room
    · rw [if_pos (by simp only [List.length_cons]; omega), if_pos h', Option.bind_some]
    · rw [if_neg (by simp only [List.length_cons]; omega), if_neg h', Option.bind_none]
  · rw [if_neg h, if_neg (by omega), Option.bind_none]

theorem settable_string (k : List Byte) (v : LuaValue) :
    luaSettable (v :: pushstring k :: .table t :: L) =
      some (.table (settable t (.string (cstr k)) v) :: L) := rfl

theorem pushAttribute_eq (attr : List Byte × List Byte) :
    pushAttribute room (.table t :: L) attr =
      if L.length + 3 ≤ room then
        some (.table (settable t (attributeAssigned attr).1 (attributeAssigned attr).2) :: L)
      else none :=
  luaPush_two _ _ luaSettable

theorem pushAttributes_eq (attributes : List (List Byte × List Byte)) (hroom : L.length + 1 ≤ room) :
    attributes.foldlM (pushAttribute room) (.table t :: L) =
      if L.length + 1 + attributeSlots attributes ≤ room then
        some (.table (assignAll t (attributes.map attributeAssigned)) :: L)
      else none := by
  by_cases h : L.length + 3 ≤ room
  · rw [if_pos (by unfold attributeSlots; split <;> omega)]
    induction attributes generalizing t with
    | nil => rfl
    | cons attr attributes ih =>
      rw [List.foldlM_cons, pushAttribute_eq, if_pos h, Option.bind_eq_bind, Option.bind_some, ih]
      rfl
  · cases attributes with
    | nil =>
      rw [if_pos (by simpa [attributeSlots] using hroom)]
      rfl
    | cons attr attributes =>
      rw [List.foldlM_cons, pushAttribute_eq, if_neg h, if_neg (by simp [attributeSlots]; omega)]
      rfl

/-- A chain of siblings below a table is put into it if there is room for it, whatever lies below
that table. -/
theorem luaTXmlParser_chain (node : XmlNode) (h : L.length + 1 ≤ room) :
    luaTXmlParser room false node (.table t :: L) =
      if L.length + 1 + node.slots ≤ room then some (.table (assignAll t node.assigned) :: L)
      else none := by
  induction node generalizing t L with
  | nil =>
    rw [XmlNode.slots, if_pos (by omega)]
    rfl
  | element name attributes child next ihchild ihnext =>
    simp only [luaTXmlParser, Bool.false_eq_true, if_false, Option.bind_eq_bind, luaPush_two,
      List.length_cons]
    have hslots : (XmlNode.element name attributes child next).slots =
      max (2 + max (attributeSlots attributes) child.slots) next.slots := rfl
    by_cases htwo : L.length + 1 + 2 ≤ room
    swap
    · rw [if_neg htwo, if_neg (by omega)]
    rw [if_pos htwo, pushAttributes_eq _ htwo, List.length_cons, List.length_cons]
    by_cases hattributes : L.length + 1 + 1 + 1 + attributeSlots attributes ≤ room
    swap
    · rw [if_neg hattributes, Option.bind_none, if_neg (by omega)]
    rw [if_pos hattributes, Option.bind_some, ihchild (by simpa only [List.length_cons] using htwo),
      List.length_cons, List.length_cons]
    by_cases hchild : L.length + 1 + 1 + 1 + child.slots ≤ room
    swap
    · rw [if_neg hchild, Option.bind_none, if_neg (by omega)]
    rw [if_pos hchild, Option.bind_some, settable_string, Option.bind_some, ihnext h,
      ← assignAll_append]
    by_cases hnext : L.length + 1 + next.slots ≤ room
    · rw [if_pos hnext, if_pos (by omega)]
      rfl
    · rw [if_neg hnext, if_neg (by omega)]
  | data next ih =>
    simp only [luaTXmlParser, Option.bind_eq_bind, luaPush_two, List.length_cons]
    have hslots : (XmlNode.data next).slots = max 2 next.slots := rfl
    by_cases htwo : L.length + 1 + 2 ≤ room
    swap
    · rw [if_neg htwo, if_neg (by omega)]
    rw [if_pos htwo, settable_string, Option.bind_some, ih h]
    by_cases hnext : L.length + 1 + next.slots ≤ room
    · rw [if_pos hnext, if_pos (by omega)]
      rfl
    · rw [if_neg hnext, if_neg (by omega)]

/-- The slots that a document needs. -/
def documentSlots (attributes : List (List Byte × List Byte)) (children : XmlNode) : Nat :=
  1 + max (attributeSlots attributes) children.slots

theorem luaTXmlParser_root (name : List Byte) (attributes : List (List Byte × List Byte))
    (child next : XmlNode) :
    luaTXmlParser room true (.element name attributes child next) L =
      if L.length + documentSlots attributes (child.append next) ≤ room then
        some (.table (assignAll []
          (attributes.map attributeAssigned ++ (child.append next).assigned)) :: L)
      else none := by
  have hslots : documentSlots attributes (child.append next) =
      1 + max (attributeSlots attributes) (max child.slots next.slots) := by
    rw [documentSlots, XmlNode.slots_append]
  simp only [luaTXmlParser, if_true, Option.bind_eq_bind, Option.bind_some, luaPush]
  by_cases hone : L.length < room
  swap
  · rw [if_neg hone, Option.bind_none, if_neg (by omega)]
  rw [if_pos hone, Option.bind_some, pushAttributes_eq _ hone]
  by_cases hattributes : L.length + 1 + attributeSlots attributes ≤ room
  swap
  · rw [if_neg hattributes, Option.bind_none, if_neg (by omega)]
  rw [if_pos hattributes, Option.bind_some, luaTXmlParser_chain child hone]
  by_cases hchild : L.length + 1 + child.slots ≤ room
  swap
  · rw [if_neg hchild, Option.bind_none, if_neg (by omega)]
  rw [if_pos hchild, Option.bind_some, luaTXmlParser_chain next hone, ← assignAll_append,
    ← assignAll_append, ← XmlNode.assigned_append]
  by_cases hnext : L.length + 1 + next.slots ≤ room
  · rw [if_pos hnext, if_pos (by omega)]
  · rw [if_neg hnext, if_neg (by omega)]

end

/-- What stands at a path in a document. -/
inductive XmlValue
  | absent
  | text (s : List Byte)
  | element
deriving DecidableEq, Repr

/-- The last of a chain of siblings with a name, where a text has the empty one. -/
def XmlNode.lastNamed (k : List Byte) : XmlNode → Option (List (List Byte × List Byte) × XmlNode)
  | nil => none
  | element name attributes child next =>
    (next.lastNamed k).or (if cstr name = k then some (attributes, child) else none)
  | data next => (next.lastNamed k).or (if [] = k then some ([], nil) else none)

/-- Names lead from an element to its last child of the name, else to its last attribute. -/
def valueAt (attributes : List (List Byte × List Byte)) (children : XmlNode) :
    List LuaKey → XmlValue
  | [] => .element
  | .string k :: path =>
    match children.lastNamed k with
    | some below => valueAt below.1 below.2 path
    | none =>
      if path = [] then
        (last (attributes.map fun attr => (cstr attr.1, cstr attr.2)) k).elim .absent .text
      else .absent
  | _ :: _ => .absent

/-- What a script finds by a chain of indices. -/
def luaAt : LuaValue → List LuaKey → LuaValue
  | v, [] => v
  | .table t, k :: path => luaAt (gettable t k) path
  | _, _ :: _ => .nil

inductive Stands : XmlValue → LuaValue → Prop
  | absent : Stands .absent .nil
  | text (s : List Byte) : Stands (.text s) (.string s)
  | element (t : LuaTable) : Stands .element (.table t)

theorem last_append {K V : Type} [DecidableEq K] (ws vs : List (K × V)) (k : K) :
    last (ws ++ vs) k = (last vs k).or (last ws k) := by
  induction ws with
  | nil => simp [last]
  | cons w ws ih => rw [List.cons_append, last, ih, last, Option.or_assoc]

theorem last_assigned (node : XmlNode) (k : List Byte) :
    last node.assigned (.string k) = (node.lastNamed k).map fun below =>
      .table (assignAll [] (below.1.map attributeAssigned ++ below.2.assigned)) := by
  induction node with
  | nil => rfl
  | element name attributes child next _ ih =>
    rw [XmlNode.assigned, last, ih, XmlNode.lastNamed, Option.map_or]
    by_cases h : cstr name = k <;> simp [h]
  | data next ih =>
    rw [XmlNode.assigned, last, ih, XmlNode.lastNamed, Option.map_or]
    by_cases h : [] = k <;> simp [h, XmlNode.assigned, assignAll]

theorem last_attributes (attributes : List (List Byte × List Byte)) (k : List Byte) :
    last (attributes.map attributeAssigned) (.string k) =
      (last (attributes.map fun attr => (cstr attr.1, cstr attr.2)) k).map .string := by
  induction attributes with
  | nil => rfl
  | cons attr attributes ih =>
    simp only [List.map_cons, attributeAssigned, last, Option.map_or]
    rw [← ih]
    by_cases h : cstr attr.1 = k <;> simp [h]

theorem assigned_strings (attributes : List (List Byte × List Byte)) (children : XmlNode) :
    ∀ w ∈ attributes.map attributeAssigned ++ children.assigned, ∃ k, w.1 = .string k := by
  intro w hw
  rcases List.mem_append.mp hw with hw | hw
  · obtain ⟨attr, _, rfl⟩ := List.mem_map.mp hw
    exact ⟨_, rfl⟩
  · induction children with
    | nil => cases hw
    | element name attributes child next _ ih =>
      rcases List.mem_cons.mp hw with rfl | hw
      · exact ⟨_, rfl⟩
      · exact ih (List.mem_append_right _ hw) hw
    | data next ih =>
      rcases List.mem_cons.mp hw with rfl | hw
      · exact ⟨_, rfl⟩
      · exact ih (List.mem_append_right _ hw) hw

theorem luaAt_nil (path : List LuaKey) : luaAt .nil path = .nil := by cases path <;> rfl

theorem stands_at (attributes : List (List Byte × List Byte)) (children : XmlNode)
    (path : List LuaKey) : Stands (valueAt attributes children path)
      (luaAt (.table (assignAll [] (attributes.map attributeAssigned ++ children.assigned))) path) := by
  induction path generalizing attributes children with
  | nil => exact .element _
  | cons key path ih =>
    have hdistinct : Distinct [] := List.nodup_nil
    rw [luaAt, hdistinct.gettable_assignAll]
    cases key with
    | string k =>
      rw [last_append, last_assigned, last_attributes, valueAt]
      cases children.lastNamed k with
      | some below => exact ih below.1 below.2
      | none =>
        cases last (attributes.map fun attr => (cstr attr.1, cstr attr.2)) k with
        | none =>
          simp only [Option.map_none, Option.or_none, Option.getD_none, gettable, luaAt_nil,
            Option.elim_none, ite_self]
          exact .absent
        | some s =>
          cases path with
          | nil => exact .text s
          | cons key path => exact .absent
    | number x | boolean b =>
      rw [last_eq_none_iff.mpr, Option.getD_none, gettable, luaAt_nil, valueAt]
      · exact .absent
      · intro k hk
        cases hk
      · intro w hw heq
        obtain ⟨k, hk⟩ := assigned_strings attributes children w hw
        rw [hk] at heq
        cases heq

/-- A tree of nodes is put on the stack exactly when the stack has the slots for it. It leaves one
table, in which names lead to the last child and then to the last attribute of that name. -/
theorem xml_decode (room : Nat) (name : List Byte) (attributes : List (List Byte × List Byte))
    (child next : XmlNode) (L : List LuaValue) :
    ∃ t, luaTXmlParser room true (.element name attributes child next) L =
        (if L.length + documentSlots attributes (child.append next) ≤ room then
          some (.table t :: L) else none) ∧
      ∀ path, Stands (valueAt attributes (child.append next) path) (luaAt (.table t) path) :=
  ⟨_, luaTXmlParser_root name attributes child next, stands_at attributes (child.append next)⟩

end Tnode
