import Tnode.SplitString

namespace Tnode

/-- The nodes of rapidxml, each with the attributes, the first child and the next sibling; `nil` is a
null pointer. -/
inductive XmlNode
  | nil
  | element (name : List Byte) (attributes : List (List Byte × List Byte)) (child next : XmlNode)
  | data (next : XmlNode)

/-- `_values`: no key is twice among them. -/
structure Registry where
  values : List (List Byte × List Byte)

/-- What `snprintf` leaves of a string in a `char buf[1024]`. -/
def inBuf (s : List Byte) : List Byte := s.take 1023

namespace Registry

def clear (_this : Registry) : Registry := ⟨[]⟩

/-- `setValue`: `insert` keeps the value that a key has. -/
def setValue (this : Registry) (key value : List Byte) : Registry :=
  if (this.values.lookup key).isSome then this else ⟨this.values ++ [(key, value)]⟩

/-- `set(const char*, const char*)`. -/
def set (this : Registry) (key value : List Byte) : Registry := this.setValue key (inBuf (cstr value))

def getValue (this : Registry) (key : List Byte) : Option (List Byte) := this.values.lookup key

end Registry

/-- The key of an attribute in `makeRegistry`. -/
def attributeKey (name element attr : List Byte) : List Byte :=
  inBuf (if 0 < name.length then cstr name ++ 46 :: (cstr element ++ 46 :: cstr attr)
    else cstr element ++ 46 :: cstr attr)

/-- `XmlParser::makeRegistry(registry, xmlNode, name)`. -/
def makeRegistry (isRoot : Bool) (name : List Byte) : XmlNode → Registry → Registry
  | .nil, registry => registry
  | .element element attributes child next, registry =>
    let registry := attributes.foldl (fun registry attr =>
      registry.set (attributeKey name element attr.1) attr.2) registry
    let below :=
      if isRoot then []
      else if 0 < name.length then name ++ 46 :: cstr element else cstr element
    makeRegistry false name next (makeRegistry false below child registry)
  | .data next, registry => makeRegistry false name next registry

namespace XmlNode

/-- Names of elements are not empty, and no name or value has a NUL in it. -/
def Valid : XmlNode → Prop
  | nil => True
  | element name attributes child next => name ≠ [] ∧ 0 ∉ name ∧
      (∀ attr ∈ attributes, 0 ∉ attr.1 ∧ 0 ∉ attr.2) ∧ child.Valid ∧ next.Valid
  | data next => next.Valid

/-- The attributes below a node in document order, each with the names on the way to it. -/
def attributesBelow (path : List (List Byte)) : XmlNode → List (List (List Byte) × List Byte)
  | nil => []
  | element name attributes child next =>
    attributes.map (fun attr => (path ++ [name, attr.1], attr.2)) ++
      (child.attributesBelow (path ++ [name]) ++ next.attributesBelow path)
  | data next => next.attributesBelow path

end XmlNode

/-- An element tree with one root. -/
structure XmlDocument where
  name : List Byte
  attributes : List (List Byte × List Byte)
  child : XmlNode
  valid : (XmlNode.element name attributes child .nil).Valid

namespace XmlDocument

/-- `doc.first_node()`. -/
def rootNode (doc : XmlDocument) : XmlNode := .element doc.name doc.attributes doc.child .nil

/-- `Config::loadconf` after the parser. -/
def loadconf (doc : XmlDocument) (config : Registry) : Registry :=
  makeRegistry true [] doc.rootNode config.clear

/-- The keys that the attributes are to have, with their values, in document order: the root is only
part of the keys of its own attributes. -/
def entries (doc : XmlDocument) : List (List Byte × List Byte) :=
  (doc.attributes.map (fun attr => ([doc.name, attr.1], attr.2)) ++
    doc.child.attributesBelow []).map fun entry => (joined 46 entry.1, entry.2)

/-- Keys and values have room in their buffers; a value only if its key has it first. -/
structure Fits (doc : XmlDocument) : Prop where
  key : ∀ entry ∈ doc.entries, entry.1.length ≤ 1023
  value : ∀ key value, doc.entries.lookup key = some value → value.length ≤ 1023

end XmlDocument

namespace Registry

theorem getValue_setValue (this : Registry) (key value k : List Byte) :
    (this.setValue key value).getValue k = (this.getValue k).or ([(key, value)].lookup k) := by
  unfold setValue getValue
  split
  next h =>
    by_cases hk : k = key
    · subst hk
      rw [Option.or_of_isSome h]
    · rw [List.lookup_cons, show (k == key) = false from beq_false_of_ne hk]
      exact (Option.or_none ..).symm
  next => rw [List.lookup_append]

/-- A registry has the first value that is set for a key. -/
theorem getValue_foldl (entries : List (List Byte × List Byte)) (this : Registry) (k : List Byte) :
    (entries.foldl (fun registry entry => registry.setValue entry.1 entry.2) this).getValue k =
      (this.getValue k).or (entries.lookup k) := by
  induction entries generalizing this with
  | nil => exact (Option.or_none ..).symm
  | cons entry entries ih =>
    have hcons : (entry :: entries).lookup k = ([entry].lookup k).or (entries.lookup k) := by
      rw [← List.lookup_append]
      rfl
    rw [List.foldl_cons, ih, getValue_setValue, hcons, Option.or_assoc]

end Registry

/-- Names on the way to a node. -/
def Names (path : List (List Byte)) : Prop := ∀ name ∈ path, name ≠ [] ∧ 0 ∉ name

theorem joined_concat {sc : Byte} {path : List (List Byte)} (h : path ≠ []) (name : List Byte) :
    joined sc (path ++ [name]) = joined sc path ++ sc :: name := by
  induction path with
  | nil => exact absurd rfl h
  | cons first path ih =>
    cases path with
    | nil =>
      rw [joined, joined, List.singleton_append, List.intercalate_cons_cons, List.intercalate_singleton,
        List.intercalate_singleton, List.append_assoc]
      rfl
    | cons second path =>
      have hrest := ih (List.cons_ne_nil second path)
      unfold joined at hrest ⊢
      rw [List.cons_append, List.cons_append, List.intercalate_cons_cons, ← List.cons_append, hrest,
        List.intercalate_cons_cons, List.append_assoc, List.append_assoc, List.append_assoc]

theorem Names.joined_length {path : List (List Byte)} (h : Names path) :
    0 < (joined 46 path).length ↔ path ≠ [] := by
  constructor
  · rintro hpos rfl
    exact absurd hpos (Nat.lt_irrefl 0)
  · intro hne
    obtain ⟨first, rest, rfl⟩ := List.exists_cons_of_ne_nil hne
    have hfirst := List.length_pos_iff.mpr (h first List.mem_cons_self).1
    cases rest with
    | nil =>
      rw [joined, List.intercalate_singleton]
      exact hfirst
    | cons second rest =>
      rw [joined, List.intercalate_cons_cons, List.length_append, List.length_append]
      omega

theorem Names.no_nul {path : List (List Byte)} (h : Names path) : 0 ∉ joined 46 path :=
  joined_no_nul (by decide) fun name hname => (h name hname).2

theorem Names.concat {path : List (List Byte)} (h : Names path) {name : List Byte} (hne : name ≠ [])
    (hnul : 0 ∉ name) : Names (path ++ [name]) := by
  intro other hother
  rcases List.mem_append.mp hother with hother | hother
  · exact h other hother
  · rw [List.mem_singleton.mp hother]
    exact ⟨hne, hnul⟩

/-- The name that `makeRegistry` passes on to the children. -/
theorem Names.below {path : List (List Byte)} (h : Names path) {name : List Byte} (hnul : 0 ∉ name) :
    (if 0 < (joined 46 path).length then joined 46 path ++ 46 :: cstr name else cstr name) =
      joined 46 (path ++ [name]) := by
  rw [cstr_eq_self_iff.mpr hnul]
  split
  next hpos => exact (joined_concat (h.joined_length.mp hpos) name).symm
  next hpos =>
    have hnil : path = [] := by
      by_contra hne
      exact hpos (h.joined_length.mpr hne)
    subst hnil
    rw [List.nil_append, joined, List.intercalate_singleton]

theorem Names.attributeKey {path : List (List Byte)} (h : Names path) {name attr : List Byte}
    (hnul : 0 ∉ name) (hattr : 0 ∉ attr) :
    attributeKey (joined 46 path) name attr = inBuf (joined 46 (path ++ [name, attr])) := by
  have hkey : joined 46 (path ++ [name, attr]) = joined 46 (path ++ [name]) ++ 46 :: attr := by
    rw [← joined_concat (List.append_ne_nil_of_right_ne_nil path (List.cons_ne_nil name []))]
    simp
  rw [hkey, ← h.below hnul, Tnode.attributeKey, cstr_eq_self_iff.mpr h.no_nul,
    cstr_eq_self_iff.mpr hnul, cstr_eq_self_iff.mpr hattr]
  split
  next => rw [List.append_assoc, List.cons_append]
  next => rfl

/-- What comes of an attribute in the two buffers. -/
def stored (entry : List (List Byte) × List Byte) : List Byte × List Byte :=
  (inBuf (joined 46 entry.1), inBuf entry.2)

def Registry.store (this : Registry) (entries : List (List Byte × List Byte)) : Registry :=
  entries.foldl (fun registry entry => registry.setValue entry.1 entry.2) this

theorem set_attributes {path : List (List Byte)} (h : Names path) {name : List Byte}
    (hnul : 0 ∉ name) {attributes : List (List Byte × List Byte)}
    (hattrs : ∀ attr ∈ attributes, 0 ∉ attr.1 ∧ 0 ∉ attr.2) (registry : Registry) :
    attributes.foldl (fun registry attr =>
        registry.set (attributeKey (joined 46 path) name attr.1) attr.2) registry =
      registry.store ((attributes.map fun attr => (path ++ [name, attr.1], attr.2)).map stored) := by
  induction attributes generalizing registry with
  | nil => rfl
  | cons attr attributes ih =>
    obtain ⟨hkey, hvalue⟩ := hattrs attr List.mem_cons_self
    have hrest := ih fun other hother => hattrs other (List.mem_cons_of_mem attr hother)
    rw [List.foldl_cons, hrest, h.attributeKey hnul hkey, Registry.set,
      cstr_eq_self_iff.mpr hvalue]
    rfl

theorem store_append (registry : Registry) (entries more : List (List Byte × List Byte)) :
    registry.store (entries ++ more) = (registry.store entries).store more := List.foldl_append

/-- A subtree puts its attributes into the registry in document order. -/
theorem makeRegistry_below {node : XmlNode} (hv : node.Valid) {path : List (List Byte)}
    (h : Names path) (registry : Registry) :
    makeRegistry false (joined 46 path) node registry =
      registry.store ((node.attributesBelow path).map stored) := by
  induction node generalizing path registry with
  | nil => rfl
  | element name attributes child next ihChild ihNext =>
    obtain ⟨hne, hnul, hattrs, hchild, hnext⟩ := hv
    rw [makeRegistry, set_attributes h hnul hattrs, if_neg Bool.false_ne_true, h.below hnul,
      ihChild hchild (h.concat hne hnul), ihNext hnext h, XmlNode.attributesBelow, List.map_append,
      List.map_append, store_append, store_append]
  | data next ih => exact ih hv h registry

namespace XmlDocument

variable {doc : XmlDocument}

/-- The attributes of the document are put into the registry behind what it has. -/
theorem getValue_makeRegistry (doc : XmlDocument) (registry : Registry) (k : List Byte) :
    (makeRegistry true [] doc.rootNode registry).getValue k = (registry.getValue k).or
      ((doc.entries.map fun entry => (inBuf entry.1, inBuf entry.2)).lookup k) := by
  obtain ⟨_, hnul, hattrs, hchild, _⟩ := doc.valid
  have hempty : Names [] := fun name hname => absurd hname List.not_mem_nil
  have hroot : makeRegistry true [] doc.rootNode registry =
      registry.store ((doc.attributes.map (fun attr => ([doc.name, attr.1], attr.2)) ++
        doc.child.attributesBelow []).map stored) := by
    have hset := set_attributes hempty hnul hattrs registry
    have hbelow := makeRegistry_below hchild hempty
    rw [List.map_append, store_append]
    exact (hbelow _).trans (congrArg (Registry.store · _) hset)
  have hentries : (doc.entries.map fun entry => (inBuf entry.1, inBuf entry.2)) =
      (doc.attributes.map (fun attr => ([doc.name, attr.1], attr.2)) ++
        doc.child.attributesBelow []).map stored := by
    rw [entries, List.map_map]
    rfl
  rw [hentries, hroot, Registry.store, Registry.getValue_foldl]

theorem getValue_loadconf (doc : XmlDocument) (config : Registry) (k : List Byte) :
    (doc.loadconf config).getValue k =
      (doc.entries.map fun entry => (inBuf entry.1, inBuf entry.2)).lookup k := by
  rw [loadconf, getValue_makeRegistry]
  exact Option.none_or ..

theorem lookup_inBuf {entries : List (List Byte × List Byte)}
    (h : ∀ entry ∈ entries, entry.1.length ≤ 1023) (k : List Byte) :
    (entries.map fun entry => (inBuf entry.1, inBuf entry.2)).lookup k =
      (entries.lookup k).map inBuf := by
  induction entries with
  | nil => rfl
  | cons entry entries ih =>
    have hrest := ih fun other hother => h other (List.mem_cons_of_mem entry hother)
    have hkey : inBuf entry.1 = entry.1 := List.take_of_length_le (h entry List.mem_cons_self)
    rw [List.map_cons, List.lookup_cons, List.lookup_cons, hkey, hrest]
    split
    next => rfl
    next => rfl

/-- After the configuration has been read the registry has the complete first value for every key, and
no other keys, exactly where these have room in the buffers. -/
theorem loadconf_complete_iff (doc : XmlDocument) (config : Registry) :
    (∀ key, (doc.loadconf config).getValue key = doc.entries.lookup key) ↔ doc.Fits := by
  constructor
  · intro h
    have hkeys : ∀ entry ∈ doc.entries, entry.1.length ≤ 1023 := by
      intro entry hentry
      have hsome : (doc.entries.lookup entry.1).isSome = true :=
        List.lookup_isSome_iff.mpr ⟨entry, hentry, beq_self_eq_true entry.1⟩
      rw [← h, getValue_loadconf, List.lookup_isSome_iff] at hsome
      obtain ⟨other, hother, heq⟩ := hsome
      obtain ⟨source, _, rfl⟩ := List.mem_map.mp hother
      rw [beq_iff_eq.mp heq, inBuf]
      exact List.length_take_le 1023 source.1
    refine ⟨hkeys, ?_⟩
    intro key value hvalue
    have hcut := h key
    rw [getValue_loadconf, lookup_inBuf hkeys, hvalue] at hcut
    rw [← Option.some.inj hcut]
    exact List.length_take_le 1023 value
  · intro h key
    rw [getValue_loadconf, lookup_inBuf h.key]
    cases hvalue : doc.entries.lookup key with
    | none => rfl
    | some value => exact congrArg some (List.take_of_length_le (h.value key value hvalue))

end XmlDocument

/-- A document of one element with one attribute. -/
def attributeDocument (name attr value : List Byte) (h : name ≠ [] ∧ 0 ∉ name ∧ 0 ∉ attr ∧ 0 ∉ value) :
    XmlDocument where
  name := name
  attributes := [(attr, value)]
  child := .nil
  valid := by
    refine ⟨h.1, h.2.1, ?_, trivial, trivial⟩
    intro other hother
    rw [List.mem_singleton.mp hother]
    exact h.2.2

/-- A value of 1024 bytes is cut. -/
theorem long_value_cut : ¬∀ key,
    ((attributeDocument [114] [97] (List.replicate 1024 120) (by decide +kernel)).loadconf ⟨[]⟩).getValue key =
      (attributeDocument [114] [97] (List.replicate 1024 120) (by decide +kernel)).entries.lookup key := by
  intro h
  have hfits := (XmlDocument.loadconf_complete_iff _ _).mp h
  have hlength := hfits.value [114, 46, 97] (List.replicate 1024 120) (by decide +kernel)
  rw [List.length_replicate] at hlength
  omega

end Tnode
