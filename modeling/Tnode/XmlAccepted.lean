import Tnode.XmlText

namespace Tnode

/-- A parser that ends, with a result or a `parse_error`. -/
def Ends {α : Type} (r : Except XmlError α) : Prop := r ≠ .error .outOfTurns

section

variable {α β : Type}

theorem ends_ok (a : α) : Ends (.ok a : Except XmlError α) := by simp [Ends]

theorem ends_parseError : Ends (.error .parseError : Except XmlError α) := by simp [Ends]

theorem ends_orParseError (x : Option α) : Ends (orParseError x) := by
  cases x with
  | none => exact ends_parseError
  | some a => exact ends_ok a

theorem Ends.bind {x : Except XmlError α} {f : α → Except XmlError β} (h : Ends x)
    (hf : ∀ a, x = .ok a → Ends (f a)) : Ends (x >>= f) := by
  cases x with
  | error e =>
    intro he
    cases he
    exact h rfl
  | ok a => exact hf a rfl

end

/-- What is left of a text, and shorter. -/
def Rest (rest text : List Byte) : Prop := rest <:+ text ∧ rest.length < text.length

section

variable {a b c : List Byte}

theorem Rest.trans (h : Rest a b) (h' : b <:+ c) : Rest a c :=
  ⟨h.1.trans h', Nat.lt_of_lt_of_le h.2 h'.length_le⟩

theorem Rest.of_suffix (h : a <:+ b) (h' : Rest b c) : Rest a c :=
  ⟨h.trans h'.1, Nat.lt_of_le_of_lt h.length_le h'.2⟩

theorem rest_drop {n : Nat} (hn : 0 < n) (h : a ≠ []) : Rest (a.drop n) a := by
  refine ⟨List.drop_suffix n a, ?_⟩
  have hlength := List.length_pos_of_ne_nil h
  rw [List.length_drop]
  omega

theorem rest_cons (x : Byte) (s : List Byte) : Rest s (x :: s) :=
  ⟨List.suffix_cons x s, Nat.lt_succ_self _⟩

theorem Rest.no_nul (h : Rest a b) (hb : 0 ∉ b) : 0 ∉ a := fun ha => hb (h.1.subset ha)

end

section

variable {pred predPure : Byte → Bool} {src text rest out value : List Byte} {base n : Nat}

theorem refDigits_suffix (base code : Nat) (src : List Byte) :
    (refDigits base code src).2 <:+ src := by
  induction src generalizing code with
  | nil => exact List.suffix_refl _
  | cons c src ih =>
    rw [refDigits]
    split
    next => exact (ih _).trans (List.suffix_cons c src)
    next => exact List.suffix_refl _

theorem codedRef_rest (h : codedRef base src = some (out, rest)) : Rest rest src := by
  have hsuffix := refDigits_suffix base 0 src
  unfold codedRef at h
  obtain ⟨out', _, h⟩ := Option.bind_eq_some_iff.mp h
  split at h
  next heq =>
    cases h
    rw [heq] at hsuffix
    exact (rest_cons 59 rest).trans hsuffix
  next => cases h

theorem expandTurn_rest (hne : src ≠ []) (h : expandTurn src = some (out, rest)) :
    Rest rest src := by
  have hdrop : ∀ k, 0 < k → Rest (src.drop k) src := fun k hk => rest_drop hk hne
  unfold expandTurn at h
  split at h
  next => cases h; exact hdrop 5 (by decide)
  next =>
  split at h
  next => cases h; exact hdrop 6 (by decide)
  next =>
  split at h
  next => cases h; exact hdrop 6 (by decide)
  next =>
  split at h
  next => cases h; exact hdrop 4 (by decide)
  next =>
  split at h
  next => cases h; exact hdrop 4 (by decide)
  next =>
  split at h
  next => exact (codedRef_rest h).trans (List.drop_suffix 3 src)
  next =>
  split at h
  next => exact (codedRef_rest h).trans (List.drop_suffix 2 src)
  next => cases h; exact hdrop 1 (by decide)

theorem ne_nil_of_any {p : Byte → Bool} (h : src.head?.any p = true) : src ≠ [] := by
  rintro rfl
  cases h

theorem expandLoop_rest (h : expandLoop pred n src = .ok (value, rest)) :
    rest <:+ src ∧ (src.head?.any pred = true → Rest rest src) := by
  induction n generalizing src value with
  | zero => cases h
  | succ n ih =>
    rw [expandLoop] at h
    split at h
    next hhead =>
      obtain ⟨⟨out, src'⟩, hturn, h⟩ := XmlError.bind_ok h
      obtain ⟨⟨value', rest'⟩, hloop, h⟩ := XmlError.bind_ok h
      cases h
      have hturn := expandTurn_rest (ne_nil_of_any hhead) (XmlError.orParseError_ok hturn)
      have hrest := Rest.of_suffix (ih hloop).1 hturn
      exact ⟨hrest.1, fun _ => hrest⟩
    next hhead =>
      cases h
      exact ⟨List.suffix_refl _, fun hyes => absurd hyes hhead⟩

theorem expandLoop_ends (hn : src.length < n) : Ends (expandLoop pred n src) := by
  induction n generalizing src with
  | zero => exact absurd hn (Nat.not_lt_zero _)
  | succ n ih =>
    rw [expandLoop]
    split
    next hhead =>
      apply (ends_orParseError (expandTurn src)).bind
      rintro ⟨out, src'⟩ hturn
      have hrest := expandTurn_rest (ne_nil_of_any hhead) (XmlError.orParseError_ok hturn)
      have hlt := hrest.2
      exact (ih (by omega)).bind fun _ _ => ends_ok _
    next => exact ends_ok _

theorem skipAndExpand_ends (pred predPure : Byte → Bool) (text : List Byte) :
    Ends (skipAndExpand pred predPure text) :=
  (expandLoop_ends (Nat.lt_succ_self _)).bind fun _ _ => ends_ok _

theorem skipAndExpand_rest (h : skipAndExpand pred predPure text = .ok (value, rest)) :
    rest <:+ text := by
  obtain ⟨⟨value', rest'⟩, hloop, h⟩ := XmlError.bind_ok h
  cases h
  exact (expandLoop_rest hloop).1.trans (List.dropWhile_suffix _)

theorem skipAndExpand_strict (hhead : text.head?.any pred = true)
    (h : skipAndExpand pred predPure text = .ok (value, rest)) : Rest rest text := by
  obtain ⟨⟨value', rest'⟩, hloop, h⟩ := XmlError.bind_ok h
  cases h
  obtain ⟨c, t, rfl⟩ := List.exists_cons_of_ne_nil (ne_nil_of_any hhead)
  by_cases hc : predPure c = true
  · rw [List.dropWhile_cons_of_pos hc] at hloop
    exact Rest.of_suffix ((expandLoop_rest hloop).1.trans (List.dropWhile_suffix _)) (rest_cons c t)
  · rw [List.dropWhile_cons_of_neg hc] at hloop
    exact (expandLoop_rest hloop).2 hhead

theorem parseNodeAttributes_rest {attributes : List (List Byte × List Byte)}
    (h : parseNodeAttributes n text = .ok (attributes, rest)) :
    rest <:+ text ∧ ∀ attr ∈ attributes, 0 ∉ attr.1 ∧ 0 ∉ attr.2 := by
  induction n generalizing text attributes with
  | zero => cases h
  | succ n ih =>
    rw [parseNodeAttributes] at h
    split at h
    next hhead =>
      split at h
      next src₁ hequals =>
        split at h
        next quote src₂ hquote =>
          split at h
          next =>
            obtain ⟨⟨value, src₃⟩, hvalue, h⟩ := XmlError.bind_ok h
            dsimp only at h
            split at h
            next =>
              obtain ⟨⟨more, src₄⟩, hmore, h⟩ := XmlError.bind_ok h
              cases h
              obtain ⟨hsuffix, hattrs⟩ := ih hmore
              have hsrc₁ : 61 :: src₁ <:+ text := by
                rw [← hequals]
                exact (List.dropWhile_suffix _).trans (List.dropWhile_suffix _)
              have hsrc₂ : quote :: src₂ <:+ src₁ := by
                rw [← hquote]
                exact List.dropWhile_suffix _
              have hsrc₃ : src₃ <:+ text := (skipAndExpand_rest hvalue).trans
                ((List.suffix_cons quote src₂).trans (hsrc₂.trans
                  ((List.suffix_cons 61 src₁).trans hsrc₁)))
              refine ⟨hsuffix.trans ((List.dropWhile_suffix _).trans
                ((List.drop_suffix 1 src₃).trans hsrc₃)), ?_⟩
              refine List.forall_mem_cons.mpr ⟨⟨fun hz => ?_, fun hz => ?_⟩, hattrs⟩
              · exact absurd (List.mem_takeWhile_imp hz) (by decide)
              · exact absurd (List.mem_takeWhile_imp hz) (by decide)
            next => cases h
          next => cases h
        next => cases h
      next => cases h
    next =>
      cases h
      exact ⟨List.suffix_refl _, fun attr hattr => absurd hattr List.not_mem_nil⟩

theorem parseNodeAttributes_ends (hn : text.length < n) : Ends (parseNodeAttributes n text) := by
  induction n generalizing text with
  | zero => exact absurd hn (Nat.not_lt_zero _)
  | succ n ih =>
    rw [parseNodeAttributes]
    split
    next =>
      split
      next src₁ hequals =>
        split
        next quote src₂ hquote =>
          split
          next =>
            apply (skipAndExpand_ends _ _ src₂).bind
            rintro ⟨value, src₃⟩ hvalue
            have hsrc₁ : (61 :: src₁).length ≤ text.length := by
              rw [← hequals]
              exact ((List.dropWhile_suffix _).trans (List.dropWhile_suffix _)).length_le
            have hsrc₂ : (quote :: src₂).length ≤ src₁.length := by
              rw [← hquote]
              exact (List.dropWhile_suffix _).length_le
            have hsrc₃ : ((src₃.drop 1).dropWhile isXmlSpace).length ≤ src₂.length :=
              ((List.dropWhile_suffix _).trans ((List.drop_suffix 1 src₃).trans
                (skipAndExpand_rest hvalue))).length_le
            rw [List.length_cons] at hsrc₁ hsrc₂
            dsimp only
            split
            next => exact (ih (by omega)).bind fun _ _ => ends_ok _
            next => exact ends_parseError
          next => exact ends_parseError
        next => exact ends_parseError
      next => exact ends_parseError
    next => exact ends_ok _

theorem skipBehind_rest {mark : List Byte} (hmark : mark ≠ [])
    (h : skipBehind mark text = some rest) : Rest rest text := by
  induction text with
  | nil => cases h
  | cons c text ih =>
    rw [skipBehind] at h
    split at h
    next =>
      cases h
      exact rest_drop (List.length_pos_of_ne_nil hmark) (List.cons_ne_nil _ _)
    next => exact (ih h).trans (List.suffix_cons c text)

theorem skipDoctype_rest (h : skipDoctype n text = some rest) : Rest rest text := by
  induction text generalizing n with
  | nil => cases n <;> cases h
  | cons c text ih =>
    have hcons := List.suffix_cons c text
    cases n with
    | zero =>
      rw [skipDoctype] at h
      split at h
      next =>
        cases h
        exact rest_cons c rest
      next =>
      split at h
      next => exact (ih h).trans hcons
      next => exact (ih h).trans hcons
    | succ depth =>
      rw [skipDoctype] at h
      split at h
      next => exact (ih h).trans hcons
      next =>
      split at h
      next => exact (ih h).trans hcons
      next => exact (ih h).trans hcons

theorem parseMarkup_rest {node : ParsedNode} (h : parseMarkup text = some (node, rest)) :
    Rest rest text ∧ (node = .null ∨ node = .data) := by
  have hskip : ∀ {mark src : List Byte} {found : ParsedNode}, mark ≠ [] → src <:+ text →
      (found = .null ∨ found = .data) →
      (skipBehind mark src).map (fun src => (found, src)) = some (node, rest) →
      Rest rest text ∧ (node = .null ∨ node = .data) := by
    intro mark src found hmark hsrc hfound hmap
    obtain ⟨rest', hrest, heq⟩ := Option.map_eq_some_iff.mp hmap
    cases heq
    exact ⟨(skipBehind_rest hmark hrest).trans hsrc, hfound⟩
  have hdrop : ∀ k, text.drop k <:+ text := fun k => List.drop_suffix k text
  unfold parseMarkup at h
  split at h
  next =>
    dsimp only at h
    split at h
    next => exact hskip (by decide) ((List.drop_suffix 4 _).trans (hdrop 1)) (Or.inl rfl) h
    next => exact hskip (by decide) (hdrop 1) (Or.inl rfl) h
  next =>
  split at h
  next => exact hskip (by decide) (hdrop 3) (Or.inl rfl) h
  next =>
  split at h
  next => exact hskip (by decide) (hdrop 8) (Or.inr rfl) h
  next =>
  split at h
  next =>
    obtain ⟨rest', hrest, heq⟩ := Option.map_eq_some_iff.mp h
    cases heq
    exact ⟨(skipDoctype_rest hrest).trans (hdrop 9), Or.inl rfl⟩
  next => exact hskip (by decide) (hdrop 1) (Or.inl rfl) h

/-- The nodes that are appended behind the one that is returned. -/
def ParsedNode.Valid : ParsedNode → Prop
  | null => True
  | element name attributes child => name ≠ [] ∧ 0 ∉ name ∧
      (∀ attr ∈ attributes, 0 ∉ attr.1 ∧ 0 ∉ attr.2) ∧ child.Valid
  | data => True

theorem ParsedNode.Valid.append {node : ParsedNode} {next : XmlNode} (h : node.Valid)
    (hnext : next.Valid) : (node.append next).Valid := by
  cases node with
  | null => exact hnext
  | element name attributes child => exact ⟨h.1, h.2.1, h.2.2.1, h.2.2.2, hnext⟩
  | data => exact hnext

end

/-- What `parse_node` leaves and returns in `n` turns. -/
def NodeRest (n : Nat) : Prop :=
  ∀ text rest node, parseNode n text = .ok (node, rest) → Rest rest text ∧ node.Valid

/-- What `parse_node_contents` leaves and returns in `n` turns. -/
def ContentsRest (n : Nat) : Prop :=
  ∀ text rest nodes, parseNodeContents n text = .ok (nodes, rest) → Rest rest text ∧ nodes.Valid

theorem NodeRest.succ {n : Nat} (hcontents : ContentsRest n) : NodeRest (n + 1) := by
  intro text rest node h
  rw [parseNode] at h
  split at h
  next =>
    obtain ⟨hrest, rfl | rfl⟩ := parseMarkup_rest (XmlError.orParseError_ok h)
    · exact ⟨hrest, trivial⟩
    · exact ⟨hrest, trivial⟩
  next =>
  split at h
  next hname =>
    obtain ⟨⟨attributes, src⟩, hattrs, h⟩ := XmlError.bind_ok h
    obtain ⟨hsrc, hvalid⟩ := parseNodeAttributes_rest hattrs
    have hbehind : src <:+ text :=
      hsrc.trans ((List.dropWhile_suffix _).trans (List.dropWhile_suffix _))
    have hne : text.takeWhile isNodeName ≠ [] ∧ 0 ∉ text.takeWhile isNodeName := by
      refine ⟨?_, fun hz => absurd (List.mem_takeWhile_imp hz) (by decide)⟩
      obtain ⟨c, t, rfl⟩ := List.exists_cons_of_ne_nil (ne_nil_of_any hname)
      have hc : isNodeName c = true := hname
      rw [List.takeWhile_cons_of_pos hc]
      exact List.cons_ne_nil c _
    dsimp only at h
    split at h
    next src' =>
      obtain ⟨⟨child, rest'⟩, hchild, h⟩ := XmlError.bind_ok h
      cases h
      obtain ⟨hrest, hchild⟩ := hcontents src' rest' child hchild
      exact ⟨hrest.trans ((List.suffix_cons 62 src').trans hbehind), hne.1, hne.2, hvalid,
        hchild⟩
    next src' =>
      cases h
      have hrest : Rest rest (47 :: 62 :: rest) :=
        (rest_cons 62 rest).trans (List.suffix_cons _ _)
      exact ⟨hrest.trans hbehind, hne.1, hne.2, hvalid, trivial⟩
    next => cases h
  next => cases h

theorem ContentsRest.succ {n : Nat} (hnode : NodeRest n) (hcontents : ContentsRest n) :
    ContentsRest (n + 1) := by
  intro text rest nodes h
  rw [parseNodeContents] at h
  have hdrop : text.dropWhile isXmlSpace <:+ text := List.dropWhile_suffix _
  split at h
  next => cases h
  next src heq =>
    rw [heq] at hdrop
    split at h
    next src' heq' =>
      cases h
      have hrest : rest <:+ src := by
        refine (List.suffix_cons 62 rest).trans ?_
        rw [← heq']
        exact (List.dropWhile_suffix _).trans (List.dropWhile_suffix _)
      exact ⟨Rest.of_suffix hrest (((rest_cons 47 src).trans (List.suffix_cons _ _)).trans hdrop),
        trivial⟩
    next => cases h
  next src _ heq =>
    rw [heq] at hdrop
    obtain ⟨⟨node, src'⟩, hread, h⟩ := XmlError.bind_ok h
    obtain ⟨⟨more, rest'⟩, hmore, h⟩ := XmlError.bind_ok h
    cases h
    obtain ⟨hsrc, hvalid⟩ := hnode src src' node hread
    obtain ⟨hrest, hmore⟩ := hcontents src' rest more hmore
    exact ⟨hrest.trans (hsrc.1.trans ((List.suffix_cons 60 src).trans hdrop)), hvalid.append hmore⟩
  next =>
    obtain ⟨⟨value, src⟩, hvalue, h⟩ := XmlError.bind_ok h
    obtain ⟨⟨more, rest'⟩, hmore, h⟩ := XmlError.bind_ok h
    cases h
    obtain ⟨hrest, hmore⟩ := hcontents src rest more hmore
    exact ⟨hrest.trans (skipAndExpand_rest hvalue), hmore⟩

theorem parse_rest (n : Nat) : NodeRest n ∧ ContentsRest n := by
  induction n with
  | zero =>
    constructor
    · intro text rest node h
      rw [parseNode] at h
      cases h
    · intro text rest nodes h
      rw [parseNodeContents] at h
      cases h
  | succ n ih => exact ⟨NodeRest.succ ih.2, ContentsRest.succ ih.1 ih.2⟩

/-- `parse_node` ends within as many turns as there are bytes, as a text has no NUL. -/
def NodeEnds (n : Nat) : Prop := ∀ text, 0 ∉ text → text.length < n → Ends (parseNode n text)

def ContentsEnds (n : Nat) : Prop :=
  ∀ text, 0 ∉ text → text.length < n → Ends (parseNodeContents n text)

theorem NodeEnds.succ {n : Nat} (hcontents : ContentsEnds n) : NodeEnds (n + 1) := by
  intro text hnul hn
  rw [parseNode]
  split
  next => exact ends_orParseError _
  next =>
  split
  next =>
    apply (parseNodeAttributes_ends (Nat.lt_succ_self _)).bind
    rintro ⟨attributes, src⟩ hattrs
    have hsrc : src <:+ text := (parseNodeAttributes_rest hattrs).1.trans
      ((List.dropWhile_suffix _).trans (List.dropWhile_suffix _))
    dsimp only
    split
    next src' =>
      have hrest : Rest src' text := (rest_cons 62 src').trans hsrc
      have hlt := hrest.2
      exact (hcontents src' (hrest.no_nul hnul) (by omega)).bind fun _ _ => ends_ok _
    next => exact ends_ok _
    next => exact ends_parseError
  next => exact ends_parseError

theorem ContentsEnds.succ {n : Nat} (hnode : NodeEnds n) (hcontents : ContentsEnds n) :
    ContentsEnds (n + 1) := by
  intro text hnul hn
  have hnext : ∀ src, Rest src text → Ends (parseNodeContents n src) := fun src hsrc =>
    hcontents src (hsrc.no_nul hnul) (Nat.lt_of_lt_of_le hsrc.2 (Nat.le_of_lt_succ hn))
  have hdrop : text.dropWhile isXmlSpace <:+ text := List.dropWhile_suffix _
  rw [parseNodeContents]
  split
  next => exact ends_parseError
  next =>
    split
    next => exact ends_ok _
    next => exact ends_parseError
  next src _ heq =>
    rw [heq] at hdrop
    have hsrc : Rest src text := (rest_cons 60 src).trans hdrop
    have hlt := hsrc.2
    apply (hnode src (hsrc.no_nul hnul) (by omega)).bind
    rintro ⟨node, src'⟩ hread
    have hsrc' : Rest src' text := ((parse_rest n).1 src src' node hread).1.trans hsrc.1
    exact (hnext src' hsrc').bind fun _ _ => ends_ok _
  next hnil hclose hopen =>
    have hhead : text.head?.any isText = true := by
      cases text with
      | nil => exact absurd rfl hnil
      | cons c t =>
        have hc : c ≠ 0 := fun hz => hnul (hz ▸ List.mem_cons_self)
        have hlt : c ≠ 60 := by
          rintro rfl
          exact hopen t rfl
        change (c ≠ 0 && c ≠ 60 : Bool) = true
        simp [hc, hlt]
    apply (skipAndExpand_ends _ _ text).bind
    rintro ⟨value, src⟩ hvalue
    exact (hnext src (skipAndExpand_strict hhead hvalue)).bind fun _ _ => ends_ok _

theorem parse_ends (n : Nat) : NodeEnds n ∧ ContentsEnds n := by
  induction n with
  | zero => exact ⟨fun _ _ hn => absurd hn (Nat.not_lt_zero _),
      fun _ _ hn => absurd hn (Nat.not_lt_zero _)⟩
  | succ n ih => exact ⟨NodeEnds.succ ih.2, ContentsEnds.succ ih.1 ih.2⟩

theorem parseChildren_valid {n : Nat} {text : List Byte} {root : XmlNode}
    (h : parseChildren n text = .ok root) : root.Valid := by
  induction n generalizing text root with
  | zero => cases h
  | succ n ih =>
    rw [parseChildren] at h
    split at h
    next =>
      cases h
      trivial
    next =>
      obtain ⟨⟨node, src⟩, hnode, h⟩ := XmlError.bind_ok h
      obtain ⟨nodes, hnodes, h⟩ := XmlError.bind_ok h
      cases h
      exact ((parse_rest n).1 _ _ _ hnode).2.append (ih hnodes)
    next => cases h

theorem parseChildren_ends {n : Nat} {text : List Byte} (hnul : 0 ∉ text) (hn : text.length < n) :
    Ends (parseChildren n text) := by
  induction n generalizing text with
  | zero => exact absurd hn (Nat.not_lt_zero _)
  | succ n ih =>
    have hdrop : text.dropWhile isXmlSpace <:+ text := List.dropWhile_suffix _
    rw [parseChildren]
    split
    next => exact ends_ok _
    next src heq =>
      rw [heq] at hdrop
      have hsrc : Rest src text := (rest_cons 60 src).trans hdrop
      have hlt := hsrc.2
      apply ((parse_ends n).1 src (hsrc.no_nul hnul) (by omega)).bind
      rintro ⟨node, src'⟩ hnode
      have hsrc' : Rest src' text := ((parse_rest n).1 src src' node hnode).1.trans hsrc.1
      have hlt' := hsrc'.2
      exact (ih (hsrc'.no_nul hnul) (by omega)).bind fun _ _ => ends_ok _
    next => exact ends_parseError

theorem skipBom_no_nul (file : List Byte) : 0 ∉ skipBom (cstr file) := by
  have hnul : 0 ∉ cstr file := fun hz => absurd (List.mem_takeWhile_imp hz) (by decide)
  unfold skipBom
  split
  · exact fun hz => hnul (List.mem_of_mem_drop hz)
  · exact hnul

/-- On every file the parser ends within as many turns as there are bytes, with a tree or a
`parse_error`. In every tree that it returns no name of an element is empty, and no name and no
value has a NUL, so each file with one root that it takes is a document. -/
theorem file_accepted (file : List Byte) :
    (∀ n, (skipBom (cstr file)).length < n → Ends (parseChildren n (skipBom (cstr file)))) ∧
    xmlDocumentParse file ≠ .error .outOfTurns ∧
    ∀ root, xmlDocumentParse file = .ok root → root.Valid ∧
      ∀ name attributes child, root = .element name attributes child .nil →
        ∃ doc : XmlDocument, doc.rootNode = root := by
  have hnul := skipBom_no_nul file
  refine ⟨fun n hn => parseChildren_ends hnul hn, parseChildren_ends hnul (Nat.lt_succ_self _),
    fun root hroot => ⟨parseChildren_valid hroot, ?_⟩⟩
  rintro name attributes child rfl
  exact ⟨⟨name, attributes, child, parseChildren_valid hroot⟩, rfl⟩

end Tnode
