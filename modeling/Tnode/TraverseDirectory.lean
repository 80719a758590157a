import Tnode.HttpParser

namespace Tnode

/-- The types of files that are no directories, as `readdir` gives them. -/
inductive FileType
  | fifo | chr | blk | reg | lnk | sock | wht
deriving DecidableEq, Repr

/-- `DT_FIFO` to `DT_WHT`. -/
def FileType.d_type : FileType → Nat
  | .fifo => 1
  | .chr => 2
  | .blk => 6
  | .reg => 8
  | .lnk => 10
  | .sock => 12
  | .wht => 14

def DT_DIR : Nat := 4

def PATH_MAX : Nat := 4096

/-- What lies in a directory, in the order of `readdir`. -/
inductive Listing
  | nil
  | file (name : List Byte) (type : FileType) (rest : Listing)
  | directory (name : List Byte) (inside rest : Listing)

def tolower (c : Byte) : Byte := if 65 ≤ c ∧ c ≤ 90 then c + 32 else c

/-- `strcasecmp(s, t) == 0`. -/
def strcaseEq (s t : List Byte) : Bool := s.map tolower = t.map tolower

/-- `strrchr`; `none` is `nullptr`. -/
def strrchr (s : List Byte) (c : Byte) : Option (List Byte) :=
  if c ∈ s then some (c :: (s.reverse.takeWhile (· ≠ c)).reverse) else none

def hidden (name : List Byte) : Bool := name.head? = some 46

/-- The tests at which the loop of `traverseDirectory` passes an entry over. -/
def skips (filterSuffix : Option (List Byte)) (name : List Byte) : Bool :=
  hidden name || filterSuffix.any fun filterSuffix =>
    (strrchr name 46).all fun suffix => !strcaseEq suffix filterSuffix

def pathname (folder name : List Byte) : List Byte := folder ++ 47 :: name

/-- What `snprintf` writes to `fullname`; `none` is a path that it cuts short, so that from there on
the files are others than those of the directory. -/
def fullname (folder name : List Byte) : Option (List Byte) :=
  if (pathname folder name).length < PATH_MAX then some (pathname folder name) else none

/-- A call of the callback in the loop. -/
def called (callback : List Byte → Bool) (path : List Byte)
    (rest : Option (List (List Byte) × Bool)) : Option (List (List Byte) × Bool) :=
  if callback path then rest.map fun out => (path :: out.1, out.2) else some ([path], false)

/-- The loop of `traverseDirectory`: the calls of the callback, and what is returned. -/
def traverseEntries (filterSuffix : Option (List Byte)) (callback : List Byte → Bool) :
    List Byte → Listing → Option (List (List Byte) × Bool)
  | _, .nil => some ([], true)
  | folder, .file name type rest =>
    if skips filterSuffix name then traverseEntries filterSuffix callback folder rest
    else
      (fullname folder name).bind fun path =>
        if type.d_type &&& DT_DIR ≠ 0 then some ([path], callback path)
        else called callback path (traverseEntries filterSuffix callback folder rest)
  | folder, .directory name inside rest =>
    if skips filterSuffix name then traverseEntries filterSuffix callback folder rest
    else (fullname folder name).bind fun path => traverseEntries filterSuffix callback path inside

/-- `traverseDirectory`, with `none` for what is no directory. -/
def traverseDirectory (folder : List Byte) (filterSuffix : Option (List Byte))
    (callback : List Byte → Bool) : Option Listing → Option (List (List Byte) × Bool)
  | none => some ([folder], callback folder)
  | some entries => traverseEntries filterSuffix callback folder entries

/-- `MessageParserInternal::loadmsg`, where `parseProtoFile` is what `Import` makes of a file. -/
def loadmsg (parseProtoFile : List Byte → Bool) (filename : List Byte) (what : Option Listing) :
    Option (List (List Byte) × Bool) :=
  traverseDirectory filename (some (bytes ".proto")) parseProtoFile what

namespace Listing

def names : Listing → List (List Byte)
  | nil => []
  | file name _ rest => name :: rest.names
  | directory name _ rest => name :: rest.names

/-- Names have no slash, and none is twice in a directory. -/
def Valid : Listing → Prop
  | nil => True
  | file name _ rest => 47 ∉ name ∧ name ∉ rest.names ∧ rest.Valid
  | directory name inside rest => 47 ∉ name ∧ name ∉ rest.names ∧ inside.Valid ∧ rest.Valid

/-- The paths of the files of some kind, at any depth and through directories that are not hidden. -/
def filesBelow (select : FileType → List Byte → Bool) : List Byte → Listing → List (List Byte)
  | _, nil => []
  | folder, file name type rest =>
    (if select type name then [pathname folder name] else []) ++ rest.filesBelow select folder
  | folder, directory name inside rest =>
    (if hidden name then [] else inside.filesBelow select (pathname folder name)) ++
      rest.filesBelow select folder

/-- The regular files that a traversal is for. -/
def wanted (filterSuffix : Option (List Byte)) : List Byte → Listing → List (List Byte) :=
  filesBelow fun type name => type = .reg && !skips filterSuffix name

/-- The other files with the suffix. -/
def strangers (filterSuffix : Option (List Byte)) : List Byte → Listing → List (List Byte) :=
  filesBelow fun type name => type ≠ .reg && !skips filterSuffix name

/-- Nothing is lost at a directory: one that is passed over has no wanted file below it, and behind
the first one that is entered there is none. All files that are met are regular, and their paths fit. -/
def Covered (filterSuffix : Option (List Byte)) : List Byte → Listing → Prop
  | _, nil => True
  | folder, file name type rest =>
    (skips filterSuffix name = false → type = .reg ∧ (fullname folder name).isSome) ∧
      rest.Covered filterSuffix folder
  | folder, directory name inside rest =>
    if skips filterSuffix name then
      (hidden name ∨ inside.wanted filterSuffix (pathname folder name) = []) ∧
        rest.Covered filterSuffix folder
    else
      (fullname folder name).isSome ∧ inside.Covered filterSuffix (pathname folder name) ∧
        rest.wanted filterSuffix folder = []

end Listing

/-- A directory tree. -/
structure DirectoryTree where
  entries : Listing
  valid : entries.Valid

/-- The callback is called once for each of these files and for nothing else, and `true` is returned;
a callback that refuses one of them makes it `false`. -/
def Visits (run : (List Byte → Bool) → Option (List (List Byte) × Bool)) (files : List (List Byte)) :
    Prop :=
  (∃ calls, run (fun _ => true) = some (calls, true) ∧ calls.Perm files) ∧
  ∀ callback, (∃ f ∈ files, callback f = false) → ∃ calls, run callback = some (calls, false)

variable {filterSuffix : Option (List Byte)} {folder : List Byte} {l : Listing}

theorem fullname_eq {folder name : List Byte} (h : (fullname folder name).isSome = true) :
    fullname folder name = some (pathname folder name) := by
  unfold fullname at h ⊢
  split
  next => rfl
  next hfit =>
    rw [if_neg hfit] at h
    cases h

theorem fullname_some {folder name path : List Byte} (h : fullname folder name = some path) :
    (fullname folder name).isSome = true ∧ path = pathname folder name := by
  have hsome : (fullname folder name).isSome = true := Option.isSome_iff_exists.mpr ⟨path, h⟩
  rw [fullname_eq hsome] at h
  exact ⟨hsome, (Option.some.inj h).symm⟩

namespace Listing

/-- The entry of a directory that a path goes through. -/
def firstName (folder path : List Byte) : List Byte :=
  (path.drop (folder.length + 1)).takeWhile (· ≠ 47)

theorem firstName_pathname {name t : List Byte} (hname : 47 ∉ name) (ht : t.head?.all (· = 47)) :
    firstName folder (pathname folder name ++ t) = name := by
  have hdrop : (pathname folder name ++ t).drop (folder.length + 1) = name ++ t := by
    rw [pathname, List.append_assoc, List.drop_append]
    simp
  rw [firstName, hdrop, List.takeWhile_append_of_pos]
  · cases t with
    | nil => exact List.append_nil name
    | cons x t =>
      rw [List.takeWhile_cons_of_neg (by simpa using ht), List.append_nil]
  · intro x hx
    rw [decide_eq_true_eq]
    rintro rfl
    exact hname hx

theorem firstName_self {name : List Byte} (hname : 47 ∉ name) :
    firstName folder (pathname folder name) = name := by
  have h := @firstName_pathname folder name [] hname rfl
  rw [List.append_nil] at h
  exact h

theorem mem_file {select : FileType → List Byte → Bool} {name path : List Byte} {type : FileType}
    {rest : Listing} : path ∈ (file name type rest).filesBelow select folder ↔
      (select type name = true ∧ path = pathname folder name) ∨ path ∈ rest.filesBelow select folder := by
  rw [filesBelow, List.mem_append]
  split
  next h => simp [h]
  next h => simp [h]

theorem mem_directory {select : FileType → List Byte → Bool} {name path : List Byte}
    {inside rest : Listing} : path ∈ (directory name inside rest).filesBelow select folder ↔
      (hidden name = false ∧ path ∈ inside.filesBelow select (pathname folder name)) ∨
        path ∈ rest.filesBelow select folder := by
  rw [filesBelow, List.mem_append]
  split
  next h => simp [h]
  next h => simp [h]

theorem filesBelow_begins {select : FileType → List Byte → Bool} {path : List Byte}
    (h : path ∈ l.filesBelow select folder) : ∃ t, path = folder ++ 47 :: t := by
  induction l generalizing folder with
  | nil => cases h
  | file name type rest ih =>
    rcases mem_file.mp h with ⟨_, h⟩ | h
    · exact ⟨name, h⟩
    · exact ih h
  | directory name inside rest ihInside ihRest =>
    rcases mem_directory.mp h with ⟨_, h⟩ | h
    · obtain ⟨t, rfl⟩ := ihInside h
      exact ⟨name ++ 47 :: t, by simp [pathname]⟩
    · exact ihRest h

theorem firstName_inside {select : FileType → List Byte → Bool} {name path : List Byte}
    (hname : 47 ∉ name) (h : path ∈ l.filesBelow select (pathname folder name)) :
    firstName folder path = name := by
  obtain ⟨t, rfl⟩ := filesBelow_begins h
  exact firstName_pathname hname rfl

theorem firstName_mem {select : FileType → List Byte → Bool} (hv : l.Valid) {path : List Byte}
    (h : path ∈ l.filesBelow select folder) : firstName folder path ∈ l.names := by
  induction l with
  | nil => cases h
  | file name type rest ih =>
    obtain ⟨hname, _, hrest⟩ := hv
    rcases mem_file.mp h with ⟨_, rfl⟩ | h
    · rw [firstName_self hname]
      exact List.mem_cons_self
    · exact List.mem_cons_of_mem name (ih hrest h)
  | directory name inside rest _ ih =>
    obtain ⟨hname, _, _, hrest⟩ := hv
    rcases mem_directory.mp h with ⟨_, h⟩ | h
    · rw [firstName_inside hname h]
      exact List.mem_cons_self
    · exact List.mem_cons_of_mem name (ih hrest h)

/-- A path names one file. -/
theorem filesBelow_determined {select select' : FileType → List Byte → Bool} (hv : l.Valid)
    {path : List Byte} (h : path ∈ l.filesBelow select folder)
    (h' : path ∈ l.filesBelow select' folder) :
    ∃ type name, select type name = true ∧ select' type name = true := by
  induction l generalizing folder with
  | nil => cases h
  | file name type rest ih =>
    obtain ⟨hname, hfresh, hrest⟩ := hv
    rcases mem_file.mp h with ⟨hs, rfl⟩ | h
    · rcases mem_file.mp h' with ⟨hs', _⟩ | h'
      · exact ⟨type, name, hs, hs'⟩
      · have hmem := firstName_mem hrest h'
        rw [firstName_self hname] at hmem
        exact absurd hmem hfresh
    · rcases mem_file.mp h' with ⟨_, rfl⟩ | h'
      · have hmem := firstName_mem hrest h
        rw [firstName_self hname] at hmem
        exact absurd hmem hfresh
      · exact ih hrest h h'
  | directory name inside rest ihInside ihRest =>
    obtain ⟨hname, hfresh, hinside, hrest⟩ := hv
    rcases mem_directory.mp h with ⟨_, h⟩ | h
    · rcases mem_directory.mp h' with ⟨_, h'⟩ | h'
      · exact ihInside hinside h h'
      · have hmem := firstName_mem hrest h'
        rw [firstName_inside hname h] at hmem
        exact absurd hmem hfresh
    · rcases mem_directory.mp h' with ⟨_, h'⟩ | h'
      · have hmem := firstName_mem hrest h
        rw [firstName_inside hname h'] at hmem
        exact absurd hmem hfresh
      · exact ihRest hrest h h'

theorem not_stranger (hv : l.Valid) {path : List Byte} (h : path ∈ l.wanted filterSuffix folder) :
    path ∉ l.strangers filterSuffix folder := by
  intro h'
  obtain ⟨type, name, hs, hs'⟩ := filesBelow_determined hv h h'
  simp at hs hs'
  exact hs'.1 hs.1

theorem wanted_file {name : List Byte} {type : FileType} {rest : Listing} :
    (file name type rest).wanted filterSuffix folder =
      (if type = .reg ∧ skips filterSuffix name = false then [pathname folder name] else []) ++
        rest.wanted filterSuffix folder := by
  unfold wanted
  rw [filesBelow]
  simp

theorem wanted_directory {name : List Byte} {inside rest : Listing} :
    (directory name inside rest).wanted filterSuffix folder =
      (if hidden name then [] else inside.wanted filterSuffix (pathname folder name)) ++
        rest.wanted filterSuffix folder := rfl

theorem hidden_skips {name : List Byte} (h : skips filterSuffix name = false) : hidden name = false := by
  rw [skips, Bool.or_eq_false_iff] at h
  exact h.1

/-- In a covered directory the callback is called for the wanted files until it refuses one. -/
theorem Covered.traverse (h : l.Covered filterSuffix folder) (callback : List Byte → Bool) :
    ∃ calls, traverseEntries filterSuffix callback folder l =
        some (calls, (l.wanted filterSuffix folder).all callback) ∧
      ((l.wanted filterSuffix folder).all callback = true → calls = l.wanted filterSuffix folder) := by
  induction l generalizing folder with
  | nil => exact ⟨[], rfl, fun _ => rfl⟩
  | file name type rest ih =>
    obtain ⟨hmet, hrest⟩ := h
    obtain ⟨calls, hcalls, hall⟩ := ih hrest
    rw [wanted_file, traverseEntries]
    split
    next hskip =>
      rw [if_neg (by simp [hskip]), List.nil_append]
      exact ⟨calls, hcalls, hall⟩
    next hskip =>
      rw [Bool.not_eq_true] at hskip
      obtain ⟨rfl, hfit⟩ := hmet hskip
      rw [if_pos ⟨rfl, hskip⟩, fullname_eq hfit, Option.bind_some, if_neg (by decide), called,
        List.singleton_append, List.all_cons]
      split
      next hcb =>
        rw [hcb, hcalls, Bool.true_and]
        refine ⟨pathname folder name :: calls, rfl, ?_⟩
        intro h
        rw [hall h]
      next hcb =>
        rw [Bool.not_eq_true] at hcb
        rw [hcb]
        exact ⟨_, rfl, fun h => absurd h Bool.false_ne_true⟩
  | directory name inside rest ihInside ihRest =>
    rw [Covered] at h
    rw [wanted_directory, traverseEntries]
    split
    next hskip =>
      rw [if_pos hskip] at h
      obtain ⟨hlost, hrest⟩ := h
      have hnone : (if hidden name then [] else inside.wanted filterSuffix (pathname folder name)) =
          [] := by
        split
        next => rfl
        next hh => exact hlost.resolve_left hh
      rw [hnone, List.nil_append]
      exact ihRest hrest
    next hskip =>
      rw [if_neg hskip] at h
      obtain ⟨hfit, hinside, hnone⟩ := h
      have hshown := hidden_skips (Bool.not_eq_true _ ▸ hskip)
      rw [hnone, List.append_nil, hshown, fullname_eq hfit, Option.bind_some]
      exact ihInside hinside

/-- Without strangers there are no more calls than wanted files, and as many only where the directory
is covered. -/
theorem covered_of_count {calls : List (List Byte)} {rc : Bool}
    (h : traverseEntries filterSuffix (fun _ => true) folder l = some (calls, rc))
    (hno : ∀ path ∈ calls, path ∉ l.strangers filterSuffix folder) :
    calls.length ≤ (l.wanted filterSuffix folder).length ∧
      (calls.length = (l.wanted filterSuffix folder).length → l.Covered filterSuffix folder) := by
  induction l generalizing folder calls with
  | nil =>
    cases h
    exact ⟨Nat.le_refl 0, fun _ => trivial⟩
  | file name type rest ih =>
    have hbehind : ∀ path ∈ calls, path ∉ rest.strangers filterSuffix folder := fun path hp hs =>
      hno path hp (mem_file.mpr (Or.inr hs))
    rw [traverseEntries] at h
    rw [wanted_file]
    split at h
    next hskip =>
      obtain ⟨hle, hcov⟩ := ih h hbehind
      rw [if_neg (by simp [hskip]), List.nil_append]
      exact ⟨hle, fun heq => ⟨fun hmet => absurd (hskip.symm.trans hmet) (by decide), hcov heq⟩⟩
    next hskip =>
      rw [Bool.not_eq_true] at hskip
      obtain ⟨path, hfull, h⟩ := Option.bind_eq_some_iff.mp h
      obtain ⟨hfit, rfl⟩ := fullname_some hfull
      have hmem : pathname folder name ∈ calls := by
        split at h
        next =>
          cases h
          exact List.mem_singleton_self _
        next =>
          rw [called, if_pos rfl] at h
          obtain ⟨out, _, h⟩ := Option.map_eq_some_iff.mp h
          cases h
          exact List.mem_cons_self
      have hreg : type = .reg := by
        by_contra hreg
        exact hno _ hmem (mem_file.mpr (Or.inl ⟨by simp [hreg, hskip], rfl⟩))
      subst hreg
      rw [if_neg (by decide), called, if_pos rfl] at h
      obtain ⟨⟨calls', rc'⟩, hrest, h⟩ := Option.map_eq_some_iff.mp h
      simp only [Prod.mk.injEq] at h
      obtain ⟨rfl, rfl⟩ := h
      obtain ⟨hle, hcov⟩ := ih hrest fun path hp => hbehind path (List.mem_cons_of_mem _ hp)
      rw [if_pos ⟨rfl, hskip⟩, List.singleton_append, List.length_cons, List.length_cons]
      exact ⟨by omega, fun heq => ⟨fun _ => ⟨rfl, hfit⟩, hcov (by omega)⟩⟩
  | directory name inside rest ihInside ihRest =>
    rw [traverseEntries] at h
    rw [wanted_directory, List.length_append, Covered]
    split at h
    next hskip =>
      obtain ⟨hle, hcov⟩ := ihRest h fun path hp hs => hno path hp (mem_directory.mpr (Or.inr hs))
      rw [if_pos hskip]
      refine ⟨by omega, ?_⟩
      intro heq
      refine ⟨?_, hcov (by omega)⟩
      split at heq
      next hh => exact Or.inl hh
      next => exact Or.inr (List.eq_nil_of_length_eq_zero (by omega))
    next hskip =>
      have hshown := hidden_skips (Bool.not_eq_true _ ▸ hskip)
      obtain ⟨path, hfull, h⟩ := Option.bind_eq_some_iff.mp h
      obtain ⟨hfit, rfl⟩ := fullname_some hfull
      obtain ⟨hle, hcov⟩ := ihInside h fun path hp hs =>
        hno path hp (mem_directory.mpr (Or.inl ⟨hshown, hs⟩))
      rw [if_neg hskip, hshown, if_neg Bool.false_ne_true]
      exact ⟨by omega, fun heq =>
        ⟨hfit, hcov (by omega), List.eq_nil_of_length_eq_zero (by omega)⟩⟩

/-- The traversal of a directory visits its files exactly where it is covered. -/
theorem visits_iff_covered (hv : l.Valid) :
    Visits (fun callback => traverseEntries filterSuffix callback folder l)
      (l.wanted filterSuffix folder) ↔ l.Covered filterSuffix folder := by
  constructor
  · intro h
    obtain ⟨⟨calls, hcalls, hperm⟩, _⟩ := h
    have hcount := covered_of_count hcalls fun path hp => not_stranger hv (hperm.mem_iff.mp hp)
    exact hcount.2 hperm.length_eq
  · intro h
    constructor
    · obtain ⟨calls, hcalls, hall⟩ := h.traverse fun _ => true
      have htrue : (l.wanted filterSuffix folder).all (fun _ => true) = true :=
        List.all_eq_true.mpr fun _ _ => rfl
      rw [htrue] at hcalls
      exact ⟨calls, hcalls, .of_eq (hall htrue)⟩
    · intro callback hrefused
      obtain ⟨calls, hcalls, _⟩ := h.traverse callback
      obtain ⟨f, hf, hcb⟩ := hrefused
      have hfalse : (l.wanted filterSuffix folder).all callback = false :=
        List.all_eq_false.mpr ⟨f, hf, by rw [hcb]; exact Bool.false_ne_true⟩
      rw [hfalse] at hcalls
      exact ⟨calls, hcalls⟩

end Listing

/-- `traverseDirectory`, and `loadmsg` with it, visits the files with the suffix exactly where no
directory without the suffix, or behind the first one with it, holds any of them, and the files with
it that are met are regular. -/
theorem traverseDirectory_visits_iff (folder : List Byte) (tree : DirectoryTree) :
    (∀ filterSuffix, Visits
        (fun callback => traverseDirectory folder filterSuffix callback (some tree.entries))
        (tree.entries.wanted filterSuffix folder) ↔ tree.entries.Covered filterSuffix folder) ∧
    (Visits (fun parseProtoFile => loadmsg parseProtoFile folder (some tree.entries))
        (tree.entries.wanted (some (bytes ".proto")) folder) ↔
      tree.entries.Covered (some (bytes ".proto")) folder) :=
  ⟨fun _ => Listing.visits_iff_covered tree.valid, Listing.visits_iff_covered tree.valid⟩

/-- A directory `d` with a file `a.proto` in it. -/
def nestedTree : DirectoryTree where
  entries := .directory (bytes "d") (.file (bytes "a.proto") .reg .nil) .nil
  valid := by
    have hd : 47 ∉ bytes "d" := by decide +kernel
    have ha : 47 ∉ bytes "a.proto" := by decide +kernel
    exact ⟨hd, List.not_mem_nil, ⟨ha, List.not_mem_nil, trivial⟩, trivial⟩

theorem nested_file_lost :
    ¬Visits (fun parseProtoFile => loadmsg parseProtoFile (bytes "m") (some nestedTree.entries))
      (nestedTree.entries.wanted (some (bytes ".proto")) (bytes "m")) := by
  intro h
  obtain ⟨⟨calls, hcalls, hperm⟩, _⟩ := h
  have hempty : calls = [] := by
    have hrun : loadmsg (fun _ => true) (bytes "m") (some nestedTree.entries) = some ([], true) := by
      decide +kernel
    cases hrun.symm.trans hcalls
    rfl
  rw [hempty] at hperm
  have hone : (nestedTree.entries.wanted (some (bytes ".proto")) (bytes "m")).length = 1 := by
    decide +kernel
  rw [← hperm.length_eq] at hone
  cases hone

end Tnode
