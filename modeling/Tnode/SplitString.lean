import Tnode.HttpParser
import Tnode.JsonDecimal

namespace Tnode

open JsonParser

def INT_MIN : Int := -2 ^ 31

def INT_MAX : Int := 2 ^ 31 - 1

/-- `std::stoi`; `none` is an exception. -/
def stoi (s : List Byte) : Option Int := (stol s).filter fun n => INT_MIN ≤ n ∧ n ≤ INT_MAX

/-- `std::stoll`: a `long long` has the width of a `long`. -/
def stoll (s : List Byte) : Option Int := stol s

/-- The field behind the last separator; `empty` is what is appended where it is empty. -/
def splitLast {α : Type} (read : List Byte → Option α) (empty : List α) (s : List Byte)
    (v : List α) : Bool × List α :=
  if s = [] then (true, v ++ empty)
  else
    match read s with
    | none => (false, v)
    | some value => (true, v ++ [value])

/-- The loop of the overloads of `splitString`: `s` is what `strchr` has passed since the last
separator. A field that cannot be read ends it. -/
def splitLoop {α : Type} (read : List Byte → Option α) (empty : List α) (sc : Byte) (s : List Byte) :
    List Byte → List α → Bool × List α
  | [], v => splitLast read empty s v
  | c :: p, v =>
    if c = sc then
      match read s with
      | none => (false, v)
      | some value => splitLoop read empty sc [] p (v ++ [value])
    else splitLoop read empty sc (s ++ [c]) p v

/-- An overload of `splitString`. For a separator of 0 `strchr` finds the end of the string, and what
lies behind it is read: `none`. -/
def splitString {α : Type} (read : List Byte → Option α) (empty : List α) (text : List Byte)
    (sc : Byte) (v : List α) : Option (Bool × List α) :=
  if sc = 0 then
    match read (cstr text) with
    | none => some (false, v)
    | some _ => none
  else some (splitLoop read empty sc [] (cstr text) v)

/-- `splitString(cstr, sc, std::vector<int>&)`. -/
def splitInts : List Byte → Byte → List Int → Option (Bool × List Int) := splitString stoi []

/-- `splitString(cstr, sc, std::vector<long>&)`. What `std::stol` reads goes through an `int`. -/
def splitLongs : List Byte → Byte → List Int → Option (Bool × List Int) :=
  splitString (fun s => (stol s).map int32) []

/-- `splitString(cstr, sc, std::vector<long long>&)`. What `std::stoll` reads goes through an
`int`. -/
def splitLongLongs : List Byte → Byte → List Int → Option (Bool × List Int) :=
  splitString (fun s => (stoll s).map int32) []

/-- `splitString(cstr, sc, std::vector<std::string>&)`. -/
def splitStrings : List Byte → Byte → List (List Byte) → Option (Bool × List (List Byte)) :=
  splitString some [[]]

/-- The texts with the separator between them. -/
def joined (sc : Byte) (fields : List (List Byte)) : List Byte := [sc].intercalate fields

section
variable {α : Type} {read : List Byte → Option α} {empty : List α} {sc : Byte}

theorem splitLoop_last {f : List Byte} (hf : sc ∉ f) (s : List Byte) (v : List α) :
    splitLoop read empty sc s f v = splitLast read empty (s ++ f) v := by
  induction f generalizing s with
  | nil => rw [splitLoop, List.append_nil]
  | cons c f ih =>
    obtain ⟨hc, hf⟩ := List.ne_and_not_mem_of_not_mem_cons hf
    rw [splitLoop, if_neg (Ne.symm hc), ih hf, List.append_assoc]
    rfl

theorem splitLoop_field {f : List Byte} (hf : sc ∉ f) {x : α} {s : List Byte}
    (hread : read (s ++ f) = some x) (p : List Byte) (v : List α) :
    splitLoop read empty sc s (f ++ sc :: p) v = splitLoop read empty sc [] p (v ++ [x]) := by
  induction f generalizing s with
  | nil =>
    rw [List.append_nil] at hread
    rw [List.nil_append, splitLoop, if_pos rfl, hread]
  | cons c f ih =>
    obtain ⟨hc, hf⟩ := List.ne_and_not_mem_of_not_mem_cons hf
    rw [List.cons_append, splitLoop, if_neg (Ne.symm hc)]
    apply ih hf
    rw [List.append_assoc]
    exact hread

/-- Texts that are read back one by one are read back from their join. -/
theorem splitLoop_joined {β : Type} {render : β → List Byte} {g : β → α} {l : List β} (hl : l ≠ [])
    (hsc : ∀ x ∈ l, sc ∉ render x) (hread : ∀ x ∈ l, read (render x) = some (g x))
    (hempty : ∀ x ∈ l, render x = [] → empty = [g x]) (v : List α) :
    splitLoop read empty sc [] (joined sc (l.map render)) v = (true, v ++ l.map g) := by
  induction l generalizing v with
  | nil => exact absurd rfl hl
  | cons x l ih =>
    have hx := hread x List.mem_cons_self
    have hxs := hsc x List.mem_cons_self
    cases l with
    | nil =>
      have hlast := hempty x List.mem_cons_self
      rw [List.map_singleton, List.map_singleton, joined, List.intercalate_singleton,
        splitLoop_last hxs, List.nil_append, splitLast]
      split
      next h => rw [hlast h]
      next => rw [hx]
    | cons y l =>
      have hrest := ih (List.cons_ne_nil y l) (fun z hz => hsc z (List.mem_cons_of_mem x hz))
        (fun z hz => hread z (List.mem_cons_of_mem x hz))
        (fun z hz => hempty z (List.mem_cons_of_mem x hz)) (v ++ [g x])
      have hjoined : joined sc ((x :: y :: l).map render) =
          render x ++ sc :: joined sc ((y :: l).map render) := by
        rw [joined, List.map_cons, List.map_cons, List.intercalate_cons_cons, List.append_assoc]
        rfl
      rw [hjoined, splitLoop_field hxs hx, hrest, List.append_assoc]
      rfl

theorem joined_no_nul {fields : List (List Byte)} (hsc : sc ≠ 0) (h : ∀ f ∈ fields, 0 ∉ f) :
    0 ∉ joined sc fields := by
  induction fields with
  | nil => exact List.not_mem_nil
  | cons f fields ih =>
    have hf := h f List.mem_cons_self
    have hrest := ih fun g hg => h g (List.mem_cons_of_mem f hg)
    cases fields with
    | nil =>
      rw [joined, List.intercalate_singleton]
      exact hf
    | cons g fields =>
      intro hz
      rw [joined, List.intercalate_cons_cons, List.mem_append, List.mem_append] at hz
      rcases hz with (hz | hz) | hz
      · exact hf hz
      · exact hsc (List.mem_singleton.mp hz).symm
      · exact hrest hz

theorem splitString_joined {β : Type} {render : β → List Byte} {g : β → α} {l : List β} (hl : l ≠ [])
    (hnul : sc ≠ 0) (hsc : ∀ x ∈ l, sc ∉ render x ∧ 0 ∉ render x)
    (hread : ∀ x ∈ l, read (render x) = some (g x))
    (hempty : ∀ x ∈ l, render x = [] → empty = [g x]) (v : List α) :
    splitString read empty (joined sc (l.map render)) sc v = some (true, v ++ l.map g) := by
  have hcstr : cstr (joined sc (l.map render)) = joined sc (l.map render) := by
    apply cstr_eq_self_iff.mpr
    apply joined_no_nul hnul
    intro f hf
    obtain ⟨x, hx, rfl⟩ := List.mem_map.mp hf
    exact (hsc x hx).2
  rw [splitString, if_neg hnul, hcstr, splitLoop_joined hl (fun x hx => (hsc x hx).1) hread hempty]

end

theorem stol_decimal {n : Int} (h : LONG_MIN ≤ n ∧ n ≤ LONG_MAX) : stol (decimal n) = some n := by
  obtain ⟨d, ds, hsigned, hd, hvalue⟩ := signed_decimal n
  have hn : (if decide (n < 0) = true then -(digitsValue (d :: ds) : Int) else digitsValue (d :: ds)) =
      n := by
    rw [hvalue]
    split
    next hneg =>
      have hlt := of_decide_eq_true hneg
      omega
    next hneg =>
      have hle : ¬n < 0 := fun hlt => hneg (decide_eq_true hlt)
      omega
  rw [stol, hsigned]
  simp only [hn]
  rw [if_pos ⟨hd, h⟩]

theorem stoi_decimal {n : Int} (h : INT_MIN ≤ n ∧ n ≤ INT_MAX) : stoi (decimal n) = some n := by
  have hrange := h
  rw [INT_MIN, INT_MAX] at hrange
  have hlong : LONG_MIN ≤ n ∧ n ≤ LONG_MAX := by
    rw [LONG_MIN, LONG_MAX]
    omega
  rw [stoi, stol_decimal hlong]
  rw [Option.filter_some, if_pos (decide_eq_true h)]

theorem int32_eq_iff {n : Int} : int32 n = n ↔ INT_MIN ≤ n ∧ n ≤ INT_MAX := by
  rw [int32_eq_self_iff, INT_MIN, INT_MAX]
  omega

theorem decimal_bytes {n : Int} {x : Byte} (hx : x ∈ decimal n) : isdigit x = true ∨ x = 45 := by
  rcases List.mem_append.mp hx with hx | hx
  · split at hx
    next => exact Or.inr (List.mem_singleton.mp hx)
    next => cases hx
  · split at hx
    next =>
      rw [List.mem_singleton.mp hx]
      exact Or.inl rfl
    next => exact Or.inl (decimalDigits_isdigit _ x hx)

theorem decimal_ne_nil (n : Int) : decimal n ≠ [] := by
  intro h
  obtain ⟨d, ds, hsigned, _⟩ := signed_decimal n
  rw [h] at hsigned
  cases congrArg Prod.snd hsigned

/-- A separator that does not occur in numbers, nor at the end of a string. -/
def Separates (sc : Byte) : Prop := isdigit sc = false ∧ sc ≠ 45 ∧ sc ≠ 0

theorem splitString_numbers {read : List Byte → Option Int} {g : Int → Int} {sc : Byte}
    (hsc : Separates sc) {l : List Int} (hl : l ≠ []) (hread : ∀ n ∈ l, read (decimal n) = some (g n))
    (v : List Int) :
    splitString read [] (joined sc (l.map decimal)) sc v = some (true, v ++ l.map g) := by
  obtain ⟨hdigit, hminus, hnul⟩ := hsc
  apply splitString_joined hl hnul ?_ hread (fun n _ h => absurd h (decimal_ne_nil n))
  intro n _
  constructor
  · intro hmem
    rcases decimal_bytes hmem with h | h
    · exact Bool.false_ne_true (hdigit.symm.trans h)
    · exact hminus h
  · intro hmem
    rcases decimal_bytes hmem with h | h
    · cases h
    · cases h

/-- What a `vector` of a type with these bounds holds. -/
def InRange (low high : Int) (l : List Int) : Prop := ∀ n ∈ l, low ≤ n ∧ n ≤ high

theorem map_int32_eq_iff {l v : List Int} :
    some (true, v ++ l.map int32) = some (true, v ++ l) ↔ InRange INT_MIN INT_MAX l := by
  rw [Option.some.injEq, Prod.mk.injEq, List.append_cancel_left_eq]
  unfold InRange
  constructor
  · intro h n hn
    have hmap : l.map int32 = l.map id := by rw [h.2, List.map_id]
    exact int32_eq_iff.mp (List.map_inj_left.mp hmap n hn)
  · intro h
    refine ⟨rfl, ?_⟩
    calc l.map int32 = l.map id := List.map_congr_left fun n hn => int32_eq_iff.mpr (h n hn)
      _ = l := List.map_id l

theorem splitInts_joined {sc : Byte} (hsc : Separates sc) {l : List Int} (hl : l ≠ [])
    (hrange : InRange INT_MIN INT_MAX l) (v : List Int) :
    splitInts (joined sc (l.map decimal)) sc v = some (true, v ++ l) := by
  have h := splitString_numbers hsc hl (fun n hn => stoi_decimal (hrange n hn)) v
  rw [List.map_id'] at h
  exact h

theorem splitLongs_joined {sc : Byte} (hsc : Separates sc) {l : List Int} (hl : l ≠ [])
    (hrange : InRange LONG_MIN LONG_MAX l) (v : List Int) :
    splitLongs (joined sc (l.map decimal)) sc v = some (true, v ++ l.map int32) := by
  apply splitString_numbers hsc hl
  intro n hn
  rw [stol_decimal (hrange n hn)]
  rfl

theorem splitStrings_joined {sc : Byte} (hsc : sc ≠ 0) {l : List (List Byte)} (hl : l ≠ [])
    (hfields : ∀ f ∈ l, sc ∉ f ∧ 0 ∉ f) (v : List (List Byte)) :
    splitStrings (joined sc l) sc v = some (true, v ++ l) := by
  have h := @splitString_joined (List Byte) some [[]] sc (List Byte) (fun f => f) (fun f => f) l hl
    hsc hfields (fun _ _ => rfl) (fun f _ hf => by rw [hf]) v
  rw [List.map_id'] at h
  exact h

/-- The overloads for `int` and for strings undo a join; those for `long` and `long long` do where
every number has room in an `int`. -/
theorem splitString_inverts_iff (sc : Byte) :
    (Separates sc → ∀ l v : List Int, l ≠ [] → InRange INT_MIN INT_MAX l →
      splitInts (joined sc (l.map decimal)) sc v = some (true, v ++ l)) ∧
    (Separates sc → ∀ l v : List Int, l ≠ [] → InRange LONG_MIN LONG_MAX l →
      (splitLongs (joined sc (l.map decimal)) sc v = some (true, v ++ l) ↔ InRange INT_MIN INT_MAX l) ∧
      (splitLongLongs (joined sc (l.map decimal)) sc v = some (true, v ++ l) ↔
        InRange INT_MIN INT_MAX l)) ∧
    (sc ≠ 0 → ∀ l v : List (List Byte), l ≠ [] → (∀ f ∈ l, sc ∉ f ∧ 0 ∉ f) →
      splitStrings (joined sc l) sc v = some (true, v ++ l)) := by
  refine ⟨fun hsc l v hl hrange => splitInts_joined hsc hl hrange v, ?_,
    fun hsc l v hl hfields => splitStrings_joined hsc hl hfields v⟩
  intro hsc l v hl hrange
  have hlongs := splitLongs_joined hsc hl hrange v
  have hlonglongs : splitLongLongs (joined sc (l.map decimal)) sc v = some (true, v ++ l.map int32) :=
    hlongs
  rw [hlongs, hlonglongs]
  exact ⟨map_int32_eq_iff, map_int32_eq_iff⟩

theorem splitString_inverts_small :
    splitInts (joined 59 ([-1, 0].map decimal)) 59 [] = some (true, [-1, 0]) ∧
    splitLongs (joined 59 ([20, -3].map decimal)) 59 [] = some (true, [20, -3]) ∧
    splitStrings (joined 59 [[], [65], []]) 59 [] = some (true, [[], [65], []]) := by
  obtain ⟨hints, hlongs, hstrings⟩ := splitString_inverts_iff 59
  have hsc : Separates 59 := by
    unfold Separates
    decide
  refine ⟨hints hsc _ [] (by decide) (by unfold InRange; decide), ?_,
    hstrings (by decide) _ [] (by decide) (by decide)⟩
  exact (hlongs hsc _ [] (by decide) (by unfold InRange; decide)).1.mpr (by unfold InRange; decide)

/-- 2147483648 comes back negative. -/
theorem long_goes_through_int :
    splitLongs (joined 59 ([2147483648].map decimal)) 59 [] ≠ some (true, [2147483648]) ∧
    splitLongLongs (joined 59 ([2147483648].map decimal)) 59 [] ≠ some (true, [2147483648]) := by
  have hsc : Separates 59 := by
    unfold Separates
    decide
  have hlongs := splitLongs_joined hsc (List.cons_ne_nil 2147483648 []) (by unfold InRange; decide) []
  have hlonglongs : splitLongLongs (joined 59 ([2147483648].map decimal)) 59 [] =
      some (true, [] ++ [2147483648].map int32) := hlongs
  rw [hlongs, hlonglongs]
  decide

end Tnode
