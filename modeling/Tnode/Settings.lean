import Tnode.ConfigRegistry
import Tnode.TraverseDirectory
import Mathlib.Data.Nat.Digits.Lemmas
import Mathlib.Logic.Function.Basic

namespace Tnode

open JsonParser

/-- A value with the type of an overload of `Registry::set` and `Registry::get`. -/
inductive Setting
  | bool (value : Bool)
  | u8 (value : UInt8)
  | u16 (value : UInt16)
  | u32 (value : UInt32)
  | u64 (value : UInt64)
  | s8 (value : Int8)
  | s16 (value : Int16)
  | s32 (value : Int32)
  | s64 (value : Int64)
  | string (value : List Byte)
deriving DecidableEq

/-- `strtol(s, nullptr, 10)`. -/
def strtol (s : List Byte) : Int :=
  let (negative, digits) := signed (s.dropWhile isspace)
  let n : Int := if negative then -digitsValue digits else digitsValue digits
  if n < LONG_MIN then LONG_MIN else if LONG_MAX < n then LONG_MAX else n

/-- `strtoul(s, nullptr, 10)`. -/
def strtoul (s : List Byte) : Nat :=
  let (negative, digits) := signed (s.dropWhile isspace)
  let n := digitsValue digits
  if ULONG_MAX < n then ULONG_MAX else if negative then (2 ^ 64 - n) % 2 ^ 64 else n

namespace Registry

def insertValue (this : Registry) (key value : List Byte) : Bool × Registry :=
  (!(this.values.lookup key).isSome, this.setValue key value)

/-- `SET_VALUE`: the text of a value goes through the buffer. -/
def setText (this : Registry) (key text : List Byte) : Bool × Registry :=
  this.insertValue key (inBuf text)

def setBool (this : Registry) (key : List Byte) (value : Bool) : Bool × Registry :=
  this.setText key (if value then bytes "true" else bytes "false")

def setU8 (this : Registry) (key : List Byte) (value : UInt8) : Bool × Registry :=
  this.setText key (decimal value.toNat)

def setU16 (this : Registry) (key : List Byte) (value : UInt16) : Bool × Registry :=
  this.setText key (decimal value.toNat)

def setU32 (this : Registry) (key : List Byte) (value : UInt32) : Bool × Registry :=
  this.setText key (decimal value.toNat)

def setU64 (this : Registry) (key : List Byte) (value : UInt64) : Bool × Registry :=
  this.setText key (decimal value.toNat)

def setS8 (this : Registry) (key : List Byte) (value : Int8) : Bool × Registry :=
  this.setText key (decimal value.toInt)

def setS16 (this : Registry) (key : List Byte) (value : Int16) : Bool × Registry :=
  this.setText key (decimal value.toInt)

def setS32 (this : Registry) (key : List Byte) (value : Int32) : Bool × Registry :=
  this.setText key (decimal value.toInt)

def setS64 (this : Registry) (key : List Byte) (value : Int64) : Bool × Registry :=
  this.setText key (decimal value.toInt)

def setString (this : Registry) (key value : List Byte) : Bool × Registry :=
  this.setText key (cstr value)

/-- The overloads of `get`: the value of a key is read, if there is one. -/
def getBy {α : Type} (read : List Byte → α) (this : Registry) (key : List Byte)
    (defaultValue : α) : α :=
  match this.getValue key with
  | some value => read value
  | none => defaultValue

def getBool : Registry → List Byte → Bool → Bool := getBy fun value => strcaseEq value (bytes "true")

def getU8 : Registry → List Byte → UInt8 → UInt8 := getBy fun value => .ofNat (strtoul value)

def getU16 : Registry → List Byte → UInt16 → UInt16 := getBy fun value => .ofNat (strtoul value)

def getU32 : Registry → List Byte → UInt32 → UInt32 := getBy fun value => .ofNat (strtoul value)

/-- `strtoull`: an `unsigned long long` has the width of an `unsigned long`. -/
def getU64 : Registry → List Byte → UInt64 → UInt64 := getBy fun value => .ofNat (strtoul value)

def getS8 : Registry → List Byte → Int8 → Int8 := getBy fun value => .ofInt (strtol value)

def getS16 : Registry → List Byte → Int16 → Int16 := getBy fun value => .ofInt (strtol value)

def getS32 : Registry → List Byte → Int32 → Int32 := getBy fun value => .ofInt (strtol value)

/-- `strtoll`: a `long long` has the width of a `long`. -/
def getS64 : Registry → List Byte → Int64 → Int64 := getBy fun value => .ofInt (strtol value)

def getString : Registry → List Byte → List Byte → List Byte := getBy id

def findKey (this : Registry) (key : List Byte) : Bool := (this.values.lookup key).isSome

def removeKey (this : Registry) (key : List Byte) : Registry :=
  ⟨this.values.filter fun entry => entry.1 != key⟩

/-- The overloads of `set`. -/
def setAs (this : Registry) (key : List Byte) : Setting → Bool × Registry
  | .bool value => this.setBool key value
  | .u8 value => this.setU8 key value
  | .u16 value => this.setU16 key value
  | .u32 value => this.setU32 key value
  | .u64 value => this.setU64 key value
  | .s8 value => this.setS8 key value
  | .s16 value => this.setS16 key value
  | .s32 value => this.setS32 key value
  | .s64 value => this.setS64 key value
  | .string value => this.setString key value

/-- The overloads of `get`. -/
def getAs (this : Registry) (key : List Byte) : Setting → Setting
  | .bool defaultValue => .bool (this.getBool key defaultValue)
  | .u8 defaultValue => .u8 (this.getU8 key defaultValue)
  | .u16 defaultValue => .u16 (this.getU16 key defaultValue)
  | .u32 defaultValue => .u32 (this.getU32 key defaultValue)
  | .u64 defaultValue => .u64 (this.getU64 key defaultValue)
  | .s8 defaultValue => .s8 (this.getS8 key defaultValue)
  | .s16 defaultValue => .s16 (this.getS16 key defaultValue)
  | .s32 defaultValue => .s32 (this.getS32 key defaultValue)
  | .s64 defaultValue => .s64 (this.getS64 key defaultValue)
  | .string defaultValue => .string (this.getString key defaultValue)

end Registry

/-- The calls of a `Registry`; `makeRegistry` is the one of `XmlParser` that fills it from a tree. -/
inductive RegistryCall
  | makeRegistry (doc : XmlDocument)
  | set (key : List Byte) (value : Setting)
  | get (key : List Byte) (defaultValue : Setting)
  | findKey (key : List Byte)
  | removeKey (key : List Byte)
  | clear

def Registry.call (this : Registry) : RegistryCall → Registry × Option Setting
  | .makeRegistry doc => (makeRegistry true [] doc.rootNode this, none)
  | .set key value => ((this.setAs key value).2, some (.bool (this.setAs key value).1))
  | .get key defaultValue => (this, some (this.getAs key defaultValue))
  | .findKey key => (this, some (.bool (this.findKey key)))
  | .removeKey key => (this.removeKey key, none)
  | .clear => (this.clear, none)

/-- What a sequence of calls returns. -/
def answers {σ κ α : Type} (call : σ → κ → σ × α) : σ → List κ → List α
  | _, [] => []
  | s, c :: cs => (call s c).2 :: answers call (call s c).1 cs

namespace Setting

/-- The integer that a value is to a caller that asks for one. -/
def integer : Setting → Option Int
  | u8 value => some value.toNat
  | u16 value => some value.toNat
  | u32 value => some value.toNat
  | u64 value => some value.toNat
  | s8 value => some value.toInt
  | s16 value => some value.toInt
  | s32 value => some value.toInt
  | s64 value => some value.toInt
  | bool _ => none
  | string _ => none

/-- The text of a value. -/
def text : Setting → List Byte
  | bool value => if value then bytes "true" else bytes "false"
  | string value => (cstr value).take 1023
  | value => (value.integer.map decimal).getD []

/-- A value as an unsigned integer: an integer itself, a text by its digits. -/
def unsigned (value : Setting) : Int := value.integer.getD (strtoul value.text)

/-- A value as a signed integer, which is brought into the range of a `long`. -/
def signed (value : Setting) : Int :=
  (value.integer.map fun n => max LONG_MIN (min LONG_MAX n)).getD (strtol value.text)

/-- A value as one of the type of `defaultValue`. -/
def read (value : Setting) : Setting → Setting
  | bool _ => bool (strcaseEq value.text (bytes "true"))
  | u8 _ => u8 (.ofInt value.unsigned)
  | u16 _ => u16 (.ofInt value.unsigned)
  | u32 _ => u32 (.ofInt value.unsigned)
  | u64 _ => u64 (.ofInt value.unsigned)
  | s8 _ => s8 (.ofInt value.signed)
  | s16 _ => s16 (.ofInt value.signed)
  | s32 _ => s32 (.ofInt value.signed)
  | s64 _ => s64 (.ofInt value.signed)
  | string _ => string value.text

/-- Two values of one type. -/
def Alike : Setting → Setting → Prop
  | bool _, bool _ => True
  | u8 _, u8 _ => True
  | u16 _, u16 _ => True
  | u32 _, u32 _ => True
  | u64 _, u64 _ => True
  | s8 _, s8 _ => True
  | s16 _, s16 _ => True
  | s32 _, s32 _ => True
  | s64 _, s64 _ => True
  | string _, string _ => True
  | _, _ => False

/-- The buffer has room for a text. -/
def Fits : Setting → Prop
  | string value => 0 ∉ value ∧ value.length ≤ 1023
  | _ => True

end Setting

/-- What a registry is for: a map from keys to values of the types that they were set with. -/
abbrev Settings := List Byte → Option Setting

namespace Settings

/-- A key keeps the value that it has. -/
def set (this : Settings) (key : List Byte) (value : Setting) : Settings :=
  Function.update this key ((this key).or (some value))

/-- The attributes of a document; of two with one key the first. -/
def ofDocument (doc : XmlDocument) : Settings := fun key =>
  ((doc.entries.map fun entry => (entry.1.take 1023, entry.2)).lookup key).map .string

def call (this : Settings) : RegistryCall → Settings × Option Setting
  | .makeRegistry doc => (fun key => (this key).or (ofDocument doc key), none)
  | .set key value => (this.set key value, some (.bool (this key).isNone))
  | .get key defaultValue =>
    (this, some (((this key).map fun value => value.read defaultValue).getD defaultValue))
  | .findKey key => (this, some (.bool (this key).isSome))
  | .removeKey key => (Function.update this key none, none)
  | .clear => (fun _ => none, none)

end Settings

theorem strtol_decimal (n : Int) : strtol (decimal n) = max LONG_MIN (min LONG_MAX n) := by
  obtain ⟨d, ds, hsigned, _, hvalue⟩ := signed_decimal n
  rw [strtol, hsigned]
  simp only [hvalue, decide_eq_true_eq]
  have hn : (if n < 0 then -(n.natAbs : Int) else n.natAbs) = n := by
    split <;> omega
  rw [hn]
  have hlong : LONG_MIN ≤ LONG_MAX := by decide
  split
  next => omega
  next => split <;> omega

/-- `strtoul` takes a minus sign, and answers modulo 2^64. -/
theorem strtoul_decimal {n : Int} (h : -2 ^ 64 < n ∧ n < 2 ^ 64) :
    (strtoul (decimal n) : Int) = n % 2 ^ 64 := by
  obtain ⟨d, ds, hsigned, _, hvalue⟩ := signed_decimal n
  rw [strtoul, hsigned]
  simp only [hvalue, decide_eq_true_eq, ULONG_MAX]
  split
  next => omega
  next => split <;> omega

theorem length_decimal {n : Int} (h : n.natAbs < 10 ^ 20) : (decimal n).length ≤ 21 := by
  have hdigits : (decimalDigits n.natAbs).length ≤ 20 := by
    rw [decimalDigits, List.length_map, List.length_reverse]
    exact (Nat.digits_length_le_iff (by decide) _).mpr h
  unfold decimal
  split <;> split <;> simp <;> omega

theorem getValue_removeKey (this : Registry) (key k : List Byte) :
    (this.removeKey key).getValue k = if k = key then none else this.getValue k := by
  obtain ⟨values⟩ := this
  change (values.filter fun entry => entry.1 != key).lookup k = if k = key then none else values.lookup k
  induction values with
  | nil => simp
  | cons entry values ih =>
    by_cases hentry : entry.1 = key
    · rw [List.filter_cons_of_neg (by simp [hentry]), ih]
      by_cases hk : k = key
      · rw [if_pos hk, if_pos hk]
      · rw [if_neg hk, if_neg hk, List.lookup_cons, hentry, beq_false_of_ne hk]
    · rw [List.filter_cons_of_pos (by simp [hentry]), List.lookup_cons, List.lookup_cons, ih]
      split
      next heq =>
        rw [if_neg]
        rintro rfl
        exact hentry (beq_iff_eq.mp heq).symm
      next => rfl

namespace Setting

theorem integer_range {value : Setting} {n : Int} (h : value.integer = some n) :
    -2 ^ 63 ≤ n ∧ n < 2 ^ 64 := by
  cases value with
  | bool => cases h
  | string => cases h
  | u8 v => cases h; have := v.toNat_lt; omega
  | u16 v => cases h; have := v.toNat_lt; omega
  | u32 v => cases h; have := v.toNat_lt; omega
  | u64 v => cases h; have := v.toNat_lt; omega
  | s8 v => cases h; have := v.toInt_lt; have := v.le_toInt; omega
  | s16 v => cases h; have := v.toInt_lt; have := v.le_toInt; omega
  | s32 v => cases h; have := v.toInt_lt; have := v.le_toInt; omega
  | s64 v => cases h; have := v.toInt_lt; have := v.le_toInt; omega

theorem text_of_integer {value : Setting} {n : Int} (h : value.integer = some n) :
    value.text = decimal n := by
  cases value <;> cases h <;> rfl

/-- The text of a value has room in the buffer. -/
theorem inBuf_text (value : Setting) : inBuf value.text = value.text := by
  apply List.take_of_length_le
  cases hn : value.integer with
  | some n =>
    obtain ⟨hlow, hhigh⟩ := integer_range hn
    have hlength := @length_decimal n (by omega)
    rw [text_of_integer hn]
    omega
  | none =>
    cases value with
    | bool b => cases b <;> decide
    | string s => exact List.length_take_le 1023 _
    | _ => cases hn

theorem setAs_eq (this : Registry) (key : List Byte) (value : Setting) :
    this.setAs key value = this.insertValue key value.text := by
  have hroom := inBuf_text value
  cases value with
  | string s => rfl
  | bool b => exact congrArg (this.insertValue key) hroom
  | _ => exact congrArg (this.insertValue key) hroom

section

variable {value : Setting}

theorem strtoul_text : ((strtoul value.text : Nat) : Int) % 2 ^ 64 = value.unsigned % 2 ^ 64 := by
  unfold unsigned
  cases hn : value.integer with
  | none => rfl
  | some n =>
    obtain ⟨hlow, hhigh⟩ := integer_range hn
    rw [text_of_integer hn, strtoul_decimal (by omega), Int.emod_emod]
    rfl

theorem strtol_text : strtol value.text = value.signed := by
  unfold signed
  cases hn : value.integer with
  | none => rfl
  | some n =>
    rw [text_of_integer hn, strtol_decimal]
    rfl

/-- A value is read back from its text. -/
theorem read_text {this : Registry} {key : List Byte} (h : this.getValue key = some value.text)
    (defaultValue : Setting) : this.getAs key defaultValue = value.read defaultValue := by
  have hunsigned : ((strtoul value.text : Nat) : Int) % 2 ^ 64 = value.unsigned % 2 ^ 64 :=
    strtoul_text
  cases defaultValue with
  | bool d => simp [Registry.getAs, Registry.getBool, Registry.getBy, h, read]
  | string d => simp [Registry.getAs, Registry.getString, Registry.getBy, h, read]
  | u8 d =>
    simp only [Registry.getAs, Registry.getU8, Registry.getBy, h, read, u8.injEq]
    rw [UInt8.ofNat_eq_iff_mod_eq_toNat, UInt8.ofInt, UInt8.toNat_ofNat']
    omega
  | u16 d =>
    simp only [Registry.getAs, Registry.getU16, Registry.getBy, h, read, u16.injEq]
    rw [UInt16.ofNat_eq_iff_mod_eq_toNat, UInt16.ofInt, UInt16.toNat_ofNat']
    omega
  | u32 d =>
    simp only [Registry.getAs, Registry.getU32, Registry.getBy, h, read, u32.injEq]
    rw [UInt32.ofNat_eq_iff_mod_eq_toNat, UInt32.ofInt, UInt32.toNat_ofNat']
    omega
  | u64 d =>
    simp only [Registry.getAs, Registry.getU64, Registry.getBy, h, read, u64.injEq]
    rw [UInt64.ofNat_eq_iff_mod_eq_toNat, UInt64.ofInt, UInt64.toNat_ofNat']
    omega
  | s8 d => simp [Registry.getAs, Registry.getS8, Registry.getBy, h, read, strtol_text]
  | s16 d => simp [Registry.getAs, Registry.getS16, Registry.getBy, h, read, strtol_text]
  | s32 d => simp [Registry.getAs, Registry.getS32, Registry.getBy, h, read, strtol_text]
  | s64 d => simp [Registry.getAs, Registry.getS64, Registry.getBy, h, read, strtol_text]

/-- A signed integer is in the range of a `long`. -/
theorem signed_fits {n : Int} (hn : value.integer = some n) (h : -2 ^ 63 ≤ n ∧ n < 2 ^ 63) :
    value.signed = n := by
  rw [signed, hn, Option.map_some, Option.getD_some, LONG_MIN, LONG_MAX]
  omega

/-- What is read with the type it was set with is what was set. -/
theorem read_alike {defaultValue : Setting} (h : value.Alike defaultValue) (hfits : value.Fits) :
    value.read defaultValue = value := by
  cases value <;> cases defaultValue <;> try exact h.elim
  case bool b _ => cases b <;> rfl
  case string s _ =>
    obtain ⟨hnul, hlength⟩ := hfits
    rw [read, text, cstr_eq_self_iff.mpr hnul, List.take_of_length_le hlength]
  case u8 n _ =>
    have hlt := n.toNat_lt
    refine congrArg u8 (UInt8.toNat.inj ?_)
    change (UInt8.ofInt n.toNat).toNat = n.toNat
    rw [UInt8.ofInt, UInt8.toNat_ofNat']
    omega
  case u16 n _ =>
    have hlt := n.toNat_lt
    refine congrArg u16 (UInt16.toNat.inj ?_)
    change (UInt16.ofInt n.toNat).toNat = n.toNat
    rw [UInt16.ofInt, UInt16.toNat_ofNat']
    omega
  case u32 n _ =>
    have hlt := n.toNat_lt
    refine congrArg u32 (UInt32.toNat.inj ?_)
    change (UInt32.ofInt n.toNat).toNat = n.toNat
    rw [UInt32.ofInt, UInt32.toNat_ofNat']
    omega
  case u64 n _ =>
    have hlt := n.toNat_lt
    refine congrArg u64 (UInt64.toNat.inj ?_)
    change (UInt64.ofInt n.toNat).toNat = n.toNat
    rw [UInt64.ofInt, UInt64.toNat_ofNat']
    omega
  case s8 n _ =>
    have hlow := n.le_toInt
    have hhigh := n.toInt_lt
    rw [read, signed_fits rfl ⟨by omega, by omega⟩, Int8.ofInt_toInt]
  case s16 n _ =>
    have hlow := n.le_toInt
    have hhigh := n.toInt_lt
    rw [read, signed_fits rfl ⟨by omega, by omega⟩, Int16.ofInt_toInt]
  case s32 n _ =>
    have hlow := n.le_toInt
    have hhigh := n.toInt_lt
    rw [read, signed_fits rfl ⟨by omega, by omega⟩, Int32.ofInt_toInt]
  case s64 n _ =>
    have hlow := n.le_toInt
    have hhigh := n.toInt_lt
    rw [read, signed_fits rfl ⟨by omega, by omega⟩, Int64.ofInt_toInt]

end

end Setting

namespace XmlDocument

theorem attributesBelow_no_nul {node : XmlNode} (h : node.Valid) (path : List (List Byte)) :
    ∀ entry ∈ node.attributesBelow path, 0 ∉ entry.2 := by
  induction node generalizing path with
  | nil => exact fun entry hentry => absurd hentry List.not_mem_nil
  | element name attributes child next ihChild ihNext =>
    obtain ⟨_, _, hattrs, hchild, hnext⟩ := h
    intro entry hentry
    rcases List.mem_append.mp hentry with hentry | hentry
    · obtain ⟨attr, hattr, rfl⟩ := List.mem_map.mp hentry
      exact (hattrs attr hattr).2
    · rcases List.mem_append.mp hentry with hentry | hentry
      · exact ihChild hchild _ entry hentry
      · exact ihNext hnext _ entry hentry
  | data next ih => exact ih h path

theorem entries_no_nul (doc : XmlDocument) : ∀ entry ∈ doc.entries, 0 ∉ entry.2 := by
  obtain ⟨_, _, hattrs, hchild, _⟩ := doc.valid
  intro entry hentry
  obtain ⟨source, hsource, rfl⟩ := List.mem_map.mp hentry
  rcases List.mem_append.mp hsource with hsource | hsource
  · obtain ⟨attr, hattr, rfl⟩ := List.mem_map.mp hsource
    exact (hattrs attr hattr).2
  · exact attributesBelow_no_nul hchild [] source hsource

end XmlDocument

namespace Registry

/-- The registry has the texts of the values of the map. -/
def Shows (this : Registry) (settings : Settings) : Prop :=
  ∀ key, this.getValue key = (settings key).map Setting.text

section

variable {this : Registry} {settings : Settings}

theorem Shows.isSome (h : this.Shows settings) (key : List Byte) :
    (this.values.lookup key).isSome = (settings key).isSome := by
  have hkey := congrArg Option.isSome (h key)
  rwa [Option.isSome_map] at hkey

theorem Shows.get (h : this.Shows settings) (key : List Byte) (defaultValue : Setting) :
    this.getAs key defaultValue =
      ((settings key).map fun value => value.read defaultValue).getD defaultValue := by
  have hkey := h key
  cases hs : settings key with
  | some value =>
    rw [hs] at hkey
    exact Setting.read_text hkey defaultValue
  | none =>
    rw [hs] at hkey
    cases defaultValue <;> simp [getAs, getBool, getU8, getU16, getU32, getU64, getS8, getS16, getS32,
      getS64, getString, getBy, hkey]

theorem Shows.setValue (h : this.Shows settings) (key : List Byte) (value : Setting) :
    (this.setValue key value.text).Shows (settings.set key value) := by
  intro k
  rw [getValue_setValue, h k, Settings.set]
  by_cases hk : k = key
  · subst hk
    rw [Function.update_self, List.lookup_cons_self]
    cases settings k <;> rfl
  · rw [Function.update_of_ne hk, List.lookup_cons, beq_false_of_ne hk]
    exact Option.or_none ..

theorem Shows.removeKey (h : this.Shows settings) (key : List Byte) :
    (this.removeKey key).Shows (Function.update settings key none) := by
  intro k
  rw [getValue_removeKey, h k]
  by_cases hk : k = key
  · subst hk
    rw [Function.update_self, if_pos rfl]
    rfl
  · rw [Function.update_of_ne hk, if_neg hk]

theorem ofDocument_text (doc : XmlDocument) (key : List Byte) :
    (doc.entries.map fun entry => (inBuf entry.1, inBuf entry.2)).lookup key =
      (Settings.ofDocument doc key).map Setting.text := by
  rw [Settings.ofDocument]
  have hvalues := doc.entries_no_nul
  generalize doc.entries = entries at hvalues
  induction entries with
  | nil => rfl
  | cons entry entries ih =>
    have hrest := ih fun other hother => hvalues other (List.mem_cons_of_mem entry hother)
    rw [List.map_cons, List.map_cons, List.lookup_cons, List.lookup_cons, inBuf]
    split
    next =>
      have hcstr := cstr_eq_self_iff.mpr (hvalues entry List.mem_cons_self)
      rw [Option.map_some, Option.map_some, Setting.text, hcstr, inBuf]
    next => exact hrest

theorem Shows.makeRegistry (h : this.Shows settings) (doc : XmlDocument) :
    (Tnode.makeRegistry true [] doc.rootNode this).Shows
      fun key => (settings key).or (Settings.ofDocument doc key) := by
  intro key
  rw [XmlDocument.getValue_makeRegistry, h key, ofDocument_text, Option.map_or]

/-- One call. -/
theorem Shows.call (h : this.Shows settings) (c : RegistryCall) :
    (this.call c).1.Shows (settings.call c).1 ∧ (this.call c).2 = (settings.call c).2 := by
  cases c with
  | makeRegistry doc => exact ⟨h.makeRegistry doc, rfl⟩
  | set key value =>
    simp only [Registry.call, Settings.call, Setting.setAs_eq, insertValue]
    refine ⟨h.setValue key value, ?_⟩
    rw [h.isSome key, Option.not_isSome]
  | get key defaultValue => exact ⟨h, congrArg some (h.get key defaultValue)⟩
  | findKey key => exact ⟨h, congrArg (some ∘ Setting.bool) (h.isSome key)⟩
  | removeKey key => exact ⟨h.removeKey key, rfl⟩
  | clear => exact ⟨fun _ => rfl, rfl⟩

theorem Shows.answers (h : this.Shows settings) (calls : List RegistryCall) :
    Tnode.answers Registry.call this calls = Tnode.answers Settings.call settings calls := by
  induction calls generalizing this settings with
  | nil => rfl
  | cons c calls ih =>
    obtain ⟨hnext, hanswer⟩ := h.call c
    rw [Tnode.answers, Tnode.answers, hanswer, ih hnext]

end

/-- Whatever is put in from a tree, set, removed and read in whatever order: the answers are those
of a map that keeps the first value set for a key, and what is read with the type it was set with is
that value. -/
theorem config_answers (calls : List RegistryCall) :
    answers Registry.call ⟨[]⟩ calls = answers Settings.call (fun _ => none) calls ∧
      ∀ value defaultValue : Setting, value.Alike defaultValue → value.Fits →
        value.read defaultValue = value :=
  ⟨Shows.answers (fun _ => rfl) calls, fun _ _ h hfits => Setting.read_alike h hfits⟩

theorem config_answers_negative : answers Registry.call ⟨[]⟩
    [.set [97] (.s8 (-1)), .set [97] (.u8 7), .get [97] (.u16 0), .get [97] (.s8 0)] =
      [some (.bool true), some (.bool false), some (.u16 65535), some (.s8 (-1))] :=
  (config_answers _).1.trans (by
    simp only [answers, Settings.call, Settings.set]
    decide +kernel)

end Registry

end Tnode
