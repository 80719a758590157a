import Tnode.Calendar
import Tnode.Easylog
import Tnode.JsonDecimal

namespace Tnode

open JsonParser

/-- The members of a `struct tm` that are read. -/
structure Tm where
  tm_year : Nat
  tm_mon : Nat
  tm_mday : Nat
  tm_hour : Nat

/-- `gmtime_r`, for a calendar without end. -/
def gmtime (seconds : Nat) : Tm :=
  let date := Calendar.date (seconds / 86400)
  ⟨date.year - 1900, date.month, date.day + 1, seconds % 86400 / 3600⟩

/-- A number with two digits at least. -/
def twoDigits (n : Nat) : List Byte :=
  if n < 10 then [48, UInt8.ofNat (48 + n)] else decimalDigits n

/-- `std::strftime` with the conversions `%Y`, `%02m`, `%02d` and `%02H`. -/
def strftime (tm : Tm) : List Byte → List Byte
  | [] => []
  | 37 :: 89 :: format => decimalDigits (tm.tm_year + 1900) ++ strftime tm format
  | 37 :: 48 :: 50 :: 109 :: format => twoDigits (tm.tm_mon + 1) ++ strftime tm format
  | 37 :: 48 :: 50 :: 100 :: format => twoDigits tm.tm_mday ++ strftime tm format
  | 37 :: 48 :: 50 :: 72 :: format => twoDigits tm.tm_hour ++ strftime tm format
  | c :: format => c :: strftime tm format

/-- `timestamp`; `now` is what `gettimeofday` gives. -/
def timestamp (now seconds : Nat) (timeFormat : List Byte) : List Byte :=
  strftime (gmtime ((if seconds = 0 then now else seconds) + 8 * 3600)) timeFormat

/-- What `EasylogInternal` has been told about files. -/
structure LogSetting where
  destDir : List Byte
  autosplitDay : Bool
  autosplitHour : Bool

/-- `fs` is the name that the stream has been opened with. -/
structure EasylogLevelNode where
  filename : List Byte
  fullname : List Byte
  fs : Option (List Byte)
  fsLaunchtime : Nat

namespace LogSetting

def fullFilename (this : LogSetting) (now : Nat) (filename : List Byte) : List Byte :=
  let fullname := this.destDir ++ 47 :: filename
  if this.autosplitHour then fullname ++ timestamp now 0 (bytes ".%Y-%02m-%02d.%02H")
  else if this.autosplitDay then fullname ++ timestamp now 0 (bytes ".%Y-%02m-%02d")
  else fullname

def openfile (this : LogSetting) (now : Nat) (levelNode : EasylogLevelNode) : EasylogLevelNode :=
  let fullname := this.fullFilename now levelNode.filename
  { levelNode with fullname := fullname, fs := some fullname, fsLaunchtime := now }

/-- The test of `autosplit_file` for another day or hour. -/
def isOver (this : LogSetting) (nowtime launchtime : Nat) : Bool :=
  (this.autosplitDay && (gmtime nowtime).tm_mday ≠ (gmtime launchtime).tm_mday) ||
    (this.autosplitHour && (gmtime nowtime).tm_hour ≠ (gmtime launchtime).tm_hour)

def autosplitFile (this : LogSetting) (nowtime : Nat) (levelNode : EasylogLevelNode) :
    EasylogLevelNode :=
  if this.autosplitDay || this.autosplitHour then
    if this.isOver nowtime levelNode.fsLaunchtime then this.openfile nowtime levelNode else levelNode
  else levelNode

/-- `send_to_file`: the line goes to the file that is open then. -/
def sendToFile (this : LogSetting) (now : Nat) (levelNode : EasylogLevelNode) : EasylogLevelNode :=
  if levelNode.fs.isSome then this.autosplitFile now levelNode else levelNode

/-- The levels with their files opened at some time, or without one. -/
def opened (this : LogSetting) (filenames : EasylogSeverityLevel → List Byte)
    (openings : EasylogSeverityLevel → Option Nat) (level : EasylogSeverityLevel) : EasylogLevelNode :=
  match openings level with
  | none => ⟨filenames level, [], none, 0⟩
  | some t => this.openfile t ⟨filenames level, [], none, 0⟩

/-- A line of a level at a time. -/
def line (this : LogSetting) (levels : EasylogSeverityLevel → EasylogLevelNode)
    (level : EasylogSeverityLevel) (t : Nat) : EasylogSeverityLevel → EasylogLevelNode :=
  Function.update levels level (this.sendToFile t (levels level))

/-- Each of these lines goes to the file that is named after its own day or hour, if its level has a
file. -/
def NamedAfterLines (this : LogSetting) : (EasylogSeverityLevel → EasylogLevelNode) →
    List (EasylogSeverityLevel × Nat) → Prop
  | _, [] => True
  | levels, (level, t) :: lines =>
    let levels := this.line levels level t
    ((levels level).fs.isSome → (levels level).fs = some (levels level).fullname ∧
      (levels level).fullname = this.fullFilename t (levels level).filename) ∧
        this.NamedAfterLines levels lines

/-- Two times in one day, or hour, of UTC+8. -/
def SamePeriod (this : LogSetting) (s t : Nat) : Prop :=
  if this.autosplitHour then (s + 8 * 3600) / 3600 = (t + 8 * 3600) / 3600
  else if this.autosplitDay then (s + 8 * 3600) / 86400 = (t + 8 * 3600) / 86400
  else True

/-- A line that has the day of the month and the hour of UTC of the line before it on its level, as
far as they are looked at, is in the same day or hour of UTC+8. The first line of a level follows the
opening of its file. -/
def Marked (this : LogSetting) : (EasylogSeverityLevel → Option Nat) →
    List (EasylogSeverityLevel × Nat) → Prop
  | _, [] => True
  | last, (level, t) :: lines =>
    (∀ s ∈ last level, this.isOver t s = false → this.SamePeriod s t) ∧
      this.Marked (Function.update last level ((last level).map fun _ => t)) lines

end LogSetting

theorem twoDigits_isdigit (n : Nat) : ∀ d ∈ twoDigits n, isdigit d = true := by
  intro d hd
  unfold twoDigits at hd
  split at hd
  next h =>
    rcases List.mem_cons.mp hd with rfl | hd
    · rfl
    · rw [List.mem_singleton.mp hd]
      exact isdigit_ofNat h
  next => exact decimalDigits_isdigit n d hd

theorem digitsValue_twoDigits (n : Nat) : digitsValue (twoDigits n) = n := by
  unfold twoDigits
  split
  next h =>
    have hall : ∀ n : Fin 10, digitsValue [48, UInt8.ofNat (48 + n)] = n := by decide
    exact hall ⟨n, h⟩
  next => exact digitsValue_decimalDigits n

/-- Digits end where something else follows them. -/
theorem digits_append_inj {a b s t : List Byte} (ha : ∀ d ∈ a, isdigit d = true)
    (hb : ∀ d ∈ b, isdigit d = true) (hs : s.head?.all (fun c => !isdigit c))
    (ht : t.head?.all (fun c => !isdigit c)) (h : a ++ s = b ++ t) : a = b ∧ s = t := by
  have hstop : ∀ {s : List Byte}, s.head?.all (fun c => !isdigit c) → s.takeWhile isdigit = [] := by
    intro s hs
    cases s with
    | nil => rfl
    | cons c s => exact List.takeWhile_cons_of_neg (by simpa using hs)
  have heq := congrArg (List.takeWhile isdigit) h
  rw [List.takeWhile_append_of_pos ha, List.takeWhile_append_of_pos hb, hstop hs, hstop ht,
    List.append_nil, List.append_nil] at heq
  subst heq
  exact ⟨rfl, List.append_cancel_left h⟩

theorem strftime_day (tm : Tm) : strftime tm (bytes ".%Y-%02m-%02d") =
    46 :: (decimalDigits (tm.tm_year + 1900) ++ 45 :: (twoDigits (tm.tm_mon + 1) ++
      45 :: twoDigits tm.tm_mday)) := by
  have hformat : bytes ".%Y-%02m-%02d" = [46, 37, 89, 45, 37, 48, 50, 109, 45, 37, 48, 50, 100] := by
    decide +kernel
  rw [hformat]
  simp [strftime]

theorem strftime_hour (tm : Tm) : strftime tm (bytes ".%Y-%02m-%02d.%02H") =
    46 :: (decimalDigits (tm.tm_year + 1900) ++ 45 :: (twoDigits (tm.tm_mon + 1) ++
      45 :: (twoDigits tm.tm_mday ++ 46 :: twoDigits tm.tm_hour))) := by
  have hformat : bytes ".%Y-%02m-%02d.%02H" =
      [46, 37, 89, 45, 37, 48, 50, 109, 45, 37, 48, 50, 100, 46, 37, 48, 50, 72] := by
    decide +kernel
  rw [hformat]
  simp [strftime]

theorem decimalDigits_inj {m n : Nat} (h : decimalDigits m = decimalDigits n) : m = n := by
  rw [← digitsValue_decimalDigits m, h, digitsValue_decimalDigits]

theorem twoDigits_inj {m n : Nat} (h : twoDigits m = twoDigits n) : m = n := by
  rw [← digitsValue_twoDigits m, h, digitsValue_twoDigits]

/-- A year, a month and what follows them can be told from their text. -/
theorem year_month_inj {tm tm' : Tm} {s t : List Byte}
    (h : 46 :: (decimalDigits (tm.tm_year + 1900) ++ 45 :: (twoDigits (tm.tm_mon + 1) ++ 45 :: s)) =
      46 :: (decimalDigits (tm'.tm_year + 1900) ++ 45 :: (twoDigits (tm'.tm_mon + 1) ++ 45 :: t))) :
    tm.tm_year = tm'.tm_year ∧ tm.tm_mon = tm'.tm_mon ∧ s = t := by
  obtain ⟨hyear, h⟩ := digits_append_inj (decimalDigits_isdigit _) (decimalDigits_isdigit _) rfl rfl
    (List.cons.inj h).2
  obtain ⟨hmon, h⟩ := digits_append_inj (twoDigits_isdigit _) (twoDigits_isdigit _) rfl rfl
    (List.cons.inj h).2
  have hy := decimalDigits_inj hyear
  have hm := twoDigits_inj hmon
  exact ⟨by omega, by omega, (List.cons.inj h).2⟩

/-- The day of a time can be told from the members of its `struct tm`. -/
theorem gmtime_day {s t : Nat} (hyear : (gmtime s).tm_year = (gmtime t).tm_year)
    (hmon : (gmtime s).tm_mon = (gmtime t).tm_mon) (hmday : (gmtime s).tm_mday = (gmtime t).tm_mday) :
    s / 86400 = t / 86400 := by
  apply Calendar.date_injective
  have hy : (Calendar.date (s / 86400)).year - 1900 = (Calendar.date (t / 86400)).year - 1900 := hyear
  have hd : (Calendar.date (s / 86400)).day + 1 = (Calendar.date (t / 86400)).day + 1 := hmday
  have hs := Calendar.date_year_ge (s / 86400)
  have ht := Calendar.date_year_ge (t / 86400)
  exact Calendar.Date.ext (by omega) hmon (Nat.succ.inj hd)

theorem gmtime_eq {s t : Nat} (hday : s / 86400 = t / 86400)
    (hhour : s % 86400 / 3600 = t % 86400 / 3600) : gmtime s = gmtime t :=
  congrArg₂ (fun day hour =>
    Tm.mk ((Calendar.date day).year - 1900) (Calendar.date day).month ((Calendar.date day).day + 1) hour)
    hday hhour

theorem timestamp_day_iff {s t : Nat} :
    timestamp s 0 (bytes ".%Y-%02m-%02d") = timestamp t 0 (bytes ".%Y-%02m-%02d") ↔
      (s + 8 * 3600) / 86400 = (t + 8 * 3600) / 86400 := by
  rw [timestamp, timestamp, if_pos rfl, if_pos rfl, strftime_day, strftime_day]
  constructor
  · intro h
    obtain ⟨hyear, hmon, hrest⟩ := year_month_inj h
    exact gmtime_day hyear hmon (twoDigits_inj hrest)
  · intro h
    unfold gmtime
    rw [h]

theorem timestamp_hour_iff {s t : Nat} :
    timestamp s 0 (bytes ".%Y-%02m-%02d.%02H") = timestamp t 0 (bytes ".%Y-%02m-%02d.%02H") ↔
      (s + 8 * 3600) / 3600 = (t + 8 * 3600) / 3600 := by
  rw [timestamp, timestamp, if_pos rfl, if_pos rfl, strftime_hour, strftime_hour]
  constructor
  · intro h
    obtain ⟨hyear, hmon, hrest⟩ := year_month_inj h
    obtain ⟨hmday, hrest⟩ := digits_append_inj (twoDigits_isdigit _) (twoDigits_isdigit _) rfl rfl
      hrest
    have hday := gmtime_day hyear hmon (twoDigits_inj hmday)
    have hhour : (s + 8 * 3600) % 86400 / 3600 = (t + 8 * 3600) % 86400 / 3600 :=
      twoDigits_inj (List.cons.inj hrest).2
    omega
  · intro h
    have hday : (s + 8 * 3600) / 86400 = (t + 8 * 3600) / 86400 := by omega
    have hhour : (s + 8 * 3600) % 86400 / 3600 = (t + 8 * 3600) % 86400 / 3600 := by omega
    rw [gmtime_eq hday hhour]

namespace LogSetting

variable {this : LogSetting}

/-- The names of a file are the same where the times are in one day or hour of UTC+8. -/
theorem fullFilename_eq_iff {s t : Nat} {filename : List Byte} :
    this.fullFilename s filename = this.fullFilename t filename ↔ this.SamePeriod s t := by
  unfold fullFilename SamePeriod
  split
  next => rw [List.append_cancel_left_eq, timestamp_hour_iff]
  next =>
    split
    next => rw [List.append_cancel_left_eq, timestamp_day_iff]
    next => exact iff_of_true rfl trivial

theorem isOver_eq_false_iff {s t : Nat} : this.isOver t s = false ↔
    (this.autosplitDay = true → (gmtime t).tm_mday = (gmtime s).tm_mday) ∧
      (this.autosplitHour = true → (gmtime t).tm_hour = (gmtime s).tm_hour) := by
  cases hday : this.autosplitDay <;> cases hhour : this.autosplitHour <;> simp [isOver, hday, hhour]

theorem isOver_self (t : Nat) : this.isOver t t = false :=
  isOver_eq_false_iff.mpr ⟨fun _ => rfl, fun _ => rfl⟩

/-- Two times that a third one does not differ from do not differ from each other. -/
theorem isOver_trans {r s t : Nat} (hs : this.isOver s r = false) :
    this.isOver t r = this.isOver t s := by
  obtain ⟨hday, hhour⟩ := isOver_eq_false_iff.mp hs
  have hiff : this.isOver t r = false ↔ this.isOver t s = false := by
    rw [isOver_eq_false_iff, isOver_eq_false_iff]
    constructor
    · intro h
      exact ⟨fun hd => (h.1 hd).trans (hday hd).symm, fun hh => (h.2 hh).trans (hhour hh).symm⟩
    · intro h
      exact ⟨fun hd => (h.1 hd).trans (hday hd), fun hh => (h.2 hh).trans (hhour hh)⟩
  cases hr : this.isOver t r with
  | false => exact (hiff.mp hr).symm
  | true =>
    cases ht : this.isOver t s with
    | false => rw [hiff.mpr ht] at hr; cases hr
    | true => rfl

theorem SamePeriod.refl (t : Nat) : this.SamePeriod t t :=
  (@fullFilename_eq_iff this t t []).mp rfl

theorem SamePeriod.trans_iff {r s t : Nat} (h : this.SamePeriod r s) :
    this.SamePeriod r t ↔ this.SamePeriod s t := by
  rw [← @fullFilename_eq_iff this _ _ []] at h ⊢
  rw [← @fullFilename_eq_iff this _ _ [], h]

/-- How the levels stand after their last lines: a file bears the name of its opening, which is that
of the last line as well. -/
structure Following (this : LogSetting) (levelNode : EasylogLevelNode) (last : Option Nat) : Prop where
  isSome : levelNode.fs.isSome = last.isSome
  named : last.isSome → levelNode.fs = some levelNode.fullname ∧
    levelNode.fullname = this.fullFilename levelNode.fsLaunchtime levelNode.filename
  unsplit : ∀ s ∈ last, this.isOver s levelNode.fsLaunchtime = false ∧
    this.SamePeriod levelNode.fsLaunchtime s

theorem following_openfile (t : Nat) (levelNode : EasylogLevelNode) :
    this.Following (this.openfile t levelNode) (some t) where
  isSome := rfl
  named := fun _ => ⟨rfl, rfl⟩
  unsplit := by
    intro s hs
    cases hs
    exact ⟨isOver_self t, SamePeriod.refl t⟩

theorem following_opened (filenames : EasylogSeverityLevel → List Byte)
    (openings : EasylogSeverityLevel → Option Nat) (level : EasylogSeverityLevel) :
    this.Following (this.opened filenames openings level) (openings level) := by
  unfold opened
  cases h : openings level with
  | none => exact ⟨rfl, fun hsome => absurd hsome Bool.false_ne_true, fun s hs => absurd hs (by simp)⟩
  | some t => exact following_openfile t _

/-- A line splits the file, or the name stays. -/
theorem sendToFile_cases {levelNode : EasylogLevelNode} {s : Nat} (h : this.Following levelNode (some s))
    (t : Nat) :
    (this.isOver t s = true ∧ this.sendToFile t levelNode = this.openfile t levelNode) ∨
      (this.isOver t s = false ∧ this.sendToFile t levelNode = levelNode) := by
  have hover := @isOver_trans this _ _ t (h.unsplit s rfl).1
  rw [sendToFile, if_pos (by rw [h.isSome]; rfl), autosplitFile, ← hover]
  cases hsplit : this.isOver t levelNode.fsLaunchtime with
  | false =>
    right
    refine ⟨rfl, ?_⟩
    split
    next => rfl
    next => rfl
  | true =>
    left
    refine ⟨rfl, ?_⟩
    have hon : (this.autosplitDay || this.autosplitHour) = true := by
      by_contra hoff
      rw [Bool.not_eq_true, Bool.or_eq_false_iff] at hoff
      simp [isOver, hoff.1, hoff.2] at hsplit
    rw [if_pos hon]
    rfl

/-- A line goes to its own file exactly where it is marked, and then the level stands as before. -/
theorem line_named_iff {levelNode : EasylogLevelNode} {last : Option Nat}
    (h : this.Following levelNode last) (t : Nat) :
    ((this.sendToFile t levelNode).fs.isSome →
      (this.sendToFile t levelNode).fs = some (this.sendToFile t levelNode).fullname ∧
      (this.sendToFile t levelNode).fullname =
        this.fullFilename t (this.sendToFile t levelNode).filename) ↔
      ∀ s ∈ last, this.isOver t s = false → this.SamePeriod s t := by
  cases last with
  | none =>
    have hnone : levelNode.fs.isSome = false := h.isSome
    have hsame : this.sendToFile t levelNode = levelNode := by rw [sendToFile, if_neg (by simp [hnone])]
    rw [hsame, hnone]
    exact iff_of_true (fun hf => absurd hf Bool.false_ne_true) fun s hs => absurd hs (by simp)
  | some s =>
    rcases sendToFile_cases h t with ⟨hover, hsend⟩ | ⟨hover, hsend⟩
    · rw [hsend]
      refine iff_of_true (fun _ => ⟨rfl, rfl⟩) ?_
      intro s' hs' hno
      cases hs'
      rw [hover] at hno
      cases hno
    · obtain ⟨hfs, hname⟩ := h.named rfl
      obtain ⟨_, hperiod⟩ := h.unsplit s rfl
      rw [hsend, hname, fullFilename_eq_iff, hperiod.trans_iff, h.isSome]
      constructor
      · intro hnamed s' hs' _
        cases hs'
        exact (hnamed rfl).2
      · intro hmarked _
        rw [← hname]
        exact ⟨hfs, hmarked s rfl hover⟩

theorem following_sendToFile {levelNode : EasylogLevelNode} {last : Option Nat}
    (h : this.Following levelNode last) {t : Nat}
    (hmarked : ∀ s ∈ last, this.isOver t s = false → this.SamePeriod s t) :
    this.Following (this.sendToFile t levelNode) (last.map fun _ => t) := by
  cases last with
  | none =>
    have hnone : levelNode.fs.isSome = false := h.isSome
    rw [sendToFile, if_neg (by simp [hnone])]
    exact h
  | some s =>
    obtain ⟨hunsplit, hperiod⟩ := h.unsplit s rfl
    rcases sendToFile_cases h t with ⟨hover, hsend⟩ | ⟨hover, hsend⟩
    · rw [hsend]
      exact following_openfile t levelNode
    · rw [hsend]
      refine ⟨h.isSome, h.named, ?_⟩
      intro t' ht'
      cases ht'
      exact ⟨(isOver_trans hunsplit).trans hover, hperiod.trans_iff.mpr (hmarked s rfl hover)⟩

theorem namedAfterLines_iff {levels : EasylogSeverityLevel → EasylogLevelNode}
    {last : EasylogSeverityLevel → Option Nat} (h : ∀ level, this.Following (levels level) (last level))
    (lines : List (EasylogSeverityLevel × Nat)) :
    this.NamedAfterLines levels lines ↔ this.Marked last lines := by
  induction lines generalizing levels last with
  | nil => exact Iff.rfl
  | cons head lines ih =>
    obtain ⟨level, t⟩ := head
    have hsend : this.line levels level t level = this.sendToFile t (levels level) :=
      Function.update_self ..
    rw [NamedAfterLines, Marked, hsend]
    refine (and_congr_left' (line_named_iff (h level) t)).trans (and_congr_right ?_)
    intro hmarked
    apply ih
    intro other
    by_cases hother : other = level
    · subst hother
      rw [hsend, Function.update_self]
      exact following_sendToFile (h other) hmarked
    · rw [line, Function.update_of_ne hother, Function.update_of_ne hother]
      exact h other

end LogSetting

/-- Every line goes to the file of its own day or hour exactly where no line is in another day, or
hour, of UTC+8 than the line before it on its level, or the opening, with the same day of the month and
hour of UTC. -/
theorem lines_named_iff (this : LogSetting) (filenames : EasylogSeverityLevel → List Byte)
    (openings : EasylogSeverityLevel → Option Nat) (lines : List (EasylogSeverityLevel × Nat)) :
    this.NamedAfterLines (this.opened filenames openings) lines ↔ this.Marked openings lines :=
  LogSetting.namedAfterLines_iff (LogSetting.following_opened filenames openings) lines

/-- A line half an hour after midnight of UTC+8 to a file opened one hour before. -/
theorem midnight_missed : ¬LogSetting.NamedAfterLines ⟨bytes "log", true, false⟩
    (LogSetting.opened ⟨bytes "log", true, false⟩ (fun _ => bytes "t") fun _ => some 55800)
    [(.trace, 59400)] := by
  intro h
  have hmarked := (lines_named_iff _ _ _ _).mp h
  have hday : (55800 + 8 * 3600) / 86400 = (59400 + 8 * 3600) / 86400 :=
    hmarked.1 55800 rfl (by decide +kernel)
  revert hday
  decide

end Tnode
