import Tnode.Transitions
import Tnode.Node
import Tnode.JsonCallback
import Tnode.LogNodes

namespace Tnode

open Transitions

/-- What a slot of `_sockets` holds when it is read; other threads may have changed it. -/
inductive SlotContent
  | null
  | server
  | connection
deriving DecidableEq, Repr

/-- What a function does with `_sockets`: the indices in order, and whether it returns; it does
not when an assertion ends the process. -/
structure SlotUse where
  indexes : List Int
  returns : Bool
deriving DecidableEq, Repr

section

variable (aborts : Bool)

/-- `NetworkManager::closeSocket`. A failed `assert` is a message of `LEVEL_PANIC`; `aborts` says
whether that ends the process, and if it does not the code goes on behind it. -/
def closeSocketUse (s : Int) : SlotUse :=
  if MAX_SOCKET ≤ s ∧ aborts = true then ⟨[], false⟩ else ⟨[s, s], true⟩

/-- `NetworkManager::sendMessage`; `sent` is the result of `socket->send`. -/
def sendMessageUse (fd : Int) (found sent : Bool) : SlotUse :=
  let s := fd
  if MAX_SOCKET ≤ s ∧ aborts = true then ⟨[], false⟩
  else if found then
    if sent then ⟨[s], true⟩
    else ⟨s :: (closeSocketUse aborts s).indexes, (closeSocketUse aborts s).returns⟩
  else ⟨[s], true⟩

/-- What `newserver` and `newclient` do with the object for `fd`; `retval` is the result of
`listen` or `connect`, which both want `fd() >= 0`, and `vacant` that of the second assertion. -/
def newSocketUse (fd : Int) (retval vacant : Bool) : SlotUse :=
  if 0 ≤ fd ∧ retval = true then
    if MAX_SOCKET ≤ fd ∧ aborts = true then ⟨[], false⟩
    else if vacant = false ∧ aborts = true then ⟨[fd], false⟩
    else ⟨[fd, fd], true⟩
  else ⟨[], true⟩

/-- A turn of the loop of `readSocket` over `accept()`. -/
def acceptUse (newfd : Int) (vacant : Bool) : SlotUse :=
  if vacant = false ∧ aborts = true then ⟨[newfd], false⟩ else ⟨[newfd, newfd], true⟩

/-- `readSocket` up to the loop over `accept()`. -/
def readSocketUse (s : Int) (socket : SlotContent) (received : Bool) : SlotUse :=
  match socket with
  | .null | .server => ⟨[s], true⟩
  | .connection =>
    if received then ⟨[s], true⟩
    else ⟨s :: (closeSocketUse aborts s).indexes, (closeSocketUse aborts s).returns⟩

/-- `writeSocket`; `sent` is the result of `socket->send()`. -/
def writeSocketUse (s : Int) (found sent : Bool) : SlotUse :=
  if found ∧ sent = false then
    ⟨s :: (closeSocketUse aborts s).indexes, (closeSocketUse aborts s).returns⟩
  else ⟨[s], true⟩

end

/-- The descriptors that epoll may report, and those of the messages received; `_level` and `_stop`
of the logger. -/
structure NetworkFds where
  added : List Int
  inbox : List Int
  level : Int
  isstop : Bool
deriving DecidableEq, Repr

namespace NetworkFds

/-- `log_message` aborts for a message of `LEVEL_PANIC` that it does not filter out. -/
def aborts (n : NetworkFds) : Bool := !n.isstop && n.level ≤ EasylogSeverityLevel.panic.value

/-- `response` and `closesocket` are calls of a script, with the integer it passes. `accept` is a
turn of the loop in `readSocket`, and `received` what `receive` returns to it. `stop` is that of the
network manager, and `stopLog` that of the logger. -/
inductive Label
  | response (n : Int) (found sent : Bool)
  | closesocket (n : Int)
  | newserver (fd : Int) (retval vacant : Bool)
  | newclient (fd : Int) (retval vacant : Bool)
  | readSocket (s : Int) (socket : SlotContent) (received : Bool)
  | accept (newfd : Int) (vacant : Bool)
  | writeSocket (s : Int) (found sent : Bool)
  | errorSocket (s : Int)
  | stop
  | stopLog
deriving DecidableEq, Repr

/-- `SOCKET fd = lua_tointeger(L, …)`, where a `SOCKET` is an `int`. -/
def use (n : NetworkFds) : Label → SlotUse
  | .response m found sent => sendMessageUse n.aborts (int32 m) found sent
  | .closesocket m => closeSocketUse n.aborts (int32 m)
  | .newserver fd retval vacant | .newclient fd retval vacant =>
    newSocketUse n.aborts fd retval vacant
  | .readSocket s socket received => readSocketUse n.aborts s socket received
  | .accept newfd vacant => acceptUse n.aborts newfd vacant
  | .writeSocket s found sent => writeSocketUse n.aborts s found sent
  | .errorSocket s => closeSocketUse n.aborts s
  | .stop | .stopLog => ⟨[], true⟩

/-- The descriptors given to `addSocket`. -/
def adds : Label → List Int
  | .newserver fd retval _ | .newclient fd retval _ => if 0 ≤ fd ∧ retval = true then [fd] else []
  | .accept newfd _ => [newfd]
  | .stop => [1]
  | _ => []

/-- The descriptors put into received messages. -/
def receives : Label → List Int
  | .readSocket s .connection true => [s]
  | _ => []

/-- The level is the one that is configured. -/
def start (level : Int) : NetworkFds := ⟨[], [], level, false⟩

/-- A call that does not return has stopped the logger and is about to abort; until it does, the
other threads go on. -/
def step (n : NetworkFds) (l : Label) : Option NetworkFds :=
  if (n.use l).returns then
    some { n with
      added := n.added ++ adds l, inbox := n.inbox ++ receives l, isstop := n.isstop || l = .stopLog }
  else some { n with isstop := true }

def indexes (n : NetworkFds) (l : Label) : List Int := (n.use l).indexes

/-- The kernel returns numbers below the limit of open files, or -1, and epoll reports numbers
it was given. -/
def InDomain (limit : Int) (n : NetworkFds) : Label → Prop
  | .newserver fd _ _ | .newclient fd _ _ => -1 ≤ fd ∧ fd < limit
  | .accept newfd _ => 0 ≤ newfd ∧ newfd < limit
  | .readSocket s _ _ | .writeSocket s _ _ | .errorSocket s => s ∈ n.added
  | .response _ _ _ | .closesocket _ | .stop | .stopLog => True

def InRange (i : Int) : Prop := 0 ≤ i ∧ i < MAX_SOCKET

/-- A script passes no negative number, and none from `MAX_SOCKET` on that no assertion stops. -/
def ScriptOk (n : NetworkFds) : Label → Prop
  | .response m _ _ | .closesocket m => 0 ≤ int32 m ∧ (int32 m < MAX_SOCKET ∨ n.aborts = true)
  | _ => True

/-- The kernel returns no number from `MAX_SOCKET` on either, but for one that an assertion stops. -/
def IndexOk (n : NetworkFds) : Label → Prop
  | .newserver fd retval _ | .newclient fd retval _ =>
    0 ≤ fd ∧ retval = true → fd < MAX_SOCKET ∨ n.aborts = true
  | .accept newfd _ => newfd < MAX_SOCKET
  | l => n.ScriptOk l

instance (limit : Int) (n : NetworkFds) (l : Label) : Decidable (n.InDomain limit l) :=
  match l with
  | .newserver _ _ _ | .newclient _ _ _ | .accept _ _ => inferInstanceAs (Decidable (_ ∧ _))
  | .readSocket s _ _ | .writeSocket s _ _ | .errorSocket s =>
    inferInstanceAs (Decidable (s ∈ n.added))
  | .response _ _ _ | .closesocket _ | .stop | .stopLog => isTrue trivial

instance (n : NetworkFds) (l : Label) : Decidable (n.IndexOk l) :=
  match l with
  | .response m _ _ | .closesocket m =>
    inferInstanceAs (Decidable (0 ≤ int32 m ∧ (int32 m < MAX_SOCKET ∨ n.aborts = true)))
  | .newserver fd retval _ | .newclient fd retval _ =>
    inferInstanceAs (Decidable (0 ≤ fd ∧ retval = true → fd < MAX_SOCKET ∨ n.aborts = true))
  | .accept newfd _ => inferInstanceAs (Decidable (newfd < MAX_SOCKET))
  | .readSocket _ _ _ | .writeSocket _ _ _ | .errorSocket _ | .stop | .stopLog => isTrue trivial

structure Bounded (n : NetworkFds) : Prop where
  added : ∀ fd ∈ n.added, InRange fd
  inbox : ∀ fd ∈ n.inbox, InRange fd

section

variable {aborts : Bool} {s : Int}

theorem inRange_pair {i : Int} : (∀ j ∈ [i, i], InRange j) ↔ 0 ≤ i ∧ i < MAX_SOCKET := by
  simp [InRange]

/-- An assertion that ends the process stops what is too large, but not what is negative. -/
theorem closeSocket_inRange_iff : (∀ i ∈ (closeSocketUse aborts s).indexes, InRange i) ↔
    0 ≤ s ∧ (s < MAX_SOCKET ∨ aborts = true) := by
  have hmax : MAX_SOCKET = 65536 := rfl
  unfold closeSocketUse
  split
  next h =>
    have hs : 0 ≤ s := by omega
    simp [h, hs]
  next h =>
    rw [inRange_pair]
    refine and_congr_right fun _ => ⟨Or.inl, fun hor => ?_⟩
    rcases hor with hs | ha
    · exact hs
    · exact Int.not_le.mp fun hle => h ⟨hle, ha⟩

theorem sendMessage_inRange_iff {found sent : Bool} :
    (∀ i ∈ (sendMessageUse aborts s found sent).indexes, InRange i) ↔
      0 ≤ s ∧ (s < MAX_SOCKET ∨ aborts = true) := by
  have hmax : MAX_SOCKET = 65536 := rfl
  have hclose := @closeSocket_inRange_iff aborts s
  unfold sendMessageUse
  dsimp only
  split
  next h =>
    have hs : 0 ≤ s := by omega
    simp [h, hs]
  next h =>
    have hself : InRange s ↔ 0 ≤ s ∧ (s < MAX_SOCKET ∨ aborts = true) := by
      refine and_congr_right fun _ => ⟨Or.inl, fun hor => ?_⟩
      rcases hor with hs | ha
      · exact hs
      · exact Int.not_le.mp fun hle => h ⟨hle, ha⟩
    split
    next =>
      split
      next => simpa using hself
      next => rw [List.forall_mem_cons, hself, hclose, and_self]
    next => simpa using hself

theorem newSocket_inRange_iff {fd : Int} {retval vacant : Bool} :
    (∀ i ∈ (newSocketUse aborts fd retval vacant).indexes, InRange i) ↔
      (0 ≤ fd ∧ retval = true → fd < MAX_SOCKET ∨ aborts = true) := by
  unfold newSocketUse
  split
  next hfd =>
    rw [forall_prop_of_true hfd]
    split
    next h => simp [h]
    next h =>
      have hself : InRange fd ↔ fd < MAX_SOCKET ∨ aborts = true := by
        refine ⟨fun hin => Or.inl hin.2, fun hor => ⟨hfd.1, ?_⟩⟩
        rcases hor with hs | ha
        · exact hs
        · exact Int.not_le.mp fun hle => h ⟨hle, ha⟩
      split
      next => simpa using hself
      next => simpa using hself
  next hfd => simp [hfd]

theorem acceptSocket_inRange_iff {newfd : Int} {vacant : Bool} (hnewfd : 0 ≤ newfd) :
    (∀ i ∈ (acceptUse aborts newfd vacant).indexes, InRange i) ↔ newfd < MAX_SOCKET := by
  have hself : InRange newfd ↔ newfd < MAX_SOCKET := and_iff_right hnewfd
  unfold acceptUse
  split
  next => simpa using hself
  next => simpa using hself

theorem readSocket_inRange (hs : InRange s) (socket : SlotContent) (received : Bool) :
    ∀ i ∈ (readSocketUse aborts s socket received).indexes, InRange i := by
  have hclose := (@closeSocket_inRange_iff aborts s).mpr ⟨hs.1, Or.inl hs.2⟩
  cases socket with
  | null | server => simpa [readSocketUse] using hs
  | connection =>
    cases received with
    | true => simpa [readSocketUse] using hs
    | false => exact List.forall_mem_cons.mpr ⟨hs, hclose⟩

theorem writeSocket_inRange (hs : InRange s) (found sent : Bool) :
    ∀ i ∈ (writeSocketUse aborts s found sent).indexes, InRange i := by
  have hclose := (@closeSocket_inRange_iff aborts s).mpr ⟨hs.1, Or.inl hs.2⟩
  unfold writeSocketUse
  split
  next => exact List.forall_mem_cons.mpr ⟨hs, hclose⟩
  next => simpa using hs

end

/-- The sites of one step index the array within its bounds exactly if its source does. -/
theorem indexes_inRange_iff {limit : Int} {n : NetworkFds} {l : Label} (hn : n.Bounded)
    (hdom : n.InDomain limit l) : (∀ i ∈ n.indexes l, InRange i) ↔ n.IndexOk l := by
  cases l with
  | response m found sent => exact sendMessage_inRange_iff
  | closesocket m => exact closeSocket_inRange_iff
  | newserver fd retval vacant => exact newSocket_inRange_iff
  | newclient fd retval vacant => exact newSocket_inRange_iff
  | readSocket s socket received =>
    exact iff_of_true (readSocket_inRange (hn.added s hdom) socket received) trivial
  | accept newfd vacant => exact acceptSocket_inRange_iff hdom.1
  | writeSocket s found sent =>
    exact iff_of_true (writeSocket_inRange (hn.added s hdom) found sent) trivial
  | errorSocket s =>
    have hs := hn.added s hdom
    exact iff_of_true (closeSocket_inRange_iff.mpr ⟨hs.1, Or.inl hs.2⟩) trivial
  | stop | stopLog => exact iff_of_true (by simp [indexes, use]) trivial

theorem adds_inRange {limit : Int} {n : NetworkFds} {l : Label} (hdom : n.InDomain limit l)
    (hok : n.IndexOk l) (hreturns : (n.use l).returns = true) : ∀ fd ∈ adds l, InRange fd := by
  intro fd hfd
  cases l with
  | newserver x retval vacant | newclient x retval vacant =>
    simp only [adds] at hfd
    split at hfd
    next hx =>
      obtain rfl := List.mem_singleton.mp hfd
      refine ⟨hx.1, ?_⟩
      rcases hok hx with hsmall | haborts
      · exact hsmall
      · by_contra hlarge
        simp [use, newSocketUse, hx, haborts, Int.not_lt.mp hlarge] at hreturns
    next => simp at hfd
  | accept newfd vacant =>
    obtain rfl := List.mem_singleton.mp hfd
    exact ⟨hdom.1, hok⟩
  | stop =>
    obtain rfl := List.mem_singleton.mp hfd
    exact ⟨by decide, by decide⟩
  | _ => simp [adds] at hfd

/-- Only a connection that epoll has reported puts its number into messages. -/
theorem receives_added {limit : Int} {n : NetworkFds} {l : Label} (hdom : n.InDomain limit l) :
    ∀ fd ∈ receives l, fd ∈ n.added := by
  intro fd hfd
  unfold receives at hfd
  split at hfd
  next s =>
    obtain rfl := List.mem_singleton.mp hfd
    exact hdom
  next => simp at hfd

/-- A step gives epoll, and puts into messages, only what indexes the array. -/
theorem step_bounded {limit : Int} {n m : NetworkFds} {l : Label} (hn : n.Bounded)
    (hdom : n.InDomain limit l) (hok : n.IndexOk l) (h : n.step l = some m) : m.Bounded := by
  unfold step at h
  split at h
  next hreturns =>
    cases h
    have hadds := adds_inRange hdom hok hreturns
    have hreceives : ∀ fd ∈ receives l, InRange fd := fun fd hfd =>
      hn.added fd (receives_added hdom fd hfd)
    exact ⟨List.forall_mem_append.mpr ⟨hn.added, hadds⟩,
      List.forall_mem_append.mpr ⟨hn.inbox, hreceives⟩⟩
  next =>
    cases h
    exact ⟨hn.added, hn.inbox⟩

theorem start_bounded (level : Int) : (start level).Bounded := ⟨by simp [start], by simp [start]⟩

/-- In every run the indices into `_sockets` lie in the array exactly if no script passes a
negative number, or one from `MAX_SOCKET` on that no assertion stops, and `accept`, or `newserver`
and `newclient` behind an assertion that does not end the process, get none from `MAX_SOCKET` on;
the numbers in received messages are then none of these. A limit of open files up to `MAX_SOCKET`
keeps what the kernel returns below it. -/
theorem indexes_in_range_iff {limit level : Int} {ls : List Label}
    (hdom : Along step (InDomain limit) (start level) ls) :
    ((∀ i ∈ collect step indexes (start level) ls, InRange i) ↔
      Along step IndexOk (start level) ls) ∧
    (Along step IndexOk (start level) ls →
      ∀ n, run step (start level) ls = some n → ∀ fd ∈ n.inbox, InRange fd) ∧
    (limit ≤ MAX_SOCKET →
      (Along step IndexOk (start level) ls ↔ Along step ScriptOk (start level) ls)) := by
  have hkeep : ∀ n l m, Bounded n → n.InDomain limit l → n.IndexOk l → n.step l = some m →
      Bounded m := fun _ _ _ hn hd hok h => step_bounded hn hd hok h
  refine ⟨?_, ?_, ?_⟩
  · rw [forall_mem_collect]
    have hsame : ∀ n l, Bounded n → n.InDomain limit l →
        ((∀ i ∈ n.indexes l, InRange i) ↔ n.IndexOk l) := fun _ _ hn hd => indexes_inRange_iff hn hd
    apply along_iff hsame ?_ (start_bounded level) hdom
    intro n l m hn hd hok h
    exact hkeep n l m hn hd ((hsame n l hn hd).mp hok) h
  · intro hok n h
    have hn := run_invariant (fun n l m hn hok h => hkeep n l m hn hok.1 hok.2 h)
      (start_bounded level) (hdom.and hok) h
    exact hn.inbox
  · intro hlimit
    refine @along_iff _ _ step (fun _ => True) _ _ _ ?_ (fun _ _ _ _ _ _ _ => trivial) _ _ trivial hdom
    intro n l _ hd
    cases l with
    | accept newfd vacant => exact iff_of_true (lt_of_lt_of_le hd.2 hlimit) trivial
    | newserver fd retval vacant | newclient fd retval vacant =>
      exact iff_of_true (fun _ => Or.inl (lt_of_lt_of_le hd.2 hlimit)) trivial
    | _ => exact Iff.rfl

/-- A server on 3 that accepts 4, answers it and closes it. -/
theorem indexes_in_range_serving :
    collect step indexes (start 0) [.newserver 3 true true, .readSocket 3 .server true,
      .accept 4 true, .readSocket 4 .connection true, .response 4 true true, .closesocket 4] ≠ [] ∧
    ∀ i ∈ collect step indexes (start 0) [.newserver 3 true true, .readSocket 3 .server true,
      .accept 4 true, .readSocket 4 .connection true, .response 4 true true, .closesocket 4],
      InRange i := by
  refine ⟨by decide +kernel, (@indexes_in_range_iff 1024 0 _ ?_).1.mpr ?_⟩
  · decide +kernel
  · decide +kernel

/-- `cc.closesocket(cc.newserver(..))` when `newserver` has failed clears `_sockets[-1]`, and when the
log leaves out messages of `LEVEL_PANIC`, `cc.closesocket(65536)` clears what is behind the array. -/
theorem failed_newserver_closed : (¬ ∀ limit level ls, Along step (InDomain limit) (start level) ls →
      ∀ i ∈ collect step indexes (start level) ls, InRange i) ∧
    ¬ ∀ i ∈ collect step indexes (start 6) [.closesocket 65536], InRange i := by
  constructor
  · intro h
    have hdom : Along step (InDomain 1024) (start 0)
        [.newserver (-1) false false, .closesocket (-1)] := by
      decide +kernel
    have hin := h 1024 0 _ hdom (-1) (by decide +kernel)
    exact absurd hin.1 (by decide)
  · intro h
    have hin := h 65536 (by decide +kernel)
    exact absurd hin.2 (by decide)

end NetworkFds

end Tnode
