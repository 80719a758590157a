import Tnode.Bindings
import Tnode.Node
import Tnode.SocketStream

namespace Tnode

/-- The number that little-endian bytes stand for. -/
def leNat : List Byte → Nat
  | [] => 0
  | b :: xs => b.toNat + 0x100 * leNat xs

namespace Servicemessage

/-- `rawmsg.entityid`, a `u64`. -/
def entityid (m : Servicemessage) : Nat := leNat ((m.rawmsg.drop 4).take 8)

/-- `rawmsg.msgid`, a `u16`. -/
def msgid (m : Servicemessage) : Nat := leNat ((m.rawmsg.drop 12).take 2)

/-- `rawmsg.payload` as `Service::msgParser` passes it on. -/
def payload (m : Servicemessage) : List Byte :=
  (m.rawmsg.drop sizeofSocketmessage).take m.payloadLength

end Servicemessage

/-- What `Service::msgParser` pushes for the script: `fd`, `entityid`, `msgid` and the decoded
table. -/
def msgParser (pb : Protobuf) (parser : MessageParser) (msg : Servicemessage) :
    Option (List LuaValue) := do
  let o ← parser.decode pb msg.msgid msg.payload
  return [pushinteger msg.fd, pushinteger msg.entityid, pushinteger msg.msgid, o]

/-- `u64 entityid = lua_tointeger(L, …)`. -/
def Lua.tou64 (lua : Lua) (v : LuaValue) : Nat := (lua.tointeger v % 2 ^ 64).toNat

/-- `cc.response(fd, entityid, msgid, o)`: `msg->fd` and `msg->rawmsg` when it gets to
`sendMessage`. -/
def ccResponse (lua : Lua) (pb : Protobuf) (parser : MessageParser) :
    List LuaValue → Option (SOCKET × List Byte)
  | [fd, entityid, msgid, .table t] =>
    if lua.isnumber fd && lua.isnumber entityid && lua.isnumber msgid then do
      let payload ← parser.encode pb lua (lua.tou32 msgid) (.table t)
      return ((lua.tointeger fd).bmod (2 ^ 32),
        responseBytes (lua.tou64 entityid) (lua.tou32 msgid) payload)
    else none
  | _ => none

theorem length_leBytes (n x : Nat) : (leBytes n x).length = n := by
  induction n generalizing x with
  | zero => rfl
  | succ n ih => simp [leBytes, ih]

theorem leNat_leBytes (n x : Nat) : leNat (leBytes n x) = x % 0x100 ^ n := by
  induction n generalizing x with
  | zero => simp [leBytes, leNat, Nat.mod_one]
  | succ n ih =>
    rw [leBytes, leNat, ih, pow_succ', Nat.mod_mul]
    simp

theorem leNat_lt (xs : List Byte) : leNat xs < 0x100 ^ xs.length := by
  induction xs with
  | nil => simp [leNat]
  | cons b xs ih =>
    have hb := b.toNat_lt
    rw [leNat, List.length_cons, pow_succ']
    omega

theorem Servicemessage.entityid_lt (m : Servicemessage) : m.entityid < 2 ^ 64 := by
  have hle : ((m.rawmsg.drop 4).take 8).length ≤ 8 := List.length_take_le 8 _
  calc m.entityid < 0x100 ^ ((m.rawmsg.drop 4).take 8).length := leNat_lt _
    _ ≤ 0x100 ^ 8 := Nat.pow_le_pow_right (by decide) hle
    _ = 2 ^ 64 := by norm_num

/-- The fields of a response as the receiver reads them: the message id has 16 bits there. -/
theorem responseBytes_fields {m : Servicemessage} {entityid msgid : Nat} {payload : List Byte}
    (hraw : m.rawmsg = responseBytes entityid msgid payload)
    (hlen : payload.length + sizeofSocketmessage < 2 ^ 32) :
    m.entityid = entityid % 2 ^ 64 ∧ m.msgid = msgid % 2 ^ 16 ∧ m.payload = payload := by
  have hwf := wellFormed_responseBytes entityid msgid hlen
  rw [← hraw] at hwf
  have hpl := (payloadLength_of_wellFormed hwf).2
  have hm : m.len = payload.length + sizeofSocketmessage := by
    have hl : m.len = m.rawmsg.length := hwf.2.2
    rw [hl, hraw]
    simp [responseBytes, length_leBytes, sizeofSocketmessage]
    omega
  refine ⟨?_, ?_, ?_⟩
  · have hsplit : (m.rawmsg.drop 4).take 8 = leBytes 8 entityid := by
      rw [hraw]
      simp [responseBytes, leBytes]
    have hwidth : 0x100 ^ 8 = 2 ^ 64 := by norm_num
    rw [Servicemessage.entityid, hsplit, leNat_leBytes, hwidth]
  · have hsplit : (m.rawmsg.drop 12).take 2 = leBytes 2 msgid := by
      rw [hraw]
      simp [responseBytes, leBytes]
    have hwidth : 0x100 ^ 2 = 2 ^ 16 := by norm_num
    rw [Servicemessage.msgid, hsplit, leNat_leBytes, hwidth]
  · have hdrop : m.rawmsg.drop sizeofSocketmessage = payload := by
      rw [hraw]
      simp [responseBytes, leBytes, sizeofSocketmessage]
    rw [Servicemessage.payload, hdrop, hpl, hm]
    simp

section

variable {lua : Lua} {pb : Protobuf} {parser : MessageParser} {request : Servicemessage}

theorem tou64_pushinteger_iff {n : Nat} (h : n < 2 ^ 64) :
    lua.tou64 (pushinteger n) = n ↔ binary64.Representable ((n : Int).bmod (2 ^ 64)) := by
  have hn : 0 ≤ (n : Int) ∧ (n : Int) < 2 ^ 64 := by omega
  rw [← uint64_iff lua hn, Lua.tou64]
  omega

theorem tou64_lt (v : LuaValue) : lua.tou64 v < 2 ^ 64 := by
  unfold Lua.tou64
  omega

/-- A script that answers with the `fd` and `entityid` of a request, an id and a table that
encodes, sends what `responseBytes` makes of the number for `entityid`. -/
theorem ccResponse_eq {fd entityid id v o : LuaValue} {t : LuaTable} {out : List Byte}
    (hcall : msgParser pb parser request = some [fd, entityid, id, o])
    (hv : lua.isnumber v = true)
    (hout : parser.encode pb lua (lua.tou32 v) (.table t) = some out) :
    ccResponse lua pb parser [fd, entityid, v, .table t] =
      some ((lua.tointeger (pushinteger request.fd)).bmod (2 ^ 32),
        responseBytes (lua.tou64 (pushinteger request.entityid)) (lua.tou32 v) out) := by
  obtain ⟨table, _, hargs⟩ := Option.bind_eq_some_iff.mp hcall
  simp only [Option.pure_def, Option.some.injEq, List.cons.injEq] at hargs
  obtain ⟨rfl, rfl, -⟩ := hargs
  have hfd : lua.isnumber (pushinteger request.fd) = true := rfl
  have hentity : lua.isnumber (pushinteger request.entityid) = true := rfl
  simp [ccResponse, hfd, hentity, hv, hout]

/-- The header of a response as it was meant, and no other registered id on the wire like it. -/
def CarriesHeader (parser : MessageParser) (request : Servicemessage) (msgid : Nat)
    (out : List Byte) (message : Servicemessage) : Prop :=
  message.entityid = request.entityid ∧ message.msgid = msgid ∧ message.payload = out ∧
    ∀ id ∈ parser.messages, id ≠ msgid → ∀ (other : Servicemessage) (entityid : Nat)
      (payload : List Byte), other.rawmsg = responseBytes entityid id payload →
        payload.length + sizeofSocketmessage < 2 ^ 32 → other.msgid ≠ message.msgid

theorem carriesHeader_iff {message : Servicemessage} {v : LuaValue} {out : List Byte}
    (hraw : message.rawmsg =
      responseBytes (lua.tou64 (pushinteger request.entityid)) (lua.tou32 v) out)
    (hlen : out.length + sizeofSocketmessage < 2 ^ 32) :
    CarriesHeader parser request (lua.tou32 v) out message ↔
      binary64.Representable ((request.entityid : Int).bmod (2 ^ 64)) ∧
        lua.tou32 v < 2 ^ 16 ∧ ∀ id ∈ parser.messages, id % 2 ^ 16 = lua.tou32 v → id = lua.tou32 v := by
  obtain ⟨he, hm, hp⟩ := responseBytes_fields hraw hlen
  rw [Nat.mod_eq_of_lt (tou64_lt _)] at he
  rw [← @tou64_pushinteger_iff lua _ request.entityid_lt, CarriesHeader, he, hm]
  constructor
  · rintro ⟨hentity, hid, -, hdistinct⟩
    refine ⟨hentity, by omega, ?_⟩
    intro id hmem heq
    by_contra hne
    have hempty : ([] : List Byte).length + sizeofSocketmessage < 2 ^ 32 := by decide
    have hother := @responseBytes_fields ⟨0, 0, 0, responseBytes 0 id []⟩ 0 id [] rfl hempty
    apply hdistinct id hmem hne ⟨0, 0, 0, responseBytes 0 id []⟩ 0 [] rfl hempty
    rw [hother.2.1, heq, hid]
  · rintro ⟨hentity, hlt, hdistinct⟩
    refine ⟨hentity, by omega, hp, ?_⟩
    intro id hmem hne other entityid payload hother hfit heq
    rw [(responseBytes_fields hother hfit).2.1, Nat.mod_eq_of_lt hlt] at heq
    exact hne (hdistinct id hmem heq)

theorem response_reassembled {fd entityid id v o : LuaValue} {t : LuaTable} {out : List Byte}
    (hcall : msgParser pb parser request = some [fd, entityid, id, o])
    (hv : lua.isnumber v = true)
    (hout : parser.encode pb lua (lua.tou32 v) (.table t) = some out)
    {s : SocketInternal} {ks : List RecvSide} {dest : SOCKET}
    {chunks before behind : List (List Byte)} {frame f tail : List Byte} (heap : Heap)
    (hresponse : ccResponse lua pb parser [fd, entityid, v, .table t] = some (dest, frame))
    (hs : s.rlist = [] ∧ s.rbuffer.unread = [])
    (hbefore : ∀ g ∈ before, WellFormedFrame g) (hbehind : ∀ g ∈ behind, WellFormedFrame g)
    (hf : WellFormedFrame f) (ht : tail <+: f) (hlt : tail.length < f.length)
    (hcut : chunks.flatten = (before ++ frame :: behind).flatten ++ tail)
    (hd : List.Forall₂ SocketInternal.Delivers ks chunks) :
    ∃ messages s' heap' message,
      SocketInternal.receiveCalls s heap ks =
        some (List.replicate ks.length true, messages, s', heap') ∧
      messages[before.length]? = some message ∧
      message.rawmsg =
        responseBytes (lua.tou64 (pushinteger request.entityid)) (lua.tou32 v) out ∧
      out.length + sizeofSocketmessage < 2 ^ 32 := by
  have hframe := (Prod.mk.inj (Option.some.inj (hresponse.symm.trans
    (ccResponse_eq hcall hv hout)))).2
  obtain ⟨ty, m, _, _, hserialize⟩ := MessageParser.encode_eq_some_iff.mp hout
  have h16 : sizeofSocketmessage = 16 := rfl
  have hlen : out.length + sizeofSocketmessage < 2 ^ 32 := by
    have := pb.serialize_length hserialize
    omega
  have hwf : WellFormedFrame frame := by
    rw [hframe]
    exact wellFormed_responseBytes _ _ hlen
  have hall : ∀ g ∈ before ++ frame :: behind, WellFormedFrame g := by
    intro g hg
    rcases List.mem_append.mp hg with hg | hg
    · exact hbefore g hg
    · rcases List.mem_cons.mp hg with rfl | hg
      · exact hwf
      · exact hbehind g hg
  obtain ⟨b, heap', _, hcalls⟩ :=
    SocketInternal.receiveCalls_frames heap hs hall hf ht hlt hcut hd
  have hat : ((SocketInternal.framed s.self s.fd heap.next (before ++ frame :: behind)).map
      Servicemessage.rawmsg)[before.length]? = some frame := by
    rw [SocketInternal.map_rawmsg_framed]
    simp
  rw [List.getElem?_map, Option.map_eq_some_iff] at hat
  obtain ⟨message, hmessage, hraw⟩ := hat
  exact ⟨_, _, heap', message, hcalls, hmessage, hraw.trans hframe, hlen⟩

/-- Reassembled anywhere in a stream of frames, a response carries the `entityid` of its
request, its message id and its serialization, and is like none of another registered id,
exactly when the `entityid` as a signed number is a `double` and the id has 16 bits and is
congruent to no other registered one. -/
theorem response_header_iff {fd entityid id v o : LuaValue} {t : LuaTable} {out : List Byte}
    (hcall : msgParser pb parser request = some [fd, entityid, id, o])
    (hv : lua.isnumber v = true)
    (hout : parser.encode pb lua (lua.tou32 v) (.table t) = some out)
    {s : SocketInternal} {heap : Heap} {ks : List RecvSide} {dest : SOCKET}
    {chunks before behind : List (List Byte)} {frame f tail : List Byte}
    (hresponse : ccResponse lua pb parser [fd, entityid, v, .table t] = some (dest, frame))
    (hs : s.rlist = [] ∧ s.rbuffer.unread = [])
    (hbefore : ∀ g ∈ before, WellFormedFrame g) (hbehind : ∀ g ∈ behind, WellFormedFrame g)
    (hf : WellFormedFrame f) (ht : tail <+: f) (hlt : tail.length < f.length)
    (hcut : chunks.flatten = (before ++ frame :: behind).flatten ++ tail)
    (hd : List.Forall₂ SocketInternal.Delivers ks chunks) :
    ∃ messages s' heap' message,
      SocketInternal.receiveCalls s heap ks =
        some (List.replicate ks.length true, messages, s', heap') ∧
      messages[before.length]? = some message ∧
      (CarriesHeader parser request (lua.tou32 v) out message ↔
        binary64.Representable ((request.entityid : Int).bmod (2 ^ 64)) ∧
          lua.tou32 v < 2 ^ 16 ∧
          ∀ id ∈ parser.messages, id % 2 ^ 16 = lua.tou32 v → id = lua.tou32 v) := by
  obtain ⟨messages, s', heap', message, hcalls, hmessage, hraw, hlen⟩ :=
    response_reassembled hcall hv hout heap hresponse hs hbefore hbehind hf ht hlt hcut hd
  exact ⟨messages, s', heap', message, hcalls, hmessage, carriesHeader_iff hraw hlen⟩

end

/-- A request for `addressBookParser` with no payload. -/
def emptyRequest (entityid : Nat) : Servicemessage := ⟨0, 0, 5, responseBytes entityid 1 []⟩

theorem delivers_whole {frame : List Byte} (h : frame.length < SocketInternal.readlen) :
    SocketInternal.Delivers ⟨frame, false, true, [], none⟩ frame :=
  SocketInternal.delivers_of_fits (by simp [RecvSide.NoError]) ⟨rfl, Or.inl h⟩

/-- A request for `addressBookParser` with a named person. -/
def namedRequest : Servicemessage := ⟨0, 0, 5, responseBytes 7 1 namedBytes⟩

theorem response_carries_header : ∃ messages s' heap' message,
    SocketInternal.receiveCalls (.create 0 7) ⟨0, []⟩
        [⟨emptyFrame ++ responseBytes 7 1 namedBytes, false, true, [], none⟩] =
      some ([true], messages, s', heap') ∧
    messages[1]? = some message ∧
    CarriesHeader addressBookParser namedRequest 1 namedBytes message := by
  have hid : sortingLua.tou32 (pushinteger 1) = 1 := tou32_pushinteger sortingLua (by decide)
  have hrep : binary64.Representable (((7 : Nat) : Int).bmod (2 ^ 64)) :=
    representable_of_small (by decide)
  have hentity : sortingLua.tou64 (pushinteger (7 : Nat)) = 7 :=
    (tou64_pushinteger_iff (by decide)).mpr hrep
  have hcall : msgParser namedProtobuf addressBookParser namedRequest = some [pushinteger 5,
      pushinteger (7 : Nat), pushinteger 1, .table (decodeDescriptor addressBook (addressBook 0)
        [[.message [[.scalar (.string (bytes "tnode"))], [], [], []]]] [])] := rfl
  have hout : addressBookParser.encode namedProtobuf sortingLua
      (sortingLua.tou32 (pushinteger 1)) (.table namedPerson) = some namedBytes := by
    rw [hid]
    exact encode_namedPerson sortingLua
  have hresponse := ccResponse_eq hcall rfl hout
  have hrequest : namedRequest.entityid = 7 := rfl
  rw [hrequest, hentity, hid] at hresponse
  obtain ⟨messages, s', heap', message, hcalls, hmessage, hiff⟩ :=
    @response_header_iff sortingLua namedProtobuf addressBookParser namedRequest _ _ _ _ _ _ _
      hcall rfl hout (.create 0 7) ⟨0, []⟩
      [⟨emptyFrame ++ responseBytes 7 1 namedBytes, false, true, [], none⟩] _
      [emptyFrame ++ responseBytes 7 1 namedBytes] [emptyFrame] [] _ emptyFrame [] hresponse
      ⟨rfl, by simp [SocketInternal.create]⟩ (by simp [wellFormed_emptyFrame]) (by simp)
      wellFormed_emptyFrame (List.nil_prefix) (by decide) (by simp)
      (.cons (delivers_whole (by decide)) .nil)
  rw [hid, hrequest] at hiff
  refine ⟨messages, s', heap', message, hcalls, hmessage, hiff.mpr ⟨hrep, by decide, ?_⟩⟩
  intro id hmem _
  rcases (AList.mem_insert _).mp hmem with h | h
  · exact h
  · exact absurd h (AList.notMem_empty id)

/-- A second type registered under 65537. -/
def confusedParser : MessageParser :=
  { addressBookParser with messages := addressBookParser.messages.insert 65537 0 }

/-- The response under 65537 to a request with the `entityid` 2^53+1 comes as one under 1, and
with another `entityid`. -/
theorem response_confused :
    addressBookParser.regmsg 65537 (bytes "tnode.AddressBook") = (true, confusedParser) ∧
    1 ∈ confusedParser.messages ∧ (emptyRequest (2 ^ 53 + 1)).entityid = 2 ^ 53 + 1 ∧
    ∃ dest frame messages s' heap' message,
      ccResponse sortingLua blankProtobuf confusedParser
        [pushinteger 5, pushinteger (2 ^ 53 + 1 : Nat), pushinteger 65537, .table []] =
          some (dest, frame) ∧
      SocketInternal.receiveCalls (.create 0 7) ⟨0, []⟩ [⟨frame, false, true, [], none⟩] =
        some ([true], messages, s', heap') ∧
      messages[0]? = some message ∧ message.msgid = 1 ∧ message.entityid ≠ 2 ^ 53 + 1 := by
  have hid : sortingLua.tou32 (pushinteger 65537) = 65537 :=
    tou32_pushinteger sortingLua (by decide)
  have hrequest : (emptyRequest (2 ^ 53 + 1)).entityid = 2 ^ 53 + 1 := rfl
  have hcall : msgParser blankProtobuf confusedParser (emptyRequest (2 ^ 53 + 1)) =
      some [pushinteger 5, pushinteger (2 ^ 53 + 1 : Nat), pushinteger 1,
        .table (decodeDescriptor addressBook (addressBook 0) [[]] [])] := rfl
  have hout : confusedParser.encode blankProtobuf sortingLua
      (sortingLua.tou32 (pushinteger 65537)) (.table []) = some [] := by
    rw [hid]
    exact encode_empty sortingLua
  have hresponse := ccResponse_eq hcall rfl hout
  have hlength : ∀ entityid msgid, (responseBytes entityid msgid []).length <
      SocketInternal.readlen := by
    intro entityid msgid
    simp [responseBytes, length_leBytes, SocketInternal.readlen]
  have hshort := hlength (sortingLua.tou64 (pushinteger (emptyRequest (2 ^ 53 + 1)).entityid))
    (sortingLua.tou32 (pushinteger 65537))
  obtain ⟨messages, s', heap', message, hcalls, hmessage, hraw, hlen⟩ :=
    @response_reassembled sortingLua blankProtobuf confusedParser (emptyRequest (2 ^ 53 + 1))
      _ _ _ _ _ _ _ hcall rfl hout (.create 0 7) [_] _ [_] [] [] _
      emptyFrame [] ⟨0, []⟩ hresponse ⟨rfl, by simp [SocketInternal.create]⟩ (by simp) (by simp)
      wellFormed_emptyFrame List.nil_prefix (by decide) (by simp) (.cons (delivers_whole hshort) .nil)
  obtain ⟨hentity, hmsgid, -⟩ := responseBytes_fields hraw hlen
  refine ⟨rfl, by decide, hrequest, _, _, messages, s', heap', message, hresponse, hcalls,
    hmessage, ?_, ?_⟩
  · have hwire : 65537 % 2 ^ 16 = 1 := by norm_num
    rw [hmsgid, hid, hwire]
  · rw [hentity, Nat.mod_eq_of_lt (tou64_lt _), hrequest]
    intro heq
    have hrep := (tou64_pushinteger_iff (by decide)).mp heq
    have hbmod : ((2 ^ 53 + 1 : Nat) : Int).bmod (2 ^ 64) = 2 ^ 53 + 1 := by decide
    rw [hbmod] at hrep
    have hlt := FloatFormat.Format.abs_lt_of_odd hrep (by decide)
    exact absurd hlt (by decide)

end Tnode
