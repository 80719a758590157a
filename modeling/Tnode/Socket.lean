import Tnode.Kernel

namespace Tnode

inductive SocketType
  | server
  | client
  | connection
deriving DecidableEq, Repr

/-- `SocketInternal`; `self` is the address of the object. -/
structure SocketInternal where
  self : Nat
  fd : SOCKET
  socketType : SocketType
  rlist : List Servicemessage
  slist : List Servicemessage
  rbuffer : ByteBuffer
  wbuffer : ByteBuffer

namespace SocketInternal

def create (self : Nat) (s : SOCKET) : SocketInternal :=
  ⟨self, s, .connection, [], [], .new, .new⟩

/-- The loop of `readBytes`: its result, the bytes stored at the buffer, and the kernel
afterwards. `TEMP_FAILURE_RETRY` and the test of `interrupted()` both repeat the call. -/
def readBytes (k : RecvSide) (len : Nat) (bytes : List Byte) : Int × List Byte × RecvSide :=
  match _hr : k.recv (len - bytes.length) with
  | (.zero, k') => (-1, bytes, k')
  | (.interrupted, k') => readBytes k' len bytes
  | (.again, k') => (bytes.length, bytes, k')
  | (.error, k') => (-1, bytes, k')
  | (.data rc, k') => readBytes k' len (bytes ++ rc)
termination_by k.remaining
decreasing_by
  · exact RecvSide.remaining_interrupted _hr
  · exact RecvSide.remaining_data _hr

/-- The loop of `receive` that frames the unread bytes into `_rlist`. -/
def frames (s : SocketInternal) (heap : Heap) : Option (Bool × SocketInternal × Heap) :=
  let len := u32le (s.rbuffer.rbuffer sizeofLen)
  if s.rbuffer.size < sizeofLen ∨ s.rbuffer.size < len then
    some (true, s, heap)
  else if _hlen : len < sizeofSocketmessage then
    some (false, s, heap)
  else
    let (addr, heap') := allocateMessage heap
    let newmsg : Servicemessage := ⟨addr, s.self, s.fd, s.rbuffer.rbuffer len⟩
    match _hr : s.rbuffer.rlength len with
    | none => none
    | some buffer => frames { s with rlist := s.rlist ++ [newmsg], rbuffer := buffer } heap'
termination_by s.rbuffer.size
decreasing_by
  obtain ⟨hu, _⟩ := ByteBuffer.unread_rlength _hr
  have hs := congrArg List.length hu
  have h16 : sizeofSocketmessage = 16 := rfl
  simp only [ByteBuffer.length_unread, List.length_drop] at hs
  omega

def readlen : Nat := 960

def receive (s : SocketInternal) (k : RecvSide) (heap : Heap) :
    Option (Bool × SocketInternal × RecvSide × Heap) := do
  let (bytes, stored, k) := readBytes k readlen []
  let buffer ← (s.rbuffer.wbuffer readlen).store stored
  if bytes < 0 then
    return (false, { s with rbuffer := buffer }, k, heap)
  let buffer ← if 0 < bytes then buffer.wlength bytes.toNat else some buffer
  let (ok, s, heap) ← frames { s with rbuffer := buffer } heap
  return (ok, s, k, heap)

def getMessage (s : SocketInternal) : Option (Servicemessage × SocketInternal) :=
  match s.rlist with
  | [] => none
  | message :: rest => some (message, { s with rlist := rest })

/-- The loop of `sendBytes`, with `bytes` of the buffer sent so far. -/
def sendBytes (k : SendSide) (buffer : List Byte) (bytes : Nat) : Int × SendSide :=
  if buffer.length > bytes then
    match _hr : k.send (buffer.drop bytes) with
    | (.zero, k') => (-1, k')
    | (.interrupted, k') => sendBytes k' buffer bytes
    | (.again, k') => (bytes, k')
    | (.error, k') => (-1, k')
    | (.accepted rc, k') => sendBytes k' buffer (bytes + rc)
  else (bytes, k)
termination_by k.script.length
decreasing_by
  · exact SendSide.send_script _hr (by simp)
  · exact SendSide.send_script _hr (by simp)

/-- The loop of `send()` over `_slist`; `_wbuffer` is empty when it is entered. -/
def sendList (wbuffer : ByteBuffer) (k : SendSide) (heap : Heap) :
    List Servicemessage → Option (Bool × List Servicemessage × ByteBuffer × SendSide × Heap)
  | [] => some (true, [], wbuffer, k, heap)
  | message :: slist => do
    let (bytes, k) := sendBytes k message.raw 0
    if bytes < 0 then
      return (false, slist, wbuffer, k, releaseMessage heap message)
    let wbuffer ←
      if bytes.toNat < message.len then wbuffer.append (message.raw.drop bytes.toNat)
      else some wbuffer
    let heap := releaseMessage heap message
    if wbuffer.size > 0 then
      return (true, slist, wbuffer, k, heap)
    sendList wbuffer k heap slist

/-- `send()`. -/
def send (s : SocketInternal) (k : SendSide) (heap : Heap) :
    Option (Bool × SocketInternal × SendSide × Heap) := do
  let (bytes, k) :=
    if s.wbuffer.size > 0 then sendBytes k (s.wbuffer.rbuffer s.wbuffer.size) 0 else (0, k)
  if bytes < 0 then
    return (false, s, k, heap)
  let wbuffer ← if 0 < bytes then s.wbuffer.rlength bytes.toNat else some s.wbuffer
  if wbuffer.size > 0 then
    return (true, { s with wbuffer := wbuffer }, k, heap)
  let (ok, slist, wbuffer, k, heap) ← sendList wbuffer k heap s.slist
  return (ok, { s with slist := slist, wbuffer := wbuffer }, k, heap)

/-- `send(message)`. -/
def sendMessage (s : SocketInternal) (message : Servicemessage) (k : SendSide) (heap : Heap) :
    Option (Bool × SocketInternal × SendSide × Heap) :=
  { s with slist := s.slist ++ [message] }.send k heap

/-- `~SocketInternal` hands back what both queues hold. -/
def destroy (s : SocketInternal) (heap : Heap) : Heap :=
  s.slist.foldl releaseMessage (s.rlist.foldl releaseMessage heap)

end SocketInternal

end Tnode
