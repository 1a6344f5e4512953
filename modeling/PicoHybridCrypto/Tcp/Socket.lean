import PicoHybridCrypto.Theory.Cells
import PicoHybridCrypto.Tcp.Lwip

/-! # The socket of `tcp.h` and the functions of `tcp.c`

Each function that returns without waiting is one definition; what it does besides changing the
socket is part of its result: the lwIP calls it makes in order, the cells of `sock->buffer` it
touches, and the bytes it hands over. The two wait loops are in `System`. Diagnostic output is
not modelled. -/

set_option autoImplicit true

namespace PicoHybridCrypto
open Cells

def bufSize : Nat := 4096 * 2

def testIterations : Int := 10

def pollTimeS : Nat := 5

def wolfSuccess : Int := 0

def wolfFail : Int := -1

/-- What a `WOLF_SOCKET_T` points to. The cells of `buffer` outside `[0, BUF_SIZE)` are other
memory. -/
structure Socket where
  tcpPcb : Option Pcb
  buffer : Int → UInt8
  bufferLen : Int
  sentLen : Int
  complete : Bool
  runCount : Int
  connected : Bool

/-- The zeroed memory `calloc` returns. -/
def Socket.zeroed : Socket where
  tcpPcb := none
  buffer := fun _ => 0
  bufferLen := 0
  sentLen := 0
  complete := false
  runCount := 0
  connected := false

def wolfTCPsocket (allocated : Bool) : Option Socket :=
  if allocated then some .zeroed else none

/-! ## Callbacks -/

/-- What a callback leaves behind. `ret` is `none` for the callback that returns `void`. -/
structure CbResult where
  sock : Socket
  ret : Option ErrT
  calls : List PcbCall := []
  accesses : List Access := []
  pbufFree : Bool := false

/-- Success and failure are recorded alike; `status` only selects the message. -/
def tcpResult (sock : Socket) (_status : ErrT) : Socket × ErrT :=
  ({ sock with complete := true }, 0)

def lwipCbClientSent (sock : Socket) (len : UInt16) : CbResult :=
  let sock := { sock with sentLen := toInt (sock.sentLen + len.toNat) }
  if (bufSize : Int) ≤ sock.sentLen then
    let sock := { sock with runCount := toInt (sock.runCount + 1) }
    if testIterations ≤ sock.runCount then
      { sock := (tcpResult sock 0).1, ret := some errOk }
    else
      { sock := { sock with bufferLen := 0, sentLen := 0 }, ret := some errOk }
  else
    { sock, ret := some errOk }

def lwipCbClientConnected (sock : Socket) (err : ErrT) : CbResult :=
  if err ≠ errOk then
    let (sock, ret) := tcpResult sock err
    { sock, ret := some ret }
  else
    { sock := { sock with connected := true }, ret := some errOk }

def lwipCbClientPoll (sock : Socket) : CbResult :=
  let (sock, ret) := tcpResult sock 0
  { sock, ret := some ret }

def lwipCbClientErr (sock : Socket) (err : ErrT) : CbResult :=
  if err ≠ errAbrt then
    { sock := (tcpResult sock err).1, ret := none }
  else
    { sock, ret := none }

/-- The `uint16_t` local `buffer_left` of `lwip_cb_client_recv`. -/
def Socket.bufferLeft (sock : Socket) : Nat := toUShort (bufSize - sock.bufferLen)

def lwipCbClientRecv (sock : Socket) (tpcb : Pcb) (p : Option Pbuf) : CbResult :=
  match p with
  | none => { sock, ret := some errOk }
  | some p =>
    if 0 < p.totLen then
      let bufferLeft := sock.bufferLeft
      let copied :=
        pbufCopyPartial p (if bufferLeft < p.totLen then bufferLeft else p.totLen) 0
      { sock := { sock with
          buffer := copyIn sock.buffer sock.bufferLen copied
          bufferLen := toInt (sock.bufferLen + copied.length) }
        ret := some errOk
        calls := [⟨.tcpRecved p.totLen, some tpcb⟩]
        accesses := copyStores sock.bufferLen copied.length
        pbufFree := true }
    else
      { sock, ret := some errOk, pbufFree := true }

/-- The callbacks `wolf_TCPconnect` registers, with their arguments. -/
inductive Callback
  | recv (p : Option Pbuf)
  | sent (len : UInt16)
  | connected (code : ErrT)
  | poll
  | err (code : ErrT)

/-- lwIP runs a callback on behalf of the pcb `tpcb`, whose callback argument is the socket. -/
def Callback.run (c : Callback) (sock : Socket) (tpcb : Pcb) : CbResult :=
  match c with
  | .recv p => lwipCbClientRecv sock tpcb p
  | .sent len => lwipCbClientSent sock len
  | .connected code => lwipCbClientConnected sock code
  | .poll => lwipCbClientPoll sock
  | .err code => lwipCbClientErr sock code

/-! ## Writing -/

/-- A block of readable memory and its length, an `unsigned long`. -/
structure CBuffer where
  bytes : List UInt8
  length_lt : bytes.length < 2 ^ 32

def CBuffer.len (b : CBuffer) : Nat := b.bytes.length

/-- The bytes `tcp_write` queues. Its length parameter is a `u16_t`; any answer other than
`ERR_OK` means that nothing is queued. -/
def tcpWriteQueued (buff : CBuffer) (answer : ErrT) : List UInt8 :=
  if answer = errOk then buff.bytes.take (toUShort buff.len) else []

structure WriteResult where
  sock : Socket
  ret : Int
  calls : List PcbCall
  queued : List UInt8

/-- `answer` is what `tcp_write` returns. -/
def wolfTCPwrite (sock : Socket) (buff : CBuffer) (answer : ErrT) : WriteResult :=
  let sock := { sock with sentLen := 0 }
  let ret := answer
  let write : PcbCall := ⟨.tcpWrite (toUShort buff.len) answer, sock.tcpPcb⟩
  { sock := { sock with sentLen := 0 }
    ret := toInt buff.len
    calls := write :: if ret = errOk then [⟨.tcpOutput, sock.tcpPcb⟩] else []
    queued := tcpWriteQueued buff answer }

/-! ## Reading -/

structure ReadResult where
  sock : Socket
  /-- The memory at the caller's `buff` afterwards. -/
  buff : Int → UInt8
  ret : Int
  /-- Accesses to `sock->buffer`. -/
  accesses : List Access
  /-- Accesses to the memory at `buff`. -/
  buffAccesses : List Access

/-- The local `recv_len`: `len` and `buffer_len` are compared as `unsigned long`. -/
def Socket.recvLen (sock : Socket) (len : UInt32) : Int :=
  toInt (if len.toNat ≤ toULong sock.bufferLen then len.toNat else toULong sock.bufferLen)

/-- The body of `wolf_TCPread` once `buffer_len > 0`. -/
def readBuffered (sock : Socket) (buff : Int → UInt8) (len : UInt32) : ReadResult :=
  let recvLen := sock.recvLen len
  let size := toULong recvLen
  let buff := copyIn buff 0 (slice sock.buffer size)
  if len.toNat ≤ toULong recvLen then
    let remained := toInt (sock.bufferLen - recvLen)
    let (buffer, log) := shiftDown sock.buffer recvLen remained.toNat
    { sock := { sock with bufferLen := remained, buffer }
      buff
      ret := recvLen
      accesses := copyLoads 0 size ++ log
      buffAccesses := copyStores 0 size }
  else
    { sock := { sock with bufferLen := 0 }
      buff
      ret := recvLen
      accesses := copyLoads 0 size
      buffAccesses := copyStores 0 size }

/-! ## Connecting and closing -/

/-- The fields of a `struct sockaddr_in` that are read. -/
structure SockaddrIn where
  sinAddr : UInt32
  sinPort : UInt16

/-- The target is little-endian: `p[0]` is the low byte of `a`. -/
def swapBytes (a : UInt16) : UInt32 := (a &&& 0xff).toUInt32 <<< 8 ||| (a >>> 8).toUInt32

/-- The calls `wolf_TCPconnect` makes on a new pcb, up to `tcp_connect` and its answer. -/
def connectCalls (addr : SockaddrIn) (pcb : Option Pcb) (answer : ErrT) : List PcbCall :=
  [⟨.tcpArg true, pcb⟩,
   ⟨.tcpPoll true (pollTimeS * 2), pcb⟩,
   ⟨.tcpSent true, pcb⟩,
   ⟨.tcpRecv true, pcb⟩,
   ⟨.tcpErr true, pcb⟩,
   ⟨.tcpConnect addr.sinAddr (swapBytes addr.sinPort).toUInt16 answer, pcb⟩]

structure CloseResult where
  ret : Int
  calls : List PcbCall

/-- `answer` is what `tcp_close` returns. The socket itself is freed in every case. -/
def wolfTCPclose (sock : Socket) (answer : ErrT) : CloseResult :=
  match sock.tcpPcb with
  | none => { ret := errOk.toInt, calls := [] }
  | some _ =>
    let deregister : List PcbCall :=
      [⟨.tcpArg false, sock.tcpPcb⟩,
       ⟨.tcpPoll false 0, sock.tcpPcb⟩,
       ⟨.tcpSent false, sock.tcpPcb⟩,
       ⟨.tcpRecv false, sock.tcpPcb⟩,
       ⟨.tcpErr false, sock.tcpPcb⟩]
    let close : PcbCall := ⟨.tcpClose answer, sock.tcpPcb⟩
    if answer ≠ errOk then
      { ret := errAbrt.toInt, calls := deregister ++ [close, ⟨.tcpAbort, sock.tcpPcb⟩] }
    else
      { ret := answer.toInt, calls := deregister ++ [close] }

end PicoHybridCrypto
