import PicoHybridCrypto.Theory.Machine
import PicoHybridCrypto.Theory.TailDrop
import PicoHybridCrypto.Tcp.SocketLemmas

/-! # The receive side of a socket is a tail-drop queue

`Socket.machine` runs the calls on one socket that return at once, in any order.
`Queue.machine` is what its receive side is for: a queue of at most `BUF_SIZE` bytes. The two
run in lock step as long as no acknowledgement empties a buffer that holds unread bytes
(`Socket.machine_lockStep`). -/

set_option autoImplicit true

namespace PicoHybridCrypto
open Cells

/-- The calls on one socket: a callback on behalf of a pcb, a write with lwIP's answer to it, or
a read into the memory at `buff`. -/
inductive Op
  | callback (tpcb : Pcb) (c : Callback)
  | write (buff : CBuffer) (answer : ErrT)
  | read (buff : Int → UInt8) (len : UInt32)

/-- What an observer sees: bytes credited to lwIP by `tcp_recved`, what a write returned for
which bytes and what lwIP queued of them, and what a read returned with the memory at `buff`. -/
inductive Obs
  | credited (bytes : List UInt8)
  | wrote (ret : Int) (buff queued : List UInt8)
  | returned (ret : Int) (buff : Int → UInt8)

def Callback.payload : Callback → List UInt8
  | .recv (some p) => p.payload
  | _ => []

def PcbCall.obs (payload : List UInt8) (c : PcbCall) : Option Obs :=
  match c.fn with
  | .tcpRecved n => some (.credited (payload.take n))
  | _ => none

/-- A read is a step only while `buffer_len > 0`; otherwise it waits. -/
def Socket.machine : Machine Socket Op Obs where
  step sock
    | .callback tpcb c =>
      let r := c.run sock tpcb
      some (r.calls.filterMap (·.obs c.payload), r.sock)
    | .write buff answer =>
      let r := wolfTCPwrite sock buff answer
      some ([.wrote r.ret buff.bytes r.queued], r.sock)
    | .read buff len =>
      if 0 < sock.bufferLen then
        let r := readBuffered sock buff len
        some ([.returned r.ret r.buff], r.sock)
      else none

theorem Socket.step_write (sock : Socket) (buff : CBuffer) (answer : ErrT) :
    Socket.machine.step sock (.write buff answer) =
      some ([.wrote (toInt buff.len) buff.bytes (tcpWriteQueued buff answer)],
        (wolfTCPwrite sock buff answer).sock) := by
  simp only [Socket.machine, wolfTCPwrite]

theorem Socket.step_recv (sock : Socket) (tpcb : Pcb) (p : Pbuf) :
    Socket.machine.step sock (.callback tpcb (.recv (some p))) =
      some (if 0 < p.totLen then [.credited p.payload] else [],
        (lwipCbClientRecv sock tpcb (some p)).sock) := by
  show some ((lwipCbClientRecv sock tpcb (some p)).calls.filterMap _, _) = _
  rw [lwipCbClientRecv_calls]
  split_ifs
  · simp [PcbCall.obs, Callback.payload, Pbuf.totLen, Callback.run]
  · rfl

theorem Socket.step_sent (sock : Socket) (tpcb : Pcb) (len : UInt16) :
    Socket.machine.step sock (.callback tpcb (.sent len)) =
      some ([], (lwipCbClientSent sock len).sock) := by
  show some ((lwipCbClientSent sock len).calls.filterMap _, _) = _
  rw [lwipCbClientSent_calls]
  rfl

theorem Socket.step_quiet {c : Callback} (hc : c.Quiet) (sock : Socket) (tpcb : Pcb) :
    Socket.machine.step sock (.callback tpcb c) = some ([], (c.run sock tpcb).sock) := by
  show some ((c.run sock tpcb).calls.filterMap _, _) = _
  rw [(hc.run sock tpcb).2.2]
  rfl

/-- The specification of the receive side. A pbuf is credited in full and pushed as far as it
fits; a read takes up to `len` bytes out and puts them at the start of the caller's memory;
nothing else touches the queue. -/
def Queue.machine : Machine (TailDrop UInt8 bufSize) Op Obs where
  step q
    | .callback _ (.recv (some p)) =>
      some (if 0 < p.totLen then [.credited p.payload] else [], q.push p.payload)
    | .callback _ _ => some ([], q)
    | .write buff answer =>
      some ([.wrote (toInt buff.len) buff.bytes (tcpWriteQueued buff answer)], q)
    | .read buff len =>
      if 0 < q.items.length then
        let bytes := q.front len.toNat
        some ([.returned bytes.length (copyIn buff 0 bytes)], q.pop len.toNat)
      else none

/-- The buffer bound holds and the unread bytes are those of the queue. -/
structure Socket.Holds (sock : Socket) (q : TailDrop UInt8 bufSize) : Prop where
  wf : sock.WF
  unread : sock.unread = q.items

/-- The call does not throw unread bytes away: it is not an acknowledgement that empties the
buffer while there are some. -/
def Socket.Keeps (sock : Socket) : Op → Prop
  | .callback _ (.sent len) => sock.Clears len → sock.unread = []
  | _ => True

theorem Socket.Holds.zeroed : zeroed.Holds .empty := ⟨.zeroed, rfl⟩

theorem Socket.WF.exists_holds {sock : Socket} (H : sock.WF) : ∃ q, sock.Holds q :=
  ⟨⟨sock.unread, H.length_unread_le⟩, H, rfl⟩

/-! ## Lock step -/

section
variable {sock : Socket} {q : TailDrop UInt8 bufSize}

theorem Socket.Holds.bufferLen_pos (H : sock.Holds q) :
    0 < sock.bufferLen ↔ 0 < q.items.length := by
  rw [← H.unread, ← H.wf.length_unread]
  omega

theorem Socket.Holds.recv (H : sock.Holds q) (tpcb : Pcb) (p : Pbuf) :
    (lwipCbClientRecv sock tpcb (some p)).sock.Holds (q.push p.payload) where
  wf := lwipCbClientRecv_WF H.wf tpcb (some p)
  unread := by rw [lwipCbClientRecv_unread H.wf, H.unread]; rfl

theorem Socket.Holds.quiet (H : sock.Holds q) {c : Callback} (hc : c.Quiet) (tpcb : Pcb) :
    (c.run sock tpcb).sock.Holds q where
  wf := hc.WF H.wf tpcb
  unread := by rw [hc.unread, H.unread]

theorem Socket.Holds.sent (H : sock.Holds q) {len : UInt16}
    (hkeep : sock.Clears len → sock.unread = []) : (lwipCbClientSent sock len).sock.Holds q where
  wf := Callback.run_WF H.wf (.sent len) 0
  unread := by
    rw [lwipCbClientSent_unread, ← H.unread]
    split_ifs with h
    · exact (hkeep h).symm
    · rfl

theorem Socket.Holds.read (H : sock.Holds q) (buff : Int → UInt8) (len : UInt32) :
    (readBuffered sock buff len).sock.Holds (q.pop len.toNat) where
  wf := readBuffered_WF H.wf buff len
  unread := by rw [readBuffered_unread H.wf, H.unread]; rfl

end

theorem Socket.machine_lockStep : Socket.machine.LockStep Queue.machine Holds Keeps := by
  intro sock q op H hkeep
  have quiet (c : Callback) (hc : c.Quiet) (tpcb : Pcb)
      (hq : Queue.machine.step q (.callback tpcb c) = some ([], q)) :
      Machine.SameUpTo Holds (Socket.machine.step sock (.callback tpcb c))
        (Queue.machine.step q (.callback tpcb c)) := by
    rw [Socket.step_quiet hc, hq]
    exact .some ⟨rfl, H.quiet hc tpcb⟩
  cases op with
  | callback tpcb c =>
    cases c with
    | recv p =>
      cases p with
      | none => exact quiet (.recv none) rfl tpcb rfl
      | some p =>
        rw [Socket.step_recv]
        exact .some ⟨rfl, H.recv tpcb p⟩
    | sent len =>
      rw [Socket.step_sent]
      exact .some ⟨rfl, H.sent hkeep⟩
    | connected code => exact quiet (.connected code) trivial tpcb rfl
    | poll => exact quiet .poll trivial tpcb rfl
    | err code => exact quiet (.err code) trivial tpcb rfl
  | write buff answer =>
    rw [Socket.step_write]
    exact .some ⟨rfl, ⟨⟨H.wf.nonneg, H.wf.le_bufSize⟩, H.unread⟩⟩
  | read buff len =>
    simp only [Socket.machine, Queue.machine, H.bufferLen_pos]
    split_ifs
    · refine .some ⟨?_, H.read buff len⟩
      rw [readBuffered_ret H.wf, readBuffered_buff H.wf, H.unread, TailDrop.front,
        List.length_take]
    · exact .none

def Op.ReceiveSide : Op → Prop
  | .callback _ (.sent _) | .write .. => False
  | _ => True

theorem Socket.keeps_of_receiveSide {op : Op} (h : op.ReceiveSide) (sock : Socket) :
    sock.Keeps op := by
  rcases op with ⟨tpcb, c⟩ | _ | _
  · cases c with
    | sent => exact h.elim
    | _ => trivial
  · trivial
  · trivial

/-- From a fresh socket, every interleaving of the receive callback, the connected, poll and err
callbacks and reads behaves as the bounded tail-drop queue: the same calls are possible, they
make the same observations, and the unread bytes stay those of the queue. -/
theorem receive_refines_tailDrop (ops : List Op) (hops : ∀ op ∈ ops, op.ReceiveSide) :
    Machine.SameUpTo Socket.Holds (Socket.machine.run .zeroed ops)
      (Queue.machine.run .empty ops) :=
  Socket.machine_lockStep.run .zeroed
    (Machine.along_of_forall (fun _ op hop => Socket.keeps_of_receiveSide (hops op hop) _) _)

theorem receive_refines_tailDrop_echo :
    let ops : List Op :=
      [.callback 1 (.recv (some ⟨[7, 8], by decide⟩)), .read (fun _ => 0) 1, .callback 1 .poll]
    Machine.SameUpTo Socket.Holds (Socket.machine.run .zeroed ops)
      (Queue.machine.run .empty ops) :=
  receive_refines_tailDrop _ (by simp [Op.ReceiveSide])

end PicoHybridCrypto
