import PicoHybridCrypto.Theory.Machine
import PicoHybridCrypto.Tcp.SocketLemmas

/-! # The socket, its caller and lwIP

The caller makes one call at a time. `wolf_TCPconnect` and `wolf_TCPread` wait for callbacks, so
a call in progress has a program point, and lwIP may run a callback before any statement of the
caller from the release of the lwIP lock on. The statements up to that release run as one step:
no callback of the new pcb can come before `tcp_connect`, and none while the lock is held. -/

set_option autoImplicit true

namespace PicoHybridCrypto
open Cells

/-- Where the caller is. Between two calls this includes what the last one returned. -/
inductive Control
  | ready
  | connectReturned (ret : Int)
  | writeReturned (ret : Int)
  | readReturned (ret : Int) (buff : Int → UInt8)
  /-- `if (err != ERR_OK)` -/
  | connectTestErr (err : ErrT)
  /-- `sock->connected = false;` -/
  | connectClear
  /-- `while (sock->connected != true)` -/
  | connectWait
  /-- `if (sock->buffer_len > 0)`, at the head of the loop of `wolf_TCPread` -/
  | readWait (buff : Int → UInt8) (len : UInt32)

def Control.between : Control → Bool
  | .ready | .connectReturned _ | .writeReturned _ | .readReturned .. => true
  | _ => false

structure Sys where
  sock : Socket
  lwip : Lwip
  control : Control

/-- What happens while a call is in progress: the caller takes its next statement, or lwIP runs
a callback on behalf of a pcb. -/
inductive Event
  | tick
  | callback (tpcb : Pcb) (c : Callback)

/-- `newPcb` is what `tcp_new_ip_type` returns, `answer` what `tcp_connect` or `tcp_write` does. -/
inductive Label
  | connect (addr : SockaddrIn) (newPcb : Option Pcb) (answer : ErrT)
  | write (buff : CBuffer) (answer : ErrT)
  | read (buff : Int → UInt8) (len : UInt32)
  | event (e : Event)

namespace Sys

/-- The socket that a successful `wolf_TCPsocket` returns, with whatever other pcbs there are. -/
def start (l : Lwip) : Sys := ⟨(wolfTCPsocket true).get rfl, l, .ready⟩

@[simp] theorem start_sock (l : Lwip) : (start l).sock = .zeroed := rfl

/-- `wolf_TCPconnect` up to the release of the lwIP lock, or its return without a pcb. -/
def wolfTCPconnect (s : Sys) (addr : SockaddrIn) (newPcb : Option Pcb) (answer : ErrT) :
    List PcbCall × Sys :=
  match newPcb with
  | none =>
    ([], { s with
      sock := { s.sock with tcpPcb := none }
      control := .connectReturned (CInt.ofBool false) })
  | some p =>
    let calls := connectCalls addr (some p) answer
    (calls, {
      sock := { s.sock with tcpPcb := some p, bufferLen := 0 }
      lwip := (s.lwip.alloc p).applyAll calls
      control := .connectTestErr answer })

def wolfTCPwrite (s : Sys) (buff : CBuffer) (answer : ErrT) : List PcbCall × Sys :=
  let r := PicoHybridCrypto.wolfTCPwrite s.sock buff answer
  (r.calls, {
    sock := r.sock
    lwip := s.lwip.applyAll r.calls
    control := .writeReturned r.ret })

def wolfTCPread (s : Sys) (buff : Int → UInt8) (len : UInt32) : Sys :=
  { s with control := .readWait buff len }

/-- The next statement of the call in progress. A loop whose test fails polls and comes back to
its test; what the poll lets in are the callbacks before the next tick. -/
def tick (s : Sys) : Sys :=
  match s.control with
  | .connectTestErr err =>
    { s with control := if err ≠ errOk then .connectReturned wolfFail else .connectClear }
  | .connectClear =>
    { s with sock := { s.sock with connected := false }, control := .connectWait }
  | .connectWait =>
    { s with control := if s.sock.connected then .connectReturned wolfSuccess else .connectWait }
  | .readWait buff len =>
    if 0 < s.sock.bufferLen then
      let r := readBuffered s.sock buff len
      { s with sock := r.sock, control := .readReturned r.ret r.buff }
    else s
  | _ => s

/-- lwIP frees a pcb before it runs the err callback for it. -/
def callback (s : Sys) (tpcb : Pcb) (c : Callback) : List PcbCall × Sys :=
  let lwip := match c with
    | .err _ => s.lwip.free tpcb
    | _ => s.lwip
  let r := c.run s.sock tpcb
  (r.calls, { s with sock := r.sock, lwip := lwip.applyAll r.calls })

def event (s : Sys) : Event → List PcbCall × Sys
  | .tick => ([], s.tick)
  | .callback tpcb c => s.callback tpcb c

/-- A call starts only when none is in progress, and `tcp_new_ip_type` only returns a pcb that
is not in use. Each step emits the lwIP calls it makes. -/
def machine : Machine Sys Label PcbCall where
  step s
    | .connect addr newPcb answer =>
      if s.control.between ∧ newPcb.all fun p => (s.lwip.pcbs p).isNone then
        some (s.wolfTCPconnect addr newPcb answer)
      else none
    | .write buff answer => if s.control.between then some (s.wolfTCPwrite buff answer) else none
    | .read buff len => if s.control.between then some ([], s.wolfTCPread buff len) else none
    | .event e => some (s.event e)

def after (s : Sys) (es : List Event) : Sys := es.foldl (fun s e => (s.event e).2) s

@[simp] theorem after_nil (s : Sys) : s.after [] = s := rfl

@[simp] theorem after_cons (s : Sys) (e : Event) (es : List Event) :
    s.after (e :: es) = (s.event e).2.after es := rfl

theorem after_append (s : Sys) (es fs : List Event) :
    s.after (es ++ fs) = (s.after es).after fs := List.foldl_append

/-- What every event preserves holds after any list of events. `L` restricts the events. -/
theorem after_inv {P : Sys → Prop} {L : Event → Prop}
    (hstep : ∀ {s e}, L e → P s → P (s.event e).2) {es : List Event} (hL : ∀ e ∈ es, L e)
    {s : Sys} (hs : P s) : P (s.after es) := by
  induction es generalizing s with
  | nil => exact hs
  | cons e es ih => exact ih (fun f hf => hL f (.tail _ hf)) (hstep (hL e (.head _)) hs)

/-- Between two calls the caller does not move. -/
theorem control_after_of_between {s : Sys} (h : s.control.between) (es : List Event) :
    (s.after es).control = s.control := by
  induction es generalizing s with
  | nil => rfl
  | cons e es ih =>
    have hc : (s.event e).2.control = s.control := by
      cases e with
      | callback tpcb c => rfl
      | tick =>
        show s.tick.control = s.control
        unfold tick
        split <;> simp_all [Control.between]
    rw [after_cons, ih (hc ▸ h), hc]

/-- What a statement of the caller can do to the socket; it leaves lwIP alone. -/
theorem tick_cases (s : Sys) :
    s.tick.lwip = s.lwip ∧
      (s.tick.sock = s.sock ∨ s.tick.sock = { s.sock with connected := false } ∨
        ∃ buff len, s.tick.sock = (readBuffered s.sock buff len).sock) := by
  unfold tick
  split
  · exact ⟨rfl, .inl rfl⟩
  · exact ⟨rfl, .inr (.inl rfl)⟩
  · exact ⟨rfl, .inl rfl⟩
  · split_ifs
    · exact ⟨rfl, .inr (.inr ⟨_, _, rfl⟩)⟩
    · exact ⟨rfl, .inl rfl⟩
  · exact ⟨rfl, .inl rfl⟩

theorem event_tcpPcb (s : Sys) (e : Event) : (s.event e).2.sock.tcpPcb = s.sock.tcpPcb := by
  cases e with
  | callback tpcb c => exact Callback.run_tcpPcb c s.sock tpcb
  | tick =>
    show s.tick.sock.tcpPcb = s.sock.tcpPcb
    rcases s.tick_cases.2 with h | h | ⟨buff, len, h⟩ <;> rw [h]
    rw [readBuffered_tcpPcb]

@[simp] theorem after_tcpPcb (s : Sys) (es : List Event) :
    (s.after es).sock.tcpPcb = s.sock.tcpPcb := by
  induction es generalizing s with
  | nil => rfl
  | cons e es ih => exact (ih _).trans (s.event_tcpPcb e)

theorem run_events (s : Sys) (es : List Event) :
    ∃ calls, machine.run s (es.map .event) = some (calls, s.after es) := by
  induction es generalizing s with
  | nil => exact ⟨[], rfl⟩
  | cons e es ih =>
    obtain ⟨calls, h⟩ := ih (s.event e).2
    have hstep : machine.step s (.event e) = some ((s.event e).1, (s.event e).2) := rfl
    exact ⟨_, Machine.run_cons hstep h⟩

/-! ## A connection that comes up -/

/-- A fresh socket connects; its pcb is 1, and the peer answers during the first poll. -/
def openLabels : List Label :=
  [.connect ⟨0, 0⟩ (some 1) errOk, .event .tick, .event .tick, .event .tick,
   .event (.callback 1 (.connected errOk)), .event .tick]

def openCalls : List PcbCall := connectCalls ⟨0, 0⟩ (some 1) errOk

def opened : Sys :=
  ((start ⟨fun _ => none⟩).wolfTCPconnect ⟨0, 0⟩ (some 1) errOk).2.after
    [.tick, .tick, .tick, .callback 1 (.connected errOk), .tick]

theorem run_openLabels :
    machine.run (start ⟨fun _ => none⟩) openLabels = some (openCalls, opened) := rfl

/-! ## What a step can be -/

theorem step_cases {s t : Sys} {l : Label} {calls : List PcbCall}
    (h : machine.step s l = some (calls, t)) :
    (∃ addr newPcb answer, l = .connect addr newPcb answer ∧
      s.control.between ∧ (∀ p ∈ newPcb, s.lwip.pcbs p = none) ∧
      s.wolfTCPconnect addr newPcb answer = (calls, t)) ∨
    (∃ buff answer, l = .write buff answer ∧ s.control.between ∧
      s.wolfTCPwrite buff answer = (calls, t)) ∨
    (∃ buff len, l = .read buff len ∧ s.control.between ∧
      calls = [] ∧ s.wolfTCPread buff len = t) ∨
    ∃ e, l = .event e ∧ s.event e = (calls, t) := by
  cases l with
  | connect addr newPcb answer =>
    obtain ⟨⟨hb, hnew⟩, ht⟩ := Option.ite_none_right_eq_some.mp h
    refine .inl ⟨addr, newPcb, answer, rfl, hb, ?_, Option.some.inj ht⟩
    simpa [Option.all_eq_true] using hnew
  | write buff answer =>
    obtain ⟨hb, ht⟩ := Option.ite_none_right_eq_some.mp h
    exact .inr (.inl ⟨buff, answer, rfl, hb, Option.some.inj ht⟩)
  | read buff len =>
    obtain ⟨hb, ht⟩ := Option.ite_none_right_eq_some.mp h
    obtain ⟨hcalls, ht⟩ := Prod.mk.inj (Option.some.inj ht)
    exact .inr (.inr (.inl ⟨buff, len, rfl, hb, hcalls.symm, ht⟩))
  | event e => exact .inr (.inr (.inr ⟨e, rfl, Option.some.inj h⟩))

end Sys

end PicoHybridCrypto
