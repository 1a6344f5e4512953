import PicoHybridCrypto.Tcp.BufferBound

/-! # What the behaviour of a socket depends on

Two parts of a socket have no influence: the cells of the buffer behind the unread bytes, where
data of an earlier connection may still be, and the flag `complete`, which is set in many places
and tested in none. Every function of `tcp.c` acts on the rest (`Socket.visible`), and two systems
that agree on it do the same for ever (`hidden_state_silent`). -/

set_option autoImplicit true

namespace PicoHybridCrypto
open Cells

/-- The part of a socket that its behaviour depends on. -/
structure Visible where
  tcpPcb : Option Pcb
  unread : List UInt8
  sentLen : Int
  runCount : Int
  connected : Bool

def Socket.visible (sock : Socket) : Visible where
  tcpPcb := sock.tcpPcb
  unread := sock.unread
  sentLen := sock.sentLen
  runCount := sock.runCount
  connected := sock.connected

namespace Visible

def recv (v : Visible) : Option Pbuf → Visible
  | none => v
  | some p => { v with unread := v.unread ++ p.payload.take (bufSize - v.unread.length) }

def sent (v : Visible) (len : UInt16) : Visible :=
  let sentLen := toInt (v.sentLen + len.toNat)
  let runCount := toInt (v.runCount + 1)
  if (bufSize : Int) ≤ sentLen then
    if testIterations ≤ runCount then { v with sentLen, runCount }
    else { v with unread := [], sentLen := 0, runCount }
  else { v with sentLen }

def run (v : Visible) : Callback → Visible
  | .recv p => v.recv p
  | .sent len => v.sent len
  | .connected code => { v with connected := v.connected || code = errOk }
  | .poll | .err _ => v

def read (v : Visible) (len : UInt32) : Visible := { v with unread := v.unread.drop len.toNat }

end Visible

/-! ## The functions of `tcp.c` -/

/-- The lwIP calls of a callback do not depend on the socket. -/
theorem Callback.run_calls (c : Callback) (sock sock' : Socket) (tpcb : Pcb) :
    (c.run sock tpcb).calls = (c.run sock' tpcb).calls := by
  by_cases hc : c.Quiet
  · rw [(hc.run sock tpcb).2.2, (hc.run sock' tpcb).2.2]
  · cases c with
    | recv p =>
      cases p with
      | none => exact (hc rfl).elim
      | some p =>
        rw [Callback.run, Callback.run, lwipCbClientRecv_calls, lwipCbClientRecv_calls]
    | sent len =>
      rw [Callback.run, Callback.run, lwipCbClientSent_calls, lwipCbClientSent_calls]
    | _ => exact (hc trivial).elim

namespace Socket

variable {sock : Socket}

theorem visible_recv (H : sock.WF) (tpcb : Pcb) (p : Option Pbuf) :
    (lwipCbClientRecv sock tpcb p).sock.visible = sock.visible.recv p := by
  cases p with
  | none => rfl
  | some p =>
    have hunread := lwipCbClientRecv_unread H tpcb p
    by_cases hp : 0 < p.totLen
    · rw [lwipCbClientRecv_some H tpcb hp] at hunread ⊢
      simp only [visible, Visible.recv, ← hunread]
    · rw [lwipCbClientRecv_empty sock tpcb hp] at hunread ⊢
      simp only [visible, Visible.recv, ← hunread]

theorem visible_sent (sock : Socket) (len : UInt16) :
    (lwipCbClientSent sock len).sock.visible = sock.visible.sent len := by
  by_cases hfull : (bufSize : Int) ≤ toInt (sock.sentLen + len.toNat)
  · by_cases hdone : testIterations ≤ toInt (sock.runCount + 1)
    · have hc : ¬sock.Clears len := fun h => absurd h.2 (not_lt.mpr hdone)
      rw [lwipCbClientSent_completes hfull hc]
      exact ((if_pos hfull).trans (if_pos hdone)).symm
    · rw [lwipCbClientSent_clears ⟨hfull, not_le.mp hdone⟩]
      exact ((if_pos hfull).trans (if_neg hdone)).symm
  · rw [lwipCbClientSent_counts hfull]
    exact (if_neg hfull).symm

theorem visible_run (H : sock.WF) (c : Callback) (tpcb : Pcb) :
    (c.run sock tpcb).sock.visible = sock.visible.run c := by
  cases c with
  | recv p => exact visible_recv H tpcb p
  | sent len => exact visible_sent sock len
  | connected code =>
    by_cases hcode : code = errOk
    · simp [Callback.run, lwipCbClientConnected, Visible.run, visible, hcode, Socket.unread]
    · simp [Callback.run, lwipCbClientConnected, tcpResult, Visible.run, visible, hcode,
        Socket.unread]
  | poll => rfl
  | err code =>
    simp only [Callback.run, lwipCbClientErr, tcpResult]
    split_ifs <;> rfl

theorem visible_read (H : sock.WF) (buff : Int → UInt8) (len : UInt32) :
    (readBuffered sock buff len).sock.visible = sock.visible.read len := by
  have hunread := readBuffered_unread H buff len
  have hrest : (readBuffered sock buff len).sock.tcpPcb = sock.tcpPcb ∧
      (readBuffered sock buff len).sock.sentLen = sock.sentLen ∧
      (readBuffered sock buff len).sock.runCount = sock.runCount ∧
      (readBuffered sock buff len).sock.connected = sock.connected := by
    simp only [readBuffered]
    split_ifs <;> exact ⟨rfl, rfl, rfl, rfl⟩
  obtain ⟨hpcb, hsent, hcount, hconnected⟩ := hrest
  simp only [visible, Visible.read, hunread, hpcb, hsent, hcount, hconnected]

end Socket

/-! ## Lock step -/

namespace Sys

/-- The two systems agree on everything but the hidden part of their sockets. -/
structure SameView (s s' : Sys) : Prop where
  wf : s.sock.WF
  wf' : s'.sock.WF
  visible : s.sock.visible = s'.sock.visible
  lwip : s.lwip = s'.lwip
  control : s.control = s'.control

namespace SameView

variable {s s' : Sys}

theorem unread (H : s.SameView s') : s.sock.unread = s'.sock.unread :=
  congrArg Visible.unread H.visible

theorem bufferLen_pos_iff (H : s.SameView s') : 0 < s.sock.bufferLen ↔ 0 < s'.sock.bufferLen := by
  rw [H.wf.bufferLen_pos_iff, H.wf'.bufferLen_pos_iff, H.unread]

theorem tcpPcb (H : s.SameView s') : s.sock.tcpPcb = s'.sock.tcpPcb :=
  congrArg Visible.tcpPcb H.visible

theorem connected (H : s.SameView s') : s.sock.connected = s'.sock.connected :=
  congrArg Visible.connected H.visible

theorem with_control (H : s.SameView s') (control : Control) :
    SameView { s with control } { s' with control } := ⟨H.wf, H.wf', H.visible, H.lwip, rfl⟩

theorem connect (H : s.SameView s') (addr : SockaddrIn) (newPcb : Option Pcb) (answer : ErrT) :
    (s.wolfTCPconnect addr newPcb answer).1 = (s'.wolfTCPconnect addr newPcb answer).1 ∧
      (s.wolfTCPconnect addr newPcb answer).2.SameView
        (s'.wolfTCPconnect addr newPcb answer).2 := by
  have hv := H.visible
  simp only [Socket.visible, Visible.mk.injEq] at hv
  cases newPcb with
  | none =>
    refine ⟨rfl, ⟨H.wf.nonneg, H.wf.le_bufSize⟩, ⟨H.wf'.nonneg, H.wf'.le_bufSize⟩, ?_, H.lwip, rfl⟩
    show Visible.mk none s.sock.unread s.sock.sentLen s.sock.runCount s.sock.connected =
      Visible.mk none s'.sock.unread s'.sock.sentLen s'.sock.runCount s'.sock.connected
    rw [Visible.mk.injEq]
    exact ⟨rfl, hv.2⟩
  | some p =>
    have hzero : (0 : Int) ≤ bufSize := Int.natCast_nonneg bufSize
    refine ⟨rfl, ⟨le_rfl, hzero⟩, ⟨le_rfl, hzero⟩, ?_, ?_, rfl⟩
    · show Visible.mk (some p) [] s.sock.sentLen s.sock.runCount s.sock.connected =
        Visible.mk (some p) [] s'.sock.sentLen s'.sock.runCount s'.sock.connected
      rw [Visible.mk.injEq]
      exact ⟨rfl, rfl, hv.2.2⟩
    · show (s.lwip.alloc p).applyAll _ = (s'.lwip.alloc p).applyAll _
      rw [H.lwip]

theorem write (H : s.SameView s') (buff : CBuffer) (answer : ErrT) :
    (s.wolfTCPwrite buff answer).1 = (s'.wolfTCPwrite buff answer).1 ∧
      (s.wolfTCPwrite buff answer).2.SameView (s'.wolfTCPwrite buff answer).2 := by
  have hv := H.visible
  simp only [Socket.visible, Visible.mk.injEq] at hv
  have hcalls : (s.wolfTCPwrite buff answer).1 = (s'.wolfTCPwrite buff answer).1 := by
    simp only [wolfTCPwrite, PicoHybridCrypto.wolfTCPwrite, H.tcpPcb]
  refine ⟨hcalls, ⟨H.wf.nonneg, H.wf.le_bufSize⟩, ⟨H.wf'.nonneg, H.wf'.le_bufSize⟩, ?_, ?_, rfl⟩
  · show Visible.mk s.sock.tcpPcb s.sock.unread 0 s.sock.runCount s.sock.connected =
      Visible.mk s'.sock.tcpPcb s'.sock.unread 0 s'.sock.runCount s'.sock.connected
    rw [Visible.mk.injEq]
    exact ⟨hv.1, hv.2.1, rfl, hv.2.2.2⟩
  · show s.lwip.applyAll (s.wolfTCPwrite buff answer).1 =
      s'.lwip.applyAll (s'.wolfTCPwrite buff answer).1
    rw [H.lwip, hcalls]

theorem callback (H : s.SameView s') (tpcb : Pcb) (c : Callback) :
    (s.callback tpcb c).1 = (s'.callback tpcb c).1 ∧
      (s.callback tpcb c).2.SameView (s'.callback tpcb c).2 := by
  have hcalls := c.run_calls s.sock s'.sock tpcb
  refine ⟨hcalls, Callback.run_WF H.wf c tpcb, Callback.run_WF H.wf' c tpcb, ?_, ?_, H.control⟩
  · show (c.run s.sock tpcb).sock.visible = (c.run s'.sock tpcb).sock.visible
    rw [Socket.visible_run H.wf, Socket.visible_run H.wf', H.visible]
  · simp only [Sys.callback, H.lwip, hcalls]

/-- A read hands out the unread bytes, and waits for the same. -/
theorem tick (H : s.SameView s') : s.tick.SameView s'.tick := by
  obtain ⟨sock, lwip, control⟩ := s
  obtain ⟨sock', lwip', control'⟩ := s'
  obtain rfl : control = control' := H.control
  cases control with
  | connectTestErr err =>
    exact H.with_control (if err ≠ errOk then .connectReturned wolfFail else .connectClear)
  | connectClear =>
    have hv : ({ sock with connected := false } : Socket).visible =
        ({ sock' with connected := false } : Socket).visible := by
      have hv := H.visible
      simp only [Socket.visible, Visible.mk.injEq] at hv ⊢
      exact ⟨hv.1, hv.2.1, hv.2.2.1, hv.2.2.2.1, trivial⟩
    exact ⟨⟨H.wf.nonneg, H.wf.le_bufSize⟩, ⟨H.wf'.nonneg, H.wf'.le_bufSize⟩, hv, H.lwip, rfl⟩
  | connectWait =>
    have hconnected : sock.connected = sock'.connected := H.connected
    simp only [Sys.tick, hconnected]
    exact H.with_control (if sock'.connected then .connectReturned wolfSuccess else .connectWait)
  | readWait buff len =>
    have hpos : 0 < sock.bufferLen ↔ 0 < sock'.bufferLen := H.bufferLen_pos_iff
    by_cases hne : 0 < sock.bufferLen
    · simp only [Sys.tick, if_pos hne, if_pos (hpos.mp hne)]
      refine ⟨readBuffered_WF H.wf buff len, readBuffered_WF H.wf' buff len, ?_, H.lwip, ?_⟩
      · show (readBuffered sock buff len).sock.visible = (readBuffered sock' buff len).sock.visible
        rw [Socket.visible_read H.wf, Socket.visible_read H.wf']
        exact congrArg (·.read len) H.visible
      · have hunread : sock.unread = sock'.unread := H.unread
        rw [readBuffered_ret H.wf, readBuffered_ret H.wf', readBuffered_buff H.wf,
          readBuffered_buff H.wf', hunread]
    · simp only [Sys.tick, if_neg hne, if_neg (mt hpos.mpr hne)]
      exact H
  | _ => exact H

end SameView

theorem machine_sameView : machine.LockStep machine SameView fun _ _ => True := by
  intro s s' l H _
  cases l with
  | connect addr newPcb answer =>
    simp only [machine, ← H.control, ← H.lwip]
    split_ifs
    · exact .some (H.connect addr newPcb answer)
    · exact .none
  | write buff answer =>
    simp only [machine, ← H.control]
    split_ifs
    · exact .some (H.write buff answer)
    · exact .none
  | read buff len =>
    simp only [machine, ← H.control]
    split_ifs
    · exact .some ⟨rfl, H.with_control (.readWait buff len)⟩
    · exact .none
  | event e =>
    cases e with
    | tick => exact .some ⟨rfl, H.tick⟩
    | callback tpcb c => exact .some (H.callback tpcb c)

end Sys

/-- Whatever `complete` says and whatever is in the buffer behind the unread bytes: after the same
labels the same calls are possible, they have made the same calls of lwIP and returned the same
values and bytes, and the same bytes are unread. -/
theorem hidden_state_silent {s s' : Sys} (H : s.SameView s') (ls : List Label) :
    Machine.SameUpTo Sys.SameView (Sys.machine.run s ls) (Sys.machine.run s' ls) :=
  Sys.machine_sameView.run H (Machine.along_of_forall (fun _ _ _ => trivial) s)

/-- A socket like a fresh one, with old data in its buffer. -/
def staleSocket : Socket := { Socket.zeroed with buffer := fun _ => 42, complete := true }

theorem hidden_state_silent_stale :
    Machine.SameUpTo Sys.SameView (Sys.machine.run (.start ⟨fun _ => none⟩) Sys.openLabels)
      (Sys.machine.run ⟨staleSocket, ⟨fun _ => none⟩, .ready⟩ Sys.openLabels) := by
  have H : (Sys.start ⟨fun _ => none⟩).SameView ⟨staleSocket, ⟨fun _ => none⟩, .ready⟩ :=
    ⟨.zeroed, ⟨le_rfl, Int.natCast_nonneg bufSize⟩, rfl, rfl, rfl⟩
  exact hidden_state_silent H Sys.openLabels

end PicoHybridCrypto
