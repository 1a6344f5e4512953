import PicoHybridCrypto.Theory.LossyQueue
import PicoHybridCrypto.Tcp.BufferBound
import PicoHybridCrypto.Tcp.ReceiveStream

/-! # The received stream of the whole system

Connects, writes, reads and callbacks in any order: on the receive side each step of the system is
one operation of a lossy queue (`Sys.streams_step`). So the application reads the received stream
with some bytes left out, in order, and every byte left out is one that the step discarded
(`received_stream_accounted`). -/

set_option autoImplicit true

namespace PicoHybridCrypto
open Cells TailDrop

namespace Sys

/-- What an observer sees of the receive side in the step from `s` to `t`: the bytes credited by a
callback, and what a read returns. -/
def observed (s : Sys) (l : Label) (calls : List PcbCall) (t : Sys) : List Obs :=
  match l with
  | .event (.callback _ c) => calls.filterMap (·.obs c.payload)
  | .event .tick =>
    match s.control, t.control with
    | .readWait .., .readReturned ret buff => [.returned ret buff]
    | _, _ => []
  | _ => []

/-- The system, emitting what an observer of the receive side sees. -/
def streams : Machine Sys Label Obs := machine.emit observed

/-- What a step does to the unread bytes. A connect that is given a pcb empties the buffer, and so
do some acknowledgements. -/
def effect (s : Sys) : Label → TailDrop.Op UInt8
  | .connect _ (some _) _ => .clear
  | .event (.callback _ (.recv (some p))) => .push p.payload
  | .event (.callback _ (.sent len)) => if s.sock.Clears len then .clear else .skip
  | .event .tick =>
    match s.control with
    | .readWait _ len => if 0 < s.sock.bufferLen then .pop len.toNat else .skip
    | _ => .skip
  | _ => .skip

/-- How many bytes a step throws away. -/
def discarded (s : Sys) : Label → Nat
  | .connect _ (some _) _ => s.sock.unread.length
  | .event (.callback _ (.recv (some p))) => p.totLen - (bufSize - s.sock.unread.length)
  | .event (.callback _ (.sent len)) => if s.sock.Clears len then s.sock.unread.length else 0
  | _ => 0

end Sys

/-! ## One step -/

section
variable {sock sock' : Socket} {q : TailDrop UInt8 bufSize}

/-- The queue is in `buffer` and `buffer_len`. -/
theorem Socket.Holds.congr (H : sock.Holds q) (hb : sock'.buffer = sock.buffer)
    (hl : sock'.bufferLen = sock.bufferLen) : sock'.Holds q where
  wf := ⟨hl ▸ H.wf.nonneg, hl ▸ H.wf.le_bufSize⟩
  unread := by rw [Socket.unread, hb, hl, ← Socket.unread, H.unread]

theorem Socket.holds_empty (h : sock.bufferLen = 0) : sock.Holds .empty where
  wf := ⟨h.ge, h ▸ Int.natCast_nonneg bufSize⟩
  unread := by rw [Socket.unread, h]; rfl

theorem Socket.Holds.sent_apply (H : sock.Holds q) (len : UInt16) :
    (lwipCbClientSent sock len).sock.Holds
      (q.apply (if sock.Clears len then .clear else .skip)) := by
  by_cases hc : sock.Clears len
  · rw [if_pos hc]
    refine Socket.holds_empty ?_
    rw [lwipCbClientSent_bufferLen, if_pos hc]
  · rw [if_neg hc]
    exact H.sent fun h => (hc h).elim

end

namespace Sys

/-- The operation `op` of the queue explains a step with the observations `out`. -/
structure Explains (q : TailDrop UInt8 bufSize) (op : TailDrop.Op UInt8) (out : List Obs)
    (t : Sys) : Prop where
  holds : t.sock.Holds (q.apply op)
  returned : returnedBytes out = q.taken op
  credited : creditedBytes out = op.offered

variable {s t : Sys} {q : TailDrop UInt8 bufSize}

theorem Explains.skip (h : t.sock.Holds q) : Explains q .skip [] t := ⟨h, rfl, rfl⟩

/-- Only a segment with bytes in it is credited. -/
theorem observed_segment (s t : Sys) (tpcb : Pcb) (p : Pbuf) :
    s.observed (.event (.callback tpcb (.recv (some p)))) (s.callback tpcb (.recv (some p))).1 t =
      if 0 < p.totLen then [.credited p.payload] else [] := by
  show (lwipCbClientRecv s.sock tpcb (some p)).calls.filterMap (·.obs p.payload) = _
  rw [lwipCbClientRecv_calls]
  split_ifs
  · simp [PcbCall.obs, Pbuf.totLen]
  · rfl

theorem creditedBytes_segment (p : Pbuf) :
    creditedBytes (if 0 < p.totLen then [.credited p.payload] else []) = p.payload := by
  split_ifs with hp
  · simp [creditedBytes]
  · have hnil : p.payload = [] := List.length_eq_zero_iff.mp (by rw [Pbuf.totLen] at hp; omega)
    exact hnil.symm

theorem callback_explained (H : s.sock.Holds q) (tpcb : Pcb) (c : Callback) :
    Explains q (s.effect (.event (.callback tpcb c)))
      (s.observed (.event (.callback tpcb c)) (s.callback tpcb c).1 (s.callback tpcb c).2)
      (s.callback tpcb c).2 := by
  have quiet (hc : c.Quiet) : Explains q .skip
      ((s.callback tpcb c).1.filterMap (·.obs c.payload)) (s.callback tpcb c).2 := by
    have hcalls : (s.callback tpcb c).1 = [] := (hc.run s.sock tpcb).2.2
    rw [hcalls]
    exact .skip (H.quiet hc tpcb)
  cases c with
  | recv p =>
    cases p with
    | none => exact quiet rfl
    | some p =>
      refine ⟨H.recv tpcb p, ?_, ?_⟩ <;> rw [observed_segment]
      · split_ifs <;> rfl
      · exact creditedBytes_segment p
  | sent len =>
    have hcalls : (s.callback tpcb (.sent len)).1 = [] := lwipCbClientSent_calls s.sock len
    refine ⟨H.sent_apply len, ?_, ?_⟩ <;> simp only [observed, hcalls, effect] <;>
      split_ifs <;> rfl
  | connected => exact quiet trivial
  | poll => exact quiet trivial
  | err => exact quiet trivial

theorem tick_explained (H : s.sock.Holds q) :
    Explains q (s.effect (.event .tick)) (s.observed (.event .tick) [] s.tick) s.tick := by
  obtain ⟨sock, lwip, control⟩ := s
  cases control with
  | readWait buff len =>
    by_cases hne : 0 < sock.bufferLen
    · simp only [effect, observed, tick, if_pos hne]
      refine ⟨H.read buff len, ?_, rfl⟩
      simp only [returnedBytes, List.flatMap_singleton]
      rw [readBuffered_ret H.wf, readBuffered_buff H.wf, H.unread, Int.toNat_natCast,
        ← List.length_take, slice_copyIn_zero]
      rfl
    · simp only [effect, observed, tick, if_neg hne]
      exact .skip H
  | connectClear => exact .skip (H.congr rfl rfl)
  | _ => exact .skip H

theorem streams_step {l : Label} {out : List Obs} (H : s.sock.Holds q)
    (h : streams.step s l = some (out, t)) : Explains q (s.effect l) out t := by
  obtain ⟨calls, hstep, rfl⟩ := Machine.emit_step_eq_some.mp h
  rcases step_cases hstep with ⟨addr, newPcb, answer, rfl, -, -, ht⟩ |
    ⟨buff, answer, rfl, -, ht⟩ | ⟨buff, len, rfl, -, rfl, rfl⟩ | ⟨e, rfl, ht⟩
  · cases newPcb with
    | none =>
      obtain ⟨-, rfl⟩ := Prod.mk.inj ht
      exact .skip (H.congr rfl rfl)
    | some p =>
      obtain ⟨-, rfl⟩ := Prod.mk.inj ht
      exact ⟨Socket.holds_empty rfl, rfl, rfl⟩
  · obtain ⟨-, rfl⟩ := Prod.mk.inj ht
    exact .skip (H.congr rfl rfl)
  · exact .skip H
  · obtain ⟨rfl, rfl⟩ := Prod.ext_iff.mp ht
    cases e with
    | tick => exact tick_explained H
    | callback tpcb c => exact callback_explained H tpcb c

theorem discarded_eq_lost (H : s.sock.Holds q) (l : Label) :
    s.discarded l = q.lost (s.effect l) := by
  have hlen : s.sock.unread.length = q.items.length := congrArg List.length H.unread
  rcases l with ⟨_, _ | _, _⟩ | _ | _ | _ | ⟨_, c⟩
  case connect.some => exact hlen
  case event.tick =>
    simp only [discarded, effect]
    split
    · split_ifs <;> rfl
    · rfl
  case event.callback =>
    rcases c with (_ | p) | _ | _ | _ | _
    case recv.some =>
      rw [discarded, hlen]
      rfl
    case sent len =>
      rw [discarded, effect]
      split_ifs
      · exact hlen
      · rfl
    all_goals rfl
  all_goals rfl

end Sys

/-! ## Whole runs -/

/-- The whole system simulates the queue: in every run from a fresh socket, with connects, writes,
reads and callbacks in any order, the unread bytes are those of the queue after the operations of
the run, the reads have returned what these hand out, and the bytes credited to lwIP are what they
offer. -/
theorem system_simulates_queue {l : Lwip} {ls : List Label} {tr : List Obs} {s : Sys}
    (h : Sys.streams.run (.start l) ls = some (tr, s)) :
    let ops := Sys.streams.collect Sys.effect (.start l) ls
    let queue := (TailDrop.empty : TailDrop UInt8 bufSize).runOps ops
    s.sock.Holds queue.2 ∧ returnedBytes tr = queue.1 ∧
      creditedBytes tr = ops.flatMap TailDrop.Op.offered := by
  refine Machine.run_history_of_run (I := fun ls tr s =>
    let ops := Sys.streams.collect Sys.effect (.start l) ls
    let queue := (TailDrop.empty : TailDrop UInt8 bufSize).runOps ops
    s.sock.Holds queue.2 ∧ returnedBytes tr = queue.1 ∧
      creditedBytes tr = ops.flatMap TailDrop.Op.offered) ?_ ⟨.zeroed, rfl, rfl⟩ h
  intro ls tr s a out t hrun ⟨hholds, hreturned, hcredited⟩ hstep
  have hexplains := Sys.streams_step hholds hstep
  simp only [Machine.collect_concat hrun, runOps_concat, List.flatMap_append,
    List.flatMap_singleton]
  refine ⟨hexplains.holds, ?_, ?_⟩
  · rw [returnedBytes_append, hreturned, hexplains.returned]
  · rw [creditedBytes_append, hcredited, hexplains.credited]

/-- A connection comes up, two bytes arrive, and one of them is read. -/
def echoLabels : List Label :=
  Sys.openLabels ++ [.event (.callback 1 (.recv (some ⟨[7, 8], by decide⟩))),
    .read (fun _ => 0) 1, .event .tick]

theorem exists_run_echoLabels : ∃ tr s,
    Sys.streams.run (.start ⟨fun _ => none⟩) echoLabels = some (tr, s) := ⟨_, _, rfl⟩

theorem system_simulates_queue_echo : ∃ tr s,
    Sys.streams.run (.start ⟨fun _ => none⟩) echoLabels = some (tr, s) ∧
      returnedBytes tr = ((TailDrop.empty : TailDrop UInt8 bufSize).runOps
        (Sys.streams.collect Sys.effect (.start ⟨fun _ => none⟩) echoLabels)).1 := by
  obtain ⟨tr, s, h⟩ := exists_run_echoLabels
  exact ⟨tr, s, h, (system_simulates_queue h).2.1⟩

/-- In every run from a fresh socket the bytes returned and the unread ones are the credited bytes
with some left out, in order; as many are missing as the steps of the run have discarded, and none
is missing exactly when no step discards any. -/
theorem received_stream_accounted {l : Lwip} {ls : List Label} {tr : List Obs} {s : Sys}
    (h : Sys.streams.run (.start l) ls = some (tr, s)) :
    Accounted (creditedBytes tr) (returnedBytes tr) s.sock.unread
      (Sys.streams.total Sys.discarded (.start l) ls) ∧
    (StreamIntact tr s.sock ↔
      Sys.streams.Along (fun s a => s.discarded a = 0) (.start l) ls) := by
  suffices haccount : s.sock.WF ∧ Accounted (creditedBytes tr) (returnedBytes tr) s.sock.unread
      (Sys.streams.total Sys.discarded (.start l) ls) from
    ⟨haccount.2, haccount.2.intact_iff.trans Machine.total_eq_zero_iff⟩
  refine Machine.run_history_of_run (I := fun ls tr s => s.sock.WF ∧
    Accounted (creditedBytes tr) (returnedBytes tr) s.sock.unread
      (Sys.streams.total Sys.discarded (.start l) ls)) ?_ ?_ h
  case refine_2 => exact ⟨Socket.WF.zeroed, Accounted.nil⟩
  intro ls tr s a out t hrun ⟨hwf, haccount⟩ hstep
  obtain ⟨q, hq⟩ := hwf.exists_holds
  have hexplains := Sys.streams_step hq hstep
  refine ⟨hexplains.holds.wf, ?_⟩
  rw [Machine.total_concat hrun, creditedBytes_append, returnedBytes_append, hexplains.credited,
    hexplains.returned, hexplains.holds.unread, Sys.discarded_eq_lost hq]
  rw [hq.unread] at haccount
  exact haccount.apply (s.effect a)

theorem received_stream_accounted_echo : ∃ tr s,
    Sys.streams.run (.start ⟨fun _ => none⟩) echoLabels = some (tr, s) ∧
      (returnedBytes tr ++ s.sock.unread).Sublist (creditedBytes tr) := by
  obtain ⟨tr, s, h⟩ := exists_run_echoLabels
  exact ⟨tr, s, h, (received_stream_accounted h).1.sublist⟩

end PicoHybridCrypto
