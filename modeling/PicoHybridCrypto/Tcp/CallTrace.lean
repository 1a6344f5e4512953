import PicoHybridCrypto.Tcp.System
import Mathlib.Tactic.IntervalCases

/-! # What the program asks of lwIP

Every lwIP call of a run is known from the labels alone. The calls fall into two parts that have
nothing to do with each other: what is given back to the receive window follows from the pbufs,
whatever the program has room for, and what is sent follows from the connects and writes, whatever
is received or acknowledged (`lwip_calls_split`). The port that is dialled is the one the program
put into the address (`mem_transmitCalls_connect`). -/

set_option autoImplicit true

namespace PicoHybridCrypto

def PcbCall.isRecved (c : PcbCall) : Bool :=
  match c.fn with
  | .tcpRecved _ => true
  | _ => false

/-- The part of the receive window that a step gives back. -/
def Label.credit : Label → List PcbCall
  | .event (.callback tpcb (.recv (some p))) =>
    if 0 < p.totLen then [⟨.tcpRecved p.totLen, some tpcb⟩] else []
  | _ => []

def Label.isTransmit : Label → Bool
  | .connect .. | .write .. => true
  | _ => false

/-- What a step asks lwIP to do for the outgoing side, given the handle of the socket. -/
def Label.transmit (handle : Option Pcb) : Label → List PcbCall
  | .connect addr (some p) answer => connectCalls addr (some p) answer
  | .write buff answer => (wolfTCPwrite { Socket.zeroed with tcpPcb := handle } buff answer).calls
  | _ => []

/-- The handle of the socket after a step. -/
def Label.handle (handle : Option Pcb) : Label → Option Pcb
  | .connect _ newPcb _ => newPcb
  | _ => handle

/-- The calls that connects and writes make, from the handle on the current pcb. -/
def transmitCalls : Option Pcb → List Label → List PcbCall
  | _, [] => []
  | handle, a :: ls => a.transmit handle ++ transmitCalls (a.handle handle) ls

def PcbCall.recved (p : Pcb) : PcbCall → Nat
  | ⟨.tcpRecved len, some q⟩ => if q = p then len else 0
  | _ => 0

def Label.delivered (p : Pcb) : Label → Nat
  | .event (.callback q (.recv (some pbuf))) => if q = p then pbuf.totLen else 0
  | _ => 0

/-- How much of the receive window of `p` the calls give back. -/
def recved (p : Pcb) (calls : List PcbCall) : Nat := (calls.map (PcbCall.recved p)).sum

/-- How many bytes lwIP has delivered on behalf of `p`. -/
def delivered (p : Pcb) (ls : List Label) : Nat := (ls.map (Label.delivered p)).sum

/-! ## The port -/

/-- `htons`, which the programs fill in `sin_port` with. -/
def htons (a : UInt16) : UInt16 := (a &&& 0xff) <<< 8 ||| (a &&& 0xff00) >>> 8

theorem htons_swapBytes (a : UInt16) : htons (swapBytes a).toUInt16 = a := by
  apply UInt16.toBitVec_inj.mp
  simp only [htons, swapBytes, UInt16.toBitVec_or, UInt16.toBitVec_shiftLeft, UInt16.toBitVec_and,
    UInt16.toBitVec_shiftRight, UInt32.toBitVec_toUInt16, UInt32.toBitVec_or,
    UInt32.toBitVec_shiftLeft, UInt16.toBitVec_toUInt32]
  refine BitVec.eq_of_getLsbD_eq fun i hi => ?_
  -- one bit at a time
  interval_cases i <;> simp

/-- What is dialled is the address of a connect, with its port in host order. -/
theorem mem_transmitCalls_connect {handle : Option Pcb} {ls : List Label} {c : PcbCall}
    {ip : UInt32} {port : UInt16} {answer : ErrT} (hc : c ∈ transmitCalls handle ls)
    (hfn : c.fn = .tcpConnect ip port answer) :
    ∃ addr newPcb, .connect addr newPcb answer ∈ ls ∧ addr.sinAddr = ip ∧
      htons port = addr.sinPort := by
  induction ls generalizing handle with
  | nil => cases hc
  | cons a ls ih =>
    rcases List.mem_append.mp hc with hc | hc
    · cases a with
      | connect addr newPcb answer' =>
        cases newPcb with
        | none => cases hc
        | some p =>
          simp only [Label.transmit, connectCalls, List.mem_cons, List.not_mem_nil, or_false] at hc
          rcases hc with rfl | rfl | rfl | rfl | rfl | rfl
          case inr.inr.inr.inr.inr =>
            cases hfn
            exact ⟨addr, some p, .head _, rfl, htons_swapBytes addr.sinPort⟩
          all_goals cases hfn
      | write buff answer' =>
        rcases List.mem_cons.mp hc with rfl | hc
        · cases hfn
        · split_ifs at hc
          · cases List.mem_singleton.mp hc
            cases hfn
          · cases hc
      | read => cases hc
      | event => cases hc
    · obtain ⟨addr, newPcb, hmem, h⟩ := ih hc
      exact ⟨addr, newPcb, .tail _ hmem, h⟩

/-! ## One step -/

theorem wolfTCPwrite_calls_congr {sock sock' : Socket} (h : sock.tcpPcb = sock'.tcpPcb)
    (buff : CBuffer) (answer : ErrT) :
    (wolfTCPwrite sock buff answer).calls = (wolfTCPwrite sock' buff answer).calls := by
  simp only [wolfTCPwrite, h]

theorem callback_calls (c : Callback) (sock : Socket) (tpcb : Pcb) :
    (c.run sock tpcb).calls = (Label.event (.callback tpcb c)).credit := by
  by_cases hc : c.Quiet
  · rw [(hc.run sock tpcb).2.2]
    cases c with
    | recv p =>
      cases hc
      rfl
    | sent => cases hc
    | _ => rfl
  · cases c with
    | recv p =>
      cases p with
      | none => exact (hc rfl).elim
      | some p => exact lwipCbClientRecv_calls sock tpcb p
    | sent len => exact lwipCbClientSent_calls sock len
    | _ => exact (hc trivial).elim

/-- A step makes its outgoing calls, or gives back what it was handed, and moves the handle. -/
theorem Sys.step_calls {s t : Sys} {a : Label} {calls : List PcbCall}
    (h : machine.step s a = some (calls, t)) :
    calls = a.transmit s.sock.tcpPcb ++ a.credit ∧ t.sock.tcpPcb = a.handle s.sock.tcpPcb := by
  rcases step_cases h with ⟨addr, newPcb, answer, rfl, -, -, ht⟩ | ⟨buff, answer, rfl, -, ht⟩ |
    ⟨buff, len, rfl, -, rfl, rfl⟩ | ⟨e, rfl, ht⟩
  · cases newPcb <;> cases ht
    · exact ⟨rfl, rfl⟩
    · exact ⟨(List.append_nil _).symm, rfl⟩
  · cases ht
    exact ⟨(wolfTCPwrite_calls_congr rfl buff answer).trans (List.append_nil _).symm, rfl⟩
  · exact ⟨rfl, rfl⟩
  · obtain ⟨rfl, rfl⟩ := Prod.ext_iff.mp ht
    refine ⟨?_, s.event_tcpPcb e⟩
    cases e with
    | tick => rfl
    | callback tpcb c => exact callback_calls c s.sock tpcb

theorem Label.isRecved_of_credit {a : Label} : ∀ c ∈ a.credit, c.isRecved = true := by
  intro c hc
  unfold credit at hc
  split at hc
  · split_ifs at hc
    · cases List.mem_singleton.mp hc
      rfl
    · cases hc
  · cases hc

theorem Label.isRecved_of_transmit {handle : Option Pcb} {a : Label} :
    ∀ c ∈ a.transmit handle, c.isRecved = false := by
  intro c hc
  unfold transmit at hc
  split at hc
  · simp only [connectCalls, List.mem_cons, List.not_mem_nil, or_false] at hc
    rcases hc with rfl | rfl | rfl | rfl | rfl | rfl <;> rfl
  · rcases List.mem_cons.mp hc with rfl | hc
    · rfl
    · split_ifs at hc
      · cases List.mem_singleton.mp hc
        rfl
      · cases hc
  · cases hc

theorem Label.transmit_of_not {a : Label} (h : a.isTransmit = false) (handle : Option Pcb) :
    a.transmit handle = [] ∧ a.handle handle = handle := by
  cases a with
  | connect | write => cases h
  | read | event => exact ⟨rfl, rfl⟩

/-- Steps that neither connect nor write do not show in the outgoing calls. -/
theorem transmitCalls_filter (handle : Option Pcb) (ls : List Label) :
    transmitCalls handle (ls.filter Label.isTransmit) = transmitCalls handle ls := by
  induction ls generalizing handle with
  | nil => rfl
  | cons a ls ih =>
    cases ha : a.isTransmit with
    | true => rw [List.filter_cons_of_pos ha, transmitCalls, transmitCalls, ih]
    | false =>
      obtain ⟨htransmit, hhandle⟩ := Label.transmit_of_not ha handle
      rw [List.filter_cons_of_neg (by simp [ha]), ih, transmitCalls, htransmit, hhandle,
        List.nil_append]

theorem Label.recved_credit (p : Pcb) (a : Label) : recved p a.credit = a.delivered p := by
  unfold credit
  split
  · rename_i q pbuf
    rw [delivered]
    by_cases hpos : 0 < pbuf.totLen
    · rw [if_pos hpos]
      exact Nat.add_zero _
    · have hzero : pbuf.totLen = 0 := by omega
      rw [if_neg hpos, hzero, ite_self]
      rfl
  · rename_i hnot
    unfold delivered
    split
    · exact (hnot _ _ rfl).elim
    · rfl

theorem recved_flatMap_credit (p : Pcb) (ls : List Label) :
    recved p (ls.flatMap Label.credit) = delivered p ls := by
  induction ls with
  | nil => rfl
  | cons a ls ih =>
    have hrest : ((ls.flatMap Label.credit).map (PcbCall.recved p)).sum = delivered p ls := ih
    have ha : (a.credit.map (PcbCall.recved p)).sum = a.delivered p := Label.recved_credit p a
    rw [List.flatMap_cons, recved, List.map_append, List.sum_append, hrest, ha]
    exact (List.sum_cons (a := a.delivered p) (l := ls.map (Label.delivered p))).symm

/-! ## Whole runs -/

theorem Sys.run_calls {s t : Sys} {ls : List Label} {calls : List PcbCall}
    (h : machine.run s ls = some (calls, t)) :
    calls.filter PcbCall.isRecved = ls.flatMap Label.credit ∧
      calls.filter (fun c => !c.isRecved) = transmitCalls s.sock.tcpPcb ls := by
  induction ls generalizing s calls with
  | nil =>
    cases h
    exact ⟨rfl, rfl⟩
  | cons a ls ih =>
    obtain ⟨out, s', rest, hstep, hrun, rfl⟩ := Machine.run_cons_eq_some.mp h
    obtain ⟨hcredits, hsends⟩ := ih hrun
    obtain ⟨rfl, hhandle⟩ := step_calls hstep
    have hcredit := Label.isRecved_of_credit (a := a)
    have htransmit : ∀ c ∈ a.transmit s.sock.tcpPcb, c.isRecved = false :=
      Label.isRecved_of_transmit
    have hnoCredit : (a.transmit s.sock.tcpPcb).filter PcbCall.isRecved = [] :=
      List.filter_eq_nil_iff.mpr fun c hc => by simp [htransmit c hc]
    have hnoSend : a.credit.filter (fun c => !c.isRecved) = [] :=
      List.filter_eq_nil_iff.mpr fun c hc => by simp [hcredit c hc]
    have hallCredit : a.credit.filter PcbCall.isRecved = a.credit :=
      List.filter_eq_self.mpr hcredit
    have hallSend : (a.transmit s.sock.tcpPcb).filter (fun c => !c.isRecved) =
        a.transmit s.sock.tcpPcb :=
      List.filter_eq_self.mpr fun c hc => by simp [htransmit c hc]
    constructor
    · rw [List.filter_append, List.filter_append, hnoCredit, hallCredit, hcredits,
        List.flatMap_cons, List.nil_append]
    · rw [List.filter_append, List.filter_append, hnoSend, hallSend, hsends, transmitCalls,
        hhandle, List.append_nil]

/-- In every run from a fresh socket: the calls that give back the receive window are those the
delivered pbufs ask for, so that the window of every pcb is given back in full whatever has been
kept or read; all other calls are those of the connects and writes on their own, so that nothing
that is received, read or acknowledged has a part in what is sent; and each `tcp_connect` dials the
address of a connect, and the port whose network order that address has. -/
theorem lwip_calls_split {l : Lwip} {ls : List Label} {calls : List PcbCall} {s : Sys}
    (h : Sys.machine.run (.start l) ls = some (calls, s)) :
    calls.filter PcbCall.isRecved = ls.flatMap Label.credit ∧
    (∀ p, recved p (calls.filter PcbCall.isRecved) = delivered p ls) ∧
    calls.filter (fun c => !c.isRecved) = transmitCalls none (ls.filter Label.isTransmit) ∧
    ∀ c ∈ calls, ∀ ip port answer, c.fn = .tcpConnect ip port answer →
      ∃ addr newPcb, .connect addr newPcb answer ∈ ls ∧ addr.sinAddr = ip ∧
        htons port = addr.sinPort := by
  obtain ⟨hcredits, hsends⟩ := Sys.run_calls h
  refine ⟨hcredits, fun p => ?_, ?_, fun c hc ip port answer hfn => ?_⟩
  · rw [hcredits, recved_flatMap_credit]
  · rw [transmitCalls_filter]
    exact hsends
  · have hsend : c ∈ transmitCalls none ls := by
      refine hsends ▸ List.mem_filter.mpr ⟨hc, ?_⟩
      rw [PcbCall.isRecved, hfn]
      rfl
    exact mem_transmitCalls_connect hsend hfn

theorem lwip_calls_split_opened :
    Sys.openCalls.filter (fun c => !c.isRecved) =
      transmitCalls none (Sys.openLabels.filter Label.isTransmit) :=
  (lwip_calls_split Sys.run_openLabels).2.2.1

end PicoHybridCrypto
