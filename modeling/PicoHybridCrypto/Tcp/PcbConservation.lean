import Mathlib.Data.List.ReduceOption
import PicoHybridCrypto.Tcp.Handles

/-! # Every pcb of a socket is released

`wolf_TCPclose` releases the pcb in `tcp_pcb`, and `wolf_TCPconnect` overwrites that field
without releasing what was in it. The pcbs of a socket are all accounted for exactly when only
its last call of `wolf_TCPconnect` was given one (`pcb_conserved_iff`). -/

set_option autoImplicit true

namespace PicoHybridCrypto

/-! ## Calls on one pcb -/

/-- How often a list of calls frees the pcb `p`. -/
def releases (cs : List PcbCall) (p : Pcb) : Nat :=
  cs.countP fun c => c.pcb = some p ∧ Lwip.Frees c.fn

def PcbFn.on (p : Pcb) (fns : List PcbFn) : List PcbCall := fns.map (⟨·, some p⟩)

namespace Lwip

/-- A live pcb whose callback argument is the socket. -/
def Carries (l : Lwip) (p : Pcb) : Prop := ∃ st, l.pcbs p = some st ∧ st.arg

theorem applyAll_on_of_ne {p q : Pcb} (hne : q ≠ p) (fns : List PcbFn) (l : Lwip) :
    (l.applyAll (PcbFn.on p fns)).pcbs q = l.pcbs q := by
  induction fns generalizing l with
  | nil => rfl
  | cons fn fns ih =>
    refine (ih (l.apply ⟨fn, some p⟩)).trans ?_
    exact Function.update_of_ne hne _ _

theorem alloc_pcbs_self (l : Lwip) (p : Pcb) : (l.alloc p).pcbs p = some {} :=
  Function.update_self ..

theorem alloc_pcbs_of_ne {p q : Pcb} (hne : q ≠ p) (l : Lwip) :
    (l.alloc p).pcbs q = l.pcbs q := Function.update_of_ne hne _ _

theorem free_pcbs_self (l : Lwip) (p : Pcb) : (l.free p).pcbs p = none :=
  Function.update_self ..

theorem free_pcbs_of_ne {p q : Pcb} (hne : q ≠ p) (l : Lwip) :
    (l.free p).pcbs q = l.pcbs q := Function.update_of_ne hne _ _

/-- What lwIP kept for a pcb decides what it keeps after calls on it. -/
theorem applyAll_on_self (p : Pcb) (fns : List PcbFn) (l : Lwip) :
    (l.applyAll (PcbFn.on p fns)).pcbs p =
      fns.foldl (fun st fn => st.bind (·.apply fn)) (l.pcbs p) := by
  induction fns generalizing l with
  | nil => rfl
  | cons fn fns ih =>
    refine (ih (l.apply ⟨fn, some p⟩)).trans ?_
    have hfn : (l.apply ⟨fn, some p⟩).pcbs p = (l.pcbs p).bind (·.apply fn) :=
      Function.update_self ..
    rw [hfn, List.foldl_cons]

end Lwip

theorem releases_append (cs ds : List PcbCall) (p : Pcb) :
    releases (cs ++ ds) p = releases cs p + releases ds p := List.countP_append

theorem releases_eq_zero {cs : List PcbCall} (h : ∀ c ∈ cs, ¬Lwip.Frees c.fn) (p : Pcb) :
    releases cs p = 0 := by
  refine List.countP_eq_zero.mpr fun c hc => ?_
  simp [h c hc]

theorem releases_on_self (p : Pcb) (fns : List PcbFn) :
    releases (PcbFn.on p fns) p = fns.countP (Lwip.Frees ·) := by
  simp only [releases, PcbFn.on, List.countP_map]
  refine List.countP_congr fun fn _ => ?_
  simp

/-! ## What connecting and closing do to the pool -/

def closeFns (answer : ErrT) : List PcbFn :=
  [.tcpArg false, .tcpPoll false 0, .tcpSent false, .tcpRecv false, .tcpErr false,
   .tcpClose answer] ++ if answer ≠ errOk then [.tcpAbort] else []

theorem wolfTCPclose_calls {sock : Socket} {p : Pcb} (hp : sock.tcpPcb = some p)
    (answer : ErrT) : (wolfTCPclose sock answer).calls = PcbFn.on p (closeFns answer) := by
  simp only [wolfTCPclose, hp, closeFns, PcbFn.on]
  split_ifs <;> rfl

theorem wolfTCPclose_calls_none {sock : Socket} (hp : sock.tcpPcb = none) (answer : ErrT) :
    (wolfTCPclose sock answer).calls = [] := by
  simp only [wolfTCPclose, hp]

/-- Whatever `tcp_connect` answers, the new pcb carries the socket from then on. -/
theorem connect_carries (l : Lwip) (addr : SockaddrIn) (p : Pcb) (answer : ErrT) (q : Pcb) :
    ((l.alloc p).applyAll (connectCalls addr (some p) answer)).Carries q ↔
      q = p ∨ l.Carries q := by
  let fns : List PcbFn :=
    [.tcpArg true, .tcpPoll true (pollTimeS * 2), .tcpSent true, .tcpRecv true, .tcpErr true,
     .tcpConnect addr.sinAddr (swapBytes addr.sinPort).toUInt16 answer]
  show ((l.alloc p).applyAll (PcbFn.on p fns)).Carries q ↔ q = p ∨ l.Carries q
  by_cases hq : q = p
  · subst hq
    refine iff_of_true ?_ (.inl rfl)
    rw [Lwip.Carries, Lwip.applyAll_on_self, Lwip.alloc_pcbs_self]
    exact ⟨_, rfl, rfl⟩
  · rw [or_iff_right hq, Lwip.Carries, Lwip.applyAll_on_of_ne hq, Lwip.alloc_pcbs_of_ne hq,
      Lwip.Carries]

/-- Whatever `tcp_close` answers, the pcb is gone afterwards. -/
theorem close_carries (l : Lwip) (p : Pcb) (answer : ErrT) (q : Pcb) :
    (l.applyAll (PcbFn.on p (closeFns answer))).Carries q ↔ q ≠ p ∧ l.Carries q := by
  by_cases hq : q = p
  · subst hq
    refine iff_of_false ?_ (fun h => h.1 rfl)
    rintro ⟨st, hst, -⟩
    rw [Lwip.applyAll_on_self] at hst
    cases hl : l.pcbs q <;> by_cases hanswer : answer = errOk <;>
      simp [hl, closeFns, hanswer, PcbState.apply] at hst
  · rw [Lwip.Carries, Lwip.applyAll_on_of_ne hq, and_iff_right hq, Lwip.Carries]

theorem releases_close (p : Pcb) (answer : ErrT) :
    releases (PcbFn.on p (closeFns answer)) p = 1 := by
  rw [releases_on_self]
  by_cases hanswer : answer = errOk
  · subst hanswer
    rfl
  · have hkept : ∀ fn ∈ [PcbFn.tcpArg false, .tcpPoll false 0, .tcpSent false, .tcpRecv false,
        .tcpErr false, .tcpClose answer], ¬decide (Lwip.Frees fn) = true := by
      intro fn hfn
      rw [decide_eq_true_iff]
      simp only [List.mem_cons, List.not_mem_nil, or_false] at hfn
      rcases hfn with rfl | rfl | rfl | rfl | rfl | rfl
      all_goals first | exact hanswer | exact not_false
    rw [closeFns, if_pos hanswer, List.countP_append, List.countP_eq_zero.mpr hkept]
    rfl

/-! ## Runs without err callbacks -/

/-- What `tcp_new_ip_type` returned to a call of `wolf_TCPconnect`. -/
def Label.newPcb? : Label → Option (Option Pcb)
  | .connect _ newPcb _ => some newPcb
  | _ => none

/-- The outcomes of `tcp_new_ip_type`, one for each call of `wolf_TCPconnect`. -/
def outcomes (ls : List Label) : List (Option Pcb) := ls.filterMap Label.newPcb?

def allocated (ls : List Label) : List Pcb := (outcomes ls).reduceOption

def Label.NoErr : Label → Prop
  | .event (.callback _ (.err _)) => False
  | _ => True

theorem outcomes_concat (ls : List Label) (a : Label) :
    outcomes (ls ++ [a]) = outcomes ls ++ a.newPcb?.toList := by
  cases h : a.newPcb? <;> simp [outcomes, h]

/-- The pcbs that carry the socket are those its connects were given, all different, and the
handle is on the last one. -/
structure ConnectLedger (ls : List Label) (calls : List PcbCall) (s : Sys) : Prop where
  carries_iff : ∀ p, s.lwip.Carries p ↔ p ∈ allocated ls
  tcpPcb_eq : s.sock.tcpPcb = (outcomes ls).getLast?.join
  nodup : (allocated ls).Nodup
  not_frees : ∀ c ∈ calls, ¬Lwip.Frees c.fn

theorem Sys.event_lwip {s : Sys} {e : Event} (he : (Label.event e).NoErr) :
    (s.event e).2.lwip = s.lwip ∧ ∀ c ∈ (s.event e).1, Lwip.Inert c.fn := by
  cases e with
  | tick => exact ⟨s.tick_cases.1, by simp [event]⟩
  | callback tpcb c =>
    refine ⟨?_, fun _ => Callback.calls_inert⟩
    show Lwip.applyAll _ (c.run s.sock tpcb).calls = s.lwip
    rw [Lwip.applyAll_of_inert fun _ => Callback.calls_inert]
    cases c with
    | err => exact he.elim
    | _ => rfl

theorem ConnectLedger.of_inert {ls : List Label} {a : Label} {calls calls' : List PcbCall}
    {s t : Sys} (H : ConnectLedger ls calls s) (ha : a.newPcb? = none)
    (hlwip : t.lwip = s.lwip) (htcp : t.sock.tcpPcb = s.sock.tcpPcb)
    (hcalls : ∀ c ∈ calls', Lwip.Inert c.fn) : ConnectLedger (ls ++ [a]) (calls ++ calls') t := by
  have houtcomes : outcomes (ls ++ [a]) = outcomes ls := by simp [outcomes_concat, ha]
  refine ⟨?_, ?_, ?_, ?_⟩
  · rw [hlwip, allocated, houtcomes]
    exact H.carries_iff
  · rw [htcp, houtcomes]
    exact H.tcpPcb_eq
  · rw [allocated, houtcomes]
    exact H.nodup
  · intro c hc
    rcases List.mem_append.mp hc with hc | hc
    · exact H.not_frees c hc
    · exact (hcalls c hc).not_frees

theorem ConnectLedger.connect_none {ls : List Label} {calls : List PcbCall} {s : Sys}
    (H : ConnectLedger ls calls s) (addr : SockaddrIn) (answer : ErrT) :
    ConnectLedger (ls ++ [.connect addr none answer])
      (calls ++ (s.wolfTCPconnect addr none answer).1)
      (s.wolfTCPconnect addr none answer).2 := by
  have houtcomes : outcomes (ls ++ [.connect addr none answer]) = outcomes ls ++ [none] :=
    outcomes_concat ls _
  have hallocated : allocated (ls ++ [.connect addr none answer]) = allocated ls := by
    rw [allocated, houtcomes, List.reduceOption_append]
    exact List.append_nil _
  refine ⟨?_, ?_, ?_, ?_⟩
  · rw [hallocated]
    exact H.carries_iff
  · rw [houtcomes, List.getLast?_concat]
    rfl
  · rw [hallocated]
    exact H.nodup
  · simpa [Sys.wolfTCPconnect] using H.not_frees

theorem ConnectLedger.connect_some {ls : List Label} {calls : List PcbCall} {s : Sys}
    (H : ConnectLedger ls calls s) (addr : SockaddrIn) {p : Pcb} (hp : s.lwip.pcbs p = none)
    (answer : ErrT) :
    ConnectLedger (ls ++ [.connect addr (some p) answer])
      (calls ++ (s.wolfTCPconnect addr (some p) answer).1)
      (s.wolfTCPconnect addr (some p) answer).2 := by
  have houtcomes : outcomes (ls ++ [.connect addr (some p) answer]) = outcomes ls ++ [some p] :=
    outcomes_concat ls _
  have hallocated : allocated (ls ++ [.connect addr (some p) answer]) = allocated ls ++ [p] := by
    rw [allocated, houtcomes, List.reduceOption_append]
    rfl
  have hfresh : p ∉ allocated ls := by
    rw [← H.carries_iff]
    rintro ⟨st, hst, -⟩
    cases hp.symm.trans hst
  refine ⟨fun q => ?_, ?_, ?_, ?_⟩
  · rw [hallocated, List.mem_append, List.mem_singleton, ← H.carries_iff, or_comm]
    exact connect_carries s.lwip addr p answer q
  · rw [houtcomes, List.getLast?_concat]
    rfl
  · rw [hallocated]
    exact List.nodup_append.mpr ⟨H.nodup, List.nodup_singleton p, by
      intro q hq r hr hqr
      exact hfresh (List.mem_singleton.mp hr ▸ hqr ▸ hq)⟩
  · intro c hc
    rcases List.mem_append.mp hc with hc | hc
    · exact H.not_frees c hc
    · exact connectCalls_not_frees hc

theorem ConnectLedger.step {ls : List Label} {calls calls' : List PcbCall} {s t : Sys}
    {a : Label} (ha : a.NoErr) (H : ConnectLedger ls calls s)
    (h : Sys.machine.step s a = some (calls', t)) :
    ConnectLedger (ls ++ [a]) (calls ++ calls') t := by
  rcases Sys.step_cases h with ⟨addr, newPcb, answer, rfl, -, hnew, ht⟩ |
    ⟨buff, answer, rfl, -, ht⟩ | ⟨buff, len, rfl, -, rfl, rfl⟩ | ⟨e, rfl, ht⟩
  · cases newPcb with
    | none =>
      cases ht
      exact H.connect_none addr answer
    | some p =>
      cases ht
      exact H.connect_some addr (hnew p rfl) answer
  · cases ht
    have hinert : ∀ c ∈ (wolfTCPwrite s.sock buff answer).calls, Lwip.Inert c.fn :=
      fun _ hc => (wolfTCPwrite_calls_inert hc).2
    exact H.of_inert rfl (Lwip.applyAll_of_inert hinert _) rfl hinert
  · exact H.of_inert rfl rfl rfl (by simp)
  · obtain ⟨rfl, rfl⟩ := Prod.ext_iff.mp ht
    exact H.of_inert rfl (Sys.event_lwip ha).1 (s.event_tcpPcb e) (Sys.event_lwip ha).2

theorem Sys.run_connectLedger {l : Lwip} (hl : ∀ p, ¬l.Carries p) {ls : List Label}
    {calls : List PcbCall} {s : Sys} (hls : ∀ a ∈ ls, a.NoErr)
    (h : machine.run (.start l) ls = some (calls, s)) : ConnectLedger ls calls s := by
  refine Machine.run_history (I := ConnectLedger) ConnectLedger.step hls ?_ h
  exact ⟨fun p => iff_of_false (hl p) List.not_mem_nil, rfl, List.nodup_nil, by simp⟩

/-! ## Conservation -/

/-- Before the close the only pcb that may carry the socket is its `tcp_pcb`; by the end of it
every pcb allocated for the socket has been freed once, and none carries the freed socket. -/
structure PcbConserved (ls : List Label) (calls : List PcbCall) (s : Sys) (answer : ErrT) :
    Prop where
  carrier : ∀ p, s.lwip.Carries p → s.sock.tcpPcb = some p
  released_once : ∀ p ∈ allocated ls,
    releases (calls ++ (wolfTCPclose s.sock answer).calls) p = 1
  deregistered : ∀ p, ¬(s.lwip.applyAll (wolfTCPclose s.sock answer).calls).Carries p

/-- The socket's pcbs are conserved as soon as `tcp_pcb` is the only one that carries it. -/
theorem ConnectLedger.conserved_iff {ls : List Label} {calls : List PcbCall} {s : Sys}
    (H : ConnectLedger ls calls s) (answer : ErrT) :
    PcbConserved ls calls s answer ↔ ∀ p ∈ allocated ls, s.sock.tcpPcb = some p := by
  constructor
  · intro h p hp
    exact h.carrier p ((H.carries_iff p).mpr hp)
  · intro h
    have hcarrier (p : Pcb) (hp : s.lwip.Carries p) : s.sock.tcpPcb = some p :=
      h p ((H.carries_iff p).mp hp)
    refine ⟨hcarrier, fun p hp => ?_, fun p hp => ?_⟩
    · rw [releases_append, releases_eq_zero H.not_frees, wolfTCPclose_calls (h p hp),
        releases_close]
    · cases htcp : s.sock.tcpPcb with
      | none =>
        rw [wolfTCPclose_calls_none htcp] at hp
        cases htcp.symm.trans (hcarrier p hp)
      | some q =>
        rw [wolfTCPclose_calls htcp, close_carries] at hp
        have := (hcarrier p hp.2).symm.trans htcp
        exact hp.1 (Option.some.inj this)

/-- All the outcomes on a list without repetition are the last one exactly when it is the only
one that is not `none`. -/
theorem reduceOption_eq_getLast_iff {os : List (Option α)} (hos : os.reduceOption.Nodup) :
    (∀ a ∈ os.reduceOption, os.getLast?.join = some a) ↔ ∀ o ∈ os.dropLast, o = none := by
  rcases List.eq_nil_or_concat os with rfl | ⟨os, o, rfl⟩
  · simp
  · rw [List.concat_eq_append, List.reduceOption_append] at *
    rw [List.getLast?_concat, List.dropLast_concat]
    simp only [Option.join_some, List.mem_append, List.reduceOption_mem_iff]
    constructor
    · intro h o' ho'
      cases o' with
      | none => rfl
      | some a =>
        have ho := h a (.inl ho')
        subst ho
        have hdisj := (List.nodup_append.mp hos).2.2 a (List.reduceOption_mem_iff.mpr ho') a
        exact (hdisj (by simp [List.reduceOption]) rfl).elim
    · rintro h a (ha | ha)
      · cases h _ ha
      · simpa [eq_comm] using ha

/-- For every sequence of connects on one socket with any outcomes, without an err callback in
between, and a close with any outcome: the pcbs are conserved if and only if at most the last of
the connects was given a pcb. -/
theorem pcb_conserved_iff {l : Lwip} (hl : ∀ p, ¬l.Carries p) {ls : List Label}
    {calls : List PcbCall} {s : Sys} (hls : ∀ a ∈ ls, a.NoErr)
    (h : Sys.machine.run (.start l) ls = some (calls, s)) (answer : ErrT) :
    PcbConserved ls calls s answer ↔ ∀ o ∈ (outcomes ls).dropLast, o = none := by
  have H := Sys.run_connectLedger hl hls h
  rw [H.conserved_iff, H.tcpPcb_eq, allocated, reduceOption_eq_getLast_iff H.nodup]

theorem pcb_conserved_iff_opened :
    PcbConserved Sys.openLabels Sys.openCalls Sys.opened errOk := by
  refine (pcb_conserved_iff (l := ⟨fun _ => none⟩) ?_ ?_ Sys.run_openLabels errOk).mpr ?_
  · rintro p ⟨st, hst, -⟩
    cases hst
  · simp [Sys.openLabels, Label.NoErr]
  · have hlast : (outcomes Sys.openLabels).dropLast = [] := rfl
    simp [hlast]

/-- `tcp_connect` refuses, the connect returns, and the caller tries again. -/
def retryLabels : List Label :=
  [.connect ⟨0, 0⟩ (some 1) errMem, .event .tick, .connect ⟨0, 0⟩ (some 2) errOk, .event .tick,
   .event .tick, .event .tick, .event (.callback 2 (.connected errOk)), .event .tick]

/-- The first pcb keeps the socket as its argument and is never released. -/
theorem retry_leaks : ∃ calls s,
    Sys.machine.run (.start ⟨fun _ => none⟩) retryLabels = some (calls, s) ∧
      s.control = .connectReturned wolfSuccess ∧
      ∀ answer, ¬PcbConserved retryLabels calls s answer := by
  refine ⟨_, _, rfl, rfl, fun answer h => ?_⟩
  cases h.carrier 1 ⟨_, rfl, rfl⟩

end PicoHybridCrypto
