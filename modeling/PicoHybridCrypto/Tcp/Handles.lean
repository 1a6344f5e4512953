import PicoHybridCrypto.Tcp.System

/-! # The handle on the pcb

The socket owns a pcb from `wolf_TCPconnect` to `wolf_TCPclose`, unless lwIP frees it first and
says so by the err callback. `wolf_TCPclose` clears `tcp_pcb`; the err callback leaves it. The
handle is valid in every state of a run exactly when no err callback of the run is for the pcb
that the socket holds (`handles_valid_iff`). -/

set_option autoImplicit true

namespace PicoHybridCrypto

/-! ## Calls on a live pcb -/

section
variable {l : Lwip} {sock : Socket} {p : Pcb} (hp : sock.tcpPcb = some p) (hlive : l.Live p)
include hp hlive

theorem wolfTCPwrite_onLive (buff : CBuffer) (answer : ErrT) :
    l.OnLive (wolfTCPwrite sock buff answer).calls := by
  rw [← List.append_nil (wolfTCPwrite sock buff answer).calls]
  exact Lwip.onLive_append hlive (fun c hc => (wolfTCPwrite_calls_inert hc).1.trans hp)
    (fun c hc => (wolfTCPwrite_calls_inert hc).2.not_frees) fun _ _ => trivial

/-- The pcb survives its deregistrations and a failed `tcp_close`, so that the `tcp_abort` that
follows is still on a live pcb. -/
theorem wolfTCPclose_onLive (answer : ErrT) : l.OnLive (wolfTCPclose sock answer).calls := by
  simp only [wolfTCPclose, hp]
  have close (ds : List PcbCall) (hds : ∀ l' : Lwip, l'.Live p → l'.OnLive ds) :
      l.OnLive ([⟨.tcpArg false, some p⟩, ⟨.tcpPoll false 0, some p⟩, ⟨.tcpSent false, some p⟩,
        ⟨.tcpRecv false, some p⟩, ⟨.tcpErr false, some p⟩] ++ ds) := by
    refine Lwip.onLive_append hlive ?_ ?_ hds
    · simp only [List.forall_mem_cons, List.not_mem_nil, false_imp_iff, implies_true, and_self]
    · repeat' refine List.forall_mem_cons.mpr ⟨not_false, ?_⟩
      simp only [List.not_mem_nil, false_imp_iff, implies_true]
  split_ifs with hanswer
  · refine close _ fun l' h' => ⟨⟨p, rfl, h'⟩, ⟨p, rfl, ?_⟩, trivial⟩
    exact Lwip.live_apply (c := ⟨.tcpClose answer, some p⟩) hanswer h'
  · exact close _ fun l' h' => ⟨⟨p, rfl, h'⟩, trivial⟩

end

/-! ## Validity over a run -/

theorem connectCalls_not_frees {addr : SockaddrIn} {pcb : Option Pcb} {answer : ErrT}
    {c : PcbCall} (hc : c ∈ connectCalls addr pcb answer) : ¬Lwip.Frees c.fn := by
  simp only [connectCalls, List.mem_cons, List.not_mem_nil, or_false] at hc
  rcases hc with rfl | rfl | rfl | rfl | rfl | rfl <;> exact not_false

namespace Sys

/-- `tcp_pcb` is `NULL`, or a live pcb that a write or a close can make its calls on. -/
def HandleValid (s : Sys) : Prop :=
  ∀ p, s.sock.tcpPcb = some p → s.lwip.Live p ∧
    (∀ buff answer, s.lwip.OnLive (PicoHybridCrypto.wolfTCPwrite s.sock buff answer).calls) ∧
    ∀ answer, s.lwip.OnLive (wolfTCPclose s.sock answer).calls

/-- It is not an err callback for the pcb that the socket holds. -/
def KeepsHandle (s : Sys) : Label → Prop
  | .event (.callback tpcb (.err _)) => s.sock.tcpPcb ≠ some tpcb
  | _ => True

theorem handleValid_iff {s : Sys} :
    s.HandleValid ↔ ∀ p, s.sock.tcpPcb = some p → s.lwip.Live p := by
  constructor
  · exact fun h p hp => (h p hp).1
  · intro h p hp
    exact ⟨h p hp, wolfTCPwrite_onLive hp (h p hp), wolfTCPclose_onLive hp (h p hp)⟩

theorem callback_live {s : Sys} {p tpcb : Pcb} {c : Callback} (hlive : s.lwip.Live p)
    (hc : s.KeepsHandle (.event (.callback tpcb c))) (hp : s.sock.tcpPcb = some p) :
    (s.callback tpcb c).2.lwip.Live p := by
  show (Lwip.applyAll _ (c.run s.sock tpcb).calls).Live p
  rw [Lwip.applyAll_of_inert fun _ => Callback.calls_inert]
  cases c with
  | err code =>
    have hne : p ≠ tpcb := by
      rintro rfl
      exact hc hp
    exact (Lwip.live_free hne).mpr hlive
  | _ => exact hlive

theorem HandleValid.step {s t : Sys} {l : Label} {calls : List PcbCall} (H : s.HandleValid)
    (hl : s.KeepsHandle l) (h : machine.step s l = some (calls, t)) : t.HandleValid := by
  rw [handleValid_iff] at H ⊢
  intro p hp
  rcases step_cases h with ⟨addr, newPcb, answer, -, -, -, ht⟩ | ⟨buff, answer, -, -, ht⟩ |
    ⟨buff, len, -, -, -, rfl⟩ | ⟨e, rfl, ht⟩
  · cases newPcb with
    | none =>
      obtain ⟨-, rfl⟩ := Prod.mk.inj ht
      cases hp
    | some q =>
      obtain ⟨-, rfl⟩ := Prod.mk.inj ht
      cases hp
      show ((s.lwip.alloc p).applyAll (connectCalls addr (some p) answer)).Live p
      exact Lwip.live_applyAll (fun _ => connectCalls_not_frees) (Lwip.live_alloc_self s.lwip p)
  · obtain ⟨-, rfl⟩ := Prod.mk.inj ht
    show (s.lwip.applyAll _).Live p
    rw [Lwip.applyAll_of_inert fun _ hc => (wolfTCPwrite_calls_inert hc).2]
    exact H p hp
  · exact H p hp
  · obtain ⟨-, rfl⟩ := Prod.ext_iff.mp ht
    have hp' : s.sock.tcpPcb = some p := (s.event_tcpPcb e).symm.trans hp
    cases e with
    | tick =>
      show s.tick.lwip.Live p
      rw [s.tick_cases.1]
      exact H p hp'
    | callback tpcb c => exact callback_live (H p hp') hl hp'

/-- The err callback for the pcb that the socket holds leaves the handle on a freed pcb. -/
theorem not_handleValid_err {s : Sys} {p : Pcb} (hp : s.sock.tcpPcb = some p) (code : ErrT) :
    ¬(s.event (.callback p (.err code))).2.HandleValid := by
  intro H
  have hcalls := (Callback.Quiet.run (c := .err code) trivial s.sock p).2.2
  have hlive := handleValid_iff.mp H p ((s.event_tcpPcb _).trans hp)
  simp only [event, callback, hcalls, Lwip.applyAll_nil] at hlive
  exact Lwip.not_live_free_self s.lwip p hlive

end Sys

/-- From `wolf_TCPsocket` on, through connects, writes, reads and callbacks in any order: the
handle is valid in every state of the run if and only if no err callback of the run is for the
pcb that the socket holds at that moment. -/
theorem handles_valid_iff (l : Lwip) (ls : List Label) :
    Sys.machine.Always (fun _ _ s => s.HandleValid) (.start l) ls ↔
      Sys.machine.Along Sys.KeepsHandle (.start l) ls := by
  refine Machine.always_iff_along (I := fun _ _ s => s.HandleValid) (L := fun _ => True)
    id (fun _ H hl h => H.step hl h) ?_ (fun _ _ => trivial) ?_
  · intro _ _ s label _ _ hl
    have hbad : ∃ p code, label = .event (.callback p (.err code)) ∧ s.sock.tcpPcb = some p := by
      unfold Sys.KeepsHandle at hl
      split at hl
      · exact ⟨_, _, rfl, not_not.mp hl⟩
      · exact (hl trivial).elim
    obtain ⟨p, code, rfl, hp⟩ := hbad
    exact ⟨_, _, rfl, Sys.not_handleValid_err hp code⟩
  · intro p hp
    cases hp

/-- A connection is open, lwIP resets it and runs the err callback that `wolf_TCPconnect` has
registered, and the handle is left on the freed pcb. -/
theorem reset_leaves_handle :
    (Sys.opened.lwip.pcbs 1).any PcbState.err ∧
      ¬Sys.machine.Always (fun _ _ s => s.HandleValid) (.start ⟨fun _ => none⟩)
        (Sys.openLabels ++ [.event (.callback 1 (.err errRst))]) := by
  refine ⟨rfl, fun h => ?_⟩
  refine Sys.not_handleValid_err (s := Sys.opened) (p := 1) rfl errRst ?_
  exact h _ List.prefix_rfl _ _ (Machine.run_append Sys.run_openLabels rfl)

end PicoHybridCrypto
