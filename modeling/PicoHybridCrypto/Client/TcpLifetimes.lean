import PicoHybridCrypto.Client.TcpClient

/-! # What the TCP client releases

`tcpClient_test` makes one connection and leaves through one exit, where it closes the socket with
`wolf_TCPclose`. So no pcb is left with the freed socket as its argument, and the pcb is released
exactly once, rightly so unless lwIP has dropped it before (`tcp_client_releases`). -/

set_option autoImplicit true

namespace PicoHybridCrypto

theorem Lwip.Carries.live {l : Lwip} {p : Pcb} (h : l.Carries p) : l.Live p := by
  obtain ⟨st, hst, -⟩ := h
  rw [Live, hst]
  rfl

/-- The last call of `wolf_TCPclose` can be made on a live pcb only if the first can. -/
theorem wolfTCPclose_onLive_iff {l : Lwip} {sock : Socket} {p : Pcb} (hp : sock.tcpPcb = some p)
    (answer : ErrT) : l.OnLive (wolfTCPclose sock answer).calls ↔ l.Live p := by
  constructor
  · rw [wolfTCPclose_calls hp]
    rintro ⟨⟨q, hq, hlive⟩, -⟩
    cases hq
    exact hlive
  · exact fun h => wolfTCPclose_onLive hp h answer

/-! ## The pcbs of a run -/

namespace Sys

variable {s t : Sys} {calls : List PcbCall}

theorem step_not_frees {a : Label} (h : machine.step s a = some (calls, t)) :
    ∀ c ∈ calls, ¬Lwip.Frees c.fn := by
  rcases step_cases h with ⟨addr, newPcb, answer, -, -, -, ht⟩ | ⟨buff, answer, -, -, ht⟩ |
    ⟨buff, len, -, -, rfl, -⟩ | ⟨e, -, ht⟩
  · cases newPcb <;> cases ht
    · nofun
    · exact fun _ => connectCalls_not_frees
  · cases ht
    exact fun _ hc => (wolfTCPwrite_calls_inert hc).2.not_frees
  · nofun
  · obtain ⟨rfl, -⟩ := Prod.ext_iff.mp ht
    cases e with
    | tick => nofun
    | callback tpcb c => exact fun _ hc => (Callback.calls_inert hc).not_frees

/-- The program frees no pcb before the close. -/
theorem run_not_frees {ls : List Label} (h : machine.run s ls = some (calls, t)) :
    ∀ c ∈ calls, ¬Lwip.Frees c.fn := by
  refine Machine.run_history (I := fun _ calls _ => ∀ c ∈ calls, ¬Lwip.Frees c.fn)
    (L := fun _ => True) ?_ (fun _ _ => trivial) nofun h
  intro _ calls _ _ out _ _ ih hstep c hc
  rcases List.mem_append.mp hc with hc | hc
  · exact ih c hc
  · exact step_not_frees hstep c hc

theorem step_tcpPcb {a : Label} (ha : a.newPcb? = none)
    (h : machine.step s a = some (calls, t)) : t.sock.tcpPcb = s.sock.tcpPcb := by
  rcases step_cases h with ⟨addr, newPcb, answer, rfl, -⟩ | ⟨buff, answer, -, -, ht⟩ |
    ⟨buff, len, -, -, -, rfl⟩ | ⟨e, -, ht⟩
  · cases ha
  · cases ht
    rfl
  · rfl
  · obtain ⟨-, rfl⟩ := Prod.ext_iff.mp ht
    exact s.event_tcpPcb e

theorem run_tcpPcb {ls : List Label} (hls : ∀ a ∈ ls, a.newPcb? = none)
    (h : machine.run s ls = some (calls, t)) : t.sock.tcpPcb = s.sock.tcpPcb :=
  Machine.run_history (I := fun _ _ t => t.sock.tcpPcb = s.sock.tcpPcb)
    (fun ha ih hstep => (step_tcpPcb ha hstep).trans ih) hls rfl h

/-- Between connects lwIP drops the pcbs it reports errors for, and no others. -/
theorem step_live {a : Label} (ha : a.newPcb? = none)
    (h : machine.step s a = some (calls, t)) (p : Pcb) :
    t.lwip.Live p ↔ s.lwip.Live p ∧ ¬a.ErrFor p := by
  have kept (hlwip : t.lwip = s.lwip) (hnoErr : a.NoErr) :
      t.lwip.Live p ↔ s.lwip.Live p ∧ ¬a.ErrFor p := by
    rw [hlwip, and_iff_left (hnoErr.not_errFor p)]
  rcases step_cases h with ⟨addr, newPcb, answer, rfl, -⟩ | ⟨buff, answer, rfl, -, ht⟩ |
    ⟨buff, len, rfl, -, rfl, rfl⟩ | ⟨e, rfl, ht⟩
  · cases ha
  · cases ht
    exact kept (Lwip.applyAll_of_inert (fun _ hc => (wolfTCPwrite_calls_inert hc).2) _) trivial
  · exact kept rfl trivial
  · obtain ⟨rfl, rfl⟩ := Prod.ext_iff.mp ht
    by_cases hnoErr : (Label.event e).NoErr
    · exact kept (event_lwip hnoErr).1 hnoErr
    · obtain ⟨q, code, rfl⟩ := Event.exists_err hnoErr
      rw [event_err_lwip, Label.errFor_iff]
      by_cases hp : p = q
      · subst hp
        exact iff_of_false (Lwip.not_live_free_self _ p) fun h => h.2 rfl
      · rw [Lwip.live_free hp, and_iff_left hp]

theorem run_live {ls : List Label} (hls : ∀ a ∈ ls, a.newPcb? = none)
    (h : machine.run s ls = some (calls, t)) (p : Pcb) :
    t.lwip.Live p ↔ s.lwip.Live p ∧ ∀ a ∈ ls, ¬a.ErrFor p := by
  refine Machine.run_history
    (I := fun ls _ t => t.lwip.Live p ↔ s.lwip.Live p ∧ ∀ a ∈ ls, ¬a.ErrFor p)
    ?_ hls (by simp) h
  intro ls tr t a out u ha ih hstep
  rw [step_live ha hstep p, ih]
  simp only [List.mem_append, List.mem_singleton, or_imp, forall_and, forall_eq, and_assoc]

end Sys

/-! ## The labels of an execution -/

namespace TcpOutcomes

/-- What happens to the socket from `wolf_TCPsocket` to `exit:`. -/
def labels (o : TcpOutcomes) (buffer : Int → UInt8) : List Label :=
  if o.inetPton ≠ 1 then []
  else
    (.connect o.servAddr o.newPcb o.answer :: o.connecting.map .event) ++
      if o.newPcb.isSome ∧ o.answer ≠ errOk then []
      else
        (.write fakeClientHello o.writeAnswer :: o.sending.map .event) ++
          (.read buffer buffSize :: .event .tick :: o.receiving.map .event)

/-- The pcb of the connect, if there is one. -/
def pcb (o : TcpOutcomes) : Option Pcb := if o.inetPton ≠ 1 then none else o.newPcb

variable {o : TcpOutcomes} {s t : Sys}

theorem connect_run (h : s.perform
      (.connect o.servAddr o.newPcb o.answer :: o.connecting.map .event) = some t) :
    (∃ calls, Sys.machine.run s
      (.connect o.servAddr o.newPcb o.answer :: o.connecting.map .event) = some (calls, t)) ∧
    (t.control.connectRet ≠ some wolfSuccess ↔ o.newPcb.isSome ∧ o.answer ≠ errOk) := by
  obtain ⟨⟨calls, hrun⟩, hb⟩ := Sys.perform_eq_some.mp h
  obtain ⟨calls₀, s₀, hstep, ht⟩ := run_call hrun
  obtain ⟨-, hstep⟩ := Option.ite_none_right_eq_some.mp hstep
  obtain ⟨-, rfl⟩ := Prod.ext_iff.mp (Option.some.inj hstep)
  exact ⟨⟨calls, hrun⟩, Sys.connectRet_iff ht hb⟩

/-- A jump to `exit:` is made behind the labels of the run, and so is the call of `recv`. -/
theorem untilRecv_run (buffer : Int → UInt8) {r : Except Sys Sys}
    (h : o.untilRecv s = some r) :
    match r with
    | .error t => ∃ calls, Sys.machine.run s (o.labels buffer) = some (calls, t)
    | .ok t => t.control.between ∧ ∃ pre calls, Sys.machine.run s pre = some (calls, t) ∧
        o.labels buffer = pre ++ .read buffer buffSize :: .event .tick :: o.receiving.map .event := by
  rw [untilRecv] at h
  unfold labels
  by_cases haddr : o.inetPton ≠ 1
  · rw [if_pos haddr] at h
    cases h
    rw [if_pos haddr]
    exact ⟨[], rfl⟩
  rw [if_neg haddr] at h
  rw [if_neg haddr]
  obtain ⟨s₁, hconnect, h⟩ := Option.bind_eq_some_iff.mp h
  obtain ⟨⟨calls₁, h₁⟩, hfails⟩ := connect_run hconnect
  by_cases hrefused : o.newPcb.isSome ∧ o.answer ≠ errOk
  · rw [if_pos (hfails.mpr hrefused)] at h
    cases h
    rw [if_pos hrefused, List.append_nil]
    exact ⟨calls₁, h₁⟩
  rw [if_neg (mt hfails.mp hrefused)] at h
  rw [if_neg hrefused]
  obtain ⟨s₂, hwrite, h⟩ := Option.map_eq_some_iff.mp h
  rw [if_neg (write_not_negative hwrite)] at h
  cases h
  obtain ⟨⟨calls₂, h₂⟩, hb⟩ := Sys.perform_eq_some.mp hwrite
  exact ⟨hb, _, _, Machine.run_append h₁ h₂, (List.append_assoc _ _ _).symm⟩

theorem recv_run {buffer : Int → UInt8} {message : Option Message}
    (h : o.recv buffer s = some (message, t)) : ∃ calls,
      Sys.machine.run s (.read buffer buffSize :: .event .tick :: o.receiving.map .event) =
        some (calls, t) := by
  obtain ⟨t', hperform, ht⟩ := Option.map_eq_some_iff.mp h
  obtain ⟨⟨calls, hrun⟩, -⟩ := Sys.perform_eq_some.mp hperform
  refine ⟨calls, ?_⟩
  split at ht <;> obtain ⟨-, rfl⟩ := Prod.mk.inj ht <;> exact hrun

/-- An execution that gets a socket and returns is a run of the system and a close. -/
theorem run_of_returns {buffer : Int → UInt8} {l : Lwip} {r : TcpResult}
    (hsocket : o.socket = true) (h : tcpClientTest o buffer l = some r) :
    ∃ calls s, Sys.machine.run (.start l) (o.labels buffer) = some (calls, s) ∧
      r.lwip = s.lwip.applyAll (wolfTCPclose s.sock o.closeAnswer).calls := by
  rw [tcpClientTest_of_socket hsocket] at h
  obtain ⟨u, huntil, h⟩ := Option.bind_eq_some_iff.mp h
  have hrun := untilRecv_run buffer huntil
  cases u with
  | error s =>
    cases h
    obtain ⟨calls, hrun⟩ := hrun
    exact ⟨calls, s, hrun, rfl⟩
  | ok s =>
    obtain ⟨-, pre, calls, hpre, hlabels⟩ := hrun
    obtain ⟨⟨message, t⟩, hrecv, rfl⟩ := Option.map_eq_some_iff.mp h
    obtain ⟨calls', hread⟩ := recv_run hrecv
    exact ⟨_, t, hlabels ▸ Machine.run_append hpre hread, rfl⟩

/-- Behind the connect there is no other. -/
theorem labels_eq (o : TcpOutcomes) (buffer : Int → UInt8) (haddr : o.inetPton = 1) :
    ∃ rest, o.labels buffer = .connect o.servAddr o.newPcb o.answer :: rest ∧
      ∀ a ∈ rest, a.newPcb? = none := by
  have events (es : List Event) : ∀ a ∈ es.map Label.event, a.newPcb? = none := by
    intro a ha
    obtain ⟨e, -, rfl⟩ := List.mem_map.mp ha
    rfl
  rw [labels, if_neg (not_not.mpr haddr)]
  refine ⟨_, rfl, fun a ha => ?_⟩
  rcases List.mem_append.mp ha with ha | ha
  · exact events _ a ha
  · split_ifs at ha
    · cases ha
    · rcases List.mem_append.mp ha with ha | ha
      · rcases List.mem_cons.mp ha with rfl | ha
        · rfl
        · exact events _ a ha
      · rcases List.mem_cons.mp ha with rfl | ha
        · rfl
        · rcases List.mem_cons.mp ha with rfl | ha
          · rfl
          · exact events _ a ha

/-- The state in which the socket is closed: the handle is on the pcb of the connect, which is
live, and the only pcb to carry the socket, unless lwIP has reported an error for it. -/
theorem at_exit {l : Lwip} (hl : ∀ p, ¬l.Carries p) {buffer : Int → UInt8}
    {calls : List PcbCall} (h : Sys.machine.run (.start l) (o.labels buffer) = some (calls, s)) :
    s.sock.tcpPcb = o.pcb ∧ (∀ p, s.lwip.Carries p → o.pcb = some p) ∧
      ∀ p ∈ o.pcb, (s.lwip.Live p ↔ ∀ a ∈ o.labels buffer, ¬a.ErrFor p) := by
  by_cases haddr : o.inetPton = 1
  · have hpcb : o.pcb = o.newPcb := if_neg (not_not.mpr haddr)
    obtain ⟨rest, hlabels, hrest⟩ := o.labels_eq buffer haddr
    rw [hlabels] at h ⊢
    obtain ⟨calls₀, s₀, calls₁, hstep, hrun, -⟩ := Machine.run_cons_eq_some.mp h
    obtain ⟨-, hstep⟩ := Option.ite_none_right_eq_some.mp hstep
    obtain ⟨-, rfl⟩ := Prod.ext_iff.mp (Option.some.inj hstep)
    rw [hpcb]
    refine ⟨(Sys.run_tcpPcb hrest hrun).trans ?_, fun p hp => ?_, fun p hp => ?_⟩
    · cases o.newPcb <;> rfl
    · have hcarries := ((Sys.run_carries hrest hrun p).mp hp).1
      cases hnew : o.newPcb with
      | none =>
        rw [hnew] at hcarries
        exact (hl p hcarries).elim
      | some q =>
        rw [hnew] at hcarries
        have := (connect_carries l o.servAddr q o.answer p).mp hcarries
        rw [or_iff_left (hl p)] at this
        rw [this]
    · have hlive : ((Sys.start l).wolfTCPconnect o.servAddr o.newPcb o.answer).2.lwip.Live p := by
        rw [Option.mem_def.mp hp]
        exact ((connect_carries l o.servAddr p o.answer p).mpr (.inl rfl)).live
      have hconnect : ¬(Label.connect o.servAddr o.newPcb o.answer).ErrFor p := nofun
      rw [Sys.run_live hrest hrun p, and_iff_right hlive, List.forall_mem_cons,
        and_iff_right hconnect]
  · have hpcb : o.pcb = none := if_pos haddr
    rw [labels, if_pos haddr] at h
    cases h
    rw [hpcb]
    exact ⟨rfl, fun p hp => (hl p hp).elim, nofun⟩

end TcpOutcomes

/-- For every outcome of every library call and every interleaving of lwIP's callbacks with them,
an execution that gets a socket and returns is a run of the system followed by the close: the pcb
of the connect is freed once, no pcb carries the freed socket, and the calls of the close are made
on a live pcb if and only if lwIP reports no error for it. -/
theorem tcp_client_releases {l : Lwip} (hl : ∀ p, ¬l.Carries p) {o : TcpOutcomes}
    {buffer : Int → UInt8} {r : TcpResult} (hsocket : o.socket = true)
    (h : tcpClientTest o buffer l = some r) : ∃ calls s,
    let close := (wolfTCPclose s.sock o.closeAnswer).calls
    Sys.machine.run (.start l) (o.labels buffer) = some (calls, s) ∧
    r.lwip = s.lwip.applyAll close ∧
    (∀ p ∈ o.pcb, releases (calls ++ close) p = 1) ∧
    (∀ p, ¬r.lwip.Carries p) ∧
    (s.lwip.OnLive close ↔ ∀ p ∈ o.pcb, ∀ a ∈ o.labels buffer, ¬a.ErrFor p) := by
  obtain ⟨calls, s, hrun, hr⟩ := TcpOutcomes.run_of_returns hsocket h
  obtain ⟨htcp, hcarrier, hlive⟩ := TcpOutcomes.at_exit hl hrun
  refine ⟨calls, s, hrun, hr, fun p hp => ?_, fun p hp => ?_, ?_⟩
  · rw [releases_append, releases_eq_zero (Sys.run_not_frees hrun),
      wolfTCPclose_calls (htcp.trans hp), releases_close]
  · rw [hr] at hp
    cases hpcb : o.pcb with
    | none =>
      rw [wolfTCPclose_calls_none (htcp.trans hpcb)] at hp
      cases hpcb.symm.trans (hcarrier p hp)
    | some q =>
      rw [wolfTCPclose_calls (htcp.trans hpcb), close_carries] at hp
      exact hp.1 (Option.some.inj ((hcarrier p hp.2).symm.trans hpcb))
  · cases hpcb : o.pcb with
    | none =>
      rw [wolfTCPclose_calls_none (htcp.trans hpcb)]
      exact iff_of_true trivial nofun
    | some q =>
      rw [wolfTCPclose_onLive_iff (htcp.trans hpcb), hlive q hpcb]
      simp only [Option.mem_def, Option.some.injEq, forall_eq']

/-- `tcp_connect` refuses the pcb. -/
def refusedConnect : TcpOutcomes where
  socket := true
  inetPton := 1
  servAddr := ⟨0, 0⟩
  newPcb := some 1
  answer := errMem
  connecting := [.tick]
  writeAnswer := errOk
  sending := []
  receiving := []
  closeAnswer := errOk

theorem tcp_client_releases_refused : ∃ r,
    tcpClientTest refusedConnect (fun _ => 0) ⟨fun _ => none⟩ = some r ∧
      ∀ p, ¬r.lwip.Carries p := by
  obtain ⟨r, hr⟩ : ∃ r, tcpClientTest refusedConnect (fun _ => 0) ⟨fun _ => none⟩ = some r :=
    ⟨_, rfl⟩
  refine ⟨r, hr, ?_⟩
  have hl (p : Pcb) : ¬Lwip.Carries ⟨fun _ => none⟩ p := by
    rintro ⟨st, hst, -⟩
    cases hst
  obtain ⟨calls, s, -, -, -, hcarrier, -⟩ := tcp_client_releases hl rfl hr
  exact hcarrier

end PicoHybridCrypto
