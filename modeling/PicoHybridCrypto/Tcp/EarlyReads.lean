import PicoHybridCrypto.Tcp.ReadWait
import PicoHybridCrypto.Tcp.StreamAccounting
import PicoHybridCrypto.Tcp.Visible

/-! # Reading more often

Two runs of the system with the same connects, writes, reads and callbacks, where the second has
reads between them that the first does not have. Acknowledgements do the same to both sockets
(`Socket.SameAcks`), and the second never has more unread bytes than the first, so that it keeps
every byte that the first keeps (`early_reads_lose_no_more`). -/

set_option autoImplicit true

namespace PicoHybridCrypto
open TailDrop

/-- The second list is the first with reads put in, each with its first test. -/
inductive MoreReads : List Label → List Label → Prop
  | nil : MoreReads [] []
  | label (a : Label) : MoreReads ls ls' → MoreReads (a :: ls) (a :: ls')
  | read (buff : Int → UInt8) (len : UInt32) :
    MoreReads ls ls' → MoreReads ls (.read buff len :: .event .tick :: ls')

/-- The second caller is where the first is, or still in a read that the first has finished or
never started. -/
def Control.Ahead (c c' : Control) : Prop :=
  c = c' ∨ c.between ∧ (c'.between ∨ ∃ buff len, c' = .readWait buff len)

namespace Socket

/-- The two sockets are connected alike and count acknowledgements alike. -/
structure SameAcks (sock sock' : Socket) : Prop where
  sentLen : sock.sentLen = sock'.sentLen
  runCount : sock.runCount = sock'.runCount
  connected : sock.connected = sock'.connected

variable {sock sock' : Socket}

theorem SameAcks.clears (h : sock.SameAcks sock') (len : UInt16) :
    sock.Clears len ↔ sock'.Clears len := by
  rw [Clears, Clears, h.sentLen, h.runCount]

theorem SameAcks.callback (h : sock.SameAcks sock') (H : sock.WF) (H' : sock'.WF) (c : Callback)
    (tpcb : Pcb) : (c.run sock tpcb).sock.SameAcks (c.run sock' tpcb).sock := by
  have hvisible {v v' : Visible} (hs : v.sentLen = v'.sentLen) (hr : v.runCount = v'.runCount)
      (hc : v.connected = v'.connected) : (v.run c).sentLen = (v'.run c).sentLen ∧
      (v.run c).runCount = (v'.run c).runCount ∧ (v.run c).connected = (v'.run c).connected := by
    cases c with
    | recv p => cases p <;> exact ⟨hs, hr, hc⟩
    | sent len =>
      simp only [Visible.run, Visible.sent, hs, hr]
      split_ifs <;> exact ⟨rfl, rfl, hc⟩
    | connected code => exact ⟨hs, hr, congrArg (· || decide (code = errOk)) hc⟩
    | poll => exact ⟨hs, hr, hc⟩
    | err => exact ⟨hs, hr, hc⟩
  have hsent : sock.visible.sentLen = sock'.visible.sentLen := h.sentLen
  obtain ⟨hs, hr, hc⟩ := hvisible hsent h.runCount h.connected
  rw [← visible_run H c tpcb, ← visible_run H' c tpcb] at hs hr hc
  exact ⟨hs, hr, hc⟩

/-- A read changes nothing of it. -/
theorem SameAcks.read (H : sock.WF) (buff : Int → UInt8) (len : UInt32) :
    sock.SameAcks (readBuffered sock buff len).sock := by
  have hv := visible_read H buff len
  exact ⟨(congrArg Visible.sentLen hv).symm, (congrArg Visible.runCount hv).symm,
    (congrArg Visible.connected hv).symm⟩

theorem SameAcks.symm (h : sock.SameAcks sock') : sock'.SameAcks sock :=
  ⟨h.sentLen.symm, h.runCount.symm, h.connected.symm⟩

theorem SameAcks.trans {sock'' : Socket} (h : sock.SameAcks sock') (h' : sock'.SameAcks sock'') :
    sock.SameAcks sock'' :=
  ⟨h.sentLen.trans h'.sentLen, h.runCount.trans h'.runCount, h.connected.trans h'.connected⟩

end Socket

namespace Sys

/-! ## The second system reads ahead of the first -/

/-- What holds between the two runs so far, with the queues of unread bytes. -/
structure ReadsAhead (q q' : TailDrop UInt8 bufSize) (tr tr' : List Obs) (s s' : Sys) : Prop where
  holds : s.sock.Holds q
  holds' : s'.sock.Holds q'
  acks : s.sock.SameAcks s'.sock
  control : s.control.Ahead s'.control
  credited : creditedBytes tr' = creditedBytes tr
  ahead : Ahead (returnedBytes tr) q (returnedBytes tr') q'

variable {s s' t t' : Sys} {q q' : TailDrop UInt8 bufSize} {tr tr' out out' : List Obs} {a : Label}

namespace ReadsAhead

variable (H : ReadsAhead q q' tr tr' s s')
include H

/-- Both queues take the same operation, or one of them hands some bytes out: the second at any
time, the first only while the second is empty. -/
theorem of_effects {op op' : TailDrop.Op UInt8} (hacks : t.sock.SameAcks t'.sock)
    (hcontrol : t.control.Ahead t'.control) (h : Explains q op out t) (h' : Explains q' op' out' t')
    (hops : op = op' ∨ (op = .skip ∧ ∃ n, op' = .pop n) ∨
      (∃ n, op = .pop n) ∧ op' = .skip ∧ q'.items = []) :
    ReadsAhead (q.apply op) (q'.apply op') (tr ++ out) (tr' ++ out') t t' := by
  refine ⟨h.holds, h'.holds, hacks, hcontrol, ?_, ?_⟩
  · rw [creditedBytes_append, creditedBytes_append, H.credited, h.credited, h'.credited]
    rcases hops with rfl | ⟨rfl, n, rfl⟩ | ⟨⟨n, rfl⟩, rfl, -⟩ <;> rfl
  · rw [returnedBytes_append, returnedBytes_append, h.returned, h'.returned]
    rcases hops with rfl | ⟨rfl, n, rfl⟩ | ⟨⟨n, rfl⟩, rfl, hempty⟩
    · exact H.ahead.apply op
    · rw [show q.taken .skip = [] from rfl, List.append_nil]
      exact H.ahead.pop_right n
    · rw [show q'.taken .skip = [] from rfl, List.append_nil]
      exact H.ahead.pop_left hempty n

theorem bufferLen_pos (hpos : 0 < s'.sock.bufferLen) : 0 < s.sock.bufferLen := by
  have hle := H.ahead.length
  rw [← H.holds.unread, ← H.holds'.unread] at hle
  have := H.holds.wf.length_unread
  have := H.holds'.wf.length_unread
  omega

theorem items_eq_nil (hpos : ¬0 < s'.sock.bufferLen) : q'.items = [] := by
  rw [← H.holds'.unread]
  exact not_not.mp (mt H.holds'.wf.bufferLen_pos_iff.mpr hpos)

end ReadsAhead

theorem tick_of_between (h : s.control.between) : s.tick = s := by
  obtain ⟨sock, lwip, control⟩ := s
  cases control <;> first | rfl | cases h

theorem effect_tick_of_between (h : s.control.between) : s.effect (.event .tick) = .skip := by
  obtain ⟨sock, lwip, control⟩ := s
  cases control <;> first | rfl | cases h

theorem effect_tick_readWait (h : s.control = .readWait buff len) : s.effect (.event .tick) =
    if 0 < s.sock.bufferLen then .pop len.toNat else .skip := by
  simp only [effect, h]

/-- The test of a read that the first caller is not in. -/
theorem ReadsAhead.tick_right (H : ReadsAhead q q' tr tr' s s') (hb : s.control.between)
    (hs' : s'.control = .readWait buff len) :
    s.sock.SameAcks s'.tick.sock ∧ s.control.Ahead s'.tick.control ∧
      (s'.effect (.event .tick) = .skip ∨ ∃ n, s'.effect (.event .tick) = .pop n) := by
  rw [effect_tick_readWait hs', tick_readWait hs']
  split_ifs
  · exact ⟨H.acks.trans (.read H.holds'.wf buff len), .inr ⟨hb, .inl rfl⟩, .inr ⟨_, rfl⟩⟩
  · exact ⟨H.acks, .inr ⟨hb, .inr ⟨buff, len, hs'⟩⟩, .inl rfl⟩

/-- The test of a read that both callers are in. If only the first finds bytes, the second waits
on. -/
theorem ReadsAhead.tick_both (H : ReadsAhead q q' tr tr' s s') (hs : s.control = .readWait buff len)
    (hs' : s'.control = .readWait buff len) :
    s.tick.sock.SameAcks s'.tick.sock ∧ s.tick.control.Ahead s'.tick.control ∧
      (s.effect (.event .tick) = s'.effect (.event .tick) ∨
        (∃ n, s.effect (.event .tick) = .pop n) ∧ s'.effect (.event .tick) = .skip ∧
          q'.items = []) := by
  have hread : s.sock.SameAcks (readBuffered s.sock buff len).sock := .read H.holds.wf buff len
  rw [effect_tick_readWait hs, effect_tick_readWait hs', tick_readWait hs, tick_readWait hs']
  by_cases hpos' : 0 < s'.sock.bufferLen
  · have hpos := H.bufferLen_pos hpos'
    rw [if_pos hpos, if_pos hpos', if_pos hpos, if_pos hpos']
    exact ⟨hread.symm.trans (H.acks.trans (.read H.holds'.wf buff len)),
      .inr ⟨rfl, .inl rfl⟩, .inl rfl⟩
  · rw [if_neg hpos', if_neg hpos']
    by_cases hpos : 0 < s.sock.bufferLen
    · rw [if_pos hpos, if_pos hpos]
      exact ⟨hread.symm.trans H.acks, .inr ⟨rfl, .inr ⟨buff, len, hs'⟩⟩,
        .inr ⟨⟨_, rfl⟩, rfl, H.items_eq_nil hpos'⟩⟩
    · rw [if_neg hpos, if_neg hpos]
      exact ⟨H.acks, .inl (hs.trans hs'.symm), .inl rfl⟩

/-- A statement of both callers. -/
theorem ReadsAhead.tick (H : ReadsAhead q q' tr tr' s s') :
    s.tick.sock.SameAcks s'.tick.sock ∧ s.tick.control.Ahead s'.tick.control ∧
      (s.effect (.event .tick) = s'.effect (.event .tick) ∨
        (s.effect (.event .tick) = .skip ∧ ∃ n, s'.effect (.event .tick) = .pop n) ∨
        (∃ n, s.effect (.event .tick) = .pop n) ∧ s'.effect (.event .tick) = .skip ∧
          q'.items = []) := by
  rcases H.control with heq | ⟨hb, hb' | ⟨buff, len, hs'⟩⟩
  · by_cases hwait : ∃ buff len, s.control = .readWait buff len
    · obtain ⟨buff, len, hs⟩ := hwait
      obtain ⟨hacks, hcontrol, hops⟩ := H.tick_both hs (heq.symm.trans hs)
      exact ⟨hacks, hcontrol, hops.imp_right .inr⟩
    · have hacks := H.acks
      clear H
      obtain ⟨sock, lwip, control⟩ := s
      obtain ⟨sock', lwip', control'⟩ := s'
      obtain rfl : control = control' := heq
      cases control with
      | readWait buff len => exact (hwait ⟨buff, len, rfl⟩).elim
      | connectClear => exact ⟨⟨hacks.sentLen, hacks.runCount, rfl⟩, .inl rfl, .inl rfl⟩
      | connectWait =>
        have hconnected : sock.connected = sock'.connected := hacks.connected
        refine ⟨hacks, .inl ?_, .inl rfl⟩
        simp only [Sys.tick, hconnected]
      | _ => exact ⟨hacks, .inl rfl, .inl rfl⟩
  · rw [tick_of_between hb, tick_of_between hb', effect_tick_of_between hb,
      effect_tick_of_between hb']
    exact ⟨H.acks, H.control, .inl rfl⟩
  · obtain ⟨hacks, hcontrol, hop⟩ := H.tick_right hb hs'
    rw [tick_of_between hb, effect_tick_of_between hb]
    exact ⟨hacks, hcontrol, hop.imp Eq.symm fun hpop => .inl ⟨rfl, hpop⟩⟩

/-- The step lemma: a step that both systems take. -/
theorem ReadsAhead.step (H : ReadsAhead q q' tr tr' s s') (h : streams.step s a = some (out, t))
    (h' : streams.step s' a = some (out', t')) :
    ∃ r r', ReadsAhead r r' (tr ++ out) (tr' ++ out') t t' := by
  have hexp := streams_step H.holds h
  have hexp' := streams_step H.holds' h'
  obtain ⟨calls, hstep, -⟩ := Machine.emit_step_eq_some.mp h
  obtain ⟨calls', hstep', -⟩ := Machine.emit_step_eq_some.mp h'
  have hacks := H.acks
  cases a with
  | connect addr newPcb answer =>
    obtain ⟨-, ht⟩ := Option.ite_none_right_eq_some.mp hstep
    obtain ⟨-, ht'⟩ := Option.ite_none_right_eq_some.mp hstep'
    cases newPcb with
    | none =>
      cases ht
      cases ht'
      exact ⟨_, _, H.of_effects ⟨hacks.sentLen, hacks.runCount, hacks.connected⟩ (.inl rfl) hexp
        hexp' (.inl rfl)⟩
    | some p =>
      cases ht
      cases ht'
      exact ⟨_, _, H.of_effects ⟨hacks.sentLen, hacks.runCount, hacks.connected⟩ (.inl rfl) hexp
        hexp' (.inl rfl)⟩
  | write buff answer =>
    obtain ⟨-, ht⟩ := Option.ite_none_right_eq_some.mp hstep
    obtain ⟨-, ht'⟩ := Option.ite_none_right_eq_some.mp hstep'
    cases ht
    cases ht'
    exact ⟨_, _, H.of_effects ⟨rfl, hacks.runCount, hacks.connected⟩ (.inl rfl) hexp hexp'
      (.inl rfl)⟩
  | read buff len =>
    obtain ⟨-, ht⟩ := Option.ite_none_right_eq_some.mp hstep
    obtain ⟨-, ht'⟩ := Option.ite_none_right_eq_some.mp hstep'
    cases ht
    cases ht'
    exact ⟨_, _, H.of_effects hacks (.inl rfl) hexp hexp' (.inl rfl)⟩
  | event e =>
    obtain ⟨-, rfl⟩ := Prod.ext_iff.mp (Option.some.inj hstep)
    obtain ⟨-, rfl⟩ := Prod.ext_iff.mp (Option.some.inj hstep')
    cases e with
    | tick =>
      obtain ⟨hacks, hcontrol, hops⟩ := H.tick
      exact ⟨_, _, H.of_effects hacks hcontrol hexp hexp' hops⟩
    | callback tpcb c =>
      refine ⟨_, _, H.of_effects (hacks.callback H.holds.wf H.holds'.wf c tpcb) H.control hexp hexp'
        (.inl ?_)⟩
      cases c with
      | sent len => simp only [effect, hacks.clears]
      | recv p => cases p <;> rfl
      | _ => rfl

/-- A read that only the second system makes. -/
theorem ReadsAhead.read (H : ReadsAhead q q' tr tr' s s') {u : Sys}
    (h : streams.step s' (.read buff len) = some (out, u))
    (h' : streams.step u (.event .tick) = some (out', t')) :
    ∃ r', ReadsAhead q r' tr (tr' ++ (out ++ out')) s t' := by
  have hexp := streams_step H.holds' h
  obtain ⟨calls, hstep, -⟩ := Machine.emit_step_eq_some.mp h
  obtain ⟨hb', hu⟩ := Option.ite_none_right_eq_some.mp hstep
  cases hu
  have hb : s.control.between := by
    rcases H.control with heq | ⟨hb, -⟩
    · rwa [heq]
    · exact hb
  have hacks : s.sock.SameAcks (s'.wolfTCPread buff len).sock := H.acks
  have hcalled := H.of_effects hacks (.inr ⟨hb, .inr ⟨buff, len, rfl⟩⟩) (.skip H.holds) hexp
    (.inl rfl)
  have hexp' := streams_step hcalled.holds' h'
  obtain ⟨calls', hstep', -⟩ := Machine.emit_step_eq_some.mp h'
  obtain ⟨-, rfl⟩ := Prod.ext_iff.mp (Option.some.inj hstep')
  obtain ⟨hacks, hcontrol, hop⟩ := hcalled.tick_right hb rfl
  have htested := hcalled.of_effects hacks hcontrol (.skip hcalled.holds) hexp'
    (hop.imp Eq.symm fun hpop => .inl ⟨rfl, hpop⟩)
  rw [List.append_nil, List.append_nil, List.append_assoc] at htested
  exact ⟨_, htested⟩

theorem ReadsAhead.run {ls ls' : List Label} (hmore : MoreReads ls ls')
    (H : ReadsAhead q q' tr tr' s s') (h : streams.run s ls = some (out, t))
    (h' : streams.run s' ls' = some (out', t')) :
    ∃ r r', ReadsAhead r r' (tr ++ out) (tr' ++ out') t t' := by
  induction hmore generalizing s s' q q' tr tr' out out' with
  | nil =>
    cases h
    cases h'
    exact ⟨q, q', by simpa using H⟩
  | label a _ ih =>
    obtain ⟨out₁, u, rest, hstep, hrun, rfl⟩ := Machine.run_cons_eq_some.mp h
    obtain ⟨out₁', u', rest', hstep', hrun', rfl⟩ := Machine.run_cons_eq_some.mp h'
    obtain ⟨r, r', hH⟩ := H.step hstep hstep'
    rw [← List.append_assoc, ← List.append_assoc]
    exact ih hH hrun hrun'
  | read buff len _ ih =>
    obtain ⟨out₁, u, rest, hstep, hrun, rfl⟩ := Machine.run_cons_eq_some.mp h'
    obtain ⟨out₂, u', rest', htick, hrun', rfl⟩ := Machine.run_cons_eq_some.mp hrun
    obtain ⟨r', hH⟩ := H.read hstep htick
    rw [← List.append_assoc out₁, ← List.append_assoc tr']
    exact ih hH h hrun'

end Sys

/-- For all connects, writes, reads and callbacks in any order from a fresh socket, and any reads
put in between them: the run with more reads is credited the same bytes, and every byte that the
other one has returned or still holds, it has returned or still holds as well, in order. -/
theorem early_reads_lose_no_more {l : Lwip} {ls ls' : List Label} (hmore : MoreReads ls ls')
    {tr tr' : List Obs} {s s' : Sys} (h : Sys.streams.run (.start l) ls = some (tr, s))
    (h' : Sys.streams.run (.start l) ls' = some (tr', s')) :
    creditedBytes tr' = creditedBytes tr ∧
      (returnedBytes tr ++ s.sock.unread).Sublist (returnedBytes tr' ++ s'.sock.unread) := by
  have hstart : Sys.ReadsAhead .empty .empty [] [] (.start l) (.start l) :=
    ⟨.zeroed, .zeroed, ⟨rfl, rfl, rfl⟩, .inl rfl, rfl, .refl [] .empty⟩
  obtain ⟨q, q', H⟩ := hstart.run hmore h h'
  have hsublist := H.ahead.sublist
  rw [← H.holds.unread, ← H.holds'.unread] at hsublist
  exact ⟨H.credited, hsublist⟩

/-- A byte arrives before an acknowledgement that empties the buffer. -/
def arrivesAcked (reads : List Label) : List Label :=
  .event (.callback 1 (.recv (some ⟨[9], by decide⟩))) :: reads ++
    [.event (.callback 1 (.sent 8192))]

/-- In the second run the byte has been read by then. -/
theorem early_reads_lose_no_more_acked : ∃ tr s tr' s',
    Sys.streams.run (.start ⟨fun _ => none⟩) (arrivesAcked []) = some (tr, s) ∧
    Sys.streams.run (.start ⟨fun _ => none⟩) (arrivesAcked [.read (fun _ => 0) 1, .event .tick]) =
      some (tr', s') ∧
    (returnedBytes tr ++ s.sock.unread).Sublist (returnedBytes tr' ++ s'.sock.unread) := by
  obtain ⟨tr, s, h⟩ : ∃ tr s,
      Sys.streams.run (.start ⟨fun _ => none⟩) (arrivesAcked []) = some (tr, s) := ⟨_, _, rfl⟩
  obtain ⟨tr', s', h'⟩ : ∃ tr s, Sys.streams.run (.start ⟨fun _ => none⟩)
      (arrivesAcked [.read (fun _ => 0) 1, .event .tick]) = some (tr, s) := ⟨_, _, rfl⟩
  have hmore : MoreReads (arrivesAcked []) (arrivesAcked [.read (fun _ => 0) 1, .event .tick]) :=
    .label _ (.read _ _ (.label _ .nil))
  exact ⟨tr, s, tr', s', h, h', (early_reads_lose_no_more hmore h h').2⟩

end PicoHybridCrypto
