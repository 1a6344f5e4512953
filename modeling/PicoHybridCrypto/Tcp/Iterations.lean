import PicoHybridCrypto.Tcp.System
import Mathlib.Algebra.Order.Group.Int

/-! # How often acknowledgements empty the buffer

`run_count` and `complete` are never reset, not even by a new connection. So `run_count` counts
the full acknowledgements of the whole life of a socket, only the first nine of them empty the
buffer (`acks_clear_at_most_nine`), and `complete` tells whether something that ends a test has
ever happened (`complete_iff`). -/

set_option autoImplicit true

namespace PicoHybridCrypto

/-! ## What a step does to `run_count` and `complete` -/

/-- The acknowledgement that brings `sent_len` to `BUF_SIZE`. -/
def Socket.FullAck (sock : Socket) : Callback → Prop
  | .sent len => (bufSize : Int) ≤ toInt (sock.sentLen + len.toNat)
  | _ => False

instance (sock : Socket) : DecidablePred sock.FullAck
  | .sent len => inferInstanceAs (Decidable ((bufSize : Int) ≤ toInt (sock.sentLen + len.toNat)))
  | .recv _ | .connected _ | .poll | .err _ => .isFalse not_false

/-- The callbacks that call `tcp_result` whatever the socket is. -/
def Callback.Completes : Callback → Prop
  | .poll => True
  | .connected code => code ≠ errOk
  | .err code => code ≠ errAbrt
  | .recv _ | .sent _ => False

def Label.Completes : Label → Prop
  | .event (.callback _ c) => c.Completes
  | _ => False

/-- What happens to `run_count` and `complete` where the callback `c` runs on `sock`. -/
structure Socket.Iterates (sock : Socket) (c : Callback) (sock' : Socket) : Prop where
  runCount : sock'.runCount =
    if sock.FullAck c then toInt (sock.runCount + 1) else sock.runCount
  complete : sock'.complete ↔ sock.complete ∨ c.Completes ∨
    sock.FullAck c ∧ testIterations ≤ toInt (sock.runCount + 1)

theorem Callback.run_iterates (c : Callback) (sock : Socket) (tpcb : Pcb) :
    sock.Iterates c (c.run sock tpcb).sock := by
  have quiet {sock' : Socket} {c : Callback} (hack : ¬sock.FullAck c)
      (hcount : sock'.runCount = sock.runCount)
      (hcomplete : sock'.complete ↔ sock.complete ∨ c.Completes) : sock.Iterates c sock' := by
    have hnot : ¬(sock.FullAck c ∧ testIterations ≤ toInt (sock.runCount + 1)) :=
      fun h => hack h.1
    exact ⟨by rw [if_neg hack, hcount], by rw [hcomplete, or_iff_left hnot]⟩
  cases c with
  | recv p =>
    refine quiet not_false ?_ ?_
    · cases p with
      | none => rfl
      | some p =>
        simp only [run, lwipCbClientRecv]
        split_ifs <;> rfl
    · rw [or_iff_left (show ¬Callback.Completes (.recv p) from not_false)]
      cases p with
      | none => rfl
      | some p =>
        simp only [run, lwipCbClientRecv]
        split_ifs <;> rfl
  | sent len =>
    by_cases hack : sock.FullAck (.sent len)
    · by_cases hc : sock.Clears len
      · rw [run, lwipCbClientSent_clears hc]
        refine ⟨(if_pos hack).symm, ?_⟩
        have : ¬(Completes (.sent len) ∨
            sock.FullAck (.sent len) ∧ testIterations ≤ toInt (sock.runCount + 1)) := by
          rintro (h | h)
          · exact h
          · exact absurd hc.2 (not_lt.mpr h.2)
        rw [or_iff_left this]
      · have hdone : testIterations ≤ toInt (sock.runCount + 1) :=
          not_lt.mp fun hlt => hc ⟨hack, hlt⟩
        rw [run, lwipCbClientSent_completes hack hc]
        exact ⟨(if_pos hack).symm, iff_of_true rfl (.inr (.inr ⟨hack, hdone⟩))⟩
    · rw [run, lwipCbClientSent_counts hack]
      exact quiet hack rfl (or_iff_left (show ¬Completes (.sent len) from not_false)).symm
  | connected code =>
    simp only [run, lwipCbClientConnected, tcpResult]
    split_ifs with hcode
    · exact quiet not_false rfl (iff_of_true rfl (.inr hcode))
    · exact quiet not_false rfl (or_iff_left (show ¬Completes (.connected code) from hcode)).symm
  | poll => exact quiet not_false rfl (iff_of_true rfl (.inr trivial))
  | err code =>
    simp only [run, lwipCbClientErr, tcpResult]
    split_ifs with hcode
    · exact quiet not_false rfl (iff_of_true rfl (.inr hcode))
    · exact quiet not_false rfl (or_iff_left (show ¬Completes (.err code) from hcode)).symm

theorem readBuffered_iterates (sock : Socket) (buff : Int → UInt8) (len : UInt32) :
    (readBuffered sock buff len).sock.runCount = sock.runCount ∧
      (readBuffered sock buff len).sock.complete = sock.complete := by
  simp only [readBuffered]
  split_ifs <;> exact ⟨rfl, rfl⟩

namespace Sys

/-- Counts the full acknowledgements of a run. -/
def fullAcks (s : Sys) : Label → Nat
  | .event (.callback _ c) => if s.sock.FullAck c then 1 else 0
  | _ => 0

/-- A step that is no callback leaves both alone. -/
theorem step_iterates {s t : Sys} {l : Label} {calls : List PcbCall}
    (h : machine.step s l = some (calls, t)) :
    (∃ tpcb c, l = .event (.callback tpcb c) ∧ s.sock.Iterates c t.sock) ∨
    (∀ s : Sys, s.fullAcks l = 0) ∧ ¬l.Completes ∧
      t.sock.runCount = s.sock.runCount ∧ t.sock.complete = s.sock.complete := by
  rcases step_cases h with ⟨addr, newPcb, answer, rfl, -, -, ht⟩ |
    ⟨buff, answer, rfl, -, ht⟩ | ⟨buff, len, rfl, -, -, rfl⟩ | ⟨e, rfl, ht⟩
  · refine .inr ⟨fun _ => rfl, not_false, ?_⟩
    cases newPcb <;> obtain ⟨-, rfl⟩ := Prod.mk.inj ht <;> exact ⟨rfl, rfl⟩
  · obtain ⟨-, rfl⟩ := Prod.mk.inj ht
    exact .inr ⟨fun _ => rfl, not_false, rfl, rfl⟩
  · exact .inr ⟨fun _ => rfl, not_false, rfl, rfl⟩
  · obtain ⟨-, rfl⟩ := Prod.ext_iff.mp ht
    cases e with
    | callback tpcb c => exact .inl ⟨tpcb, c, rfl, c.run_iterates s.sock tpcb⟩
    | tick =>
      refine .inr ⟨fun _ => rfl, not_false, ?_⟩
      show s.tick.sock.runCount = s.sock.runCount ∧ s.tick.sock.complete = s.sock.complete
      rcases s.tick_cases.2 with h | h | ⟨buff, len, h⟩ <;> rw [h]
      · exact ⟨rfl, rfl⟩
      · exact ⟨rfl, rfl⟩
      · exact readBuffered_iterates s.sock buff len

/-! ## Whole runs -/

/-- What `run_count` and `complete` say about a run with `full` full acknowledgements in it. -/
structure Iterated (ls : List Label) (full : Nat) (s : Sys) : Prop where
  runCount : s.sock.runCount = full
  complete : s.sock.complete ↔ (∃ a ∈ ls, a.Completes) ∨ testIterations.toNat ≤ full

theorem or_absorb {A B C D : Prop} (h : B → D) : (A ∨ B) ∨ C ∨ D ↔ (A ∨ C) ∨ D := by
  tauto

theorem exists_completes_concat {ls : List Label} {a : Label} :
    (∃ b ∈ ls ++ [a], b.Completes) ↔ (∃ b ∈ ls, b.Completes) ∨ a.Completes := by
  simp only [List.mem_append, List.mem_singleton, or_and_right, exists_or, exists_eq_left]

theorem Iterated.toInt_succ {ls : List Label} {full : Nat} {s : Sys} (H : Iterated ls full s)
    (hfull : full + 1 < 2 ^ 31) : toInt (s.sock.runCount + 1) = full + 1 := by
  rw [H.runCount]
  exact CInt.signed_of_mem (w := 31) (by omega) (by exact_mod_cast hfull)

theorem Iterated.step {ls : List Label} {full : Nat} {s t : Sys} {a : Label}
    {calls : List PcbCall} (H : Iterated ls full s) (hfull : full + 1 < 2 ^ 31)
    (h : machine.step s a = some (calls, t)) : Iterated (ls ++ [a]) (full + s.fullAcks a) t := by
  have hiter : testIterations = 10 := rfl
  rcases step_iterates h with ⟨tpcb, c, rfl, hc⟩ | ⟨hacks, hnot, hcount, hcomplete⟩
  · have hcount := hc.runCount
    have hcomplete := hc.complete
    rw [H.toInt_succ hfull] at hcount hcomplete
    by_cases hack : s.sock.FullAck c
    · rw [if_pos hack] at hcount
      rw [fullAcks, if_pos hack]
      refine ⟨?_, ?_⟩
      · rw [hcount]
        push_cast
        rfl
      · rw [hcomplete, H.complete, exists_completes_concat, and_iff_right hack, hiter]
        have hten : (10 : Int) ≤ full + 1 ↔ (10 : Int).toNat ≤ full + 1 := by omega
        rw [hten]
        exact or_absorb (by omega)
    · rw [if_neg hack] at hcount
      rw [fullAcks, if_neg hack]
      refine ⟨hcount.trans H.runCount, ?_⟩
      have hnot : ¬(s.sock.FullAck c ∧ testIterations ≤ (full : Int) + 1) := fun h => hack h.1
      rw [hcomplete, or_iff_left hnot, H.complete, exists_completes_concat]
      exact or_right_comm
  · rw [hacks]
    refine ⟨hcount.trans H.runCount, ?_⟩
    rw [hcomplete, H.complete, exists_completes_concat, or_iff_left hnot, Nat.add_zero]

/-- The next acknowledgement empties the buffer if it is full and not the tenth or later. -/
theorem Iterated.clears_iff {ls : List Label} {full : Nat} {s : Sys} (H : Iterated ls full s)
    (hfull : full + 1 < 2 ^ 31) (len : UInt16) :
    s.sock.Clears len ↔ s.sock.FullAck (.sent len) ∧ full + 1 < testIterations.toNat := by
  have hiter : testIterations = 10 := rfl
  refine and_congr_right fun _ => ?_
  rw [H.toInt_succ hfull, hiter]
  omega

theorem fullAcks_le_one (s : Sys) (l : Label) : s.fullAcks l ≤ 1 := by
  unfold fullAcks
  split
  · split_ifs <;> omega
  · exact Nat.zero_le _

theorem run_iterated {l : Lwip} {ls : List Label} {calls : List PcbCall} {s : Sys}
    (hls : ls.length < 2 ^ 31) (h : machine.run (.start l) ls = some (calls, s)) :
    Iterated ls (machine.total fullAcks (.start l) ls) s := by
  refine Machine.run_history_of_run (I := fun ls _ s => ls.length < 2 ^ 31 →
    Iterated ls (machine.total fullAcks (.start l) ls) s) ?_ ?_ h hls
  · intro ls calls s a out t hrun H hstep hlen
    rw [List.length_append, List.length_singleton] at hlen
    rw [Machine.total_concat hrun]
    have hle := Machine.total_le_length fullAcks_le_one (M := machine) (.start l) ls
    exact (H (by omega)).step (by omega) hstep
  · intro _
    exact ⟨rfl, by simp [Socket.zeroed, Machine.total, Machine.collect,
      testIterations]⟩

end Sys

/-- In every run from a fresh socket, of fewer than `2^31` steps and with any number of connects:
`run_count` is the number of full acknowledgements so far, and the acknowledgement that comes next
empties the buffer if it is a full one and among the first nine, and leaves the unread bytes alone
otherwise. -/
theorem acks_clear_at_most_nine {l : Lwip} {ls : List Label} {calls : List PcbCall} {s : Sys}
    (hls : ls.length + 1 < 2 ^ 31) (h : Sys.machine.run (.start l) ls = some (calls, s)) :
    let full := Sys.machine.total Sys.fullAcks (.start l) ls
    s.sock.runCount = full ∧ ∀ tpcb len,
      let t := (s.callback tpcb (.sent len)).2
      let clears := s.sock.FullAck (.sent len) ∧ full + 1 < testIterations.toNat
      t.sock.unread = (if clears then [] else s.sock.unread) ∧
        t.sock.bufferLen = if clears then 0 else s.sock.bufferLen := by
  intro full
  have H := Sys.run_iterated (by omega) h
  have hle := Machine.total_le_length Sys.fullAcks_le_one (M := Sys.machine) (.start l) ls
  refine ⟨H.runCount, fun tpcb len => ?_⟩
  have hclears := H.clears_iff (by omega) len
  exact ⟨(lwipCbClientSent_unread s.sock len).trans (if_congr hclears rfl rfl),
    (lwipCbClientSent_bufferLen s.sock len).trans (if_congr hclears rfl rfl)⟩

/-- An open connection, and some events on it. -/
theorem Sys.exists_run_opened (es : List Event) : ∃ calls s,
    machine.run (.start ⟨fun _ => none⟩) (openLabels ++ es.map .event) = some (calls, s) := by
  obtain ⟨calls, h⟩ := opened.run_events es
  exact ⟨_, _, Machine.run_append run_openLabels h⟩

theorem acks_clear_at_most_nine_opened : ∃ calls s,
    Sys.machine.run (.start ⟨fun _ => none⟩) (Sys.openLabels ++
      [Event.callback 1 (.recv (some ⟨[7], by decide⟩))].map .event) = some (calls, s) ∧
    (s.callback 1 (.sent 8192)).2.sock.unread = [] := by
  obtain ⟨calls, s, h⟩ := Sys.exists_run_opened [.callback 1 (.recv (some ⟨[7], by decide⟩))]
  refine ⟨calls, s, h, ?_⟩
  obtain ⟨-, hnext⟩ := acks_clear_at_most_nine (by decide) h
  rw [(hnext 1 8192).1, if_pos]
  cases h
  exact ⟨by decide, by decide⟩

/-- In every such run `complete` is set if and only if a poll, an error other than `ERR_ABRT` or a
failed connection has been reported, or there have been ten full acknowledgements. -/
theorem complete_iff {l : Lwip} {ls : List Label} {calls : List PcbCall} {s : Sys}
    (hls : ls.length < 2 ^ 31) (h : Sys.machine.run (.start l) ls = some (calls, s)) :
    s.sock.complete ↔ (∃ a ∈ ls, a.Completes) ∨
      testIterations.toNat ≤ Sys.machine.total Sys.fullAcks (.start l) ls :=
  (Sys.run_iterated hls h).complete

theorem complete_iff_polled : ∃ calls s,
    Sys.machine.run (.start ⟨fun _ => none⟩)
      (Sys.openLabels ++ [Event.callback 1 .poll].map .event) = some (calls, s) ∧
      s.sock.complete := by
  obtain ⟨calls, s, h⟩ := Sys.exists_run_opened [.callback 1 .poll]
  refine ⟨calls, s, h, (complete_iff (by decide) h).mpr (.inl ?_)⟩
  exact ⟨.event (.callback 1 .poll), by simp, trivial⟩

end PicoHybridCrypto
