import PicoHybridCrypto.Tcp.System

/-! # The receive buffer is never overrun

`0 ≤ buffer_len ≤ BUF_SIZE` in every reachable state, and what follows from it: the conversion
to `uint16_t` in the receive callback is exact, and every access to the buffer and to the
caller's memory is in bounds. The accesses that are logged are those that change memory. -/

set_option autoImplicit true

namespace PicoHybridCrypto
open Cells

/-! ## The accesses of one call -/

theorem lwipCbClientRecv_accesses {sock : Socket} (H : sock.WF) (tpcb : Pcb) (p : Option Pbuf) :
    ∀ a ∈ (lwipCbClientRecv sock tpcb p).accesses,
      sock.bufferLen ≤ a.index ∧ a.index < bufSize := by
  intro a ha
  cases p with
  | none => cases ha
  | some p =>
    by_cases hp : 0 < p.totLen
    · rw [lwipCbClientRecv_some H tpcb hp] at ha
      obtain ⟨k, hk, rfl⟩ := mem_copyStores.mp ha
      have := H.length_unread
      have := H.length_unread_le
      simp only [List.length_take] at hk
      simp only [Access.index]
      omega
    · rw [lwipCbClientRecv_empty sock tpcb hp] at ha
      cases ha

section
variable {sock : Socket} (H : sock.WF) (buff : Int → UInt8) (len : UInt32)
include H

theorem readBuffered_accesses :
    ∀ a ∈ (readBuffered sock buff len).accesses, 0 ≤ a.index ∧ a.index < sock.bufferLen := by
  have hlen := H.length_unread
  have hload : ∀ a ∈ copyLoads 0 (toULong (sock.recvLen len)),
      0 ≤ a.index ∧ a.index < sock.bufferLen := by
    intro a ha
    obtain ⟨k, hk, rfl⟩ := mem_copyLoads.mp ha
    rw [toULong_recvLen H] at hk
    simp only [Access.index]
    omega
  intro a ha
  by_cases h : len.toNat ≤ sock.unread.length
  · have hle : len.toNat ≤ toULong (sock.recvLen len) := by
      rw [toULong_recvLen H, min_eq_left h]
    simp only [readBuffered, if_pos hle] at ha
    rcases List.mem_append.mp ha with ha | ha
    · exact hload a ha
    -- `i + recv_len` stays below `remained + recv_len`, the old `buffer_len`
    obtain ⟨k, hk, hidx⟩ := mem_shiftDown_log.mp ha
    rw [remained_eq H len h] at hk
    rw [H.recvLen len, min_eq_left h] at hidx
    rcases hidx with rfl | rfl <;> simp only [Access.index] <;> omega
  · have hle : ¬len.toNat ≤ toULong (sock.recvLen len) := by
      rw [toULong_recvLen H]
      omega
    simp only [readBuffered, if_neg hle] at ha
    exact hload a ha

theorem readBuffered_buffAccesses :
    ∀ a ∈ (readBuffered sock buff len).buffAccesses, 0 ≤ a.index ∧ a.index < len.toNat := by
  have h : (readBuffered sock buff len).buffAccesses =
      copyStores 0 (toULong (sock.recvLen len)) := by
    simp only [readBuffered]
    split_ifs <;> rfl
  intro a ha
  rw [h] at ha
  obtain ⟨k, hk, rfl⟩ := mem_copyStores.mp ha
  rw [toULong_recvLen H] at hk
  simp only [Access.index]
  omega

end

theorem lwipCbClientRecv_framed (sock : Socket) (tpcb : Pcb) (p : Option Pbuf) :
    Framed sock.buffer (lwipCbClientRecv sock tpcb p).sock.buffer
      (lwipCbClientRecv sock tpcb p).accesses := by
  cases p with
  | none => exact .rfl
  | some p =>
    simp only [lwipCbClientRecv]
    split_ifs
    · exact framed_copyIn _ _ _
    · exact framed_copyIn _ _ _
    · exact .rfl

theorem readBuffered_framed (sock : Socket) (buff : Int → UInt8) (len : UInt32) :
    Framed sock.buffer (readBuffered sock buff len).sock.buffer
        (readBuffered sock buff len).accesses ∧
      Framed buff (readBuffered sock buff len).buff (readBuffered sock buff len).buffAccesses := by
  have hbuff : Framed buff (copyIn buff 0 (slice sock.buffer (toULong (sock.recvLen len))))
      (copyStores 0 (toULong (sock.recvLen len))) := by
    have hframed := framed_copyIn buff 0 (slice sock.buffer (toULong (sock.recvLen len)))
    rwa [length_slice] at hframed
  simp only [readBuffered]
  split_ifs
  · exact ⟨(framed_shiftDown _ _ _).mono (List.subset_append_right _ _), hbuff⟩
  · exact ⟨.rfl, hbuff⟩

/-! ## The bound in every reachable state -/

namespace Sys

theorem tick_WF {s : Sys} (H : s.sock.WF) : s.tick.sock.WF := by
  rcases s.tick_cases.2 with h | h | ⟨buff, len, h⟩ <;> rw [h]
  · exact H
  · exact ⟨H.nonneg, H.le_bufSize⟩
  · exact readBuffered_WF H buff len

theorem event_WF {s : Sys} (H : s.sock.WF) (e : Event) : (s.event e).2.sock.WF := by
  cases e with
  | tick => exact tick_WF H
  | callback tpcb c => exact Callback.run_WF H c tpcb

theorem step_WF {s t : Sys} {l : Label} {calls : List PcbCall} (H : s.sock.WF)
    (h : machine.step s l = some (calls, t)) : t.sock.WF := by
  rcases step_cases h with ⟨addr, newPcb, answer, -, -, -, ht⟩ | ⟨buff, answer, -, -, ht⟩ |
    ⟨buff, len, -, -, -, rfl⟩ | ⟨e, -, ht⟩
  · cases newPcb <;> obtain ⟨-, rfl⟩ := Prod.mk.inj ht
    · exact ⟨H.nonneg, H.le_bufSize⟩
    · exact ⟨le_rfl, Int.natCast_nonneg bufSize⟩
  · obtain ⟨-, rfl⟩ := Prod.mk.inj ht
    exact ⟨H.nonneg, H.le_bufSize⟩
  · exact H
  · obtain ⟨-, rfl⟩ := Prod.ext_iff.mp ht
    exact event_WF H e

theorem run_WF {s t : Sys} {ls : List Label} {calls : List PcbCall} (H : s.sock.WF)
    (h : machine.run s ls = some (calls, t)) : t.sock.WF :=
  Machine.run_inv (P := fun s => s.sock.WF) (L := fun _ => True) (fun _ H h => step_WF H h)
    (fun _ _ => trivial) H h

end Sys

/-- In every state reachable from `wolf_TCPsocket` by connects, writes, reads and callbacks with
any arguments, `buffer_len` is within bounds. There the receive callback computes `buffer_left`
exactly and copies only behind the unread bytes, and a read touches only the unread bytes and at
most the first `len` bytes of the caller's memory. No other cell of either memory changes. -/
theorem buffer_bound {l : Lwip} {ls : List Label} {calls : List PcbCall} {s : Sys}
    (h : Sys.machine.run (.start l) ls = some (calls, s)) :
    (0 ≤ s.sock.bufferLen ∧ s.sock.bufferLen ≤ bufSize) ∧
    (s.sock.bufferLeft : Int) = bufSize - s.sock.bufferLen ∧
    (∀ tpcb p,
      (∀ a ∈ (lwipCbClientRecv s.sock tpcb p).accesses,
        s.sock.bufferLen ≤ a.index ∧ a.index < bufSize) ∧
      Framed s.sock.buffer (lwipCbClientRecv s.sock tpcb p).sock.buffer
        (lwipCbClientRecv s.sock tpcb p).accesses) ∧
    ∀ buff len,
      (∀ a ∈ (readBuffered s.sock buff len).accesses,
        0 ≤ a.index ∧ a.index < s.sock.bufferLen) ∧
      (∀ a ∈ (readBuffered s.sock buff len).buffAccesses, 0 ≤ a.index ∧ a.index < len.toNat) ∧
      Framed s.sock.buffer (readBuffered s.sock buff len).sock.buffer
        (readBuffered s.sock buff len).accesses ∧
      Framed buff (readBuffered s.sock buff len).buff
        (readBuffered s.sock buff len).buffAccesses := by
  have H : s.sock.WF := Sys.run_WF .zeroed h
  refine ⟨⟨H.nonneg, H.le_bufSize⟩, H.bufferLeft, fun tpcb p => ?_, fun buff len => ?_⟩
  · exact ⟨lwipCbClientRecv_accesses H tpcb p, lwipCbClientRecv_framed s.sock tpcb p⟩
  · exact ⟨readBuffered_accesses H buff len, readBuffered_buffAccesses H buff len,
      readBuffered_framed s.sock buff len⟩

theorem buffer_bound_connecting :
    let s := (((Sys.start ⟨fun _ => none⟩).wolfTCPconnect ⟨0, 0⟩ (some 1) errOk).2.callback 1
      (.recv (some ⟨[7], by decide⟩))).2
    0 ≤ s.sock.bufferLen ∧ s.sock.bufferLen ≤ bufSize := by
  intro s
  have h : Sys.machine.run (.start ⟨fun _ => none⟩)
      [.connect ⟨0, 0⟩ (some 1) errOk, .event (.callback 1 (.recv (some ⟨[7], by decide⟩)))] =
      some (connectCalls ⟨0, 0⟩ (some 1) errOk ++ [⟨.tcpRecved 1, some 1⟩], s) := rfl
  exact (buffer_bound h).1

end PicoHybridCrypto
