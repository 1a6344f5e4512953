import PicoHybridCrypto.Tcp.Socket
import Mathlib.Tactic.SplitIfs

/-! # What each socket function does

The buffer bound `Socket.WF`, under which every integer conversion of `tcp.c` is exact, and one
specification lemma for each function, in terms of the unread bytes `buffer[0 .. buffer_len)`. -/

set_option autoImplicit true

namespace PicoHybridCrypto
open Cells

theorem bufSize_lt : bufSize < 2 ^ 16 := by decide

/-- `0 ≤ buffer_len ≤ BUF_SIZE` -/
structure Socket.WF (sock : Socket) : Prop where
  nonneg : 0 ≤ sock.bufferLen
  le_bufSize : sock.bufferLen ≤ bufSize

/-- The received bytes that have not been read, `buffer[0 .. buffer_len)`. -/
def Socket.unread (sock : Socket) : List UInt8 := slice sock.buffer sock.bufferLen.toNat

namespace Socket

variable {sock : Socket}

theorem WF.zeroed : zeroed.WF := ⟨le_rfl, Int.natCast_nonneg bufSize⟩

theorem WF.length_unread (H : sock.WF) : (sock.unread.length : Int) = sock.bufferLen := by
  rw [unread, length_slice, Int.toNat_of_nonneg H.nonneg]

theorem WF.length_unread_le (H : sock.WF) : sock.unread.length ≤ bufSize := by
  have := H.length_unread
  have := H.le_bufSize
  omega

theorem WF.bufferLen_pos_iff (H : sock.WF) : 0 < sock.bufferLen ↔ sock.unread ≠ [] := by
  rw [← H.length_unread, ← List.length_pos_iff]
  exact Int.natCast_pos

theorem WF.toULong_bufferLen (H : sock.WF) : toULong sock.bufferLen = sock.unread.length := by
  rw [← H.length_unread]
  exact CInt.unsigned_natCast (by have := H.length_unread_le; have := bufSize_lt; omega)

theorem WF.bufferLeft (H : sock.WF) : (sock.bufferLeft : Int) = bufSize - sock.bufferLen := by
  have := H.nonneg
  have := H.le_bufSize
  have := bufSize_lt
  exact CInt.unsigned_of_lt (by omega) (by omega)

theorem WF.bufferLeft' (H : sock.WF) : sock.bufferLeft = bufSize - sock.unread.length := by
  have := H.bufferLeft
  have := H.length_unread
  omega

theorem WF.recvLen (H : sock.WF) (len : UInt32) :
    sock.recvLen len = (min len.toNat sock.unread.length : Nat) := by
  have := H.length_unread_le
  have := bufSize_lt
  rw [Socket.recvLen, H.toULong_bufferLen]
  split_ifs with h
  · rw [min_eq_left h]
    exact CInt.signed_of_mem (w := 31) (by omega) (by omega)
  · rw [min_eq_right (by omega)]
    exact CInt.signed_of_mem (w := 31) (by omega) (by omega)

end Socket

/-! ## The receive callback -/

theorem pbufCopyPartial_bufferLeft (p : Pbuf) (n : Nat) :
    pbufCopyPartial p (if n < p.totLen then n else p.totLen) 0 = p.payload.take n := by
  rw [pbufCopyPartial, List.drop_zero]
  split_ifs with h
  · rfl
  · rw [Pbuf.totLen, List.take_length, List.take_of_length_le (by rwa [Pbuf.totLen, not_lt] at h)]

/-- With data, the callback in terms of the bytes `copied` that still fit. -/
theorem lwipCbClientRecv_some {sock : Socket} (H : sock.WF) (tpcb : Pcb) {p : Pbuf}
    (hp : 0 < p.totLen) :
    lwipCbClientRecv sock tpcb (some p) =
      let copied := p.payload.take (bufSize - sock.unread.length)
      { sock := { sock with
          buffer := copyIn sock.buffer sock.bufferLen copied
          bufferLen := sock.bufferLen + copied.length }
        ret := some errOk
        calls := [⟨.tcpRecved p.totLen, some tpcb⟩]
        accesses := copyStores sock.bufferLen copied.length
        pbufFree := true } := by
  have hlen : toInt (sock.bufferLen +
      (p.payload.take (bufSize - sock.unread.length)).length) =
      sock.bufferLen + (p.payload.take (bufSize - sock.unread.length)).length := by
    have := H.length_unread
    have := H.length_unread_le
    have := bufSize_lt
    rw [List.length_take]
    exact CInt.signed_of_mem (w := 31) (by omega) (by omega)
  simp only [lwipCbClientRecv, if_pos hp, pbufCopyPartial_bufferLeft, H.bufferLeft', hlen]

theorem lwipCbClientRecv_empty (sock : Socket) (tpcb : Pcb) {p : Pbuf} (hp : ¬0 < p.totLen) :
    lwipCbClientRecv sock tpcb (some p) = { sock, ret := some errOk, pbufFree := true } := by
  simp only [lwipCbClientRecv, if_neg hp]

theorem lwipCbClientRecv_unread {sock : Socket} (H : sock.WF) (tpcb : Pcb) (p : Pbuf) :
    (lwipCbClientRecv sock tpcb (some p)).sock.unread =
      sock.unread ++ p.payload.take (bufSize - sock.unread.length) := by
  by_cases hp : 0 < p.totLen
  · rw [lwipCbClientRecv_some H tpcb hp]
    generalize p.payload.take (bufSize - sock.unread.length) = copied
    obtain ⟨n, hn⟩ := Int.eq_ofNat_of_zero_le H.nonneg
    simp only [Socket.unread, hn, ← Int.natCast_add, Int.toNat_natCast]
    exact slice_copyIn sock.buffer n copied
  · rw [lwipCbClientRecv_empty sock tpcb hp]
    have : p.payload = [] := List.length_eq_zero_iff.mp (by rw [Pbuf.totLen] at hp; omega)
    simp [this]

theorem lwipCbClientRecv_WF {sock : Socket} (H : sock.WF) (tpcb : Pcb) (p : Option Pbuf) :
    (lwipCbClientRecv sock tpcb p).sock.WF := by
  cases p with
  | none => exact H
  | some p =>
    by_cases hp : 0 < p.totLen
    · rw [lwipCbClientRecv_some H tpcb hp]
      have := H.nonneg
      have := H.length_unread
      have := H.length_unread_le
      refine ⟨?_, ?_⟩ <;> simp only [List.length_take] <;> omega
    · rw [lwipCbClientRecv_empty sock tpcb hp]
      exact H

/-- Everything in the pbuf is credited back to lwIP, whether or not it was copied. -/
theorem lwipCbClientRecv_calls (sock : Socket) (tpcb : Pcb) (p : Pbuf) :
    (lwipCbClientRecv sock tpcb (some p)).calls =
      if 0 < p.totLen then [⟨.tcpRecved p.totLen, some tpcb⟩] else [] := by
  simp only [lwipCbClientRecv]
  split_ifs <;> rfl

/-! ## The other callbacks -/

/-- The acknowledgement takes the branch that empties the receive buffer. -/
def Socket.Clears (sock : Socket) (len : UInt16) : Prop :=
  (bufSize : Int) ≤ toInt (sock.sentLen + len.toNat) ∧ toInt (sock.runCount + 1) < testIterations

instance (sock : Socket) (len : UInt16) : Decidable (sock.Clears len) := by
  unfold Socket.Clears
  infer_instance

/-- Below the threshold the acknowledgement is only counted. -/
theorem lwipCbClientSent_counts {sock : Socket} {len : UInt16}
    (h : ¬(bufSize : Int) ≤ toInt (sock.sentLen + len.toNat)) :
    (lwipCbClientSent sock len).sock =
      { sock with sentLen := toInt (sock.sentLen + len.toNat) } := by
  simp only [lwipCbClientSent, if_neg h]

theorem lwipCbClientSent_clears {sock : Socket} {len : UInt16} (h : sock.Clears len) :
    (lwipCbClientSent sock len).sock =
      { sock with sentLen := 0, bufferLen := 0, runCount := toInt (sock.runCount + 1) } := by
  simp only [lwipCbClientSent, if_pos h.1, if_neg (not_le.mpr h.2)]

/-- Once `TEST_ITERATIONS` is reached the counter is no longer reset. -/
theorem lwipCbClientSent_completes {sock : Socket} {len : UInt16}
    (h : (bufSize : Int) ≤ toInt (sock.sentLen + len.toNat)) (hc : ¬sock.Clears len) :
    (lwipCbClientSent sock len).sock =
      { sock with
        sentLen := toInt (sock.sentLen + len.toNat)
        runCount := toInt (sock.runCount + 1)
        complete := true } := by
  have hdone : testIterations ≤ toInt (sock.runCount + 1) := not_lt.mp fun hlt => hc ⟨h, hlt⟩
  simp only [lwipCbClientSent, tcpResult, if_pos h, if_pos hdone]

theorem lwipCbClientSent_bufferLen (sock : Socket) (len : UInt16) :
    (lwipCbClientSent sock len).sock.bufferLen =
      if sock.Clears len then 0 else sock.bufferLen := by
  by_cases hc : sock.Clears len
  · rw [lwipCbClientSent_clears hc, if_pos hc]
  · rw [if_neg hc]
    by_cases hfull : (bufSize : Int) ≤ toInt (sock.sentLen + len.toNat)
    · rw [lwipCbClientSent_completes hfull hc]
    · rw [lwipCbClientSent_counts hfull]

@[simp] theorem lwipCbClientSent_buffer (sock : Socket) (len : UInt16) :
    (lwipCbClientSent sock len).sock.buffer = sock.buffer := by
  simp only [lwipCbClientSent, tcpResult]
  split_ifs <;> rfl

theorem lwipCbClientSent_unread (sock : Socket) (len : UInt16) :
    (lwipCbClientSent sock len).sock.unread = if sock.Clears len then [] else sock.unread := by
  rw [Socket.unread, lwipCbClientSent_buffer, lwipCbClientSent_bufferLen]
  split_ifs <;> rfl

theorem lwipCbClientSent_calls (sock : Socket) (len : UInt16) :
    (lwipCbClientSent sock len).calls = [] := by
  simp only [lwipCbClientSent]
  split_ifs <;> rfl

/-- The callbacks that have no business with the receive buffer. -/
def Callback.Quiet : Callback → Prop
  | .recv p => p = none
  | .sent _ => False
  | .connected _ | .poll | .err _ => True

theorem Callback.Quiet.run {c : Callback} (h : c.Quiet) (sock : Socket) (tpcb : Pcb) :
    (c.run sock tpcb).sock.buffer = sock.buffer ∧
      (c.run sock tpcb).sock.bufferLen = sock.bufferLen ∧ (c.run sock tpcb).calls = [] := by
  cases c with
  | recv p =>
    cases h
    exact ⟨rfl, rfl, rfl⟩
  | sent => cases h
  | connected code =>
    simp only [Callback.run, lwipCbClientConnected, tcpResult]
    split_ifs <;> exact ⟨rfl, rfl, rfl⟩
  | poll => exact ⟨rfl, rfl, rfl⟩
  | err code =>
    simp only [Callback.run, lwipCbClientErr, tcpResult]
    split_ifs <;> exact ⟨rfl, rfl, rfl⟩

theorem Callback.Quiet.unread {c : Callback} (h : c.Quiet) (sock : Socket) (tpcb : Pcb) :
    (c.run sock tpcb).sock.unread = sock.unread := by
  obtain ⟨hb, hl, -⟩ := h.run sock tpcb
  rw [Socket.unread, hb, hl, Socket.unread]

theorem Callback.Quiet.WF {c : Callback} (h : c.Quiet) {sock : Socket} (H : sock.WF)
    (tpcb : Pcb) : (c.run sock tpcb).sock.WF := by
  obtain ⟨-, hl, -⟩ := h.run sock tpcb
  exact ⟨hl ▸ H.nonneg, hl ▸ H.le_bufSize⟩

theorem Callback.run_WF {sock : Socket} (H : sock.WF) (c : Callback) (tpcb : Pcb) :
    (c.run sock tpcb).sock.WF := by
  cases c with
  | recv p => exact lwipCbClientRecv_WF H tpcb p
  | sent len =>
    have h := lwipCbClientSent_bufferLen sock len
    have := H.nonneg
    have := H.le_bufSize
    refine ⟨?_, ?_⟩ <;> rw [Callback.run, h] <;> split_ifs <;> omega
  | connected code => exact Quiet.WF (c := .connected code) trivial H tpcb
  | poll => exact Quiet.WF (c := .poll) trivial H tpcb
  | err code => exact Quiet.WF (c := .err code) trivial H tpcb

/-! ## What the callbacks leave alone -/

@[simp] theorem Callback.run_tcpPcb (c : Callback) (sock : Socket) (tpcb : Pcb) :
    (c.run sock tpcb).sock.tcpPcb = sock.tcpPcb := by
  cases c with
  | recv p =>
    cases p with
    | none => rfl
    | some p =>
      simp only [run, lwipCbClientRecv]
      split_ifs <;> rfl
  | sent len =>
    simp only [run, lwipCbClientSent, tcpResult]
    split_ifs <;> rfl
  | connected code =>
    simp only [run, lwipCbClientConnected, tcpResult]
    split_ifs <;> rfl
  | poll => rfl
  | err code =>
    simp only [run, lwipCbClientErr, tcpResult]
    split_ifs <;> rfl

def Callback.Connects : Callback → Prop
  | .connected code => code = errOk
  | _ => False

/-- Only the connected callback with `ERR_OK` sets `connected`, and no callback clears it. -/
theorem Callback.run_connected (c : Callback) (sock : Socket) (tpcb : Pcb) :
    (c.run sock tpcb).sock.connected ↔ sock.connected ∨ c.Connects := by
  have quiet (h : (c.run sock tpcb).sock.connected = sock.connected) (hc : ¬c.Connects) :
      (c.run sock tpcb).sock.connected ↔ sock.connected ∨ c.Connects := by
    rw [h, or_iff_left hc]
  cases c with
  | recv p =>
    refine quiet ?_ not_false
    cases p with
    | none => rfl
    | some p =>
      simp only [run, lwipCbClientRecv]
      split_ifs <;> rfl
  | sent len =>
    refine quiet ?_ not_false
    simp only [run, lwipCbClientSent, tcpResult]
    split_ifs <;> rfl
  | connected code =>
    simp only [run, lwipCbClientConnected, tcpResult]
    split_ifs with h
    · simp [Connects, h]
    · simp [Connects, not_not.mp h]
  | poll => exact quiet rfl not_false
  | err code =>
    refine quiet ?_ not_false
    simp only [run, lwipCbClientErr, tcpResult]
    split_ifs <;> rfl

theorem Callback.calls_inert {c : Callback} {sock : Socket} {tpcb : Pcb} {call : PcbCall}
    (h : call ∈ (c.run sock tpcb).calls) : Lwip.Inert call.fn := by
  by_cases hc : c.Quiet
  · rw [(hc.run sock tpcb).2.2] at h
    cases h
  · cases c with
    | recv p =>
      cases p with
      | none => exact (hc rfl).elim
      | some p =>
        rw [Callback.run, lwipCbClientRecv_calls] at h
        split_ifs at h
        · cases List.mem_singleton.mp h
          trivial
        · cases h
    | sent len =>
      rw [Callback.run, lwipCbClientSent_calls] at h
      cases h
    | _ => exact (hc trivial).elim

/-! ## Writing -/

theorem wolfTCPwrite_calls_inert {sock : Socket} {buff : CBuffer} {answer : ErrT}
    {c : PcbCall} (hc : c ∈ (wolfTCPwrite sock buff answer).calls) :
    c.pcb = sock.tcpPcb ∧ Lwip.Inert c.fn := by
  rcases List.mem_cons.mp hc with rfl | hc
  · exact ⟨rfl, trivial⟩
  · split_ifs at hc
    · cases List.mem_singleton.mp hc
      exact ⟨rfl, trivial⟩
    · cases hc

/-! ## Reading -/

@[simp] theorem readBuffered_tcpPcb (sock : Socket) (buff : Int → UInt8) (len : UInt32) :
    (readBuffered sock buff len).sock.tcpPcb = sock.tcpPcb := by
  simp only [readBuffered]
  split_ifs <;> rfl

section
variable {sock : Socket} (H : sock.WF) (buff : Int → UInt8) (len : UInt32)
include H

/-- The body of `wolf_TCPread` with its conversions carried out: it hands out
`r = min len buffer_len` bytes. -/
theorem readBuffered_ret :
    (readBuffered sock buff len).ret = (min len.toNat sock.unread.length : Nat) := by
  rw [← H.recvLen len, readBuffered]
  split_ifs <;> rfl

theorem toULong_recvLen : toULong (sock.recvLen len) = min len.toNat sock.unread.length := by
  rw [H.recvLen len]
  refine CInt.unsigned_natCast ?_
  have := H.length_unread_le
  have := bufSize_lt
  omega

theorem readBuffered_buff :
    (readBuffered sock buff len).buff = copyIn buff 0 (sock.unread.take len.toNat) := by
  have h : slice sock.buffer (toULong (sock.recvLen len)) = sock.unread.take len.toNat := by
    rw [toULong_recvLen H, Socket.unread, take_slice, length_slice]
  simp only [readBuffered, h]
  split_ifs <;> rfl

/-- `remained`, when everything asked for was there. -/
theorem remained_eq (h : len.toNat ≤ sock.unread.length) :
    toInt (sock.bufferLen - sock.recvLen len) = (sock.unread.length - len.toNat : Nat) := by
  have := H.length_unread
  have := H.length_unread_le
  have := bufSize_lt
  rw [H.recvLen len, min_eq_left h, ← H.length_unread]
  rw [show (sock.unread.length : Int) - (len.toNat : Nat) =
    (sock.unread.length - len.toNat : Nat) by omega]
  exact CInt.signed_of_mem (w := 31) (by omega) (by omega)

theorem readBuffered_bufferLen :
    (readBuffered sock buff len).sock.bufferLen =
      (sock.unread.length - len.toNat : Nat) := by
  by_cases h : len.toNat ≤ sock.unread.length
  · have hle : len.toNat ≤ toULong (sock.recvLen len) := by
      rw [toULong_recvLen H, min_eq_left h]
    simp only [readBuffered, if_pos hle]
    exact remained_eq H len h
  · have hle : ¬len.toNat ≤ toULong (sock.recvLen len) := by
      rw [toULong_recvLen H]
      omega
    simp only [readBuffered, if_neg hle]
    omega

theorem readBuffered_WF : (readBuffered sock buff len).sock.WF := by
  have h := readBuffered_bufferLen H buff len
  have := H.length_unread_le
  exact ⟨by omega, by omega⟩

/-- The shift loop leaves exactly the bytes that were not handed out, in order. -/
theorem readBuffered_unread :
    (readBuffered sock buff len).sock.unread = sock.unread.drop len.toNat := by
  have hlen := readBuffered_bufferLen H buff len
  by_cases h : len.toNat ≤ sock.unread.length
  · have hle : len.toNat ≤ toULong (sock.recvLen len) := by
      rw [toULong_recvLen H, min_eq_left h]
    rw [Socket.unread, hlen]
    simp only [readBuffered, if_pos hle, remained_eq H len h, Int.toNat_natCast]
    rw [H.recvLen len, min_eq_left h, slice_shiftDown, Nat.add_sub_cancel' h, Socket.unread,
      length_slice]
  · rw [Socket.unread, hlen, show sock.unread.length - len.toNat = 0 by omega,
      List.drop_eq_nil_of_le (by omega)]
    rfl

end

end PicoHybridCrypto
