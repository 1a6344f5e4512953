import Mathlib.Data.List.Infix
import Mathlib.Data.Nat.Digits.Lemmas

/-! # Frames with a length in front

A payload behind its length, as a big-endian number of `w` bytes, and a receiver that reads both
from what has arrived when it gives up waiting. A receiver that is left without a part of the frame
takes fewer bytes for the payload than there are (`length_received_lt`). -/

set_option autoImplicit true

namespace Framing

/-! ## Numbers of a fixed width -/

def ofBytes (bs : List UInt8) : Nat := Nat.ofDigits 256 (bs.reverse.map UInt8.toNat)

/-- Numbers that do not fit are an error. -/
def toBytes (w n : Nat) : Option (List UInt8) :=
  if n < 256 ^ w then some ((Nat.digitsAppend 256 w n).map UInt8.ofNat).reverse else none

theorem ofBytes_append (bs cs : List UInt8) :
    ofBytes (bs ++ cs) = ofBytes bs * 256 ^ cs.length + ofBytes cs := by
  rw [ofBytes, List.reverse_append, List.map_append, Nat.ofDigits_append, List.length_map,
    List.length_reverse, Nat.mul_comm, Nat.add_comm]
  rfl

theorem isDigit (bs : List UInt8) : ∀ d ∈ bs.reverse.map UInt8.toNat, d < 256 := by
  intro d hd
  obtain ⟨b, -, rfl⟩ := List.mem_map.mp hd
  exact b.toNat_lt

theorem ofBytes_lt (bs : List UInt8) : ofBytes bs < 256 ^ bs.length := by
  have hlt := Nat.ofDigits_lt_base_pow_length (by decide) (isDigit bs)
  rwa [List.length_map, List.length_reverse] at hlt

theorem map_ofNat_toNat (bs : List UInt8) : (bs.map UInt8.toNat).map UInt8.ofNat = bs := by
  rw [List.map_map]
  exact List.map_id'' (fun b => UInt8.ofNat_toNat) bs

theorem map_toNat_ofNat {ds : List Nat} (h : ∀ d ∈ ds, d < 256) :
    (ds.map UInt8.ofNat).map UInt8.toNat = ds := by
  have hid : ds.map (UInt8.toNat ∘ UInt8.ofNat) = ds.map id :=
    List.map_congr_left fun d hd => UInt8.toNat_ofNat_of_lt (h d hd)
  rw [List.map_map, hid, List.map_id]

/-- Writing and reading are inverse to each other. -/
theorem toBytes_eq_some_iff {w n : Nat} {bs : List UInt8} :
    toBytes w n = some bs ↔ bs.length = w ∧ ofBytes bs = n := by
  have hinv := Nat.setInvOn_digitsAppend_ofDigits (b := 256) (by decide) w
  rw [toBytes, Option.ite_none_right_eq_some, Option.some.injEq]
  constructor
  · rintro ⟨hn, rfl⟩
    have hdigits := fun d => Nat.lt_of_mem_digitsAppend (n := n) (b := 256) (by decide) w d
    refine ⟨?_, ?_⟩
    · rw [List.length_reverse, List.length_map, Nat.length_digitsAppend (by decide) w hn]
    · rw [ofBytes, List.reverse_reverse, map_toNat_ofNat fun d hd => hdigits d hd]
      exact hinv.2 hn
  · rintro ⟨rfl, rfl⟩
    refine ⟨ofBytes_lt bs, ?_⟩
    have hlength : (bs.reverse.map UInt8.toNat).length = bs.length := by
      rw [List.length_map, List.length_reverse]
    rw [ofBytes, hinv.1 ⟨hlength, isDigit bs⟩, map_ofNat_toNat, List.reverse_reverse]

theorem toBytes_isSome {w n : Nat} : (toBytes w n).isSome ↔ n < 256 ^ w := by
  rw [toBytes]
  split_ifs with h
  · exact iff_of_true rfl h
  · exact iff_of_false nofun h

/-! ## Frames -/

def frame (w : Nat) (payload : List UInt8) : Option (List UInt8) :=
  (toBytes w payload.length).map (· ++ payload)

theorem frame_eq_some_iff {w : Nat} {payload sent : List UInt8} :
    frame w payload = some sent ↔
      ∃ len, len.length = w ∧ ofBytes len = payload.length ∧ len ++ payload = sent := by
  simp only [frame, Option.map_eq_some_iff, toBytes_eq_some_iff, and_assoc]

/-- What has arrived when the receiver stops waiting for the length, and what arrives from then on
until it stops waiting for the payload. -/
structure Arrivals where
  length : List UInt8
  payload : List UInt8

namespace Arrivals

def all (a : Arrivals) : List UInt8 := a.length ++ a.payload

/-- What is left over for the payload when the length has been read. -/
def rest (w : Nat) (a : Arrivals) : List UInt8 := a.length.drop w ++ a.payload

/-- The length that is read, and as many bytes as it says, or as there are. -/
def announced (w : Nat) (a : Arrivals) : Nat := ofBytes (a.length.take w)

def received (w : Nat) (a : Arrivals) : List UInt8 := (a.rest w).take (a.announced w)

/-- The length has arrived in time, and so has the payload of `n` bytes. -/
def InTime (w n : Nat) (a : Arrivals) : Prop := w ≤ a.length.length ∧ w + n ≤ a.all.length

/-- What arrives is the beginning of `stream`. -/
def Of (stream : List UInt8) (a : Arrivals) : Prop := a.all <+: stream

variable {w : Nat} {payload sent more : List UInt8} {a : Arrivals}

theorem Of.length_prefix (ha : a.Of (sent ++ more)) : a.length <+: sent ++ more :=
  (List.prefix_append ..).trans ha

/-- A length that has arrived is read as it was sent, and what follows it is there to be read. -/
theorem Of.of_length {len : List UInt8} (ha : a.Of (len ++ payload ++ more))
    (hlen : ofBytes len = payload.length) (h : len.length ≤ a.length.length) :
    a.announced len.length = payload.length ∧ a.rest len.length <+: payload ++ more ∧
      a.all.length = len.length + (a.rest len.length).length := by
  rw [List.append_assoc] at ha
  have hprefix : len <+: a.length :=
    List.prefix_of_prefix_length_le (List.prefix_append ..) ha.length_prefix h
  obtain ⟨t, ht⟩ := hprefix
  have hannounced : a.announced len.length = payload.length := by
    rw [announced, ← ht, List.take_left, hlen]
  have hrest : a.rest len.length = t ++ a.payload := by rw [rest, ← ht, List.drop_left]
  have hall : a.all = len ++ a.rest len.length := by rw [all, ← ht, hrest, List.append_assoc]
  refine ⟨hannounced, ?_, ?_⟩
  · rwa [Of, hall, List.prefix_append_right_inj] at ha
  · rw [hall, List.length_append]

theorem received_of_inTime (hsent : frame w payload = some sent) (ha : a.Of (sent ++ more))
    (h : a.InTime w payload.length) : a.received w = payload := by
  obtain ⟨len, rfl, hlen, rfl⟩ := frame_eq_some_iff.mp hsent
  obtain ⟨hannounced, hrest, hall⟩ := ha.of_length hlen h.1
  have hlength : payload.length ≤ (a.rest len.length).length := by
    have := h.2
    omega
  have hprefix : payload <+: a.rest len.length :=
    List.prefix_of_prefix_length_le (List.prefix_append ..) hrest hlength
  rw [received, hannounced]
  exact (List.prefix_iff_eq_take.mp hprefix).symm

/-- A number that has lost its last digits is smaller. -/
theorem ofBytes_lt_of_append {bs cs : List UInt8} (hcs : cs ≠ []) (h : 0 < ofBytes (bs ++ cs)) :
    ofBytes bs < ofBytes (bs ++ cs) := by
  rcases Nat.eq_zero_or_pos (ofBytes bs) with hzero | hpos
  · rwa [hzero]
  · have hpow : 1 < 256 ^ cs.length :=
      Nat.one_lt_pow (List.length_pos_iff.mpr hcs).ne' (by decide)
    calc ofBytes bs < ofBytes bs * 256 ^ cs.length := lt_mul_of_one_lt_right hpos hpow
      _ ≤ ofBytes (bs ++ cs) := ofBytes_append bs cs ▸ Nat.le_add_right ..

/-- No frame that arrives too late is taken for a whole one. -/
theorem length_received_lt (hsent : frame w payload = some sent) (ha : a.Of (sent ++ more))
    (hpayload : payload ≠ []) (h : ¬a.InTime w payload.length) :
    (a.received w).length < payload.length := by
  obtain ⟨len, rfl, hlen, rfl⟩ := frame_eq_some_iff.mp hsent
  have hpos : 0 < payload.length := List.length_pos_iff.mpr hpayload
  rw [received, List.length_take]
  by_cases hlength : len.length ≤ a.length.length
  -- the length is read, and the payload is short
  · obtain ⟨-, -, hall⟩ := ha.of_length hlen hlength
    have hshort : ¬len.length + payload.length ≤ a.all.length := fun hle => h ⟨hlength, hle⟩
    omega
  -- a part of the length is taken for the whole
  · have hprefix : a.length <+: len := by
      rw [Of, List.append_assoc] at ha
      refine List.prefix_of_prefix_length_le ((List.prefix_append ..).trans ha)
        (List.prefix_append ..) (by omega)
    obtain ⟨t, rfl⟩ := hprefix
    have ht : t ≠ [] := by
      rintro rfl
      exact hlength (by rw [List.append_nil])
    have hannounced : a.announced (a.length ++ t).length = ofBytes a.length := by
      rw [announced, List.take_of_length_le (by omega)]
    have hlt : ofBytes a.length < ofBytes (a.length ++ t) := ofBytes_lt_of_append ht (by omega)
    omega

end Arrivals

end Framing
