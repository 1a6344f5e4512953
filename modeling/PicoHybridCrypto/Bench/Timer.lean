import PicoHybridCrypto.Theory.TornRead
import Mathlib.Order.Defs.LinearOrder
import Mathlib.Algebra.Order.Ring.Nat

/-! # Timing in `blink.c`

The benchmark takes its time stamps from the raw words of the 64-bit microsecond counter, which
keeps running between the two reads. The C compiler may evaluate the operands of `|` in either
order. -/

set_option autoImplicit true

namespace PicoHybridCrypto

open TornRead

/-- `timer_hw->timerawl`, the low word of the counter at the instant of the read. -/
def timerawl (counter : UInt64) : UInt32 := counter.toUInt32

/-- `timer_hw->timerawh`, the high word. -/
def timerawh (counter : UInt64) : UInt32 := (counter >>> 32).toUInt32

/-- `timerawl | ((uint64_t)timerawh << 32)`. -/
def timestamp (low high : UInt32) : UInt64 := low.toUInt64 ||| high.toUInt64 <<< 32

theorem toNat_timerawl (counter : UInt64) : (timerawl counter).toNat = counter.toNat % 2 ^ 32 :=
  UInt64.toNat_toUInt32 counter

theorem toNat_timerawh (counter : UInt64) : (timerawh counter).toNat = counter.toNat / 2 ^ 32 := by
  have hlt : counter.toNat / 2 ^ 32 < 2 ^ 32 :=
    Nat.div_lt_of_lt_mul counter.toNat_lt
  rw [timerawh, UInt64.toNat_toUInt32, UInt64.toNat_shiftRight]
  exact (congrArg (· % 2 ^ 32) (Nat.shiftRight_eq_div_pow _ 32)).trans (Nat.mod_eq_of_lt hlt)

/-- The two words do not overlap, so `|` adds them. -/
theorem toNat_timestamp (low high : UInt32) :
    (timestamp low high).toNat = low.toNat + 2 ^ 32 * high.toNat := by
  have hl : low.toNat < 2 ^ 32 := low.toNat_lt
  have hh : high.toNat < 2 ^ 32 := high.toNat_lt
  have hshift : (high.toUInt64 <<< 32).toNat = 2 ^ 32 * high.toNat := by
    rw [UInt64.toNat_shiftLeft, UInt32.toNat_toUInt64, Nat.shiftLeft_eq]
    have hfit : high.toNat * 2 ^ 32 < 2 ^ 64 := by omega
    exact (Nat.mod_eq_of_lt hfit).trans (Nat.mul_comm _ _)
  rw [timestamp, UInt64.toNat_or, hshift, UInt32.toNat_toUInt64, Nat.or_comm,
    ← Nat.two_pow_add_eq_or_of_lt hl, Nat.add_comm]

/-- One time stamp: the counter at the reads of its two words. -/
structure Reading where
  order : ReadOrder
  first : UInt64
  second : UInt64
  le : first ≤ second

namespace Reading

def low (r : Reading) : UInt32 :=
  match r.order with
  | .lowFirst => timerawl r.first
  | .highFirst => timerawl r.second

def high (r : Reading) : UInt32 :=
  match r.order with
  | .lowFirst => timerawh r.second
  | .highFirst => timerawh r.first

def time (r : Reading) : UInt64 := timestamp r.low r.high

/-- The low word has not decreased between the two reads. -/
def Untorn (r : Reading) : Prop := timerawl r.first ≤ timerawl r.second

instance (r : Reading) : Decidable r.Untorn := inferInstanceAs (Decidable (_ ≤ _))

variable (r : Reading)

theorem toNat_le : r.first.toNat ≤ r.second.toNat := UInt64.le_iff_toNat_le.mp r.le

theorem untorn_iff : r.Untorn ↔ r.first.toNat % 2 ^ 32 ≤ r.second.toNat % 2 ^ 32 := by
  rw [Untorn, UInt32.le_iff_toNat_le, toNat_timerawl, toNat_timerawl]

/-- The two reads of one expression are far less than a wrap of the low word apart; then a
reading is torn exactly when the high word changes under it. -/
theorem untorn_iff_timerawh (h : r.second.toNat < r.first.toNat + 2 ^ 32) :
    r.Untorn ↔ timerawh r.first = timerawh r.second := by
  rw [untorn_iff, mod_le_mod_iff r.toNat_le h, ← UInt32.toNat_inj, toNat_timerawh, toNat_timerawh]

theorem toNat_time :
    r.time.toNat = value (2 ^ 32) r.first.toNat r.second.toNat r.order := by
  rw [time, toNat_timestamp, low, high]
  cases r.order <;> simp only [toNat_timerawl, toNat_timerawh, value]

theorem time_mem_Icc_iff :
    r.time.toNat ∈ Set.Icc r.first.toNat r.second.toNat ↔ r.Untorn := by
  rw [toNat_time, value_mem_Icc_iff r.order r.toNat_le, untorn_iff]

end Reading

/-- A measured operation: `start` and `end` are read before and after it. -/
structure Measurement where
  start : Reading
  end_ : Reading
  le : start.second ≤ end_.first

namespace Measurement

def cycles (m : Measurement) : UInt64 := m.end_.time - m.start.time

/-- Both time stamps lie between their reads, and so does what elapsed between them. -/
structure Exact (m : Measurement) : Prop where
  start_mem : m.start.time.toNat ∈ Set.Icc m.start.first.toNat m.start.second.toNat
  end_mem : m.end_.time.toNat ∈ Set.Icc m.end_.first.toNat m.end_.second.toNat
  no_wrap : m.start.time ≤ m.end_.time
  cycles_mem : m.cycles.toNat ∈ Set.Icc (m.end_.first.toNat - m.start.second.toNat)
    (m.end_.second.toNat - m.start.first.toNat)

variable {m : Measurement}

theorem start_le_end (hs : m.start.Untorn) (he : m.end_.Untorn) :
    m.start.time ≤ m.end_.time := by
  rw [UInt64.le_iff_toNat_le]
  calc m.start.time.toNat ≤ m.start.second.toNat := ((m.start.time_mem_Icc_iff).mpr hs).2
    _ ≤ m.end_.first.toNat := UInt64.le_iff_toNat_le.mp m.le
    _ ≤ m.end_.time.toNat := ((m.end_.time_mem_Icc_iff).mpr he).1

theorem toNat_cycles (h : m.start.time ≤ m.end_.time) :
    m.cycles.toNat = m.end_.time.toNat - m.start.time.toNat :=
  UInt64.toNat_sub_of_le _ _ h

/-- A measurement is exact if and only if neither of its readings is torn. -/
theorem elapsed_exact_iff (m : Measurement) :
    m.Exact ↔ m.start.Untorn ∧ m.end_.Untorn := by
  constructor
  · intro h
    exact ⟨(m.start.time_mem_Icc_iff).mp h.start_mem, (m.end_.time_mem_Icc_iff).mp h.end_mem⟩
  · intro ⟨hs, he⟩
    have hle := start_le_end hs he
    have hs' := (m.start.time_mem_Icc_iff).mpr hs
    have he' := (m.end_.time_mem_Icc_iff).mpr he
    refine ⟨hs', he', hle, ?_⟩
    rw [toNat_cycles hle]
    exact elapsed_mem_Icc hs' he'

/-- The low word wraps between the two reads of `start`; the operation ends a few microseconds
later. -/
def wrapped : Measurement where
  start := { order := .lowFirst, first := 0xffffffff, second := 0x100000000, le := by decide }
  end_ := { order := .lowFirst, first := 0x100000005, second := 0x100000006, le := by decide }
  le := by decide

/-- The time stamp of `start` is a whole period late, and the difference wraps below zero. -/
theorem wrapped_elapsed_absurd :
    ¬ wrapped.Exact ∧ wrapped.cycles = 0xffffffff00000006 := by
  refine ⟨fun h => ?_, by decide⟩
  have hle := h.no_wrap
  exact absurd hle (by decide)

end Measurement

end PicoHybridCrypto
