import Mathlib.Order.Interval.Set.Defs
import Mathlib.Algebra.Order.Ring.Nat

/-! # Reading a moving counter in two digits

A counter is read as two digits in base `b` at two instants, while it moves from `t` to `u`.
The value put together from them lies between `t` and `u` exactly when the low digit has not
decreased, whichever digit is read first. -/

set_option autoImplicit true

namespace TornRead

inductive ReadOrder
  | lowFirst
  | highFirst
  deriving DecidableEq, Repr

/-- The value put together when the counter is `t` at the first read and `u` at the second. -/
def value (b : Nat) (t u : Nat) : ReadOrder → Nat
  | .lowFirst => t % b + b * (u / b)
  | .highFirst => u % b + b * (t / b)

variable {b t u : Nat}

theorem le_value_lowFirst (h : t ≤ u) : t ≤ value b t u .lowFirst := by
  calc t = t % b + b * (t / b) := (Nat.mod_add_div t b).symm
    _ ≤ t % b + b * (u / b) :=
      Nat.add_le_add_left (Nat.mul_le_mul_left b (Nat.div_le_div_right h)) _

theorem value_lowFirst_le_iff : value b t u .lowFirst ≤ u ↔ t % b ≤ u % b := by
  have hu := Nat.mod_add_div u b
  rw [value]
  omega

theorem value_highFirst_le (h : t ≤ u) : value b t u .highFirst ≤ u := by
  calc u % b + b * (t / b) ≤ u % b + b * (u / b) :=
      Nat.add_le_add_left (Nat.mul_le_mul_left b (Nat.div_le_div_right h)) _
    _ = u := Nat.mod_add_div u b

theorem le_value_highFirst_iff : t ≤ value b t u .highFirst ↔ t % b ≤ u % b := by
  have ht := Nat.mod_add_div t b
  rw [value]
  omega

/-- Both orders of reading are right under the same condition on the low digits. -/
theorem value_mem_Icc_iff (order : ReadOrder) (h : t ≤ u) :
    value b t u order ∈ Set.Icc t u ↔ t % b ≤ u % b := by
  rw [Set.mem_Icc]
  cases order with
  | lowFirst => rw [and_iff_right (le_value_lowFirst h), value_lowFirst_le_iff]
  | highFirst => rw [and_iff_left (value_highFirst_le h), le_value_highFirst_iff]

/-- Reads less than one period of the low digit apart are torn exactly when a carry into the
high digit falls between them. -/
theorem mod_le_mod_iff (h : t ≤ u) (hb : u < t + b) : t % b ≤ u % b ↔ t / b = u / b := by
  have ht := Nat.mod_add_div t b
  have hu := Nat.mod_add_div u b
  have hdiv : t / b ≤ u / b := Nat.div_le_div_right h
  constructor
  · intro hmod
    by_contra hne
    have hcarry : b * (t / b + 1) ≤ b * (u / b) := Nat.mul_le_mul_left b (by omega)
    rw [Nat.mul_add, Nat.mul_one] at hcarry
    omega
  · intro heq
    rw [heq] at ht
    omega

/-- Two time stamps taken within disjoint, ordered intervals bound what elapsed between
them. -/
theorem elapsed_mem_Icc {s s₁ s₂ e e₁ e₂ : Nat} (hs : s ∈ Set.Icc s₁ s₂)
    (he : e ∈ Set.Icc e₁ e₂) : e - s ∈ Set.Icc (e₁ - s₂) (e₂ - s₁) :=
  ⟨(Nat.sub_le_sub_right he.1 _).trans (Nat.sub_le_sub_left hs.2 _),
    (Nat.sub_le_sub_right he.2 _).trans (Nat.sub_le_sub_left hs.1 _)⟩

end TornRead
