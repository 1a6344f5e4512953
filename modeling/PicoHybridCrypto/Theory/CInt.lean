import Mathlib.Data.Int.Order.Basic
import Mathlib.Tactic.Ring
import Mathlib.Tactic.Positivity
import Mathlib.Algebra.Order.Ring.Int

/-! # Fixed-width integer conversions of C

Values of C integer expressions are integers; a conversion to a type of `w` bits is explicit.
Signed conversions wrap in two's complement. -/

set_option autoImplicit true

namespace CInt

/-- Conversion to an unsigned type of `w` bits. -/
def unsigned (w : Nat) (x : Int) : Nat := (x % 2 ^ w).toNat

/-- Conversion to a two's complement signed type of `w` bits. -/
def signed (w : Nat) (x : Int) : Int := x.bmod (2 ^ w)

/-- The value of a `_Bool` in arithmetic. -/
def ofBool (b : Bool) : Int := if b then 1 else 0

/-- `p ? 0 : 1`, an exit status. -/
def status (p : Prop) [Decidable p] : Int := if p then 0 else 1

theorem status_eq_zero {p : Prop} [Decidable p] : status p = 0 ↔ p := by
  by_cases h : p
  · exact iff_of_true (if_pos h) h
  · refine iff_of_false ?_ h
    rw [status, if_neg h]
    decide

variable {w n : Nat} {x : Int}

theorem unsigned_of_lt (h₀ : 0 ≤ x) (h : x < 2 ^ w) : (unsigned w x : Int) = x := by
  rw [unsigned, Int.emod_eq_of_lt h₀ h, Int.toNat_of_nonneg h₀]

theorem unsigned_natCast (h : n < 2 ^ w) : unsigned w (n : Int) = n := by
  have := unsigned_of_lt (w := w) (Int.natCast_nonneg n) (by exact_mod_cast h)
  exact_mod_cast this

theorem unsigned_lt (w : Nat) (x : Int) : unsigned w x < 2 ^ w := by
  have hpos : (0 : Int) < 2 ^ w := by positivity
  rw [unsigned, Int.toNat_lt (Int.emod_nonneg x hpos.ne')]
  exact_mod_cast Int.emod_lt_of_pos x hpos

theorem unsigned_natCast_eq_mod (w n : Nat) : unsigned w (n : Int) = n % 2 ^ w := by
  rw [unsigned]
  exact_mod_cast Int.toNat_natCast (n % 2 ^ w)

theorem signed_of_mem (h₀ : -(2 : Int) ^ w ≤ x) (h : x < 2 ^ w) : signed (w + 1) x = x := by
  have hw : ((2 ^ (w + 1) : Nat) : Int) = 2 * 2 ^ w := by push_cast; ring
  apply Int.bmod_eq_of_le <;> rw [hw] <;> omega

/-- A value that fits the unsigned type either keeps its value or becomes negative. -/
theorem signed_of_nonneg (h₀ : 0 ≤ x) (h : x < 2 ^ w) (hs : 0 ≤ signed w x) :
    signed w x = x := by
  have hpos : 0 < 2 ^ w := Nat.two_pow_pos w
  have hlt : signed w x < (2 ^ w : Nat) := by
    have := Int.bmod_lt (x := x) hpos
    rw [signed]
    omega
  have hmod : signed w x % (2 ^ w : Nat) = x % (2 ^ w : Nat) := Int.bmod_emod
  rwa [Int.emod_eq_of_lt hs hlt, Int.emod_eq_of_lt h₀ (by exact_mod_cast h)] at hmod

theorem signed_signed (w : Nat) (x : Int) : signed w (signed w x) = signed w x :=
  Int.bmod_bmod

/-- A signed value survives a round trip through the unsigned type of its width. -/
theorem signed_unsigned (w : Nat) (x : Int) : signed w (unsigned w x) = signed w x := by
  have hpos : (0 : Int) < 2 ^ w := by positivity
  have h : ((unsigned w x : Nat) : Int) = x % (2 ^ w : Nat) := by
    rw [unsigned, Int.toNat_of_nonneg (Int.emod_nonneg x hpos.ne')]
    push_cast
    rfl
  rw [signed, h, Int.emod_bmod]
  rfl

end CInt
