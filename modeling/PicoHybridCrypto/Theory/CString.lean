import Mathlib.Data.Nat.Init
import Mathlib.Tactic.Common

/-! # Printing a C string

What `%s` prints of the memory at a pointer, and which cells it looks at. It stays in front of a
bound exactly when there is a NUL in front of the bound (`CString.consults_lt_iff`), and then the
text is a function of the cells there (`CString.text_congr`). -/

set_option autoImplicit true

namespace CString

/-- Printing looks at the cell `k`: there is no NUL in front of it. -/
def Consults (m : Int → UInt8) (k : Nat) : Prop := ∀ j : Nat, j < k → m j ≠ 0

instance (m : Int → UInt8) (k : Nat) : Decidable (Consults m k) :=
  inferInstanceAs (Decidable (∀ j, j < k → m (j : Nat) ≠ 0))

/-- The character that is printed at position `k`, if there is one. -/
def text (m : Int → UInt8) (k : Nat) : Option UInt8 :=
  if Consults m (k + 1) then some (m k) else none

variable {m m' : Int → UInt8} {k n : Nat}

theorem consults_lt_iff : (∀ k, Consults m k → k < n) ↔ ∃ j : Nat, j < n ∧ m j = 0 := by
  constructor
  · intro h
    by_contra hnul
    refine Nat.lt_irrefl n (h n fun j hj hzero => ?_)
    exact hnul ⟨j, hj, hzero⟩
  · rintro ⟨j, hj, hzero⟩ k hk
    by_contra hle
    exact hk j (by omega) hzero

theorem Consults.congr (h : Consults m k) (hk : k ≤ n) (hm : ∀ j : Nat, j < n → m' j = m j) :
    Consults m' k := by
  intro j hj
  rw [hm j (by omega)]
  exact h j hj

theorem text_congr (hnul : ∃ j : Nat, j < n ∧ m j = 0) (hm : ∀ j : Nat, j < n → m' j = m j) :
    text m' = text m := by
  have hlt := consults_lt_iff.mpr hnul
  have hlt' : ∀ k, Consults m' k → k < n := by
    obtain ⟨j, hj, hzero⟩ := hnul
    exact consults_lt_iff.mpr ⟨j, hj, (hm j hj).trans hzero⟩
  funext k
  by_cases h : Consults m (k + 1)
  · have hk := hlt _ h
    rw [text, text, if_pos h, if_pos (h.congr (Nat.le_of_lt hk) hm), hm k (by omega)]
  · have h' : ¬Consults m' (k + 1) := fun h' =>
      h (h'.congr (Nat.le_of_lt (hlt' _ h')) fun j hj => (hm j hj).symm)
    rw [text, text, if_neg h, if_neg h']

end CString
