import Mathlib.Data.List.Basic
import Mathlib.Logic.Function.Basic
import Mathlib.Tactic.Common

/-! # Cells of a C array

The cells of an array are indexed by the integers, so that an access outside the array is a
value of the model and not excluded by its type. The operations log the indices they use. -/

set_option autoImplicit true

namespace Cells

inductive Access
  | load (i : Int)
  | store (i : Int)
  deriving DecidableEq, Repr

def Access.index : Access → Int
  | .load i | .store i => i

variable {α : Type*} {i dst src : Int} {k n : Nat}

/-- Between `m` and `m'` only cells that the log says have been stored to have changed. -/
def Framed (m m' : Int → α) (log : List Access) : Prop := ∀ i, .store i ∉ log → m' i = m i

theorem Framed.rfl {m : Int → α} {log : List Access} : Framed m m log := fun _ _ => by rfl

theorem Framed.mono {m m' : Int → α} {log log' : List Access} (h : Framed m m' log)
    (hsub : log ⊆ log') : Framed m m' log' := fun i hi => h i fun hmem => hi (hsub hmem)

/-- The first `n` cells, in order. -/
def slice (m : Int → α) (n : Nat) : List α := (List.range n).map fun k : Nat => m k

@[simp] theorem length_slice (m : Int → α) (n : Nat) : (slice m n).length = n := by
  simp [slice]

@[simp] theorem slice_zero (m : Int → α) : slice m 0 = [] := rfl

theorem getElem?_slice (m : Int → α) (n k : Nat) :
    (slice m n)[k]? = if k < n then some (m k) else none := by
  by_cases h : k < n
  · simp [slice, h]
  · simp [slice, h]

theorem slice_congr {m m' : Int → α} (h : ∀ k : Nat, k < n → m k = m' k) :
    slice m n = slice m' n :=
  List.map_congr_left fun k hk => h k (List.mem_range.mp hk)

theorem take_slice (m : Int → α) (n k : Nat) : (slice m n).take k = slice m (min k n) := by
  apply List.ext_getElem?
  intro i
  rw [List.getElem?_take, getElem?_slice, getElem?_slice]
  grind

theorem drop_slice (m : Int → α) (n k : Nat) :
    (slice m n).drop k = slice (fun i => m (i + k)) (n - k) := by
  apply List.ext_getElem?
  intro i
  rw [List.getElem?_drop, getElem?_slice, getElem?_slice]
  by_cases h : i < n - k
  · rw [if_pos h, if_pos (by omega)]
    congr 2
    push_cast
    omega
  · rw [if_neg h, if_neg (by omega)]

/-! ## Block copies -/

/-- The cells after the values `xs` are written from index `dst` on. -/
def copyIn (m : Int → α) (dst : Int) (xs : List α) : Int → α := fun i =>
  if dst ≤ i then (xs[(i - dst).toNat]?).getD (m i) else m i

/-- The indices a block copy of `n` cells from `dst` on writes. -/
def copyStores (dst : Int) (n : Nat) : List Access :=
  (List.range n).map fun k : Nat => .store (dst + k)

/-- The indices a block copy of `n` cells from `src` on reads. -/
def copyLoads (src : Int) (n : Nat) : List Access :=
  (List.range n).map fun k : Nat => .load (src + k)

theorem copyIn_of_lt {m : Int → α} {xs : List α} (h : i < dst) : copyIn m dst xs i = m i := by
  rw [copyIn, if_neg (by omega)]

theorem copyIn_add {m : Int → α} {xs : List α} (h : k < xs.length) :
    copyIn m dst xs (dst + k) = xs[k] := by
  rw [copyIn, if_pos (by omega), show (dst + k - dst).toNat = k by omega,
    List.getElem?_eq_getElem h, Option.getD_some]

theorem copyIn_zero {m : Int → α} {xs : List α} (h : k < xs.length) :
    copyIn m 0 xs k = xs[k] := by
  have hcell : copyIn m 0 xs (0 + k) = xs[k] := copyIn_add h
  rwa [Int.zero_add] at hcell

/-- Writing right behind the first `n` cells appends to them. -/
theorem slice_copyIn (m : Int → α) (n : Nat) (xs : List α) :
    slice (copyIn m n xs) (n + xs.length) = slice m n ++ xs := by
  apply List.ext_getElem?
  intro k
  rw [getElem?_slice, List.getElem?_append, length_slice, getElem?_slice]
  by_cases hk : k < n
  · rw [if_pos (by omega), if_pos hk, if_pos hk, copyIn_of_lt (by omega)]
  · rw [if_neg hk]
    by_cases hk' : k < n + xs.length
    · have hlt : k - n < xs.length := by omega
      have hcell : copyIn m n xs (n + (k - n : Nat)) = xs[k - n] := copyIn_add hlt
      rw [if_pos hk', List.getElem?_eq_getElem hlt, ← hcell]
      congr 2
      omega
    · rw [if_neg hk', List.getElem?_eq_none (by omega)]

theorem slice_copyIn_zero (m : Int → α) (xs : List α) :
    slice (copyIn m 0 xs) xs.length = xs := by
  simpa using slice_copyIn m 0 xs

theorem mem_copyStores {a : Access} :
    a ∈ copyStores dst n ↔ ∃ k : Nat, k < n ∧ a = .store (dst + k) := by
  simp [copyStores, eq_comm]

theorem framed_copyIn (m : Int → α) (dst : Int) (xs : List α) :
    Framed m (copyIn m dst xs) (copyStores dst xs.length) := by
  intro i hi
  by_cases hlt : i < dst
  · exact copyIn_of_lt hlt
  · have hge : xs.length ≤ (i - dst).toNat := by
      by_contra h
      exact hi (mem_copyStores.mpr ⟨(i - dst).toNat, by omega, by congr 1; omega⟩)
    rw [copyIn, List.getElem?_eq_none hge, Option.getD_none, ite_self]

theorem mem_copyLoads {a : Access} :
    a ∈ copyLoads src n ↔ ∃ k : Nat, k < n ∧ a = .load (src + k) := by
  simp [copyLoads, eq_comm]

/-! ## Shifting down in place -/

/-- The loop `for (i = 0; i < n; i++) m[i] = m[i + off]` with the accesses it makes. The last
iteration works on what the earlier ones left, so the ranges may overlap. -/
def shiftDown (m : Int → α) (off : Int) : Nat → (Int → α) × List Access
  | 0 => (m, [])
  | n + 1 =>
    let (m', log) := shiftDown m off n
    (Function.update m' n (m' (n + off)), log ++ [.load (n + off), .store n])

theorem shiftDown_of_ge (m : Int → α) (off : Int) {n : Nat} {i : Int} (h : n ≤ i) :
    (shiftDown m off n).1 i = m i := by
  induction n with
  | zero => rfl
  | succ n ih =>
    simp only [shiftDown]
    rw [Function.update_of_ne (by omega)]
    exact ih (by omega)

/-- Each cell is read before the loop overwrites it: the sources are never behind the
destinations. -/
theorem shiftDown_of_lt (m : Int → α) {off : Int} (hoff : 0 ≤ off) {n k : Nat} (h : k < n) :
    (shiftDown m off n).1 k = m (k + off) := by
  induction n with
  | zero => omega
  | succ n ih =>
    simp only [shiftDown]
    by_cases hk : k = n
    · subst hk
      rw [Function.update_self]
      exact shiftDown_of_ge m off (by omega)
    · rw [Function.update_of_ne (by omega)]
      exact ih (by omega)

theorem framed_shiftDown (m : Int → α) (off : Int) (n : Nat) :
    Framed m (shiftDown m off n).1 (shiftDown m off n).2 := by
  induction n with
  | zero => exact .rfl
  | succ n ih =>
    intro i hi
    simp only [shiftDown, List.mem_append, List.mem_cons, not_or] at hi ⊢
    have hne : i ≠ n := fun h => hi.2.2.1 (congrArg _ h)
    rw [Function.update_of_ne hne]
    exact ih i hi.1

theorem slice_shiftDown (m : Int → α) (off n : Nat) :
    slice (shiftDown m off n).1 n = (slice m (off + n)).drop off := by
  rw [drop_slice, Nat.add_sub_cancel_left]
  exact slice_congr fun k hk => shiftDown_of_lt m (by omega) hk

theorem mem_shiftDown_log {m : Int → α} {off : Int} {n : Nat} {a : Access} :
    a ∈ (shiftDown m off n).2 ↔ ∃ k : Nat, k < n ∧ (a = .load (k + off) ∨ a = .store k) := by
  induction n with
  | zero => simp [shiftDown]
  | succ n ih =>
    simp only [shiftDown, List.mem_append, ih, List.mem_cons, List.not_mem_nil, or_false]
    constructor
    · rintro (⟨k, hk, h⟩ | h)
      · exact ⟨k, by omega, h⟩
      · exact ⟨n, by omega, h⟩
    · rintro ⟨k, hk, h⟩
      rcases Nat.lt_succ_iff_lt_or_eq.mp hk with hk | rfl
      · exact .inl ⟨k, hk, h⟩
      · exact .inr h

end Cells
