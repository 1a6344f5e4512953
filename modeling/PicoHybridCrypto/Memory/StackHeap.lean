import Mathlib.Data.Int.ConditionallyCompleteOrder
import Mathlib.Data.Set.Piecewise
import PicoHybridCrypto.Bench.Buffers
import PicoHybridCrypto.Memory.Layout

/-! # The memory analysis of `stackheap.c`

What the program reports about the stack and the heap, in every program that links
(`usage_reports`); what its recursion does to the stack (`recursive_stack_test_frame`); and what
its allocations tell about the heap (`stress_test_measures`). -/

set_option autoImplicit true

namespace PicoHybridCrypto
open Cells Custody Ledger

/-! ## What is reported -/

/-- The difference of two addresses, printed as an `int`. -/
def addressDiff (a b : Nat) : Int := CInt.signed 32 (CInt.unsigned 32 ((a : Int) - b))

structure StackUsage where
  stackSize : Int
  stackUsed : Int
  stackRemaining : Int

namespace Sections

/-- `stackPtr` is the address of a local variable. -/
def checkStackUsage (s : Sections) (stackPtr : Nat) : StackUsage where
  stackSize := addressDiff stackTop s.stackBottom
  stackUsed := addressDiff stackTop stackPtr
  stackRemaining := addressDiff stackPtr s.stackBottom

/-- `check_heap_usage`, up to its allocation. -/
def maxAvailableHeap (s : Sections) : Int := addressDiff stackLimit s.end_

end Sections

theorem addressDiff_of_mem {a b : Nat} (h₀ : -2 ^ 31 ≤ (a : Int) - b) (h : (a : Int) - b < 2 ^ 31) :
    addressDiff a b = a - b := by
  rw [addressDiff, CInt.signed_unsigned]
  exact CInt.signed_of_mem h₀ h

/-- Differences of addresses that are far apart have the wrong sign. -/
theorem addressDiff_nonneg_iff {a b : Nat} (ha : a < 2 ^ 32) (hb : b < 2 ^ 32) :
    0 ≤ addressDiff a b ↔ b ≤ a ∧ a < b + 2 ^ 31 ∨ a + 2 ^ 31 < b := by
  rw [addressDiff, CInt.signed_unsigned, CInt.signed, Int.bmod_def]
  norm_num at ha hb ⊢
  split_ifs <;> omega

namespace Sections

/-- In every program that links, wherever its stack pointer is: the reported size of the stack is
what the linker script reserves, both other numbers are not negative exactly if the pointer is
within the stack, and then they are what is used and what is left; and the heap is reported 8 KiB
larger than it is. -/
theorem usage_reports {s : Sections} (h : s.Links) {stackPtr : Nat} (hptr : stackPtr < 2 ^ 32) :
    (s.checkStackUsage stackPtr).stackSize = s.stackDummy.size ∧
    (0 ≤ (s.checkStackUsage stackPtr).stackUsed ∧ 0 ≤ (s.checkStackUsage stackPtr).stackRemaining ↔
      stackPtr ∈ Set.Icc s.stackBottom stackTop) ∧
    (stackPtr ∈ Set.Icc s.stackBottom stackTop →
      (s.checkStackUsage stackPtr).stackUsed = stackTop - stackPtr ∧
      (s.checkStackUsage stackPtr).stackRemaining = stackPtr - s.stackBottom) ∧
    s.maxAvailableHeap = heapLimit - s.end_ + 0x2000 := by
  have hend := h.end_add_le
  have htop : stackTop = 0x20080000 := rfl
  have hram : Region.ram.top = stackTop := rfl
  have hlimit : stackLimit = stackTop := rfl
  have hheap : heapLimit + 0x2000 = stackTop := rfl
  have hbottom : s.stackBottom + s.stackDummy.size = stackTop := by
    rw [stackBottom]
    omega
  simp only [checkStackUsage, maxAvailableHeap, Set.mem_Icc]
  refine ⟨?_, ?_, fun hmem => ⟨?_, ?_⟩, ?_⟩
  · rw [addressDiff_of_mem (by omega) (by omega)]
    omega
  · rw [addressDiff_nonneg_iff (by omega) hptr, addressDiff_nonneg_iff hptr (by omega)]
    omega
  · exact addressDiff_of_mem (by omega) (by omega)
  · exact addressDiff_of_mem (by omega) (by omega)
  · rw [addressDiff_of_mem (by omega) (by omega)]
    omega

/-- A stack of 2 KiB that has overflowed by 16 bytes. -/
theorem usage_reports_overflow :
    ¬(0 ≤ ((withStacks 0 0x800).checkStackUsage 0x2007F7F0).stackUsed ∧
      0 ≤ ((withStacks 0 0x800).checkStackUsage 0x2007F7F0).stackRemaining) := by
  have hlinks : (withStacks 0 0x800).Links := ⟨by decide, by decide, by decide, by decide⟩
  exact fun hnonneg => absurd ((usage_reports hlinks (by decide)).2.1.mp hnonneg) (by decide)

end Sections

/-! ## The recursion -/

/-- The stack frame of a call of `recursive_stack_test`, as the compiler lays it out. -/
structure StackFrame where
  size : Nat
  /-- Where `local_buffer` is in the frame. -/
  offset : Nat
  fits : offset + 256 ≤ size
  /-- Where `check` is in the frame. -/
  checkOffset : Nat
  check_fits : checkOffset < size
  /-- How far below the frame the functions that are called from it write, and interrupts. -/
  callees : Nat

namespace StackFrame
variable (f : StackFrame) (sp : Int)

def localBuffer : Int := sp - f.size + f.offset

/-- The cells of `local_buffer`. -/
def bufferCells : Set Int := Set.Ico (f.localBuffer sp) (f.localBuffer sp + 256)

/-- The frame of a call that is entered with the stack pointer `sp`, and what is used below it. -/
def reach : Set Int := Set.Ico (sp - f.size - f.callees) sp

end StackFrame

/-- Where a call writes to the stack besides the stores of its own statements: on entry, in the
functions it calls before the recursion, behind it, and on return. -/
inductive StackPoint
  | enter
  | call
  | resume
  | leave

/-- As long as `local_buffer` is in use, nothing else is kept in its cells. -/
def StackFrame.writable (f : StackFrame) (sp : Int) : StackPoint → Set Int
  | .enter | .leave => f.reach sp
  | .call | .resume => f.reach sp \ f.bufferCells sp

/-- What the calls write to the stack besides the stores of their own statements: saved registers,
arguments, the frames of `memset` and `printf`. Each write may depend on `depth`, the stack pointer
and the memory. -/
structure StackWrites (f : StackFrame) where
  write : StackPoint → Int → Int → Memory → Memory
  within : ∀ point depth sp m, Set.EqOn (write point depth sp m) m (f.writable sp point)ᶜ

/-- `memset` -/
def memset (m : Memory) (dst : Int) (c : UInt8) (n : Nat) : Memory :=
  copyIn m dst (List.replicate n c)

structure StackLine where
  depth : Int
  maxDepth : Int
  buffer : Int

/-- What a call leaves in memory, prints, and reads back when the calls in it have returned. -/
structure StackTest where
  memory : Memory
  lines : List StackLine
  checks : List UInt8

section
variable (f : StackFrame) (w : StackWrites f)

/-- `recursive_stack_test`, up to the recursion. -/
def beforeRecursion (depth sp : Int) (m : Memory) : Memory :=
  let m := w.write .enter depth sp m
  let m := memset m (f.localBuffer sp) (.ofInt depth) 256
  w.write .call depth sp m

/-- `recursive_stack_test`, behind the recursion. -/
def afterRecursion (depth maxDepth sp : Int) (inner : StackTest) : StackTest :=
  let m := w.write .resume depth sp inner.memory
  let check := sp - f.size + f.checkOffset
  let m := Function.update m check (m (f.localBuffer sp))
  { memory := w.write .leave depth sp m
    lines := ⟨depth, maxDepth, f.localBuffer sp⟩ :: inner.lines
    checks := inner.checks ++ [m check] }

/-- `recursive_stack_test`, called with the stack pointer `sp`. What `printf` writes outside the
stack is not modelled. -/
def recursiveStackTest (depth maxDepth sp : Int) (m : Memory) : StackTest :=
  let m := beforeRecursion f w depth sp m
  let inner : StackTest :=
    if depth < maxDepth then recursiveStackTest (depth + 1) maxDepth (sp - f.size) m
    else ⟨m, [], []⟩
  afterRecursion f w depth maxDepth sp inner
termination_by (maxDepth - depth).toNat
decreasing_by omega

end

/-- How many calls are on the stack at the same time. -/
def stackLevels (depth maxDepth : Int) : Nat := (maxDepth - depth).toNat + 1

/-- The lowest cell that `n` calls within each other use. -/
def StackFrame.bottom (f : StackFrame) (sp : Int) (n : Nat) : Int := sp - n * f.size - f.callees

/-- `n` calls print their depths and buffers, find their own values in their buffers when they
return, and change nothing but the stack they use. -/
structure StackTest.Right (f : StackFrame) (n : Nat) (depth maxDepth sp : Int) (m : Memory)
    (r : StackTest) : Prop where
  lines : r.lines = (List.range n).map fun k : Nat =>
    ⟨depth + k, maxDepth, f.localBuffer (sp - k * f.size)⟩
  checks : r.checks = ((List.range n).map fun k : Nat => .ofInt (depth + k)).reverse
  kept : Set.EqOn r.memory m (Set.Ico (f.bottom sp n) sp)ᶜ

namespace StackFrame

variable {f : StackFrame} {w : StackWrites f} {depth maxDepth sp : Int} {m : Memory} {n : Nat}

theorem bottom_succ : f.bottom sp (n + 1) = f.bottom (sp - f.size) n := by
  rw [bottom, bottom, Nat.cast_succ]
  ring

theorem bottom_le : f.bottom sp (n + 1) ≤ sp - f.size - f.callees := by
  have : (0 : Int) ≤ n * f.size := by positivity
  rw [bottom, Nat.cast_succ, Int.add_mul, Int.one_mul]
  omega

theorem localBuffer_mem : f.localBuffer sp ∈ f.bufferCells sp := ⟨le_rfl, by omega⟩

theorem bufferCells_subset : f.bufferCells sp ⊆ Set.Ico (sp - f.size) sp := by
  have := f.fits
  rintro i ⟨h₀, h⟩
  rw [localBuffer] at h₀ h
  exact ⟨by omega, by omega⟩

theorem frame_subset_reach : Set.Ico (sp - f.size) sp ⊆ f.reach sp :=
  Set.Ico_subset_Ico_left (by omega)

theorem reach_subset : f.reach sp ⊆ Set.Ico (f.bottom sp (n + 1)) sp :=
  Set.Ico_subset_Ico_left bottom_le

theorem compl_reach_subset (point : StackPoint) : (f.reach sp)ᶜ ⊆ (f.writable sp point)ᶜ := by
  refine Set.compl_subset_compl.mpr ?_
  cases point with
  | enter | leave => exact Set.Subset.rfl
  | call | resume => exact Set.sdiff_subset

/-- The calls within leave the frame of this one alone. -/
theorem frame_above (n : Nat) :
    Set.Ico (sp - f.size) sp ⊆ (Set.Ico (f.bottom (sp - f.size) n) (sp - f.size))ᶜ :=
  fun _ h hinner => absurd hinner.2 (not_lt.mpr h.1)

end StackFrame

theorem memset_outside {m : Memory} {dst i : Int} {c : UInt8} {n : Nat}
    (h : i ∉ Set.Ico dst (dst + n)) : memset m dst c n i = m i := by
  rw [Set.mem_Ico, not_and_or] at h
  rw [memset, copyIn]
  split_ifs with hle
  · rw [List.getElem?_eq_none (by rw [List.length_replicate]; omega), Option.getD_none]
  · rfl

theorem memset_of_mem {m : Memory} {dst i : Int} {c : UInt8} {n : Nat}
    (h : i ∈ Set.Ico dst (dst + n)) : memset m dst c n i = c := by
  obtain ⟨k, rfl⟩ := Int.le.dest h.1
  have hlt := h.2
  have hcell : copyIn m dst (List.replicate n c) (dst + k) = _ :=
    copyIn_add (by rw [List.length_replicate]; omega)
  rwa [List.getElem_replicate] at hcell

namespace StackFrame

variable {f : StackFrame} {w : StackWrites f} {depth maxDepth sp : Int} {m : Memory} {n : Nat}

theorem beforeRecursion_kept : Set.EqOn (beforeRecursion f w depth sp m) m (f.reach sp)ᶜ := by
  intro i hi
  have hbuffer : i ∉ f.bufferCells sp := fun h => hi (frame_subset_reach (bufferCells_subset h))
  rw [beforeRecursion, w.within _ _ _ _ (compl_reach_subset .call hi), memset_outside hbuffer,
    w.within _ _ _ _ (compl_reach_subset .enter hi)]

/-- The buffer holds the depth when the recursion begins. -/
theorem beforeRecursion_buffer :
    beforeRecursion f w depth sp m (f.localBuffer sp) = .ofInt depth := by
  have hwritable : f.localBuffer sp ∈ (f.writable sp .call)ᶜ := fun h => h.2 localBuffer_mem
  rw [beforeRecursion, w.within _ _ _ _ hwritable, memset_of_mem localBuffer_mem]

theorem afterRecursion_kept (inner : StackTest) :
    Set.EqOn (afterRecursion f w depth maxDepth sp inner).memory inner.memory (f.reach sp)ᶜ := by
  intro i hi
  have hcheck : i ≠ sp - f.size + f.checkOffset := by
    rintro rfl
    have := f.check_fits
    exact hi (frame_subset_reach ⟨by omega, by omega⟩)
  simp only [afterRecursion]
  rw [w.within _ _ _ _ (compl_reach_subset .leave hi), Function.update_of_ne hcheck,
    w.within _ _ _ _ (compl_reach_subset .resume hi)]

/-- What is read back is what is in the buffer when the recursion has ended. -/
theorem afterRecursion_checks (inner : StackTest) :
    (afterRecursion f w depth maxDepth sp inner).checks =
      inner.checks ++ [inner.memory (f.localBuffer sp)] := by
  have hwritable : f.localBuffer sp ∈ (f.writable sp .resume)ᶜ := fun h => h.2 localBuffer_mem
  simp only [afterRecursion, Function.update_self]
  rw [w.within _ _ _ _ hwritable]

/-- A call around `n` calls, whose frames are all below its own. -/
theorem right_succ {inner : StackTest} (H : inner.Right f n (depth + 1) maxDepth (sp - f.size)
      (beforeRecursion f w depth sp m)) :
    (afterRecursion f w depth maxDepth sp inner).Right f (n + 1) depth maxDepth sp m := by
  have hdepth (k : Nat) : depth + 1 + k = depth + (k + 1 : Nat) := by omega
  constructor
  · simp only [afterRecursion]
    rw [H.lines, List.range_succ_eq_map, List.map_cons, List.map_map, Nat.cast_zero, Int.zero_mul,
      Int.sub_zero, Int.add_zero]
    refine congrArg _ (List.map_congr_left fun k _ => ?_)
    rw [Function.comp_apply, hdepth, Nat.cast_succ, Int.add_mul, Int.one_mul, Int.sub_sub,
      Int.add_comm (f.size : Int)]
  · have hbuffer : f.localBuffer sp ∈ f.bufferCells sp := localBuffer_mem
    have hown := H.kept (frame_above n (bufferCells_subset hbuffer))
    rw [afterRecursion_checks, H.checks, hown, beforeRecursion_buffer, List.range_succ_eq_map,
      List.map_cons, List.map_map, List.reverse_cons, Nat.cast_zero, Int.add_zero]
    refine congrArg (·.reverse ++ _) (List.map_congr_left fun k _ => ?_)
    rw [Function.comp_apply, hdepth]
  · intro i hi
    have hreach : i ∈ (f.reach sp)ᶜ := fun h => hi (reach_subset h)
    have hinner : i ∈ (Set.Ico (f.bottom (sp - f.size) n) (sp - f.size))ᶜ := by
      rw [← bottom_succ]
      exact fun h => hi ⟨h.1, h.2.trans_le (by omega)⟩
    rw [afterRecursion_kept inner hreach, H.kept hinner, beforeRecursion_kept hreach]

end StackFrame

theorem recursiveStackTest_right (f : StackFrame) (w : StackWrites f) (depth maxDepth sp : Int)
    (m : Memory) : (recursiveStackTest f w depth maxDepth sp m).Right f
      (stackLevels depth maxDepth) depth maxDepth sp m := by
  rw [stackLevels]
  induction hn : (maxDepth - depth).toNat generalizing depth sp m with
  | zero =>
    rw [recursiveStackTest, if_neg (by omega)]
    exact StackFrame.right_succ ⟨rfl, rfl, fun _ _ => rfl⟩
  | succ n ih =>
    rw [recursiveStackTest, if_pos (by omega)]
    exact StackFrame.right_succ (ih (depth + 1) _ _ (by omega))

/-! ### Calls that write all they can -/

open Classical in
/-- Every write fills all the cells it may write to. -/
noncomputable def StackWrites.filling (f : StackFrame) : StackWrites f where
  write point _ sp m := (f.writable sp point).piecewise (fun _ => 1) m
  within point _ sp m := (f.writable sp point).piecewise_eqOn_compl (fun _ => 1) m

namespace StackFrame

variable {f : StackFrame} {depth maxDepth sp : Int} {m : Memory}

open Classical in
theorem afterRecursion_filling (inner : StackTest) {i : Int} (hi : i ∈ f.reach sp) :
    (afterRecursion f (.filling f) depth maxDepth sp inner).memory i = 1 :=
  Set.piecewise_eq_of_mem (f.writable sp .leave) (fun _ => 1) _ hi

theorem recursiveStackTest_filling {i : Int}
    (hi : i ∈ Set.Ico (f.bottom sp (stackLevels depth maxDepth)) sp) :
    (recursiveStackTest f (.filling f) depth maxDepth sp m).memory i = 1 := by
  rw [stackLevels] at hi
  induction hn : (maxDepth - depth).toNat generalizing depth sp m with
  | zero =>
    rw [hn, bottom_succ] at hi
    rw [recursiveStackTest, if_neg (by omega)]
    refine afterRecursion_filling _ ⟨?_, hi.2⟩
    simpa [bottom] using hi.1
  | succ n ih =>
    rw [hn, bottom_succ] at hi
    rw [recursiveStackTest, if_pos (by omega)]
    by_cases hreach : i ∈ f.reach sp
    · exact afterRecursion_filling _ hreach
    · rw [afterRecursion_kept _ hreach]
      have hbelow : i < sp - f.size := by
        by_contra hge
        exact hreach ⟨by omega, hi.2⟩
      have hlevels : (maxDepth - (depth + 1)).toNat = n := by omega
      refine ih ⟨?_, hbelow⟩ hlevels
      rw [hlevels]
      exact hi.1

end StackFrame

/-- Whatever the calls write to the stack, what is outside the stack of `s` stays as it was. -/
def StaysInStack (s : Sections) (f : StackFrame) (depth maxDepth sp : Int) : Prop :=
  ∀ (w : StackWrites f) (m : Memory) (addr : Int), ¬(s.stackBottom ≤ addr ∧ addr < stackTop) →
    (recursiveStackTest f w depth maxDepth sp m).memory addr = m addr

/-- All the frames, with what is used below the last, are within the stack. -/
theorem staysInStack_iff (s : Sections) (f : StackFrame) (depth maxDepth sp : Int) :
    StaysInStack s f depth maxDepth sp ↔
      s.stackBottom ≤ f.bottom sp (stackLevels depth maxDepth) ∧ sp ≤ stackTop := by
  constructor
  · intro h
    have hinside : ∀ i ∈ Set.Ico (f.bottom sp (stackLevels depth maxDepth)) sp,
        s.stackBottom ≤ i ∧ i < stackTop := by
      intro i hi
      by_contra hout
      have hfilled := StackFrame.recursiveStackTest_filling (m := fun _ => 0) hi
      rw [h _ _ i hout] at hfilled
      exact absurd hfilled (by decide)
    have hpos : f.bottom sp (stackLevels depth maxDepth) < sp := by
      have := f.fits
      have hle : f.bottom sp (stackLevels depth maxDepth) ≤ sp - f.size - f.callees := f.bottom_le
      omega
    have hfirst := hinside (sp - 1) ⟨by omega, by omega⟩
    exact ⟨(hinside _ ⟨le_rfl, hpos⟩).1, by omega⟩
  · rintro ⟨hbottom, htop⟩ w m addr hout
    refine (recursiveStackTest_right f w depth maxDepth sp m).kept fun haddr => hout ?_
    exact ⟨hbottom.trans haddr.1, haddr.2.trans_le htop⟩

def stressSizes : List Nat := [1024, 2048, 4096, 8192, 16384, 32768, 65536]

inductive StressLine
  | allocated (size ptr : Nat)
  | failed (size : Nat)
  deriving DecidableEq

namespace StressLine

def allocatedSize : StressLine → Option Nat
  | allocated size _ => some size
  | failed _ => none

def failedSize : StressLine → Option Nat
  | allocated _ _ => none
  | failed size => some size

end StressLine

/-- One size and what `malloc` returns for it; `break` is an error. -/
def stressIteration (_ : Unit) (i : Nat × Option Nat) :
    Except StressLine ((StressLine × Holding) × Unit) :=
  match i.2 with
  | some ptr => .ok ((.allocated i.1 ptr, mallocs (some ptr) ++ frees (some ptr)), ())
  | none => .error (.failed i.1)

/-- What `memory_stress_test` prints. -/
def stressLines (is : List (Nat × Option Nat)) : List StressLine :=
  let loop := Loop.run stressIteration () is
  match loop.2 with
  | .ok () => loop.1.map (·.1)
  | .error line => loop.1.map (·.1) ++ [line]

/-- What `memory_stress_test` acquires and releases. -/
def stressHolds (is : List (Nat × Option Nat)) : Holding :=
  ((Loop.run stressIteration () is).1.map (·.2)).flatten

/-- What `check_heap_usage` acquires and releases. -/
def checkHeapUsageHolds (p : Option Nat) : Holding := mallocs p ++ frees p

/-- What `main` acquires and releases. The objects of `simulate_rsa_memory_usage` are on the stack
and are never freed; what the calls return that initialise them is printed and not tested. -/
def stackHeapMainHolds (init : SignatureInit) (p : Option Nat) (ptrs : List (Option Nat))
    (p' : Option Nat) : Holding :=
  checkHeapUsageHolds p ++ stressHolds (stressSizes.zip ptrs) ++
    (inits .key init.key ++ inits .rng init.rng) ++ checkHeapUsageHolds p'

theorem stressLines_cons_some {i : Nat × Option Nat} {ptr : Nat} (h : i.2 = some ptr)
    (is : List (Nat × Option Nat)) :
    stressLines (i :: is) = .allocated i.1 ptr :: stressLines is := by
  have hbody : stressIteration () i =
      .ok ((.allocated i.1 ptr, mallocs (some ptr) ++ frees (some ptr)), ()) := by
    rw [stressIteration, h]
  simp only [stressLines, Loop.run_cons_ok hbody]
  split <;> rfl

theorem stressLines_cons_none {i : Nat × Option Nat} (h : i.2 = none)
    (is : List (Nat × Option Nat)) : stressLines (i :: is) = [.failed i.1] := by
  have hbody : stressIteration () i = .error (.failed i.1) := by rw [stressIteration, h]
  simp only [stressLines, Loop.run_cons_error hbody]
  rfl

/-- Of ascending sizes those up to the capacity are allocated, and the first above it fails. -/
theorem stressLines_sizes {is : List (Nat × Option Nat)} {capacity : Nat}
    (hsorted : (is.map (·.1)).Pairwise (· < ·)) (hcap : ∀ i ∈ is, i.2.isSome ↔ i.1 ≤ capacity) :
    (stressLines is).filterMap StressLine.allocatedSize =
        (is.map (·.1)).filter (· ≤ capacity) ∧
      (stressLines is).filterMap StressLine.failedSize =
        ((is.map (·.1)).find? (capacity < ·)).toList := by
  induction is with
  | nil => exact ⟨rfl, rfl⟩
  | cons i is ih =>
    obtain ⟨hi, hsorted⟩ := List.pairwise_cons.mp hsorted
    obtain ⟨hhead, hcap⟩ := List.forall_mem_cons.mp hcap
    rw [List.map_cons]
    cases hptr : i.2 with
    | some ptr =>
      have hle : i.1 ≤ capacity := hhead.mp (by rw [hptr]; rfl)
      obtain ⟨hallocated, hfailed⟩ := ih hsorted hcap
      rw [stressLines_cons_some hptr, List.filter_cons_of_pos (by simpa),
        List.find?_cons_of_neg (by simpa), ← hallocated, ← hfailed]
      exact ⟨rfl, rfl⟩
    | none =>
      have hlt : capacity < i.1 := Nat.lt_of_not_le fun hle => by
        have := hhead.mpr hle
        rw [hptr] at this
        cases this
      have hnone : (is.map (·.1)).filter (· ≤ capacity) = [] := by
        refine List.filter_eq_nil_iff.mpr fun size hsize => ?_
        simpa using hlt.trans (hi size hsize)
      rw [stressLines_cons_none hptr, List.filter_cons_of_neg (by simpa), hnone,
        List.find?_cons_of_pos (by simpa)]
      exact ⟨rfl, rfl⟩

theorem checkHeapUsage_passes (p : Option Nat) : Passes none (checkHeapUsageHolds p) none :=
  (Passes.mallocs p).append (.frees p)

theorem stress_passes (is : List (Nat × Option Nat)) : Passes none (stressHolds is) none := by
  unfold stressHolds
  induction is with
  | nil => exact .nil
  | cons i is ih =>
    cases hbody : stressIteration () i with
    | error line =>
      rw [Loop.run_cons_error hbody]
      exact .nil
    | ok y =>
      obtain ⟨⟨line, log⟩, ⟨⟩⟩ := y
      have hlog : Passes none log none := by
        rw [stressIteration] at hbody
        split at hbody <;> cases hbody
        rename_i ptr _
        exact checkHeapUsage_passes (some ptr)
      rw [Loop.run_cons_ok hbody]
      exact hlog.append ih

/-- The objects that are never freed. -/
def SignatureInit.held (init : SignatureInit) : Finset BenchObject :=
  (initialised .key init.key ++ initialised .rng init.rng).toFinset

section
variable (init : SignatureInit) (p p' : Option Nat) (ptrs : List (Option Nat))

theorem stackHeapMain_blocks : Leads 1 ∅ (blocks (stackHeapMainHolds init p ptrs p')) ∅ := by
  have hpasses := ((checkHeapUsage_passes p).append (stress_passes (stressSizes.zip ptrs))).append
    (checkHeapUsage_passes p')
  have hblocks : blocks (stackHeapMainHolds init p ptrs p') =
      blocks (checkHeapUsageHolds p ++ stressHolds (stressSizes.zip ptrs) ++
        checkHeapUsageHolds p') := by
    simp only [stackHeapMainHolds, blocks_append, blocks_inits, List.append_nil]
  rw [hblocks]
  exact hpasses.blocks_leads

theorem stackHeapMain_objects :
    Leads 2 ∅ (objects (stackHeapMainHolds init p ptrs p')) init.held := by
  let held := initialised .key init.key ++ initialised .rng init.rng
  have hobjects : objects (stackHeapMainHolds init p ptrs p') = held.map .acquire := by
    simp only [stackHeapMainHolds, objects_append, (checkHeapUsage_passes _).objects_eq,
      (stress_passes _).objects_eq, objects_inits, List.nil_append, List.append_nil, held,
      List.map_append]
  have hheld : held.Nodup ∧ held.length ≤ 2 := by
    simp only [held, initialised]
    split_ifs <;> decide
  rw [hobjects]
  exact .acquires_empty hheld.1 hheld.2

/-- For all results of the calls that initialise the key and the generator and all pointers `malloc`
returns: the program frees each block before it allocates the next, and ends with those of the two
objects that were initialised. If the heap has room for `capacity` bytes, the sizes it prints as
allocated are those up to the capacity, and the first size above, if any, is printed as failed. -/
theorem stress_test_measures :
    Leads 1 ∅ (blocks (stackHeapMainHolds init p ptrs p')) ∅ ∧
    Leads 2 ∅ (objects (stackHeapMainHolds init p ptrs p')) init.held ∧
    ∀ capacity : Nat, ptrs.length = stressSizes.length →
      (∀ i ∈ stressSizes.zip ptrs, i.2.isSome ↔ i.1 ≤ capacity) →
      (stressLines (stressSizes.zip ptrs)).filterMap StressLine.allocatedSize =
        stressSizes.filter (· ≤ capacity) ∧
      (stressLines (stressSizes.zip ptrs)).filterMap StressLine.failedSize =
        (stressSizes.find? (capacity < ·)).toList := by
  refine ⟨stackHeapMain_blocks init p p' ptrs, stackHeapMain_objects init p p' ptrs, ?_⟩
  intro capacity hlength hcap
  have hsizes : (stressSizes.zip ptrs).map (·.1) = stressSizes := List.map_fst_zip hlength.ge
  have hsorted : stressSizes.Pairwise (· < ·) := by decide
  rw [← hsizes] at hsorted
  have hmeasured := stressLines_sizes hsorted hcap
  rwa [hsizes] at hmeasured

end

/-- What `malloc` returns from a heap with room for 10 KiB. -/
def tenKiB : List (Option Nat) := [some 0, some 0, some 0, some 0, none, none, none]

/-- The generator cannot be initialised. -/
theorem stress_test_measures_tenKiB :
    Leads 2 ∅ (objects (stackHeapMainHolds ⟨-199, 0⟩ (some 0) tenKiB (some 0))) {.key} ∧
      (stressLines (stressSizes.zip tenKiB)).filterMap StressLine.allocatedSize =
        stressSizes.filter (· ≤ 10240) := by
  obtain ⟨-, hobjects, hmeasures⟩ := stress_test_measures ⟨-199, 0⟩ (some 0) (some 0) tenKiB
  exact ⟨hobjects, (hmeasures 10240 rfl (by decide)).1⟩

end PicoHybridCrypto
