import Mathlib.Order.Interval.Set.Disjoint
import Mathlib.Data.List.Pairwise
import Mathlib.Order.CompletePartialOrder

/-! # The memory map of `memmap_custom.ld`

The linker places the sections of a region one after the other and checks that they fit. The
script places both stack sections that way, but then puts the stacks at the top of RAM, where
nothing checks what else is there: in every program that links, the areas that the symbols hand
out are separate exactly when both stacks are empty (`separated_iff`). -/

set_option autoImplicit true

namespace PicoHybridCrypto

/-! ## Placing sections -/

/-- An output section: what its contents add up to and how they are aligned. -/
structure Section where
  size : Nat
  align : Nat
  align_pos : 0 < align

structure Region where
  origin : Nat
  length : Nat

def Region.top (r : Region) : Nat := r.origin + r.length

/-- `ALIGN` -/
def alignUp (dot align : Nat) : Nat := (dot + (align - 1)) / align * align

namespace Section

def start (dot : Nat) (sec : Section) : Nat := alignUp dot sec.align

/-- The location counter behind the section. -/
def stop (dot : Nat) (sec : Section) : Nat := sec.start dot + sec.size

theorem le_start (dot : Nat) (sec : Section) : dot ≤ sec.start dot := by
  have := Nat.div_add_mod (dot + (sec.align - 1)) sec.align
  have := Nat.mod_lt (dot + (sec.align - 1)) sec.align_pos
  have := sec.align_pos
  rw [start, alignUp, Nat.mul_comm]
  omega

theorem le_stop (dot : Nat) (sec : Section) : dot + sec.size ≤ sec.stop dot :=
  Nat.add_le_add_right (sec.le_start dot) _

end Section

/-! ## The script -/

namespace Region

def ram : Region := ⟨0x20000000, 512 * 1024⟩

def scratchX : Region := ⟨0x2007E000, 4 * 1024⟩

def scratchY : Region := ⟨0x2007F000, 4 * 1024⟩

end Region

/-- `__HeapLimit`, by the second of its two assignments. -/
def heapLimit : Nat := Region.ram.origin + Region.ram.length - 0x2000

def stackLimit : Nat := Region.ram.origin + Region.ram.length

def stackOneTop : Nat := Region.ram.origin + Region.ram.length

def stackTop : Nat := Region.ram.origin + Region.ram.length

/-- The sections that end up in RAM and in the scratch regions. `static` are those before the
heap, from `.ram_vector_table` to `.bss`. -/
structure Sections where
  static : List Section
  heap : Section
  stack1Dummy : Section
  stackDummy : Section
  scratchX : Section
  scratchY : Section

namespace Sections

/-- The location counter of `RAM` in front of `.heap`. -/
def heapDot (s : Sections) : Nat := s.static.foldl Section.stop Region.ram.origin

/-- The location counter of `RAM` behind its last section. -/
def ramDot (s : Sections) : Nat := s.stackDummy.stop (s.stack1Dummy.stop (s.heap.stop s.heapDot))

def end_ (s : Sections) : Nat := s.heap.start s.heapDot

def stackOneBottom (s : Sections) : Nat := stackOneTop - s.stack1Dummy.size

def stackBottom (s : Sections) : Nat := stackTop - s.stackDummy.size

/-- The linker's check of each region and the assertion of the script about RAM. -/
structure Links (s : Sections) : Prop where
  ram : s.ramDot ≤ Region.ram.top
  scratchX : s.scratchX.stop Region.scratchX.origin ≤ Region.scratchX.top
  scratchY : s.scratchY.stop Region.scratchY.origin ≤ Region.scratchY.top
  ramOverflow : heapLimit ≤ stackLimit

/-! ## What the symbols hand out -/

def heapArea (s : Sections) : Set Nat := Set.Ico s.end_ heapLimit

def stackArea (s : Sections) : Set Nat := Set.Ico s.stackBottom stackTop

def stackOneArea (s : Sections) : Set Nat := Set.Ico s.stackOneBottom stackOneTop

/-- What `check_heap_usage` reports as available for the heap. -/
def checkHeapUsage (s : Sections) : Set Nat := Set.Ico s.end_ stackLimit

end Sections

/-- What is reserved by a scratch region. -/
def Region.area (r : Region) : Set Nat := Set.Ico r.origin r.top

namespace Sections

/-- The areas are pairwise disjoint, and the heap reported as available contains no stack. -/
structure Separated (s : Sections) : Prop where
  pairwise : [s.heapArea, s.stackArea, s.stackOneArea, Region.scratchX.area,
    Region.scratchY.area].Pairwise Disjoint
  stack : Disjoint s.checkHeapUsage s.stackArea
  stackOne : Disjoint s.checkHeapUsage s.stackOneArea

/-! ## Exactly when they are separate -/

/-- An area and the last `n` addresses below `top`. -/
theorem disjoint_last_iff {a b n top : Nat} (hb : b ≤ top) (hn : n ≤ top) :
    Disjoint (Set.Ico a b) (Set.Ico (top - n) top) ↔ n = 0 ∨ b ≤ a ∨ b + n ≤ top := by
  rw [Set.Ico_disjoint_Ico]
  omega

/-- The same for an area that reaches up to `top` itself. -/
theorem disjoint_last_top_iff {a n top : Nat} (hn : n ≤ top) (ha : top ≤ a → n = 0) :
    Disjoint (Set.Ico a top) (Set.Ico (top - n) top) ↔ n = 0 := by
  rw [disjoint_last_iff le_rfl hn]
  omega

theorem Links.end_add_le {s : Sections} (h : s.Links) :
    s.end_ + s.heap.size + s.stack1Dummy.size + s.stackDummy.size ≤ Region.ram.top := by
  have hstack1 := s.stack1Dummy.le_stop (s.heap.stop s.heapDot)
  have hstack := s.stackDummy.le_stop (s.stack1Dummy.stop (s.heap.stop s.heapDot))
  have hram := h.ram
  have hend : s.heap.stop s.heapDot = s.end_ + s.heap.size := rfl
  unfold ramDot at hram
  omega

section
variable {s : Sections} (h : s.Links)
include h

/-- The heap reaches up to 8 KiB below the top, whatever the stacks need. -/
theorem heap_disjoint_stack_iff : Disjoint s.heapArea s.stackArea ↔
    s.stackDummy.size = 0 ∨ heapLimit ≤ s.end_ ∨ heapLimit + s.stackDummy.size ≤ stackTop := by
  have := h.end_add_le
  have htop : Region.ram.top = stackTop := rfl
  exact disjoint_last_iff (by decide) (by omega)

/-- The reported heap reaches up to the top itself. -/
theorem checkHeapUsage_disjoint_stack_iff :
    Disjoint s.checkHeapUsage s.stackArea ↔ s.stackDummy.size = 0 := by
  have := h.end_add_le
  have htop : Region.ram.top = stackTop := rfl
  have hlimit : stackLimit = stackTop := rfl
  exact disjoint_last_top_iff (by omega) (by omega)

/-- Every stack lies in the last scratch region. -/
theorem scratchY_disjoint_stack_iff :
    Disjoint Region.scratchY.area s.stackArea ↔ s.stackDummy.size = 0 := by
  have := h.end_add_le
  have htop : Region.ram.top = stackTop := rfl
  have hscratch : Region.scratchY.top = stackTop := rfl
  exact disjoint_last_top_iff (by omega) fun hle => absurd hle (by decide)

theorem checkHeapUsage_disjoint_stackOne_iff :
    Disjoint s.checkHeapUsage s.stackOneArea ↔ s.stack1Dummy.size = 0 := by
  have := h.end_add_le
  have htop : Region.ram.top = stackOneTop := rfl
  have hlimit : stackLimit = stackOneTop := rfl
  exact disjoint_last_top_iff (by omega) (by omega)

end

theorem stackArea_eq_empty {s : Sections} (h : s.stackDummy.size = 0) : s.stackArea = ∅ := by
  rw [stackArea, stackBottom, h]
  exact Set.Ico_self _

theorem stackOneArea_eq_empty {s : Sections} (h : s.stack1Dummy.size = 0) :
    s.stackOneArea = ∅ := by
  rw [stackOneArea, stackOneBottom, h]
  exact Set.Ico_self _

theorem heap_disjoint_scratchX (s : Sections) : Disjoint s.heapArea Region.scratchX.area :=
  Set.Ico_disjoint_Ico_same

theorem heap_disjoint_scratchY (s : Sections) : Disjoint s.heapArea Region.scratchY.area := by
  refine Set.Ico_disjoint_Ico.mpr ?_
  exact (min_le_left _ _).trans (le_max_of_le_right (by decide))

/-- In every program that links: the areas are separate if and only if both stacks are empty. -/
theorem separated_iff {s : Sections} (h : s.Links) :
    s.Separated ↔ s.stackDummy.size = 0 ∧ s.stack1Dummy.size = 0 := by
  constructor
  · intro hsep
    exact ⟨(checkHeapUsage_disjoint_stack_iff h).mp hsep.stack,
      (checkHeapUsage_disjoint_stackOne_iff h).mp hsep.stackOne⟩
  · rintro ⟨hstack, hstackOne⟩
    refine ⟨?_, (checkHeapUsage_disjoint_stack_iff h).mpr hstack,
      (checkHeapUsage_disjoint_stackOne_iff h).mpr hstackOne⟩
    rw [stackArea_eq_empty hstack, stackOneArea_eq_empty hstackOne]
    have hscratch : Disjoint Region.scratchX.area Region.scratchY.area :=
      Set.Ico_disjoint_Ico_same
    simp [s.heap_disjoint_scratchX, s.heap_disjoint_scratchY, hscratch]

/-- A program with the given stacks and nothing else in RAM. -/
def withStacks (stack1Dummy stackDummy : Nat) : Sections where
  static := []
  heap := ⟨0, 1, by decide⟩
  stack1Dummy := ⟨stack1Dummy, 4, by decide⟩
  stackDummy := ⟨stackDummy, 4, by decide⟩
  scratchX := ⟨0, 4, by decide⟩
  scratchY := ⟨0, 4, by decide⟩

/-- A program with data and a heap, and without stacks. -/
def withoutStacks : Sections :=
  { withStacks 0 0 with
    static := [⟨0x1000, 4, by decide⟩, ⟨0x400, 8, by decide⟩]
    heap := ⟨0x800, 4, by decide⟩ }

theorem separated_iff_withoutStacks : withoutStacks.Separated :=
  (separated_iff ⟨by decide, by decide, by decide, by decide⟩).mpr ⟨rfl, rfl⟩

/-- A stack of 2 KiB for core 0 links. -/
theorem stack_in_reported_heap : (withStacks 0 0x800).Links ∧ ¬(withStacks 0 0x800).Separated := by
  have hlinks : (withStacks 0 0x800).Links := ⟨by decide, by decide, by decide, by decide⟩
  refine ⟨hlinks, fun h => ?_⟩
  exact absurd ((checkHeapUsage_disjoint_stack_iff hlinks).mp h.stack) (by decide)

end Sections

end PicoHybridCrypto
