import Mathlib.Data.List.Basic
import Mathlib.Data.List.Count
import Mathlib.Data.List.Perm.Basic
import Mathlib.Data.List.Nodup

/-! # Acquiring and releasing resources

The log of a program that acquires and releases resources, and what it means that the program
has released each exactly once. A program that releases at its end is settled exactly when it
releases a permutation of what it acquired (`Ledger.settled_iff_perm`). A log that mixes several
kinds of resources is read one kind at a time (`Ledger.project`). -/

set_option autoImplicit true

namespace Ledger

inductive Entry (ρ : Type*)
  | acquire (r : ρ)
  | release (r : ρ)
  deriving DecidableEq

variable {ρ : Type*}

/-- Each resource has been released once if it was acquired, and not at all otherwise. -/
def Settled [DecidableEq ρ] (log : List (Entry ρ)) : Prop :=
  ∀ r, log.count (.release r) = if .acquire r ∈ log then 1 else 0

/-- The same of the single resource `r`. -/
def SettledAt [DecidableEq ρ] (log : List (Entry ρ)) (r : ρ) : Prop :=
  log.count (.release r) = if .acquire r ∈ log then 1 else 0

theorem settled_iff_forall [DecidableEq ρ] {log : List (Entry ρ)} :
    Settled log ↔ ∀ r, SettledAt log r := .rfl

def log (as rs : List ρ) : List (Entry ρ) := as.map .acquire ++ rs.map .release

theorem acquire_mem_log {as rs : List ρ} {r : ρ} : .acquire r ∈ log as rs ↔ r ∈ as := by
  simp [log]

theorem release_mem_log {as rs : List ρ} {r : ρ} : .release r ∈ log as rs ↔ r ∈ rs := by
  simp [log]

theorem count_release_log [DecidableEq ρ] (as rs : List ρ) (r : ρ) :
    (log as rs).count (.release r) = rs.count r := by
  have hacquired : (as.map Entry.acquire).count (.release r) = 0 :=
    List.count_eq_zero.mpr (by simp)
  rw [log, List.count_append, hacquired, Nat.zero_add]
  exact List.count_map_of_injective _ _ (fun _ _ h => Entry.release.inj h) r

theorem settledAt_nil [DecidableEq ρ] (r : ρ) : SettledAt [] r := rfl

/-- A program that releases nothing twice is settled where it releases what it acquired. -/
theorem settledAt_log_iff [DecidableEq ρ] {as rs : List ρ} (hrs : rs.Nodup) {r : ρ} :
    SettledAt (log as rs) r ↔ (r ∈ rs ↔ r ∈ as) := by
  simp only [SettledAt, count_release_log, acquire_mem_log, hrs.count]
  by_cases has : r ∈ as <;> by_cases hr : r ∈ rs <;> simp [has, hr]

theorem settled_iff_perm [DecidableEq ρ] {as rs : List ρ} (has : as.Nodup) :
    Settled (log as rs) ↔ rs.Perm as := by
  simp only [Settled, count_release_log, acquire_mem_log, List.perm_iff_count, has.count]

/-- What the log says about the resources that `f` picks out, under the names it gives them. -/
def project (f : ρ → Option κ) (log : List (Entry ρ)) : List (Entry κ) :=
  log.filterMap fun
    | .acquire r => (f r).map .acquire
    | .release r => (f r).map .release

variable {κ : Type*} {f : ρ → Option κ}

theorem project_append (log log' : List (Entry ρ)) :
    project f (log ++ log') = project f log ++ project f log' := List.filterMap_append

theorem project_acquires (rs : List ρ) :
    project f (rs.map .acquire) = (rs.filterMap f).map .acquire := by
  rw [project, List.filterMap_map, List.map_filterMap]
  rfl

theorem project_releases (rs : List ρ) :
    project f (rs.map .release) = (rs.filterMap f).map .release := by
  rw [project, List.filterMap_map, List.map_filterMap]
  rfl

end Ledger
