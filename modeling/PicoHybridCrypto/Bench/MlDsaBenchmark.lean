import PicoHybridCrypto.Theory.CInt
import PicoHybridCrypto.Theory.Loop
import Mathlib.Tactic.SplitIfs

/-! # The verdict of the ML-DSA benchmark

A failed key generation or signature leaves the loop of `mldsa_benchmark.c`, a failed
verification does not, and only the results of the last verification reach the final test
(`mlDsa_verdict_iff`). -/

set_option autoImplicit true

namespace PicoHybridCrypto

/-- What `wc_MlDsaKey_MakeKey`, `wc_MlDsaKey_Sign` and `wc_MlDsaKey_Verify` return in one
iteration, and `verify_res` after the last of them. -/
structure MlDsaOutcome where
  makeKey : Int
  sign : Int
  verify : Int
  verifyRes : Int

inductive MlDsaLine
  | keyGenFailed (rc : Int)
  | signFailed (rc : Int)
  | passed
  | failed
  deriving DecidableEq

namespace MlDsaOutcome

/-- A call before the verification fails, which leaves the loop. -/
def Errs (o : MlDsaOutcome) : Prop := o.makeKey ≠ 0 ∨ o.sign ≠ 0

/-- `rc == 0 && verify_res == 1` after the verification. -/
def Verifies (o : MlDsaOutcome) : Prop := o.verify = 0 ∧ o.verifyRes = 1

instance (o : MlDsaOutcome) : Decidable o.Verifies := inferInstanceAs (Decidable (_ ∧ _))

end MlDsaOutcome

/-- The variables of `main` that reach the final test. -/
structure MlDsaVars where
  rc : Int := 0
  verifyRes : Int := 0

/-- One iteration; `goto cleanup` is an error that carries the variables. -/
def mlDsaIteration (v : MlDsaVars) (o : MlDsaOutcome) :
    Except (MlDsaLine × MlDsaVars) (MlDsaLine × MlDsaVars) :=
  let v := { v with rc := o.makeKey }
  if v.rc ≠ 0 then .error (.keyGenFailed v.rc, v)
  else
    let v := { v with rc := o.sign }
    if v.rc ≠ 0 then .error (.signFailed v.rc, v)
    else
      let v := { rc := o.verify, verifyRes := o.verifyRes }
      .ok (if v.rc = 0 ∧ v.verifyRes = 1 then .passed else .failed, v)

/-- `(rc == 0 && verify_res == 1) ? 0 : 1` -/
def MlDsaVars.ret (v : MlDsaVars) : Int := CInt.status (v.rc = 0 ∧ v.verifyRes = 1)

structure MlDsaResult where
  lines : List MlDsaLine
  ret : Int

/-- `main` of `mldsa_benchmark.c`, one outcome for each iteration. -/
def mlDsaBenchmarkMain (os : List MlDsaOutcome) : MlDsaResult :=
  let loop := Loop.run mlDsaIteration {} os
  match loop.2 with
  | .ok v => { lines := loop.1, ret := v.ret }
  | .error (line, v) => { lines := loop.1 ++ [line], ret := v.ret }

/-! ## The verdict -/

theorem mlDsaIteration_guarded :
    Loop.Guarded mlDsaIteration (fun o => ¬o.Errs)
      (fun _ o => if o.Verifies then .passed else .failed)
      (fun _ o => ⟨o.verify, o.verifyRes⟩) := by
  have hbody : Loop.Guarded mlDsaIteration (fun o => ¬o.makeKey ≠ 0 ∧ ¬o.sign ≠ 0 ∧ True)
      (fun _ o => if o.Verifies then .passed else .failed)
      (fun _ o => ⟨o.verify, o.verifyRes⟩) :=
    .test (.test (.unguarded _ _) (MlDsaOutcome.sign · ≠ 0) _) (MlDsaOutcome.makeKey · ≠ 0) _
  refine hbody.of_iff fun o => ?_
  rw [MlDsaOutcome.Errs, not_or, and_true]

/-- Where the loop is left, `rc` is an error. -/
theorem mlDsaIteration_error {v v' : MlDsaVars} {o : MlDsaOutcome} {line : MlDsaLine}
    (h : mlDsaIteration v o = .error (line, v')) : v'.rc ≠ 0 := by
  simp only [mlDsaIteration] at h
  split_ifs at h with hkey hsign <;> cases h
  · exact hkey
  · exact hsign

def MlDsaOutcome.Passes (o : MlDsaOutcome) : Prop := o.makeKey = 0 ∧ o.sign = 0 ∧ o.Verifies

theorem MlDsaOutcome.passes_iff {o : MlDsaOutcome} : o.Passes ↔ ¬o.Errs ∧ o.Verifies := by
  rw [Passes, Errs, not_or, not_not, not_not, and_assoc]

/-- The program reports success exactly if every iteration passed. -/
def MlDsaVerdictRight (r : MlDsaResult) (os : List MlDsaOutcome) : Prop :=
  r.ret = 0 ↔ ∀ o ∈ os, o.Passes

/-- There is an error, or the last verification fails, or none fails. -/
def MlDsaFailureSeen (os : List MlDsaOutcome) : Prop :=
  (∃ o ∈ os, o.Errs) ∨ (∃ o ∈ os.getLast?, ¬o.Verifies) ∨ ∀ o ∈ os, o.Verifies

theorem mlDsaVerdict_of_ends {os : List MlDsaOutcome} (hnot : ∀ o ∈ os, ¬o.Errs)
    {o : MlDsaOutcome} (hlast : os.getLast? = some o) :
    (o.Verifies ↔ ∀ o ∈ os, o.Passes) ↔ MlDsaFailureSeen os := by
  have hmem := List.mem_of_getLast? hlast
  have hnone : ¬∃ o ∈ os, o.Errs := fun ⟨o, ho, herrs⟩ => hnot o ho herrs
  have hall : (∀ o ∈ os, o.Passes) ↔ ∀ o ∈ os, o.Verifies :=
    forall₂_congr fun o ho => MlDsaOutcome.passes_iff.trans (and_iff_right (hnot o ho))
  have hseen : MlDsaFailureSeen os ↔ ¬o.Verifies ∨ ∀ o ∈ os, o.Verifies := by
    rw [MlDsaFailureSeen, or_iff_right hnone, hlast]
    simp only [Option.mem_def, Option.some.injEq, exists_eq_left']
  rw [hseen, hall]
  constructor
  · intro h
    by_cases hverifies : o.Verifies
    · exact .inr (h.mp hverifies)
    · exact .inl hverifies
  · rintro (hfails | hall)
    · exact iff_of_false hfails fun h => hfails (h o hmem)
    · exact iff_of_true (hall o hmem) hall

/-- For every number of iterations from one on and all outcomes of the calls: the verdict is right
if and only if no verification fails, or the last one does, or another call fails. -/
theorem mlDsa_verdict_iff {os : List MlDsaOutcome} (hne : os ≠ []) :
    MlDsaVerdictRight (mlDsaBenchmarkMain os) os ↔ MlDsaFailureSeen os := by
  have hlast := List.getLast?_eq_some_getLast hne
  rw [MlDsaVerdictRight, mlDsaBenchmarkMain]
  rcases mlDsaIteration_guarded.cases {} os with ⟨⟨line, v⟩, hrun, t, o, ho, herrs, hbody⟩ |
    ⟨hrun, hnot⟩
  · have hrc := mlDsaIteration_error hbody
    simp only [hrun, MlDsaVars.ret, CInt.status_eq_zero]
    refine iff_of_true (iff_of_false (fun h => hrc h.1) fun h => ?_) (.inl ⟨o, ho, not_not.mp herrs⟩)
    exact herrs (MlDsaOutcome.passes_iff.mp (h o ho)).1
  · simp only [hrun, MlDsaVars.ret, CInt.status_eq_zero, Loop.foldl_overwrite hlast]
    exact mlDsaVerdict_of_ends hnot hlast

theorem mlDsa_verdict_iff_passed :
    MlDsaVerdictRight (mlDsaBenchmarkMain [⟨0, 0, 0, 1⟩]) [⟨0, 0, 0, 1⟩] := by
  refine (mlDsa_verdict_iff (List.cons_ne_nil _ _)).mpr (.inr (.inr fun o ho => ?_))
  rw [List.mem_singleton.mp ho]
  exact ⟨rfl, rfl⟩

/-- The first of two verifications fails, the second masks it. -/
theorem failed_verification_masked :
    ¬MlDsaVerdictRight (mlDsaBenchmarkMain [⟨0, 0, -1, 0⟩, ⟨0, 0, 0, 1⟩])
      [⟨0, 0, -1, 0⟩, ⟨0, 0, 0, 1⟩] := by
  intro h
  have hpasses := h.mp (by decide) ⟨0, 0, -1, 0⟩ (.head _)
  exact absurd hpasses.2.2.1 (by decide)

end PicoHybridCrypto
