import PicoHybridCrypto.Theory.CInt
import PicoHybridCrypto.Theory.Loop
import Mathlib.Tactic.SplitIfs

/-! # The verdict of the RSA-PSS benchmarks

`bench_main.c` and `rsaSign_benchmark.c` differ in the length of the message only. One variable
`rc` carries the results of three calls, and the last of them is positive on success, while the
final test takes only zero for success (`rsa_verdict_iff`). -/

set_option autoImplicit true

namespace PicoHybridCrypto

/-- What the calls of one iteration return: `wc_MakeRsaKey`, `wc_RsaPSS_Sign` and
`wc_RsaPSS_Verify`. -/
structure RsaOutcome where
  makeKey : Int
  sign : Int
  verify : Int

inductive RsaLine
  | keyGenFailed (rc : Int)
  | signFailed (rc : Int)
  | verifyFailed (rc : Int)
  | passed (length : Int)
  | failed
  deriving DecidableEq

namespace RsaOutcome

/-- One of the calls reports an error, which leaves the loop. -/
def Errs (o : RsaOutcome) : Prop := o.makeKey ≠ 0 ∨ o.sign < 0 ∨ o.verify < 0

def Succeeds (o : RsaOutcome) : Prop := o.makeKey = 0 ∧ 0 ≤ o.sign ∧ 0 < o.verify

end RsaOutcome

/-- `msg[i] = i & 0xFF` -/
def message (bits : Nat) : List UInt8 := (List.range (bits / 8)).map UInt8.ofNat

/-- One iteration; `goto cleanup` is an error that carries the value of `rc`. The old value of
`rc` is overwritten. -/
def rsaIteration (_rc : Int) (o : RsaOutcome) : Except (RsaLine × Int) (RsaLine × Int) :=
  let rc := o.makeKey
  if rc ≠ 0 then .error (.keyGenFailed rc, rc)
  else
    let rc := o.sign
    if rc < 0 then .error (.signFailed rc, rc)
    else
      let rc := o.verify
      if rc < 0 then .error (.verifyFailed rc, rc)
      else .ok (if 0 < rc then .passed rc else .failed, rc)

structure RsaResult where
  lines : List RsaLine
  ret : Int

/-- `main` with `MSG_BITS` as a parameter. `wolfCrypt` tells the outcomes of the iterations for
the message that is signed. -/
def rsaMain (msgBits : Nat) (wolfCrypt : List UInt8 → List RsaOutcome) : RsaResult :=
  let loop := Loop.run rsaIteration 0 (wolfCrypt (message msgBits))
  match loop.2 with
  | .ok rc => { lines := loop.1, ret := CInt.status (rc = 0) }
  | .error (line, rc) => { lines := loop.1 ++ [line], ret := CInt.status (rc = 0) }

/-- `main` of `bench_main.c` -/
def benchMain (wolfCrypt : List UInt8 → List RsaOutcome) : RsaResult := rsaMain 4096 wolfCrypt

/-- `main` of `rsaSign_benchmark.c` -/
def rsaSignBenchmarkMain (wolfCrypt : List UInt8 → List RsaOutcome) : RsaResult :=
  rsaMain 128 wolfCrypt

/-! ## The verdict -/

theorem rsaIteration_guarded :
    Loop.Guarded rsaIteration (fun o => ¬o.Errs)
      (fun _ o => if 0 < o.verify then .passed o.verify else .failed) (fun _ o => o.verify) := by
  have hbody : Loop.Guarded rsaIteration
      (fun o => ¬o.makeKey ≠ 0 ∧ ¬o.sign < 0 ∧ ¬o.verify < 0 ∧ True)
      (fun _ o => if 0 < o.verify then .passed o.verify else .failed) (fun _ o => o.verify) :=
    .test (.test (.test (.unguarded _ _) _ _) _ _) _ _
  refine hbody.of_iff fun o => ?_
  simp only [RsaOutcome.Errs, not_or, and_true]

/-- Where the loop is left, `rc` is an error. -/
theorem rsaIteration_error {rc rc' : Int} {o : RsaOutcome} {line : RsaLine}
    (h : rsaIteration rc o = .error (line, rc')) : rc' ≠ 0 := by
  simp only [rsaIteration] at h
  split_ifs at h with hkey hsign hverify <;> cases h
  · exact hkey
  · exact Int.ne_of_lt hsign
  · exact Int.ne_of_lt hverify

theorem RsaOutcome.succeeds_iff {o : RsaOutcome} (h : ¬o.Errs) : o.Succeeds ↔ o.verify ≠ 0 := by
  simp only [Errs, not_or, not_not] at h
  rw [Succeeds]
  omega

theorem RsaOutcome.Errs.not_succeeds {o : RsaOutcome} (h : o.Errs) : ¬o.Succeeds := by
  rw [Errs] at h
  rw [Succeeds]
  omega

/-- The program reports success exactly if every iteration succeeded. -/
def RsaVerdictRight (r : RsaResult) (os : List RsaOutcome) : Prop :=
  r.ret = 0 ↔ ∀ o ∈ os, o.Succeeds

/-- An error ends the loop, or the last verification succeeds and an earlier one returns zero. -/
def RsaFailureSeen (os : List RsaOutcome) : Prop :=
  (∃ o ∈ os, o.Errs) ∨ (∃ o ∈ os, o.verify = 0) ∧ ∀ o ∈ os.getLast?, 0 < o.verify

theorem rsaVerdict_of_ends {os : List RsaOutcome} (hnot : ∀ o ∈ os, ¬o.Errs) {o : RsaOutcome}
    (hlast : os.getLast? = some o) :
    (o.verify = 0 ↔ ∀ o ∈ os, o.Succeeds) ↔ RsaFailureSeen os := by
  have hmem := List.mem_of_getLast? hlast
  have hnone : ¬∃ o ∈ os, o.Errs := fun ⟨o, ho, herrs⟩ => hnot o ho herrs
  have hall : (∀ o ∈ os, o.Succeeds) ↔ ∀ o ∈ os, o.verify ≠ 0 :=
    forall₂_congr fun o ho => RsaOutcome.succeeds_iff (hnot o ho)
  have hseen : RsaFailureSeen os ↔ (∃ o ∈ os, o.verify = 0) ∧ 0 < o.verify := by
    rw [RsaFailureSeen, or_iff_right hnone, hlast]
    simp only [Option.mem_def, Option.some.injEq, forall_eq']
  rw [hseen, hall]
  by_cases hzero : o.verify = 0
  · refine iff_of_false (fun h => h.mp hzero o hmem hzero) fun h => ?_
    rw [hzero] at h
    exact absurd h.2 (by decide)
  · have hpos : 0 < o.verify := ((RsaOutcome.succeeds_iff (hnot o hmem)).mpr hzero).2.2
    rw [and_iff_left hpos, iff_false_left hzero]
    simp only [not_forall, not_not, exists_prop]

theorem rsaMain_verdict_iff {msgBits : Nat} {wolfCrypt : List UInt8 → List RsaOutcome}
    (hne : wolfCrypt (message msgBits) ≠ []) :
    RsaVerdictRight (rsaMain msgBits wolfCrypt) (wolfCrypt (message msgBits)) ↔
      RsaFailureSeen (wolfCrypt (message msgBits)) := by
  rw [RsaVerdictRight, rsaMain]
  generalize wolfCrypt (message msgBits) = os at hne
  have hlast := List.getLast?_eq_some_getLast hne
  rcases rsaIteration_guarded.cases 0 os with ⟨⟨line, rc⟩, hrun, t, o, ho, herrs, hbody⟩ |
    ⟨hrun, hnot⟩
  · have herrs := not_not.mp herrs
    simp only [hrun, CInt.status_eq_zero]
    refine iff_of_true (iff_of_false ?_ fun h => herrs.not_succeeds (h o ho)) (.inl ⟨o, ho, herrs⟩)
    exact rsaIteration_error hbody
  · simp only [hrun, CInt.status_eq_zero, Loop.foldl_overwrite hlast]
    exact rsaVerdict_of_ends hnot hlast

/-- For every number of iterations from one on and all outcomes of the calls: each benchmark's
verdict is right if and only if an error ends the loop, or the last verification succeeds and an
earlier one returns zero. -/
theorem rsa_verdict_iff {wolfCrypt : List UInt8 → List RsaOutcome}
    (hne : ∀ msg, wolfCrypt msg ≠ []) :
    (RsaVerdictRight (benchMain wolfCrypt) (wolfCrypt (message 4096)) ↔
      RsaFailureSeen (wolfCrypt (message 4096))) ∧
    (RsaVerdictRight (rsaSignBenchmarkMain wolfCrypt) (wolfCrypt (message 128)) ↔
      RsaFailureSeen (wolfCrypt (message 128))) :=
  ⟨rsaMain_verdict_iff (hne _), rsaMain_verdict_iff (hne _)⟩

theorem rsa_verdict_iff_noKey :
    RsaVerdictRight (benchMain fun _ => [⟨-1, 0, 0⟩]) [⟨-1, 0, 0⟩] := by
  have hne (_ : List UInt8) : [RsaOutcome.mk (-1) 0 0] ≠ [] := List.cons_ne_nil _ _
  exact (rsa_verdict_iff hne).1.mpr (.inl ⟨_, .head _, .inl (by decide)⟩)

def rsaAllGood : List RsaOutcome := List.replicate 5 ⟨0, 256, 222⟩

/-- The length of the verified data counts as a failure. -/
theorem rsa_success_reported_as_failure :
    ¬RsaVerdictRight (benchMain fun _ => rsaAllGood) rsaAllGood := by
  intro h
  have hall : ∀ o ∈ rsaAllGood, o.Succeeds := by
    intro o ho
    rw [List.eq_of_mem_replicate ho]
    exact ⟨rfl, by decide, by decide⟩
  exact absurd (h.mpr hall) (by decide)

end PicoHybridCrypto
