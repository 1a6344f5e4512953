import PicoHybridCrypto.Theory.Cells
import PicoHybridCrypto.Theory.Loop
import Mathlib.Tactic.SplitIfs

/-! # The verdicts of the AES and ML-KEM benchmarks

`aes_benchmark.c` and `mlkem_benchmark.c` compare what their calls left in memory and ignore what
the calls returned. A verdict of a match is sound in every iteration exactly when each failed call
leaves something different from what it is compared with (`roundTrip_sound_iff`). -/

set_option autoImplicit true

namespace PicoHybridCrypto
open Cells

/-- The contents of memory from a pointer on. -/
abbrev Memory := Int → UInt8

/-- `memcmp(a, b, n) == 0` -/
def MemEq (a b : Memory) (n : Nat) : Prop := slice a n = slice b n

instance (a b : Memory) (n : Nat) : Decidable (MemEq a b n) :=
  inferInstanceAs (Decidable (_ = _))

/-! ## AES -/

def plaintextBytes : Nat := 128 / 8

/-- `plain[i] = i & 0xFF` -/
def plain : Memory := fun i => UInt8.ofNat i.toNat

/-- What the calls of one iteration return. `decrypted` is what `wc_AesGcmDecrypt` leaves in its
output buffer, unless it leaves the buffer as it was. -/
structure AesOutcome where
  aesInit : Int
  setKey : Int
  encrypt : Int
  decrypt : Int
  decrypted : Option Memory

inductive AesLine
  | initFailed
  | keySetFailed
  | matchesPlaintext
  | decryptionFailed
  deriving DecidableEq

namespace AesOutcome

def Starts (o : AesOutcome) : Prop := o.aesInit = 0 ∧ o.setKey = 0

def Succeeds (o : AesOutcome) : Prop := o.encrypt = 0 ∧ o.decrypt = 0

/-- The buffer `decrypted` after the iteration. -/
def leaves (decrypted : Memory) (o : AesOutcome) : Memory := o.decrypted.getD decrypted

end AesOutcome

def aesVerdict (decrypted : Memory) : AesLine :=
  if MemEq plain decrypted plaintextBytes then .matchesPlaintext else .decryptionFailed

/-- One iteration; `return -1` is an error. The results of the encryption and the decryption are
assigned to `ret` and not looked at. -/
def aesIteration (decrypted : Memory) (o : AesOutcome) : Except AesLine (AesLine × Memory) :=
  if o.aesInit ≠ 0 then .error .initFailed
  else if o.setKey ≠ 0 then .error .keySetFailed
  else
    let decrypted := o.leaves decrypted
    .ok (aesVerdict decrypted, decrypted)

structure BenchResult (ο : Type) where
  lines : List ο
  ret : Int

/-- `return -1` out of the loop, or `return 0` behind it. -/
def BenchResult.ofLoop (loop : List ο × Except ο σ) : BenchResult ο :=
  match loop.2 with
  | .ok _ => { lines := loop.1, ret := 0 }
  | .error line => { lines := loop.1 ++ [line], ret := -1 }

/-- `main` of `aes_benchmark.c`. `decrypted` is what is on the stack where the buffer is. -/
def aesBenchmarkMain (decrypted : Memory) (os : List AesOutcome) : BenchResult AesLine :=
  .ofLoop (Loop.run aesIteration decrypted os)

/-! ## ML-KEM -/

/-- What the calls of one iteration return. `ssAlice` and `ssBob` are what the memory from
`malloc` holds; the other two are what the calls leave in it, unless they leave it as it was. -/
structure MlKemOutcome where
  initRng : Int
  makeKey : Int
  ssSize : UInt32
  ssAlice : Memory
  ssBob : Memory
  encapsulate : Int
  encapsulated : Option Memory
  decapsulate : Int
  decapsulated : Option Memory

inductive MlKemLine
  | rngFailed
  | secretsMatch
  | secretsMismatch
  deriving DecidableEq

namespace MlKemOutcome

def Succeeds (o : MlKemOutcome) : Prop := o.makeKey = 0 ∧ o.encapsulate = 0 ∧ o.decapsulate = 0

def SecretsEqual (o : MlKemOutcome) : Prop :=
  MemEq (o.decapsulated.getD o.ssAlice) (o.encapsulated.getD o.ssBob) o.ssSize.toNat

instance (o : MlKemOutcome) : Decidable o.SecretsEqual := inferInstanceAs (Decidable (MemEq ..))

end MlKemOutcome

def mlKemVerdict (o : MlKemOutcome) : MlKemLine :=
  if o.SecretsEqual then .secretsMatch else .secretsMismatch

/-- One iteration; `return -1` is an error. No variable outlives it. -/
def mlKemIteration (_ : Unit) (o : MlKemOutcome) : Except MlKemLine (MlKemLine × Unit) :=
  if o.initRng ≠ 0 then .error .rngFailed else .ok (mlKemVerdict o, ())

/-- `main` of `mlkem_benchmark.c` -/
def mlKemBenchmarkMain (os : List MlKemOutcome) : BenchResult MlKemLine :=
  .ofLoop (Loop.run mlKemIteration () os)

/-! ## Soundness -/

/-- The line `matched` is printed only in iterations that succeed. -/
def Sound (matched : ο) (Succeeds : ι → Prop) (r : BenchResult ο) (os : List ι) : Prop :=
  ∀ (k : Nat) (o : ι), os[k]? = some o → r.lines[k]? = some matched → Succeeds o

/-- Only iterations that go on print a line that ends no run. -/
theorem BenchResult.lines_ofLoop {loop : List ο × Except ο σ} {line : ο}
    (hline : loop.2 ≠ .error line) {k : Nat} :
    (ofLoop loop).lines[k]? = some line ↔ loop.1[k]? = some line := by
  obtain ⟨lines, last⟩ := loop
  cases last with
  | ok => rfl
  | error other =>
    show (lines ++ [other])[k]? = some line ↔ lines[k]? = some line
    by_cases hk : k < lines.length
    · rw [List.getElem?_append_left hk]
    · have hk := Nat.le_of_not_lt hk
      rw [List.getElem?_append_right hk, List.getElem?_eq_none hk]
      refine iff_of_false (fun h => ?_) nofun
      rw [List.getElem?_singleton] at h
      obtain ⟨-, hother⟩ := Option.ite_none_right_eq_some.mp h
      exact hline (congrArg Except.error (Option.some.inj hother))

theorem sound_iff {body : σ → ι → Except ο (ο × σ)} {G Succeeds : ι → Prop} {emit : σ → ι → ο}
    {next : σ → ι → σ} (H : Loop.Guarded body G emit next) {matched : ο}
    (hleft : ∀ s i, body s i ≠ .error matched) (s : σ) (os : List ι) :
    Sound matched Succeeds (.ofLoop (Loop.run body s os)) os ↔
      ∀ k o, os[k]? = some o → (∀ p ∈ os.take (k + 1), G p) → ¬Succeeds o →
        matched ≠ emit ((os.take k).foldl next s) o := by
  have hline : (Loop.run body s os).2 ≠ .error matched := fun h => by
    obtain ⟨t, i, -, hbody⟩ := Loop.exists_error h
    exact hleft t i hbody
  refine forall₃_congr fun k o ho => ?_
  rw [BenchResult.lines_ofLoop hline, H.emitted_iff ho, and_imp]
  exact imp_congr_right fun _ => not_imp_not.symm

theorem aesIteration_guarded :
    Loop.Guarded aesIteration AesOutcome.Starts (fun decrypted o => aesVerdict (o.leaves decrypted))
      (fun decrypted o => o.leaves decrypted) := by
  have hbody : Loop.Guarded aesIteration (fun o => ¬o.aesInit ≠ 0 ∧ ¬o.setKey ≠ 0 ∧ True)
      (fun decrypted o => aesVerdict (o.leaves decrypted))
      (fun decrypted o => o.leaves decrypted) :=
    .test (.test (.unguarded _ _) _ _) _ _
  refine hbody.of_iff fun o => ?_
  rw [AesOutcome.Starts, not_not, not_not, and_true]

theorem mlKemIteration_guarded :
    Loop.Guarded mlKemIteration (fun o => o.initRng = 0) (fun _ o => mlKemVerdict o)
      (fun _ _ => ()) := by
  have hbody : Loop.Guarded mlKemIteration (fun o => ¬o.initRng ≠ 0 ∧ True)
      (fun _ o => mlKemVerdict o) (fun _ _ => ()) :=
    .test (.unguarded _ _) _ _
  refine hbody.of_iff fun o => ?_
  rw [not_not, and_true]

theorem aesIteration_left (decrypted : Memory) (o : AesOutcome) :
    aesIteration decrypted o ≠ .error .matchesPlaintext := by
  rw [aesIteration]
  split_ifs <;> nofun

theorem mlKemIteration_left (u : Unit) (o : MlKemOutcome) :
    mlKemIteration u o ≠ .error .secretsMatch := by
  rw [mlKemIteration]
  split_ifs <;> nofun

theorem aesVerdict_matches {decrypted : Memory} :
    .matchesPlaintext = aesVerdict decrypted ↔ MemEq plain decrypted plaintextBytes := by
  rw [aesVerdict]
  split_ifs with h
  · exact iff_of_true rfl h
  · exact iff_of_false nofun h

theorem mlKemVerdict_matches {o : MlKemOutcome} :
    .secretsMatch = mlKemVerdict o ↔ o.SecretsEqual := by
  rw [mlKemVerdict]
  split_ifs with h
  · exact iff_of_true rfl h
  · exact iff_of_false nofun h

/-- What was last written to a buffer that held `decrypted` before. -/
def lastWritten (decrypted : Memory) (os : List AesOutcome) : Memory :=
  (os.filterMap AesOutcome.decrypted).getLast?.getD decrypted

theorem AesOutcome.foldl_leaves (decrypted : Memory) (os : List AesOutcome) :
    os.foldl leaves decrypted = lastWritten decrypted os := by
  induction os generalizing decrypted with
  | nil => rfl
  | cons o os ih =>
    rw [List.foldl_cons, ih, lastWritten, lastWritten, leaves]
    cases h : o.decrypted with
    | none =>
      rw [List.filterMap_cons_none h]
      rfl
    | some written =>
      rw [List.filterMap_cons_some h, List.getLast?_cons]
      rfl

/-- After a failed call the last output written to the buffer, in this iteration or before, is not
the plaintext. -/
def AesFailuresShow (decrypted : Memory) (os : List AesOutcome) : Prop :=
  ∀ k o, os[k]? = some o → (∀ p ∈ os.take (k + 1), p.Starts) → ¬o.Succeeds →
    ¬MemEq plain (lastWritten decrypted (os.take (k + 1))) plaintextBytes

/-- After a failed call the two buffers hold different secrets. -/
def MlKemFailuresShow (os : List MlKemOutcome) : Prop :=
  ∀ k o, os[k]? = some o → (∀ p ∈ os.take (k + 1), p.initRng = 0) → ¬o.Succeeds →
    ¬o.SecretsEqual

/-- For all outcomes of the calls, whatever the buffers held before: each benchmark prints a match
only where its calls succeeded if and only if its failed calls show in what is compared. -/
theorem roundTrip_sound_iff (decrypted : Memory) (os : List AesOutcome)
    (os' : List MlKemOutcome) :
    (Sound .matchesPlaintext AesOutcome.Succeeds (aesBenchmarkMain decrypted os) os ↔
      AesFailuresShow decrypted os) ∧
    (Sound .secretsMatch MlKemOutcome.Succeeds (mlKemBenchmarkMain os') os' ↔
      MlKemFailuresShow os') := by
  constructor
  · refine (sound_iff aesIteration_guarded aesIteration_left decrypted os).trans ?_
    refine forall₃_congr fun k o ho => ?_
    rw [List.take_add_one, ho, Option.toList_some, ← AesOutcome.foldl_leaves, List.foldl_append,
      List.foldl_cons, List.foldl_nil, Ne, aesVerdict_matches]
  · refine (sound_iff mlKemIteration_guarded mlKemIteration_left () os').trans ?_
    refine forall₃_congr fun k o _ => ?_
    rw [Ne, mlKemVerdict_matches]

/-- Both calls of the second iteration fail and leave the plaintext of the first. -/
theorem stale_plaintext_matches :
    ¬Sound .matchesPlaintext AesOutcome.Succeeds
      (aesBenchmarkMain (fun _ => 0) [⟨0, 0, 0, 0, some plain⟩, ⟨0, 0, -1, -1, none⟩])
      [⟨0, 0, 0, 0, some plain⟩, ⟨0, 0, -1, -1, none⟩] := by
  intro h
  have hsucceeds := h 1 ⟨0, 0, -1, -1, none⟩ rfl (by decide)
  exact absurd hsucceeds.1 (by decide)

end PicoHybridCrypto
