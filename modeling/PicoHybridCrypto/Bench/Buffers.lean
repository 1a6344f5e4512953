import PicoHybridCrypto.Theory.Custody
import PicoHybridCrypto.Bench.MlDsaBenchmark
import PicoHybridCrypto.Bench.RoundTrip
import PicoHybridCrypto.Bench.RsaBenchmark

/-! # What the benchmarks hold

The RSA benchmarks free the signature of an iteration in the next one, the ML-DSA benchmark frees
it at the end of its iteration, and both jump to a cleanup that frees what is left. The cleanup also
frees the key and the generator, which is right exactly if the calls that initialise them, whose
results no program looks at, have succeeded (`signatures_settled`). The same holds of the objects of
the ML-KEM benchmark, which frees everything in each iteration; the AES benchmark never frees its
generator, and returns from the middle of an iteration without its context (`rounds_settled`). -/

set_option autoImplicit true

namespace PicoHybridCrypto
open Custody Ledger

/-- What the programs initialise and free. -/
inductive BenchObject
  | rng
  | key
  | aliceKey
  | bobKey
  | aes
  deriving DecidableEq

/-- What the programs acquire and release; a block is known by its address. -/
inductive BenchResource
  | object (o : BenchObject)
  | block (addr : Nat)
  deriving DecidableEq

def BenchResource.object? : BenchResource → Option BenchObject
  | object o => some o
  | block _ => none

def BenchResource.block? : BenchResource → Option Nat
  | object _ => none
  | block addr => some addr

abbrev Holding := List (Entry BenchResource)

/-- What the log says about objects. -/
def objects (log : Holding) : List (Entry BenchObject) := project BenchResource.object? log

/-- What the log says about blocks. -/
def blocks (log : Holding) : List (Entry Nat) := project BenchResource.block? log

/-- `malloc`, with the pointer it returns. -/
def mallocs (p : Option Nat) : Holding := (p.toList.map .block).map .acquire

/-- `if (p) free(p);`, or `free(p);` -/
def frees (p : Option Nat) : Holding := (p.toList.map .block).map .release

/-- The object that a call has initialised which returned `ret`. -/
def initialised (o : BenchObject) (ret : Int) : List BenchObject := if ret = 0 then [o] else []

/-- An object is held from a call that initialises it and succeeds. -/
def inits (o : BenchObject) (ret : Int) : Holding := ((initialised o ret).map .object).map .acquire

/-- The calls that free objects. -/
def clears (os : List BenchObject) : Holding := (os.map .object).map .release

section
variable (log log' : Holding) (p : Option Nat) (o : BenchObject) (ret : Int)
  (os : List BenchObject)

@[simp] theorem objects_append : objects (log ++ log') = objects log ++ objects log' :=
  project_append ..

@[simp] theorem blocks_append : blocks (log ++ log') = blocks log ++ blocks log' :=
  project_append ..

theorem filterMap_object? : (os.map .object).filterMap BenchResource.object? = os := by
  rw [List.filterMap_map]
  exact List.filterMap_some

theorem filterMap_block? (addrs : List Nat) :
    (addrs.map .block).filterMap BenchResource.block? = addrs := by
  rw [List.filterMap_map]
  exact List.filterMap_some

@[simp] theorem objects_mallocs : objects (mallocs p) = [] := by
  cases p <;> rfl

@[simp] theorem objects_frees : objects (frees p) = [] := by
  cases p <;> rfl

@[simp] theorem blocks_mallocs : blocks (mallocs p) = p.toList.map .acquire := by
  rw [blocks, mallocs, project_acquires, filterMap_block?]

@[simp] theorem blocks_frees : blocks (frees p) = p.toList.map .release := by
  rw [blocks, frees, project_releases, filterMap_block?]

@[simp] theorem objects_inits : objects (inits o ret) = (initialised o ret).map .acquire := by
  rw [objects, inits, project_acquires, filterMap_object?]

@[simp] theorem blocks_inits : blocks (inits o ret) = [] := by
  rw [inits, initialised]
  split_ifs <;> rfl

@[simp] theorem objects_clears : objects (clears os) = os.map .release := by
  rw [objects, clears, project_releases, filterMap_object?]

@[simp] theorem blocks_clears : blocks (clears os) = [] := by
  induction os with
  | nil => rfl
  | cons o os ih => exact ih

end

/-! ## The signature benchmarks -/

/-- What a loop makes of a pointer: the log of its iterations, and of the one that leaves it. -/
def holdings (loop : List Holding × Except (Holding × Option Nat) (Option Nat)) :
    Holding × Option Nat :=
  match loop.2 with
  | .ok sig => (loop.1.flatten, sig)
  | .error (log, sig) => (loop.1.flatten ++ log, sig)

/-- What `wc_InitRng` and the call that initialises the key return. No program tests it. -/
structure SignatureInit where
  rng : Int
  key : Int

/-- `main` around the loop, with its cleanup. -/
def signatureMain (init : SignatureInit)
    (loop : List Holding × Except (Holding × Option Nat) (Option Nat)) : Holding :=
  inits .rng init.rng ++ inits .key init.key ++ (holdings loop).1 ++ clears [.key, .rng] ++
    frees (holdings loop).2

/-- One iteration of the RSA benchmarks, with what `malloc` returns in it. -/
def rsaHolds (sig : Option Nat) (i : RsaOutcome × Option Nat) :
    Except (Holding × Option Nat) (Holding × Option Nat) :=
  if i.1.makeKey ≠ 0 then .error ([], sig)
  else
    let log := frees sig ++ mallocs i.2
    let sig := i.2
    if i.1.sign < 0 then .error (log, sig)
    else if i.1.verify < 0 then .error (log, sig)
    else .ok (log, sig)

/-- What `main` of `bench_main.c` and of `rsaSign_benchmark.c` acquires and releases. -/
def rsaBenchmarkHolds (init : SignatureInit) (is : List (RsaOutcome × Option Nat)) : Holding :=
  signatureMain init (Loop.run rsaHolds none is)

/-- One iteration of the ML-DSA benchmark. -/
def mlDsaHolds (sig : Option Nat) (i : MlDsaOutcome × Option Nat) :
    Except (Holding × Option Nat) (Holding × Option Nat) :=
  if i.1.makeKey ≠ 0 then .error ([], sig)
  else
    let sig := i.2
    if i.1.sign ≠ 0 then .error (mallocs sig, sig)
    else .ok (mallocs sig ++ frees sig, none)

/-- What `main` of `mldsa_benchmark.c` acquires and releases. -/
def mlDsaBenchmarkHolds (init : SignatureInit) (is : List (MlDsaOutcome × Option Nat)) : Holding :=
  signatureMain init (Loop.run mlDsaHolds none is)

/-- A part of a loop that takes over the pointer `sig`, hands on `sig'`, and leaves the objects
alone. -/
structure Passes (sig : Option Nat) (log : Holding) (sig' : Option Nat) : Prop where
  objects_eq : objects log = []
  blocks_leads : Leads 1 sig.toFinset (blocks log) sig'.toFinset

namespace Passes

variable {sig sig' sig'' : Option Nat} {log log' : Holding}

theorem nil : Passes sig [] sig := ⟨rfl, .nil⟩

theorem append (h : Passes sig log sig') (h' : Passes sig' log' sig'') :
    Passes sig (log ++ log') sig'' := by
  constructor
  · rw [objects_append, h.objects_eq, h'.objects_eq, List.append_nil]
  · rw [blocks_append]
    exact h.blocks_leads.append h'.blocks_leads

theorem mallocs (p : Option Nat) : Passes none (mallocs p) p := by
  refine ⟨objects_mallocs p, ?_⟩
  rw [blocks_mallocs]
  cases p with
  | none => exact .nil
  | some addr => exact .acquire (Finset.notMem_empty addr) Nat.one_pos

theorem frees (p : Option Nat) : Passes p (frees p) none := by
  refine ⟨objects_frees p, ?_⟩
  rw [blocks_frees]
  cases p with
  | none => exact .nil
  | some addr =>
    have hrelease : Leads 1 {addr} [.release addr] (Finset.erase {addr} addr) :=
      .release (Finset.mem_singleton_self addr)
    rwa [Finset.erase_singleton] at hrelease

end Passes

/-- Each block is freed before the next is allocated, and nothing else is freed; and the same holds
of the objects exactly if both have been initialised. -/
def SignatureInit.FreesAll (init : SignatureInit) (log : Holding) : Prop :=
  Leads 1 ∅ (blocks log) ∅ ∧ (Leads 2 ∅ (objects log) ∅ ↔ init.rng = 0 ∧ init.key = 0)

theorem signatureMain_freesAll (init : SignatureInit)
    {loop : List Holding × Except (Holding × Option Nat) (Option Nat)}
    (h : Passes none (holdings loop).1 (holdings loop).2) :
    init.FreesAll (signatureMain init loop) := by
  have hcleanup := h.append (.frees _)
  constructor
  · have hblocks : blocks (signatureMain init loop) =
        blocks ((holdings loop).1 ++ frees (holdings loop).2) := by
      simp only [signatureMain, blocks_append, blocks_inits, blocks_clears, List.nil_append,
        List.append_nil]
    rw [hblocks]
    exact hcleanup.blocks_leads
  · let held := initialised .rng init.rng ++ initialised .key init.key
    have hobjects : objects (signatureMain init loop) = Ledger.log held [.key, .rng] := by
      simp only [signatureMain, objects_append, objects_inits, h.objects_eq, objects_clears,
        objects_frees, List.append_nil, Ledger.log, held, List.map_append]
    have hheld : held.Nodup ∧ held ⊆ [.key, .rng] ∧ held.length ≤ 2 ∧
        ([.key, .rng] ⊆ held ↔ init.rng = 0 ∧ init.key = 0) := by
      simp only [held, initialised]
      split_ifs with hrng hkey hkey <;> simp [hrng, hkey]
    obtain ⟨hnodup, hsub, hlength, hall⟩ := hheld
    rw [hobjects, leads_log_iff hnodup (by decide) hsub hlength, and_iff_left rfl, hall]

/-- An iteration takes over the pointer of the one before it and hands its own on, whether it
completes or leaves the loop. -/
def KeepsHeld (body : Option Nat → ι → Except (Holding × Option Nat) (Holding × Option Nat))
    (P : Option Nat → Prop) : Prop :=
  ∀ {sig i}, P sig →
    match body sig i with
    | .ok (log, sig') => Passes sig log sig' ∧ P sig'
    | .error (log, sig') => Passes sig log sig'

theorem KeepsHeld.run
    {body : Option Nat → ι → Except (Holding × Option Nat) (Holding × Option Nat)}
    {P : Option Nat → Prop} (hbody : KeepsHeld body P) (hP : P none) (is : List ι) :
    Passes none (holdings (Loop.run body none is)).1 (holdings (Loop.run body none is)).2 := by
  have hloop := @Loop.run_rule _ _ _ _ body is none
    (fun logs sig => Passes none logs.flatten sig ∧ P sig)
    (fun logs e => Passes none (logs.flatten ++ e.1) e.2)
    (fun _ => True) ?_ ?_ (fun _ _ => trivial) ⟨.nil, hP⟩
  · unfold holdings
    split at hloop
    · rename_i h
      rw [h]
      exact hloop.1
    · rename_i h
      rw [h]
      exact hloop
  · rintro logs sig i log sig' - ⟨hpasses, hsig⟩ h
    have hi := hbody (i := i) hsig
    rw [h] at hi
    refine ⟨?_, hi.2⟩
    rw [List.flatten_append, List.flatten_singleton]
    exact hpasses.append hi.1
  · rintro logs sig i e - ⟨hpasses, hsig⟩ h
    have hi := hbody (i := i) hsig
    rw [h] at hi
    exact hpasses.append hi

theorem rsaHolds_keeps : KeepsHeld rsaHolds fun _ => True := by
  intro sig i _
  have hsig := (Passes.frees sig).append (.mallocs i.2)
  rw [rsaHolds]
  split_ifs
  · exact .nil
  · exact hsig
  · exact hsig
  · exact ⟨hsig, trivial⟩

theorem mlDsaHolds_keeps : KeepsHeld mlDsaHolds (· = none) := by
  rintro sig i rfl
  rw [mlDsaHolds]
  split_ifs
  · exact .nil
  · exact .mallocs i.2
  · exact ⟨(Passes.mallocs i.2).append (.frees i.2), rfl⟩

/-! ### The program without a loop -/

/-- The variables of `main` of `mldsa.c` at its label. -/
structure MlDsaLabel where
  vars : MlDsaVars
  lines : List MlDsaLine
  log : Holding
  sig : Option Nat

/-- Up to the label; `p` is what `malloc` returns. -/
def mlDsaAtLabel (o : MlDsaOutcome) (p : Option Nat) : MlDsaLabel :=
  let v : MlDsaVars := {}
  let v := { v with rc := o.makeKey }
  if v.rc ≠ 0 then ⟨v, [.keyGenFailed v.rc], [], none⟩
  else
    let v := { v with rc := o.sign }
    if v.rc ≠ 0 then ⟨v, [.signFailed v.rc], mallocs p, p⟩
    else
      let v := { rc := o.verify, verifyRes := o.verifyRes }
      ⟨v, [if v.rc = 0 ∧ v.verifyRes = 1 then .passed else .failed], mallocs p, p⟩

/-- What `main` of `mldsa.c` prints and returns. -/
def mlDsaMain (o : MlDsaOutcome) (p : Option Nat) : MlDsaResult :=
  let at_ := mlDsaAtLabel o p
  { lines := at_.lines, ret := at_.vars.ret }

/-- What `main` of `mldsa.c` acquires and releases. -/
def mlDsaMainHolds (init : SignatureInit) (o : MlDsaOutcome) (p : Option Nat) : Holding :=
  let at_ := mlDsaAtLabel o p
  signatureMain init ([], .error (at_.log, at_.sig))

theorem mlDsaMain_eq_benchmark (o : MlDsaOutcome) (p : Option Nat) :
    mlDsaMain o p = mlDsaBenchmarkMain [o] := by
  rw [mlDsaMain, mlDsaBenchmarkMain]
  simp only [mlDsaAtLabel, Loop.run, mlDsaIteration]
  split_ifs <;> rfl

theorem mlDsaAtLabel_passes (o : MlDsaOutcome) (p : Option Nat) :
    Passes none (mlDsaAtLabel o p).log (mlDsaAtLabel o p).sig := by
  simp only [mlDsaAtLabel]
  split_ifs
  · exact .nil
  all_goals exact .mallocs p

theorem rsaHolds_guarded :
    Loop.Guarded rsaHolds (fun i => ¬i.1.Errs) (fun sig i => frees sig ++ mallocs i.2)
      (fun _ i => i.2) := by
  have hbody : Loop.Guarded rsaHolds
      (fun i => ¬i.1.makeKey ≠ 0 ∧ ¬i.1.sign < 0 ∧ ¬i.1.verify < 0 ∧ True)
      (fun sig i => frees sig ++ mallocs i.2) (fun _ i => i.2) :=
    .test (.test (.test (.unguarded _ _) (fun i : RsaOutcome × Option Nat => i.1.verify < 0) _)
      (fun i => i.1.sign < 0) _) (fun i => i.1.makeKey ≠ 0) _
  refine hbody.of_iff fun i => ?_
  simp only [RsaOutcome.Errs, not_or, and_true]

theorem mlDsaHolds_guarded :
    Loop.Guarded mlDsaHolds (fun i => ¬i.1.Errs) (fun _ i => mallocs i.2 ++ frees i.2)
      (fun _ _ => none) := by
  have hbody : Loop.Guarded mlDsaHolds (fun i => ¬i.1.makeKey ≠ 0 ∧ ¬i.1.sign ≠ 0 ∧ True)
      (fun _ i => mallocs i.2 ++ frees i.2) (fun _ _ => none) :=
    .test (.test (.unguarded _ _) (fun i : MlDsaOutcome × Option Nat => i.1.sign ≠ 0) _)
      (fun i => i.1.makeKey ≠ 0) _
  refine hbody.of_iff fun i => ?_
  rw [MlDsaOutcome.Errs, not_or, and_true]

/-- The loops complete as many iterations here as in the models that print. -/
theorem holds_in_step (is : List (RsaOutcome × Option Nat))
    (js : List (MlDsaOutcome × Option Nat)) :
    (Loop.run rsaHolds none is).1.length = (Loop.run rsaIteration 0 (is.map (·.1))).1.length ∧
    (Loop.run mlDsaHolds none js).1.length =
      (Loop.run mlDsaIteration {} (js.map (·.1))).1.length :=
  ⟨rsaHolds_guarded.length_eq rsaIteration_guarded (fun _ => .rfl) none 0 is,
    mlDsaHolds_guarded.length_eq mlDsaIteration_guarded (fun _ => .rfl) none {} js⟩

/-! ## The benchmarks that end each iteration with nothing -/

/-- What the four calls of `malloc` in one iteration return. -/
structure MlKemPointers where
  alicePub : Option Nat
  ciphertext : Option Nat
  ssAlice : Option Nat
  ssBob : Option Nat

namespace MlKemPointers

/-- The blocks, in the order in which they are allocated and freed. -/
def addrs (p : MlKemPointers) : List Nat :=
  p.alicePub.toList ++ p.ciphertext.toList ++ p.ssAlice.toList ++ p.ssBob.toList

/-- `malloc` returns no block that is still in use. -/
def Fresh (p : MlKemPointers) : Prop := p.addrs.Nodup

theorem length_addrs (p : MlKemPointers) : p.addrs.length ≤ 4 := by
  have hlength (q : Option Nat) : q.toList.length ≤ 1 := by cases q <;> simp
  have := hlength p.alicePub
  have := hlength p.ciphertext
  have := hlength p.ssAlice
  have := hlength p.ssBob
  simp only [addrs, List.length_append]
  omega

end MlKemPointers

/-- What the calls of one iteration of the ML-KEM benchmark return. The program looks at neither
of the two initialisations of keys. -/
structure MlKemRound where
  outcome : MlKemOutcome
  aliceInit : Int
  bobInit : Int
  pointers : MlKemPointers

/-- An iteration of the ML-KEM benchmark, behind the test of the generator. -/
def MlKemRound.log (i : MlKemRound) : Holding :=
  let p := i.pointers
  inits .aliceKey i.aliceInit ++ inits .bobKey i.bobInit ++ mallocs p.alicePub ++
    mallocs p.ciphertext ++ mallocs p.ssAlice ++ mallocs p.ssBob ++
    clears [.aliceKey, .bobKey, .rng] ++ frees p.alicePub ++ frees p.ciphertext ++
    frees p.ssAlice ++ frees p.ssBob

/-- One iteration of the ML-KEM benchmark. -/
def mlKemHolds (_ : Unit) (i : MlKemRound) : Except Holding (Holding × Unit) :=
  let log := inits .rng i.outcome.initRng
  if i.outcome.initRng ≠ 0 then .error log
  else .ok (log ++ i.log, ())

/-- One iteration of the AES benchmark. The key is set in the context it has initialised. -/
def aesHolds (_ : Unit) (o : AesOutcome) : Except Holding (Holding × Unit) :=
  if o.aesInit ≠ 0 then .error (inits .aes o.aesInit)
  else if o.setKey ≠ 0 then .error (inits .aes o.aesInit)
  else .ok (inits .aes o.aesInit ++ clears [.aes], ())

/-- The log of a loop that is left by a `return`. -/
def returned (loop : List Holding × Except Holding Unit) : Holding :=
  match loop.2 with
  | .ok () => loop.1.flatten
  | .error log => loop.1.flatten ++ log

/-- What `main` of `mlkem_benchmark.c` acquires and releases. -/
def mlKemBenchmarkHolds (is : List MlKemRound) : Holding :=
  returned (Loop.run mlKemHolds () is)

/-- What `main` of `aes_benchmark.c` acquires and releases. It does not look at what `wc_InitRng`
returns, and never calls `wc_FreeRng`. -/
def aesBenchmarkHolds (initRng : Int) (os : List AesOutcome) : Holding :=
  inits .rng initRng ++ returned (Loop.run aesHolds () os)

theorem returned_cons (log : Holding) (loop : List Holding × Except Holding Unit) :
    returned (log :: loop.1, loop.2) = log ++ returned loop := by
  obtain ⟨logs, last⟩ := loop
  cases last with
  | ok => rfl
  | error left => exact List.append_assoc ..

theorem inits_of_ne {o : BenchObject} {ret : Int} (h : ret ≠ 0) : inits o ret = [] := by
  rw [inits, initialised, if_neg h]
  rfl

namespace MlKemRound

variable {i : MlKemRound} {is : List MlKemRound}

/-- Both keys have been initialised. -/
def KeysInit (i : MlKemRound) : Prop := i.aliceInit = 0 ∧ i.bobInit = 0

/-- The objects that an iteration has initialised when it frees them. -/
def held (i : MlKemRound) : List BenchObject :=
  [.rng] ++ initialised .aliceKey i.aliceInit ++ initialised .bobKey i.bobInit

theorem benchmark_cons_error (hrng : i.outcome.initRng ≠ 0) :
    mlKemBenchmarkHolds (i :: is) = [] := by
  have hbody : mlKemHolds () i = .error (inits .rng i.outcome.initRng) := if_pos hrng
  rw [mlKemBenchmarkHolds, Loop.run_cons_error hbody, inits_of_ne hrng]
  rfl

theorem benchmark_cons_ok (hrng : i.outcome.initRng = 0) :
    mlKemBenchmarkHolds (i :: is) =
      (inits .rng i.outcome.initRng ++ i.log) ++ mlKemBenchmarkHolds is := by
  have hbody : mlKemHolds () i = .ok (inits .rng i.outcome.initRng ++ i.log, ()) :=
    if_neg (not_not.mpr hrng)
  rw [mlKemBenchmarkHolds, Loop.run_cons_ok hbody, returned_cons]
  rfl

theorem blocks_iteration (ret : Int) :
    blocks (inits .rng ret ++ i.log) = Ledger.log i.pointers.addrs i.pointers.addrs := by
  simp only [log, blocks_append, blocks_inits, blocks_mallocs, blocks_clears, blocks_frees,
    List.nil_append, Ledger.log, MlKemPointers.addrs, List.map_append, List.append_assoc]

theorem objects_iteration (hrng : i.outcome.initRng = 0) :
    objects (inits .rng i.outcome.initRng ++ i.log) =
      Ledger.log i.held [.aliceKey, .bobKey, .rng] := by
  have hinit : initialised .rng i.outcome.initRng = [.rng] := if_pos hrng
  simp only [log, objects_append, objects_inits, hinit, objects_mallocs, objects_clears,
    objects_frees, List.append_nil, List.nil_append, Ledger.log, held, List.map_append,
    List.append_assoc]

/-- An iteration ends in order exactly if both keys were initialised, and then with nothing. -/
theorem leads_iteration (hrng : i.outcome.initRng = 0) (end_ : Finset BenchObject) :
    Leads 3 ∅ (objects (inits .rng i.outcome.initRng ++ i.log)) end_ ↔ i.KeysInit ∧ end_ = ∅ := by
  have hheld : i.held.Nodup ∧ i.held ⊆ [.aliceKey, .bobKey, .rng] ∧ i.held.length ≤ 3 ∧
      ([.aliceKey, .bobKey, .rng] ⊆ i.held ↔ i.KeysInit) := by
    simp only [held, initialised, KeysInit]
    split_ifs with halice hbob hbob <;> simp [halice, hbob]
  obtain ⟨hnodup, hsub, hlength, hall⟩ := hheld
  rw [objects_iteration hrng, leads_log_iff hnodup (by decide) hsub hlength, hall]

end MlKemRound

theorem mlKem_blocks {is : List MlKemRound} (hfresh : ∀ i ∈ is, i.pointers.Fresh) :
    Leads 4 ∅ (blocks (mlKemBenchmarkHolds is)) ∅ := by
  induction is with
  | nil => exact .nil
  | cons i is ih =>
    obtain ⟨hi, hfresh⟩ := List.forall_mem_cons.mp hfresh
    by_cases hrng : i.outcome.initRng = 0
    · rw [MlKemRound.benchmark_cons_ok hrng, blocks_append, MlKemRound.blocks_iteration]
      exact (Leads.roundTrip_empty hi i.pointers.length_addrs (.refl _)).append (ih hfresh)
    · rw [MlKemRound.benchmark_cons_error hrng]
      exact .nil

/-- The iterations up to the first that does not get its generator. -/
theorem mlKem_objects_iff (is : List MlKemRound) :
    Leads 3 ∅ (objects (mlKemBenchmarkHolds is)) ∅ ↔
      ∀ i ∈ is.takeWhile (·.outcome.initRng = 0), i.KeysInit := by
  induction is with
  | nil => exact iff_of_true .nil (List.forall_mem_nil _)
  | cons i is ih =>
    by_cases hrng : i.outcome.initRng = 0
    · rw [MlKemRound.benchmark_cons_ok hrng, objects_append, leads_append_iff,
        List.takeWhile_cons_of_pos (by simpa), List.forall_mem_cons, ← ih]
      constructor
      · rintro ⟨end_, hi, his⟩
        obtain ⟨hkeys, rfl⟩ := (MlKemRound.leads_iteration hrng end_).mp hi
        exact ⟨hkeys, his⟩
      · rintro ⟨hkeys, his⟩
        exact ⟨∅, (MlKemRound.leads_iteration hrng ∅).mpr ⟨hkeys, rfl⟩, his⟩
    · rw [MlKemRound.benchmark_cons_error hrng, List.takeWhile_cons_of_neg (by simpa)]
      exact iff_of_true .nil (List.forall_mem_nil _)

theorem BenchResult.mem_lines_cons {loop : List ο × Except ο σ} {line out : ο} (h : line ≠ out) :
    line ∈ (ofLoop (out :: loop.1, loop.2)).lines ↔ line ∈ (ofLoop loop).lines := by
  obtain ⟨lines, last⟩ := loop
  cases last <;> exact List.mem_cons.trans (or_iff_right h)

/-- The context, if the benchmark has printed that a key could not be set in it. -/
def aesLeft (r : BenchResult AesLine) : Finset BenchObject :=
  if .keySetFailed ∈ r.lines then {.aes} else ∅

theorem aes_loop_holds {held : Finset BenchObject} (haes : .aes ∉ held) (hcard : held.card ≤ 1)
    (decrypted : Memory) (os : List AesOutcome) :
    Leads 2 held (objects (returned (Loop.run aesHolds () os)))
      (held ∪ aesLeft (aesBenchmarkMain decrypted os)) := by
  have hacquire : Leads 2 held [.acquire .aes] (insert .aes held) :=
    .acquire haes (Nat.lt_succ_of_le hcard)
  have hrelease : Leads 2 (insert .aes held) [.release .aes] ((insert .aes held).erase .aes) :=
    .release (Finset.mem_insert_self .aes held)
  rw [Finset.erase_insert haes] at hrelease
  unfold aesBenchmarkMain
  induction os generalizing decrypted with
  | nil =>
    rw [show aesLeft _ = ∅ from rfl, Finset.union_empty]
    exact .nil
  | cons o os ih =>
    by_cases hinit : o.aesInit = 0
    · have hobject : inits .aes o.aesInit = [.acquire (.object .aes)] := by
        rw [inits, initialised, if_pos hinit]
        rfl
      by_cases hkey : o.setKey = 0
      · have hholds : aesHolds () o = .ok (inits .aes o.aesInit ++ clears [.aes], ()) := by
          rw [aesHolds, if_neg (not_not.mpr hinit), if_neg (not_not.mpr hkey)]
        have hprints := aesIteration_guarded.of_guard (s := decrypted) ⟨hinit, hkey⟩
        have hline : AesLine.keySetFailed ≠ aesVerdict (o.leaves decrypted) := by
          rw [aesVerdict]
          split_ifs <;> decide
        rw [Loop.run_cons_ok hholds, Loop.run_cons_ok hprints, returned_cons, objects_append,
          hobject, aesLeft]
        simp only [BenchResult.mem_lines_cons hline]
        exact (hacquire.append hrelease).append (ih _)
      · have hholds : aesHolds () o = .error (inits .aes o.aesInit) := by
          rw [aesHolds, if_neg (not_not.mpr hinit), if_pos hkey]
        have hprints : aesIteration decrypted o = .error .keySetFailed := by
          rw [aesIteration, if_neg (not_not.mpr hinit), if_pos hkey]
        rw [Loop.run_cons_error hholds, Loop.run_cons_error hprints, hobject,
          show aesLeft _ = {.aes} from rfl, Finset.union_comm, ← Finset.insert_eq]
        exact hacquire
    · have hholds : aesHolds () o = .error (inits .aes o.aesInit) := if_pos hinit
      have hprints : aesIteration decrypted o = .error .initFailed := if_pos hinit
      rw [Loop.run_cons_error hholds, Loop.run_cons_error hprints, inits_of_ne hinit,
        show aesLeft _ = ∅ from rfl, Finset.union_empty]
      exact .nil

/-- What the AES benchmark holds at its end: also the generator, if it was initialised. -/
def aesHeld (initRng : Int) (r : BenchResult AesLine) : Finset BenchObject :=
  (initialised .rng initRng).toFinset ∪ aesLeft r

theorem aes_benchmark_holds (initRng : Int) (decrypted : Memory) (os : List AesOutcome) :
    Leads 2 ∅ (objects (aesBenchmarkHolds initRng os))
      (aesHeld initRng (aesBenchmarkMain decrypted os)) := by
  have hheld : (initialised .rng initRng).Nodup ∧ (initialised .rng initRng).length ≤ 2 ∧
      .aes ∉ (initialised .rng initRng).toFinset ∧
      (initialised .rng initRng).toFinset.card ≤ 1 := by
    rw [initialised]
    split_ifs <;> decide
  obtain ⟨hnodup, hlength, haes, hcard⟩ := hheld
  rw [aesBenchmarkHolds, objects_append, objects_inits]
  exact (Leads.acquires_empty hnodup hlength).append (aes_loop_holds haes hcard decrypted os)

/-- For every number of iterations and all outcomes of the calls, the unchecked initialisations
included: the ML-KEM benchmark frees every block once and nothing else, if `malloc` returns no block
that is in use, and frees its objects as it should if and only if both keys were initialised in
every iteration that got its generator; and the AES benchmark is left with its generator, if it got
one, and, exactly when it has printed that a key could not be set, with the context. -/
theorem rounds_settled (is : List MlKemRound) (hfresh : ∀ i ∈ is, i.pointers.Fresh)
    (initRng : Int) (decrypted : Memory) (os : List AesOutcome) :
    Leads 4 ∅ (blocks (mlKemBenchmarkHolds is)) ∅ ∧
    (Leads 3 ∅ (objects (mlKemBenchmarkHolds is)) ∅ ↔
      ∀ i ∈ is.takeWhile (·.outcome.initRng = 0), i.KeysInit) ∧
    Leads 2 ∅ (objects (aesBenchmarkHolds initRng os))
      (aesHeld initRng (aesBenchmarkMain decrypted os)) :=
  ⟨mlKem_blocks hfresh, mlKem_objects_iff is, aes_benchmark_holds initRng decrypted os⟩

/-- An iteration with four blocks whose second key is not initialised. -/
def bobInitFailed : MlKemRound where
  outcome := ⟨0, 0, 32, fun _ => 0, fun _ => 0, 0, none, 0, none⟩
  aliceInit := 0
  bobInit := -173
  pointers := ⟨some 0, some 800, some 1568, some 1600⟩

theorem rounds_settled_initFailed :
    Leads 4 ∅ (blocks (mlKemBenchmarkHolds [bobInitFailed])) ∅ ∧
      ¬Leads 3 ∅ (objects (mlKemBenchmarkHolds [bobInitFailed])) ∅ ∧
      Leads 2 ∅ (objects (aesBenchmarkHolds 0 [⟨0, -173, 0, 0, none⟩])) {.rng, .aes} := by
  have hfresh : bobInitFailed.pointers.Fresh := by
    rw [MlKemPointers.Fresh]
    decide
  obtain ⟨hblocks, hobjects, haes⟩ := rounds_settled [bobInitFailed]
    (List.forall_mem_singleton.mpr hfresh) 0 (fun _ => 0) [⟨0, -173, 0, 0, none⟩]
  refine ⟨hblocks, fun h => ?_, haes⟩
  exact absurd (hobjects.mp h bobInitFailed (.head _)).2 (by decide)

end PicoHybridCrypto
