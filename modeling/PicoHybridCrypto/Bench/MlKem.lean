import PicoHybridCrypto.Theory.CInt
import PicoHybridCrypto.Theory.Jump
import PicoHybridCrypto.Theory.Ledger
import PicoHybridCrypto.Bench.RoundTrip

/-! # What the ML-KEM program releases

All failures of `mlkem.c` but the first jump to one label, where the buffers are released behind a
test of their pointers, and the two keys and the generator without one. So the keys are released
rightly exactly when the program has got as far as initializing the second of them
(`mlKem_cleanup_iff`), while the exit status and the buffers are right in every case
(`mlKemMain_ret`, `mlKemMain_releases_buffer`). -/

set_option autoImplicit true

namespace PicoHybridCrypto
open Jump

/-! ## The program -/

inductive MlKemResource
  | rng | aliceKey | bobKey
  | alicePub | ciphertext | sharedSecretAlice | sharedSecretBob
  deriving DecidableEq

/-- Which of the four pointers are not `NULL`. -/
structure MlKemBuffers where
  alicePub : Bool := false
  ciphertext : Bool := false
  sharedSecretAlice : Bool := false
  sharedSecretBob : Bool := false

namespace MlKemBuffers

def All (b : MlKemBuffers) : Prop :=
  b.alicePub ∧ b.ciphertext ∧ b.sharedSecretAlice ∧ b.sharedSecretBob

instance (b : MlKemBuffers) : Decidable b.All := inferInstanceAs (Decidable (_ ∧ _))

/-- The buffers that are there, which the calls of `free` at the label release. -/
def held (b : MlKemBuffers) : List MlKemResource :=
  (if b.alicePub then [.alicePub] else []) ++
  (if b.ciphertext then [.ciphertext] else []) ++
  (if b.sharedSecretAlice then [.sharedSecretAlice] else []) ++
  (if b.sharedSecretBob then [.sharedSecretBob] else [])

end MlKemBuffers

/-- What the calls return, in the order of the program. `buffers` are the results of `malloc`, and
`ssAlice` and `ssBob` are what the two secrets are when they are compared. -/
structure MlKemCalls where
  initRng : Int
  aliceInit : Int
  makeKey : Int
  publicKeySize : Int
  cipherTextSize : Int
  sharedSecretSize : Int
  ssSize : UInt32
  buffers : MlKemBuffers
  encodePublicKey : Int
  bobInit : Int
  decodePublicKey : Int
  encapsulate : Int
  decapsulate : Int
  ssAlice : Memory
  ssBob : Memory

/-- The variables of `main` that its end depends on, and what has been acquired so far. -/
structure MlKemVars where
  ret : Int := 0
  buffers : MlKemBuffers := {}
  acquired : List MlKemResource

namespace MlKemVars

/-- `ret = ..; if (ret != 0) goto cleanup;` for a call that acquires `rs` when it succeeds. -/
def call (v : MlKemVars) (ret : Int) (rs : List MlKemResource) : Except MlKemVars MlKemVars :=
  if ret = 0 then .ok { v with ret, acquired := v.acquired ++ rs } else .error { v with ret }

/-- The four calls of `malloc` and the test of their results. -/
def allocate (v : MlKemVars) (b : MlKemBuffers) : Except MlKemVars MlKemVars :=
  let v := { v with buffers := b, acquired := v.acquired ++ b.held }
  if b.All then .ok v else .error { v with ret := -1 }

/-- `memcmp` of the secrets. Either way the label comes next. -/
def compare (v : MlKemVars) (o : MlKemCalls) : MlKemVars :=
  if MemEq o.ssAlice o.ssBob o.ssSize.toNat then v else { v with ret := -1 }

/-- What is released at the label. -/
def cleanup (v : MlKemVars) : List MlKemResource :=
  [.aliceKey, .bobKey, .rng] ++ v.buffers.held

end MlKemVars

/-- From Alice's key to the initialization of Bob's; `goto cleanup` is an error. -/
def mlKemPrepare (o : MlKemCalls) (v : MlKemVars) : Except MlKemVars MlKemVars := do
  let v ← v.call o.aliceInit [.aliceKey]
  let v ← v.call o.makeKey []
  let v ← v.call o.publicKeySize []
  let v ← v.call o.cipherTextSize []
  let v ← v.call o.sharedSecretSize []
  let v ← v.allocate o.buffers
  let v ← v.call o.encodePublicKey []
  v.call o.bobInit [.bobKey]

/-- From there to the label. -/
def mlKemExchange (o : MlKemCalls) (v : MlKemVars) : Except MlKemVars MlKemVars := do
  let v ← v.call o.decodePublicKey []
  let v ← v.call o.encapsulate []
  let v ← v.call o.decapsulate []
  return v.compare o

structure MlKemResult where
  log : List (Ledger.Entry MlKemResource)
  ret : Int

/-- The variables at the label, where `wc_InitRng` has succeeded. -/
def mlKemAtLabel (o : MlKemCalls) : MlKemVars :=
  atLabel (mlKemPrepare o { acquired := [.rng] } >>= mlKemExchange o)

/-- `main` of `mlkem.c` -/
def mlKemMain (o : MlKemCalls) : MlKemResult :=
  if o.initRng ≠ 0 then
    -- `return 1;`
    { log := [], ret := 1 }
  else
    let v := mlKemAtLabel o
    { log := Ledger.log v.acquired v.cleanup, ret := CInt.status (v.ret = 0) }

/-! ## What the program holds -/

namespace MlKemCalls

/-- Everything up to the initialization of Bob's key succeeds. -/
def Prepared (o : MlKemCalls) : Prop :=
  o.aliceInit = 0 ∧ o.makeKey = 0 ∧ o.publicKeySize = 0 ∧ o.cipherTextSize = 0 ∧
    o.sharedSecretSize = 0 ∧ o.buffers.All ∧ o.encodePublicKey = 0 ∧ o.bobInit = 0

/-- Bob decodes the key, both get a secret, and the secrets are equal. -/
def Exchanged (o : MlKemCalls) : Prop :=
  o.decodePublicKey = 0 ∧ o.encapsulate = 0 ∧ o.decapsulate = 0 ∧
    MemEq o.ssAlice o.ssBob o.ssSize.toNat

end MlKemCalls

/-- What is released without a test. -/
def mlKemKeys : List MlKemResource := [.rng, .aliceKey, .bobKey]

namespace MlKemVars

/-- The program has acquired `keys` and the buffers `b`. -/
structure Holds (keys : List MlKemResource) (b : MlKemBuffers) (v : MlKemVars) : Prop where
  acquired : v.acquired.Perm (keys ++ b.held)
  buffers : v.buffers = b

def Runs (keys : List MlKemResource) (b : MlKemBuffers) (v : MlKemVars) : Prop :=
  v.ret = 0 ∧ v.Holds keys b

def Fails (keys : List MlKemResource) (b : MlKemBuffers) (v : MlKemVars) : Prop :=
  v.ret ≠ 0 ∧ v.Holds keys b

theorem call_triple (keys : List MlKemResource) (b : MlKemBuffers) (ret : Int)
    (rs : List MlKemResource) :
    Triple (Runs keys b) (·.call ret rs) (ret = 0) (Runs (keys ++ rs) b) (Fails keys b) := by
  refine .test (fun v hv hret => ⟨hret, ?_, hv.2.buffers⟩) fun v hv hret => ⟨hret, hv.2.1, hv.2.2⟩
  refine (hv.2.acquired.append_right rs).trans ?_
  rw [List.append_assoc, List.append_assoc]
  exact List.perm_append_comm.append_left keys

theorem allocate_triple (keys : List MlKemResource) (b : MlKemBuffers) :
    Triple (Runs keys {}) (·.allocate b) b.All (Runs keys b) (Fails keys b) := by
  have hholds {v : MlKemVars} (hv : v.Runs keys {}) : (v.acquired ++ b.held).Perm (keys ++ b.held) :=
    (hv.2.acquired.trans (.of_eq (List.append_nil keys))).append_right b.held
  have hret : (-1 : Int) ≠ 0 := by decide
  exact .test (fun v hv _ => ⟨hv.1, hholds hv, rfl⟩) fun v hv _ => ⟨hret, hholds hv, rfl⟩

/-- A jump from a point where Bob's key is not initialized. -/
def FailsEarly (v : MlKemVars) : Prop :=
  ∃ keys b, v.Fails keys b ∧ (keys = [.rng] ∨ keys = [.rng, .aliceKey])

theorem prepare_triple (o : MlKemCalls) :
    Triple (Runs [.rng] {}) (mlKemPrepare o) o.Prepared (Runs mlKemKeys o.buffers) FailsEarly := by
  have early (keys : List MlKemResource) (b : MlKemBuffers)
      (hkeys : keys = [.rng] ∨ keys = [.rng, .aliceKey]) (v : MlKemVars) (hv : v.Fails keys b) :
      v.FailsEarly := ⟨keys, b, hv, hkeys⟩
  have hinit := (call_triple [.rng] {} o.aliceInit [.aliceKey]).conseq (fun _ => id)
    (early _ _ (.inl rfl))
  have hcall (b : MlKemBuffers) (ret : Int) (rs : List MlKemResource) :=
    (call_triple [.rng, .aliceKey] b ret rs).conseq (fun _ => id) (early _ _ (.inr rfl))
  have hallocate := (allocate_triple [.rng, .aliceKey] o.buffers).conseq (fun _ => id)
    (early _ _ (.inr rfl))
  -- the statements in their order: the buffers are there only from the allocation on
  exact hinit.seq <| (hcall {} o.makeKey []).seq <| (hcall {} o.publicKeySize []).seq <|
    (hcall {} o.cipherTextSize []).seq <| (hcall {} o.sharedSecretSize []).seq <|
    hallocate.seq <| (hcall o.buffers o.encodePublicKey []).seq <|
    hcall o.buffers o.bobInit [.bobKey]

theorem compare_ret {v : MlKemVars} (hv : v.ret = 0) (o : MlKemCalls) :
    (v.compare o).ret = 0 ↔ MemEq o.ssAlice o.ssBob o.ssSize.toNat := by
  rw [compare]
  have hret : (-1 : Int) ≠ 0 := by decide
  split_ifs with heq
  · exact iff_of_true hv heq
  · exact iff_of_false hret heq

theorem Holds.compare {keys : List MlKemResource} {b : MlKemBuffers} {v : MlKemVars}
    (hv : v.Holds keys b) (o : MlKemCalls) : (v.compare o).Holds keys b := by
  rw [MlKemVars.compare]
  split_ifs
  · exact hv
  · exact ⟨hv.acquired, hv.buffers⟩

theorem exchange_triple (o : MlKemCalls) (keys : List MlKemResource) (b : MlKemBuffers) :
    Triple (Runs keys b) (mlKemExchange o)
      (o.decodePublicKey = 0 ∧ o.encapsulate = 0 ∧ o.decapsulate = 0 ∧ True)
      (fun v => (v.ret = 0 ↔ MemEq o.ssAlice o.ssBob o.ssSize.toNat) ∧ v.Holds keys b)
      (Fails keys b) := by
  have hcall (ret : Int) : Triple (Runs keys b) (·.call ret []) (ret = 0) (Runs keys b)
      (Fails keys b) := by
    have := call_triple keys b ret []
    rwa [List.append_nil] at this
  have hcompare : Triple (Runs keys b) (fun v => .ok (v.compare o)) True
      (fun v => (v.ret = 0 ↔ MemEq o.ssAlice o.ssBob o.ssSize.toNat) ∧ v.Holds keys b)
      (Fails keys b) :=
    .assign fun v hv => ⟨compare_ret hv.1 o, hv.2.compare o⟩
  exact (hcall o.decodePublicKey).seq <| (hcall o.encapsulate).seq <|
    (hcall o.decapsulate).seq hcompare

/-- At the end of the exchange nothing else is held, and `ret` tells whether it succeeded. -/
theorem Runs.exchange {keys : List MlKemResource} {b : MlKemBuffers} {v : MlKemVars}
    (hv : v.Runs keys b) (o : MlKemCalls) :
    (atLabel (mlKemExchange o v)).Holds keys b ∧
      ((atLabel (mlKemExchange o v)).ret = 0 ↔ o.Exchanged) := by
  rcases (exchange_triple o keys b).label hv with ⟨⟨hdecode, henc, hdec, -⟩, hret, h⟩ |
    ⟨hfails, hret, h⟩
  · refine ⟨h, hret.trans ?_⟩
    rw [MlKemCalls.Exchanged, and_iff_right hdecode, and_iff_right henc, and_iff_right hdec]
  · exact ⟨h, iff_of_false hret fun hx => hfails ⟨hx.1, hx.2.1, hx.2.2.1, trivial⟩⟩

end MlKemVars

/-- At the label the program holds some of the keys and the buffers that its pointers tell, and
all of the keys exactly if the preparation has succeeded. -/
theorem mlKemAtLabel_holds (o : MlKemCalls) : ∃ keys,
    (mlKemAtLabel o).Holds keys (mlKemAtLabel o).buffers ∧ keys ⊆ mlKemKeys ∧
      (mlKemKeys ⊆ keys ↔ o.Prepared) ∧
      ((mlKemAtLabel o).ret = 0 ↔ o.Prepared ∧ o.Exchanged) := by
  have hstart : MlKemVars.Runs [.rng] {} { acquired := [.rng] } :=
    ⟨rfl, .refl _, rfl⟩
  by_cases hprepared : o.Prepared
  · obtain ⟨v, hv, hruns⟩ := (MlKemVars.prepare_triple o).ok hstart hprepared
    have hlabel : mlKemAtLabel o = atLabel (mlKemExchange o v) := by
      rw [mlKemAtLabel, hv]
      rfl
    obtain ⟨hholds, hret⟩ := hruns.exchange o
    rw [hlabel, hholds.buffers]
    exact ⟨mlKemKeys, hholds, List.Subset.refl _, iff_of_true (List.Subset.refl _) hprepared,
      hret.trans (and_iff_right hprepared).symm⟩
  -- the exchange is not reached
  · obtain ⟨v, hv, keys, b, ⟨hret, hholds⟩, hkeys⟩ :=
      (MlKemVars.prepare_triple o).error hstart hprepared
    have hlabel : mlKemAtLabel o = v := by
      rw [mlKemAtLabel, hv]
      rfl
    rw [hlabel, hholds.buffers]
    refine ⟨keys, hholds, ?_, iff_of_false ?_ hprepared, iff_of_false hret fun h => hprepared h.1⟩
    · rcases hkeys with rfl | rfl <;> decide
    · rcases hkeys with rfl | rfl <;> decide

/-! ## Exactly when it releases what it holds -/

theorem MlKemBuffers.held_sublist (b : MlKemBuffers) :
    b.held.Sublist [.alicePub, .ciphertext, .sharedSecretAlice, .sharedSecretBob] := by
  rcases b with ⟨_ | _, _ | _, _ | _, _ | _⟩ <;> decide

theorem MlKemBuffers.not_mem_keys {b : MlKemBuffers} {r : MlKemResource} (hr : r ∈ b.held) :
    r ∉ mlKemKeys := by
  have hbuffers : ∀ r ∈ [MlKemResource.alicePub, .ciphertext, .sharedSecretAlice, .sharedSecretBob],
      r ∉ mlKemKeys := by decide
  exact hbuffers r (b.held_sublist.subset hr)

theorem MlKemVars.nodup_cleanup (v : MlKemVars) : v.cleanup.Nodup :=
  (v.buffers.held_sublist.append_left _).nodup (by decide)

/-- A key is released rightly if it is held, and a buffer in any case. -/
theorem MlKemVars.Holds.settledAt_iff {keys : List MlKemResource} {v : MlKemVars}
    (hv : v.Holds keys v.buffers) (hkeys : keys ⊆ mlKemKeys) (r : MlKemResource) :
    Ledger.SettledAt (Ledger.log v.acquired v.cleanup) r ↔ (r ∈ mlKemKeys → r ∈ keys) := by
  have hacquired : r ∈ v.acquired ↔ r ∈ keys ∨ r ∈ v.buffers.held :=
    hv.acquired.mem_iff.trans List.mem_append
  have hcleanup : r ∈ v.cleanup ↔ r ∈ mlKemKeys ∨ r ∈ v.buffers.held := by
    have hperm : [MlKemResource.aliceKey, .bobKey, .rng].Perm mlKemKeys := by decide
    rw [cleanup, List.mem_append, hperm.mem_iff]
  rw [Ledger.settledAt_log_iff v.nodup_cleanup, hacquired, hcleanup]
  constructor
  · intro h hr
    exact (h.mp (.inl hr)).resolve_right fun hheld => MlKemBuffers.not_mem_keys hheld hr
  · exact fun h => ⟨.imp_left h, .imp_left fun hr => hkeys hr⟩

/-- Whatever fails, each buffer is released once if it was allocated and not at all otherwise. -/
theorem mlKemMain_releases_buffer (o : MlKemCalls) {r : MlKemResource} (hr : r ∉ mlKemKeys) :
    Ledger.SettledAt (mlKemMain o).log r := by
  rw [mlKemMain]
  split_ifs
  · exact Ledger.settledAt_nil r
  · obtain ⟨keys, hholds, hkeys, -⟩ := mlKemAtLabel_holds o
    exact (hholds.settledAt_iff hkeys r).mpr fun h => (hr h).elim

/-- All calls return zero, all allocations succeed and the secrets are equal. -/
def MlKemCalls.AllSucceed (o : MlKemCalls) : Prop :=
  o.initRng = 0 ∧ o.Prepared ∧ o.Exchanged

/-- The exit status tells in every case whether everything succeeded. -/
theorem mlKemMain_ret (o : MlKemCalls) : (mlKemMain o).ret = 0 ↔ o.AllSucceed := by
  rw [mlKemMain, MlKemCalls.AllSucceed]
  split_ifs with hrng
  · exact iff_of_false (by decide) fun h => hrng h.1
  · obtain ⟨keys, -, -, -, hret⟩ := mlKemAtLabel_holds o
    rw [CInt.status_eq_zero, hret, and_iff_right (not_not.mp hrng)]

/-- Every resource has been released once if it was acquired and not at all otherwise, and the
program reports success exactly if everything succeeded. -/
structure MlKemCleanup (o : MlKemCalls) (r : MlKemResult) : Prop where
  settled : Ledger.Settled r.log
  verdict : r.ret = 0 ↔ o.AllSucceed

/-- For all results of all calls: the cleanup is right if and only if the generator is not
initialized, or everything up to the initialization of Bob's key succeeds. -/
theorem mlKem_cleanup_iff (o : MlKemCalls) :
    MlKemCleanup o (mlKemMain o) ↔ (o.initRng = 0 → o.Prepared) := by
  have hcleanup : MlKemCleanup o (mlKemMain o) ↔ Ledger.Settled (mlKemMain o).log :=
    ⟨MlKemCleanup.settled, fun h => ⟨h, mlKemMain_ret o⟩⟩
  rw [hcleanup, mlKemMain]
  split_ifs with hrng
  · exact iff_of_true Ledger.settledAt_nil fun h => (hrng h).elim
  · obtain ⟨keys, hholds, hkeys, hprepared, -⟩ := mlKemAtLabel_holds o
    rw [imp_iff_right (not_not.mp hrng), ← hprepared, Ledger.settled_iff_forall]
    exact forall_congr' fun r => hholds.settledAt_iff hkeys r

/-- The calls when the second allocation fails and everything else succeeds. -/
def mlKemOutOfMemory : MlKemCalls where
  initRng := 0
  aliceInit := 0
  makeKey := 0
  publicKeySize := 0
  cipherTextSize := 0
  sharedSecretSize := 0
  ssSize := 32
  buffers := { alicePub := true, sharedSecretAlice := true, sharedSecretBob := true }
  encodePublicKey := 0
  bobInit := 0
  decodePublicKey := 0
  encapsulate := 0
  decapsulate := 0
  ssAlice := fun _ => 0
  ssBob := fun _ => 0

/-- Bob's key is released without having been initialized. -/
theorem uninitialized_key_released :
    ¬MlKemCleanup mlKemOutOfMemory (mlKemMain mlKemOutOfMemory) := by
  intro h
  exact absurd (h.settled .bobKey) (by decide)

end PicoHybridCrypto
