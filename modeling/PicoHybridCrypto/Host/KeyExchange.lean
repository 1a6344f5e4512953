import PicoHybridCrypto.Theory.Framing

/-! # The host's side of the key exchange

`host.py` sends a public RSA key over the serial line and waits for an AES key under it, both
behind their length. A read of the line returns what is there after a second. The program takes
what it gets for the ciphertext, and still never prints a wrong key: it prints the key if the
ciphertext arrives in time, and raises an error otherwise (`host_exchange`). -/

set_option autoImplicit true

namespace PicoHybridCrypto
open Framing

/-- What the program gets: `pub_key`, what the two reads find on the line, and `decrypt` of the
cipher, where `ValueError` is `none`. -/
structure HostInputs where
  pubKey : List UInt8
  arrivals : Arrivals
  decrypt : List UInt8 → Option (List UInt8)

/-- `bytes.hex()` -/
def hex (bs : List UInt8) : List Char :=
  bs.flatMap fun b => [(b.toNat / 16).digitChar, (b.toNat % 16).digitChar]

inductive HostLine
  | publicKeyLength (n : Nat)
  | publicKey (bs : List UInt8)
  | receivedAesKey (key : List Char)
  deriving DecidableEq

inductive HostError
  | overflowError
  | valueError
  deriving DecidableEq

/-- What is written to the line and printed, and the error that ends the program. -/
structure HostRun where
  written : List (List UInt8) := []
  printed : List HostLine := []
  raised : Option HostError := none

/-- `ser.read(n)`, with what stays on the line. -/
def serialRead (n : Nat) (line : List UInt8) : List UInt8 × List UInt8 := (line.take n, line.drop n)

/-- The program from the export of the key on. -/
def hostMain (i : HostInputs) : HostRun :=
  match toBytes 2 i.pubKey.length with
  | none => { raised := some .overflowError }
  | some len =>
    let run : HostRun := {
      written := [len, i.pubKey]
      printed := [.publicKeyLength i.pubKey.length, .publicKey i.pubKey] }
    let (encLenBytes, line) := serialRead 2 i.arrivals.length
    let encLen := ofBytes encLenBytes
    let (encAes, _) := serialRead encLen (line ++ i.arrivals.payload)
    match i.decrypt encAes with
    | none => { run with raised := some .valueError }
    | some aesKey => { run with printed := run.printed ++ [.receivedAesKey (hex aesKey)] }

/-- The program reads a frame. -/
theorem hostMain_eq (i : HostInputs) : hostMain i =
    match toBytes 2 i.pubKey.length with
    | none => { raised := some .overflowError }
    | some len =>
      match i.decrypt (i.arrivals.received 2) with
      | none => {
          written := [len, i.pubKey]
          printed := [.publicKeyLength i.pubKey.length, .publicKey i.pubKey]
          raised := some .valueError }
      | some aesKey => {
          written := [len, i.pubKey]
          printed := [.publicKeyLength i.pubKey.length, .publicKey i.pubKey,
            .receivedAesKey (hex aesKey)] } := rfl

theorem written_flatten (i : HostInputs) :
    (hostMain i).written.flatten = (frame 2 i.pubKey).getD [] := by
  rw [hostMain_eq, frame]
  cases toBytes 2 i.pubKey.length with
  | none => rfl
  | some len =>
    cases i.decrypt (i.arrivals.received 2) <;> simp

/-- A key is printed where both lengths can be represented and the decryption succeeds. -/
theorem receivedAesKey_mem_printed {i : HostInputs} {k : List Char} :
    .receivedAesKey k ∈ (hostMain i).printed ↔
      i.pubKey.length < 2 ^ 16 ∧ ∃ key, i.decrypt (i.arrivals.received 2) = some key ∧ hex key = k := by
  rw [show 2 ^ 16 = 256 ^ 2 by decide, ← toBytes_isSome, hostMain_eq]
  cases toBytes 2 i.pubKey.length with
  | none => simp
  | some len => cases i.decrypt (i.arrivals.received 2) <;> simp [eq_comm]

theorem raised_eq_none {i : HostInputs} :
    (hostMain i).raised = none ↔
      i.pubKey.length < 2 ^ 16 ∧ (i.decrypt (i.arrivals.received 2)).isSome := by
  rw [show 2 ^ 16 = 256 ^ 2 by decide, ← toBytes_isSome, hostMain_eq]
  cases toBytes 2 i.pubKey.length with
  | none => simp
  | some len => cases i.decrypt (i.arrivals.received 2) <;> simp

/-! ## What is printed can be read back -/

theorem digitChar_injOn : ∀ d < 16, ∀ e < 16, Nat.digitChar d = Nat.digitChar e → d = e := by decide

theorem hex_injective : Function.Injective hex := by
  intro bs cs h
  induction bs generalizing cs with
  | nil =>
    cases cs with
    | nil => rfl
    | cons c cs => cases h
  | cons b bs ih =>
    cases cs with
    | nil => cases h
    | cons c cs =>
      obtain ⟨hhigh, hlow⟩ := List.cons.inj h
      obtain ⟨hlow, hrest⟩ := List.cons.inj hlow
      have hb := b.toNat_lt
      have hc := c.toNat_lt
      have hhigh := digitChar_injOn _ (by omega) _ (by omega) hhigh
      have hlow := digitChar_injOn _ (by omega) _ (by omega) hlow
      rw [UInt8.toNat_inj.mp (show b.toNat = c.toNat by omega), ih hrest]

/-! ## The exchange -/

/-- For every public key, every ciphertext behind its length on the line, whatever else comes after
it, and all times at which its bytes arrive: the program writes the frame of its public key, or
nothing if the key is too long; and it prints a key, and ends without an error, if and only if the
ciphertext arrives in time, and then the key is the right one. The cipher accepts only ciphertexts
of one length. -/
theorem host_exchange {i : HostInputs} {ct key sent more : List UInt8}
    (hsent : frame 2 ct = some sent) (ha : i.arrivals.Of (sent ++ more)) (hct : ct ≠ [])
    (hkey : i.decrypt ct = some key) (hlength : ∀ c, (i.decrypt c).isSome → c.length = ct.length) :
    (hostMain i).written.flatten = (frame 2 i.pubKey).getD [] ∧
    ((hostMain i).raised = none ↔
      i.pubKey.length < 2 ^ 16 ∧ i.arrivals.InTime 2 ct.length) ∧
    ∀ key', .receivedAesKey (hex key') ∈ (hostMain i).printed ↔
      (i.pubKey.length < 2 ^ 16 ∧ i.arrivals.InTime 2 ct.length) ∧ key' = key := by
  by_cases hintime : i.arrivals.InTime 2 ct.length
  · have hreceived : i.decrypt (i.arrivals.received 2) = some key := by
      rw [Arrivals.received_of_inTime hsent ha hintime, hkey]
    refine ⟨written_flatten i, ?_, fun key' => ?_⟩
    · rw [raised_eq_none, hreceived]
      simp [hintime]
    · rw [receivedAesKey_mem_printed, hreceived]
      simp [hintime, hex_injective.eq_iff, eq_comm]
  · have hreceived : i.decrypt (i.arrivals.received 2) = none := by
      by_contra hsome
      have hshort := Arrivals.length_received_lt hsent ha hct hintime
      have := hlength _ (Option.isSome_iff_ne_none.mpr hsome)
      omega
    refine ⟨written_flatten i, ?_, fun key' => ?_⟩
    · rw [raised_eq_none, hreceived]
      simp [hintime]
    · rw [receivedAesKey_mem_printed, hreceived]
      simp [hintime]

/-- A cipher with ciphertexts of three bytes. Two of them arrive with the length, and the third
later. -/
def lateByte : HostInputs where
  pubKey := [1, 2]
  arrivals := ⟨[0, 3, 7, 8], [9]⟩
  decrypt c := if c.length = 3 then some (c.map (· + 1)) else none

theorem host_exchange_lateByte :
    (hostMain lateByte).written.flatten = (frame 2 [1, 2]).getD [] ∧
    ((hostMain lateByte).raised = none ↔
      2 < 2 ^ 16 ∧ lateByte.arrivals.InTime 2 3) ∧
    ∀ key', .receivedAesKey (hex key') ∈ (hostMain lateByte).printed ↔
      (2 < 2 ^ 16 ∧ lateByte.arrivals.InTime 2 3) ∧ key' = [8, 9, 10] := by
  have hsent : frame 2 [7, 8, 9] = some [0, 3, 7, 8, 9] :=
    frame_eq_some_iff.mpr ⟨[0, 3], rfl, rfl, rfl⟩
  have hlength : ∀ c, (lateByte.decrypt c).isSome → c.length = 3 := by
    intro c h
    by_contra hne
    rw [show lateByte.decrypt c = none from if_neg hne] at h
    cases h
  have ha : lateByte.arrivals.Of ([0, 3, 7, 8, 9] ++ []) := List.prefix_rfl
  exact host_exchange hsent ha (by decide) rfl hlength

end PicoHybridCrypto
