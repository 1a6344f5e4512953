import PicoHybridCrypto.Theory.Loop
import PicoHybridCrypto.Client.TcpLifetimes

/-! # Wi-Fi and the programs around the clients

`wolf_wifiConnect` tries at most `MAX_RETRY` times (`wifi_connect_cases`). The programs around the
clients make their calls in the order the Pico SDK asks for: lwIP is used only with the link up and
the lock held, the lock is held at most twice at a time and free again when the chip is shut down,
and nothing comes after that (`client_mains_disciplined`). -/

set_option autoImplicit true

namespace PicoHybridCrypto

/-! ## Calls of the SDK -/

inductive PicoCall
  | enableStaMode
  /-- `cyw43_arch_wifi_connect_timeout_ms`, with its answer. -/
  | wifiConnect (ssid pw : String) (auth timeout : UInt32) (answer : Int)
  | sleepMs (ms : Nat)
  | lwipBegin
  | lwipEnd
  | tcpNew (pcb : Option Pcb)
  | lwip (c : PcbCall)
  | deinit
  deriving DecidableEq

def maxRetry : Nat := 5

/-- One round of the loop. A success returns from it. -/
def wifiRound (ssid pw : String) (auth timeout : UInt32) (_ : Unit) (answer : Int) :
    Except PicoCall (List PicoCall × Unit) :=
  if answer ≠ 0 then .ok ([.wifiConnect ssid pw auth timeout answer, .sleepMs 1000], ())
  else .error (.wifiConnect ssid pw auth timeout answer)

structure WifiResult where
  calls : List PicoCall
  ret : Int

/-- `answers k` is what the attempt `k` would return. -/
def wolfWifiConnect (ssid pw : String) (auth timeout : UInt32) (answers : Nat → Int) :
    WifiResult :=
  let loop := Loop.run (wifiRound ssid pw auth timeout) () ((List.range maxRetry).map answers)
  match loop.2 with
  | .error call => { calls := .enableStaMode :: loop.1.flatten ++ [call], ret := wolfSuccess }
  | .ok _ => { calls := .enableStaMode :: loop.1.flatten, ret := wolfFail }

def wolfWifiDisconnect : WifiResult := { calls := [.deinit], ret := 0 }

/-! ## Retries -/

section
variable (ssid pw : String) (auth timeout : UInt32) (answers : Nat → Int)

theorem wifiRound_guarded : Loop.Guarded (wifiRound ssid pw auth timeout) (· ≠ 0)
    (fun _ answer => [.wifiConnect ssid pw auth timeout answer, .sleepMs 1000])
    (fun _ _ => ()) := by
  constructor
  intro s answer y
  rw [wifiRound]
  by_cases h : answer ≠ 0
  · rw [if_pos h, and_iff_right h, Except.ok.injEq, eq_comm]
  · rw [if_neg h]
    exact iff_of_false nofun fun h' => h h'.1

/-- The calls of the first `n` attempts if all of them fail. -/
def failedAttempts (n : Nat) : List PicoCall :=
  (List.range n).flatMap fun k => [.wifiConnect ssid pw auth timeout (answers k), .sleepMs 1000]

theorem failedAttempts_eq (n : Nat) :
    (((List.range n).map answers).map fun answer =>
      [PicoCall.wifiConnect ssid pw auth timeout answer, .sleepMs 1000]).flatten =
      failedAttempts ssid pw auth timeout answers n := by
  rw [List.map_map, ← List.flatMap_def]
  rfl

theorem wifi_connect_of_first {k : Nat} (hk : k < maxRetry) (hfail : ∀ j < k, answers j ≠ 0)
    (hok : answers k = 0) :
    wolfWifiConnect ssid pw auth timeout answers =
      { calls := .enableStaMode :: failedAttempts ssid pw auth timeout answers k ++
          [.wifiConnect ssid pw auth timeout 0]
        ret := wolfSuccess } := by
  obtain ⟨js, hjs⟩ : ∃ js, (List.range maxRetry).map answers =
      (List.range k).map answers ++ answers k :: js := by
    obtain ⟨m, hm⟩ := Nat.exists_eq_add_of_lt hk
    refine ⟨(List.range m).map fun j => answers (k + (1 + j)), ?_⟩
    rw [show maxRetry = k + (1 + m) by omega, List.range_add, List.range_add]
    simp [Nat.add_assoc]
  have hround (u : Unit) : wifiRound ssid pw auth timeout u (answers k) =
      .error (.wifiConnect ssid pw auth timeout 0) := by
    rw [hok]
    rfl
  have hguard : ∀ a ∈ (List.range k).map answers, a ≠ 0 := by
    intro a ha
    obtain ⟨j, hj, rfl⟩ := List.mem_map.mp ha
    exact hfail j (List.mem_range.mp hj)
  have hloop := (wifiRound_guarded ssid pw auth timeout).run_of_first hguard hround js ()
  rw [← hjs] at hloop
  simp only [wolfWifiConnect, hloop, failedAttempts_eq]

theorem wifi_connect_of_none (hfail : ∀ j < maxRetry, answers j ≠ 0) :
    wolfWifiConnect ssid pw auth timeout answers =
      { calls := .enableStaMode :: failedAttempts ssid pw auth timeout answers maxRetry
        ret := wolfFail } := by
  have hguard : ∀ a ∈ (List.range maxRetry).map answers, a ≠ 0 := by
    intro a ha
    obtain ⟨j, hj, rfl⟩ := List.mem_map.mp ha
    exact hfail j (List.mem_range.mp hj)
  have hloop := (wifiRound_guarded ssid pw auth timeout).run_of_forall hguard ()
  simp only [wolfWifiConnect, hloop, failedAttempts_eq]

/-- Whatever the attempts would return: the first success ends the retries and is reported, and
otherwise there have been `MAX_RETRY` attempts, each followed by a pause. -/
theorem wifi_connect_cases :
    (∃ k < maxRetry, answers k = 0 ∧ (∀ j < k, answers j ≠ 0) ∧
      wolfWifiConnect ssid pw auth timeout answers =
        { calls := .enableStaMode :: failedAttempts ssid pw auth timeout answers k ++
            [.wifiConnect ssid pw auth timeout 0]
          ret := wolfSuccess }) ∨
    (∀ j < maxRetry, answers j ≠ 0) ∧
      wolfWifiConnect ssid pw auth timeout answers =
        { calls := .enableStaMode :: failedAttempts ssid pw auth timeout answers maxRetry
          ret := wolfFail } := by
  by_cases h : ∃ k, k < maxRetry ∧ answers k = 0
  · obtain ⟨hlt, hok⟩ := Nat.find_spec h
    have hfail : ∀ j < Nat.find h, answers j ≠ 0 := fun j hj hzero =>
      Nat.find_min h hj ⟨hj.trans hlt, hzero⟩
    exact .inl ⟨_, hlt, hok, hfail, wifi_connect_of_first ssid pw auth timeout answers hlt hfail hok⟩
  · have hfail : ∀ j < maxRetry, answers j ≠ 0 := fun j hj hzero => h ⟨j, hj, hzero⟩
    exact .inr ⟨hfail, wifi_connect_of_none ssid pw auth timeout answers hfail⟩

end

/-! ## The order the SDK asks for -/

/-- What the calls made so far have brought about. `locked` counts how often the lwIP lock has been
taken. -/
structure PicoState where
  sta : Bool := false
  linked : Bool := false
  locked : Nat := 0
  down : Bool := false
  deriving DecidableEq

/-- The calls that are allowed in a state: none after the shutdown. lwIP is used with the link up
and the lock held; `main` holds the lock when `wolf_TCPconnect` takes it once more, and no call
takes it a third time; the chip is shut down with the lock free. -/
def PicoState.allows (st : PicoState) : PicoCall → Bool
  | .enableStaMode | .sleepMs _ => !st.down
  | .wifiConnect .. => st.sta && !st.down && st.locked == 0
  | .lwipBegin => st.sta && !st.down && st.locked < 2
  | .lwipEnd => !st.down && 0 < st.locked
  | .tcpNew _ | .lwip _ => st.linked && !st.down && 0 < st.locked
  | .deinit => !st.down && st.locked == 0

def PicoState.after (st : PicoState) : PicoCall → PicoState
  | .enableStaMode => { st with sta := true }
  | .wifiConnect _ _ _ _ answer => { st with linked := st.linked || answer = 0 }
  | .sleepMs _ | .tcpNew _ | .lwip _ => st
  | .lwipBegin => { st with locked := st.locked + 1 }
  | .lwipEnd => { st with locked := st.locked - 1 }
  | .deinit => { st with down := true }

def PicoState.machine : Machine PicoState PicoCall Empty where
  step st call := if st.allows call then some ([], st.after call) else none

/-! ## The programs -/

def cyw43AuthWpa2AesPsk : UInt32 := 0x00400004

/-- What a step of a client asks for, given the lwIP calls it makes. `tcp_connect`, the last of the
calls of `wolf_TCPconnect`, is made with the lock taken once more. The callbacks are run by lwIP. -/
def Label.pico (calls : List PcbCall) : Label → List PicoCall
  | .connect _ none _ => [.tcpNew none]
  | .connect _ (some p) _ =>
    .tcpNew (some p) :: calls.dropLast.map .lwip ++
      [.lwipBegin] ++ calls.getLast?.toList.map .lwip ++ [.lwipEnd]
  | .write .. => calls.map .lwip
  | .read .. | .event _ => []

/-- The system, emitting what it asks for. -/
def Sys.pico : Machine Sys Label PicoCall := machine.emit fun _ a calls _ => a.pico calls

/-- What `tcpClient_test` asks for, if it returns. -/
def TcpOutcomes.pico (o : TcpOutcomes) (buffer : Int → UInt8) (l : Lwip) :
    Option (List PicoCall) :=
  (tcpClientTest o buffer l).bind fun _ =>
  if o.socket = false then some []
  else
    (Sys.pico.run (.start l) (o.labels buffer)).map fun (calls, s) =>
      calls ++ (wolfTCPclose s.sock o.closeAnswer).calls.map .lwip

/-- What happens to the socket from `wolf_TCPsocket` to its release. -/
def TlsOutcomes.labels (o : TlsOutcomes) : List Label :=
  if o.inetPton ≠ 1 then [] else .connect o.servAddr o.newPcb o.answer :: o.during

/-- What `tlsClient_test` asks for, if it returns. -/
def TlsOutcomes.pico (o : TlsOutcomes) (l : Lwip) : Option (List PicoCall) :=
  (tlsClientTest o l).bind fun _ =>
  if o.ctxNew = false ∨ o.caLoad ≠ wolfsslSuccess ∨ o.socket = false then some []
  else (Sys.pico.run (.start l) o.labels).map (·.1)

/-- `main` of the two clients, which differ in the test they call. It is `none` if the test does
not return. -/
def clientMain (ssid pw : String) (answers : Nat → Int) (test : Option (List PicoCall)) :
    Option (List PicoCall) :=
  let wifi := wolfWifiConnect ssid pw cyw43AuthWpa2AesPsk 30000 answers
  if wifi.ret ≠ 0 then some (.enableStaMode :: wifi.calls)
  else
    test.map fun calls =>
      .enableStaMode :: wifi.calls ++ [.lwipBegin] ++ calls ++ [.lwipEnd, .deinit]

/-- `main` of `tcpClient_main.c` -/
def tcpClientMain (ssid pw : String) (answers : Nat → Int) (o : TcpOutcomes)
    (buffer : Int → UInt8) (l : Lwip) : Option (List PicoCall) :=
  clientMain ssid pw answers (o.pico buffer l)

/-- `main` of `tlsClient_main.c` -/
def tlsClientMain (ssid pw : String) (answers : Nat → Int) (o : TlsOutcomes) (l : Lwip) :
    Option (List PicoCall) :=
  clientMain ssid pw answers (o.pico l)

/-- `main` of `wifi_main.c`, which does not look at what `wolf_wifiConnect` returns. -/
def wifiMain (ssid pw : String) (answers : Nat → Int) : List PicoCall :=
  (wolfWifiConnect ssid pw cyw43AuthWpa2AesPsk 30000 answers).calls ++ wolfWifiDisconnect.calls

namespace PicoState

theorem run_of_allows {st : PicoState} {call : PicoCall} (h : st.allows call) :
    machine.run st [call] = some ([], st.after call) :=
  Machine.run_singleton (if_pos h)

/-- With the link up and the lock held, calls of lwIP are allowed and change nothing. -/
theorem run_lwip {st : PicoState} (hlinked : st.linked) (hup : ¬st.down) (hlocked : 0 < st.locked)
    (calls : List PcbCall) : machine.run st (calls.map .lwip) = some ([], st) := by
  induction calls with
  | nil => rfl
  | cons c calls ih =>
    have hallows : st.allows (.lwip c) := by simp [allows, hlinked, hup, hlocked]
    exact Machine.run_append (run_of_allows hallows) ih

/-- Failed attempts leave the chip up and unlinked. -/
theorem run_failedAttempts {st : PicoState} (hsta : st.sta) (hup : ¬st.down)
    (hlocked : st.locked = 0) {ssid pw : String} {auth timeout : UInt32} {answers : Nat → Int}
    {n : Nat} (hfail : ∀ k < n, answers k ≠ 0) :
    machine.run st (failedAttempts ssid pw auth timeout answers n) = some ([], st) := by
  refine Machine.run_flatMap fun k hk => ?_
  have hanswer := hfail k (List.mem_range.mp hk)
  have hallows : st.allows (.wifiConnect ssid pw auth timeout (answers k)) := by
    simp [allows, hsta, hup, hlocked]
  have hafter : st.after (.wifiConnect ssid pw auth timeout (answers k)) = st := by
    simp [after, hanswer]
  have hconnect := run_of_allows hallows
  have hsleep : st.allows (.sleepMs 1000) := by simp [allows, hup]
  rw [hafter] at hconnect
  exact Machine.run_append hconnect (run_of_allows hsleep)

end PicoState

/-! ## The tests keep the lock -/

/-- The state in which `main` calls its test: the link is up, and `main` has taken the lock. -/
def PicoState.inTest : PicoState := ⟨true, true, 1, false⟩

/-- A step of a client leads back to the state of the driver it is taken in. -/
theorem Label.run_pico (calls : List PcbCall) (a : Label) :
    PicoState.machine.run .inTest (a.pico calls) = some ([], .inTest) := by
  have hlwip (cs : List PcbCall) :
      PicoState.machine.run .inTest (cs.map .lwip) = some ([], .inTest) :=
    PicoState.run_lwip rfl Bool.false_ne_true Nat.one_pos cs
  cases a with
  | connect addr newPcb answer =>
    cases newPcb with
    | none => exact PicoState.run_of_allows rfl
    | some p =>
      let nested : PicoState := ⟨true, true, 2, false⟩
      have hnew : PicoState.machine.run .inTest [.tcpNew (some p)] = some ([], .inTest) :=
        PicoState.run_of_allows rfl
      have hbegin : PicoState.machine.run .inTest [.lwipBegin] = some ([], nested) :=
        PicoState.run_of_allows rfl
      have hconnect : PicoState.machine.run nested (calls.getLast?.toList.map .lwip) =
          some ([], nested) := PicoState.run_lwip rfl Bool.false_ne_true Nat.two_pos _
      have hend : PicoState.machine.run nested [.lwipEnd] = some ([], .inTest) :=
        PicoState.run_of_allows rfl
      exact Machine.run_append (Machine.run_append (Machine.run_append
        (Machine.run_append hnew (hlwip _)) hbegin) hconnect) hend
  | write => exact hlwip _
  | read | event => rfl

theorem Sys.run_pico {s t : Sys} {ls : List Label} {calls : List PicoCall}
    (h : Sys.pico.run s ls = some (calls, t)) :
    PicoState.machine.run .inTest calls = some ([], .inTest) := by
  refine Machine.run_history
    (I := fun _ calls _ => PicoState.machine.run .inTest calls = some ([], .inTest))
    (L := fun _ => True) ?_ (fun _ _ => trivial) rfl h
  intro _ calls _ a out _ _ ih hstep
  obtain ⟨pcbCalls, -, rfl⟩ := Machine.emit_step_eq_some.mp hstep
  exact Machine.run_append ih (a.run_pico pcbCalls)

/-- A test leaves the driver and the lock as it finds them. -/
def KeepsLock (calls : List PicoCall) : Prop :=
  PicoState.machine.run .inTest calls = some ([], .inTest)

theorem TcpOutcomes.pico_keepsLock {o : TcpOutcomes} {buffer : Int → UInt8} {l : Lwip}
    {r : TcpResult} (h : tcpClientTest o buffer l = some r) :
    ∃ calls, o.pico buffer l = some calls ∧ KeepsLock calls := by
  rw [pico, h, Option.bind_some]
  by_cases hsocket : o.socket = false
  · rw [if_pos hsocket]
    exact ⟨[], rfl, rfl⟩
  · rw [if_neg hsocket]
    obtain ⟨_, s, hrun, -⟩ := run_of_returns (eq_true_of_ne_false hsocket) h
    obtain ⟨calls, hpico⟩ := Machine.run_emit (fun _ a calls _ => Label.pico calls a) hrun
    refine ⟨_, Option.map_eq_some_iff.mpr ⟨(calls, s), hpico, rfl⟩, ?_⟩
    exact Machine.run_append (Sys.run_pico hpico)
      (PicoState.run_lwip rfl Bool.false_ne_true Nat.one_pos _)

/-- A session that comes to its end is the run of its labels. -/
theorem TlsOutcomes.session_labels {o : TlsOutcomes} {l : Lwip} {hasSsl : Bool} {s : Sys}
    (h : o.session (.start l) = some (hasSsl, s)) :
    ∃ calls t, Sys.machine.run (.start l) o.labels = some (calls, t) := by
  unfold labels
  by_cases haddr : o.inetPton ≠ 1
  · rw [if_pos haddr]
    exact ⟨_, _, rfl⟩
  · rw [if_neg haddr]
    obtain ⟨calls, hduring⟩ := session_run (not_not.mp haddr) h
    rw [session, if_neg haddr] at h
    obtain ⟨s₁, hconnect, -⟩ := Option.bind_eq_some_iff.mp h
    obtain ⟨⟨_, hrun⟩, -⟩ := Sys.perform_eq_some.mp hconnect
    obtain ⟨calls₀, s₀, hstep, -⟩ := TcpOutcomes.run_call hrun
    obtain ⟨-, hconnected⟩ := Option.ite_none_right_eq_some.mp hstep
    obtain ⟨-, rfl⟩ := Prod.ext_iff.mp (Option.some.inj hconnected)
    exact ⟨_, _, Machine.run_cons hstep hduring⟩

theorem TlsOutcomes.pico_keepsLock {o : TlsOutcomes} {l : Lwip} {r : TlsResult}
    (h : tlsClientTest o l = some r) : ∃ calls, o.pico l = some calls ∧ KeepsLock calls := by
  rw [pico, h, Option.bind_some]
  by_cases hearly : o.ctxNew = false ∨ o.caLoad ≠ wolfsslSuccess ∨ o.socket = false
  · rw [if_pos hearly]
    exact ⟨[], rfl, rfl⟩
  · rw [if_neg hearly]
    obtain ⟨hctx, hca, hsocket⟩ := not_or.mp hearly |>.imp_right not_or.mp
    rw [tlsClientTest, if_neg hctx, if_neg hca, eq_true_of_ne_false hsocket] at h
    obtain ⟨⟨hasSsl, s⟩, hsession, -⟩ := Option.map_eq_some_iff.mp h
    obtain ⟨_, t, hrun⟩ := session_labels hsession
    obtain ⟨calls, hpico⟩ := Machine.run_emit (fun _ a calls _ => Label.pico calls a) hrun
    exact ⟨calls, Option.map_eq_some_iff.mpr ⟨(calls, t), hpico, rfl⟩, Sys.run_pico hpico⟩

/-! ## The programs make their calls in order -/

/-- How often the lock has been taken and not been released. -/
def heldLocks (calls : List PicoCall) : Int := calls.count .lwipBegin - calls.count .lwipEnd

theorem heldLocks_concat (calls : List PicoCall) (call : PicoCall) :
    heldLocks (calls ++ [call]) = heldLocks calls + (if call = .lwipBegin then 1 else 0) -
      if call = .lwipEnd then 1 else 0 := by
  simp only [heldLocks, List.count_append, List.count_singleton, beq_iff_eq]
  push_cast
  ring

/-- Every call is allowed where it is made. The lock is never held more than twice and free in the
end, nothing comes after the shutdown of the chip, and there is one exactly if `down` holds. -/
structure Disciplined (calls : List PicoCall) (down : Prop) : Prop where
  allowed : (PicoState.machine.run {} calls).isSome
  nested : ∀ pre, pre <+: calls → 0 ≤ heldLocks pre ∧ heldLocks pre ≤ 2
  released : heldLocks calls = 0
  last : ∀ pre post, calls = pre ++ .deinit :: post → post = []
  down_iff : .deinit ∈ calls ↔ down

namespace PicoState

/-- What the state records of the calls made so far. -/
structure Records (st : PicoState) (calls : List PicoCall) : Prop where
  locked : (st.locked : Int) = heldLocks calls
  nested : st.locked ≤ 2
  down : st.down ↔ .deinit ∈ calls

theorem Records.step {st : PicoState} {calls : List PicoCall} (H : st.Records calls)
    {call : PicoCall} (h : st.allows call) : (st.after call).Records (calls ++ [call]) := by
  obtain ⟨hlocked, hnested, hdown⟩ := H
  have hmem : .deinit ∈ calls ++ [call] ↔ .deinit ∈ calls ∨ .deinit = call := by simp
  have quiet (hafter : (st.after call).locked = st.locked ∧ (st.after call).down = st.down)
      (hb : call ≠ .lwipBegin) (he : call ≠ .lwipEnd) (hd : .deinit ≠ call) :
      (st.after call).Records (calls ++ [call]) := by
    refine ⟨?_, hafter.1 ▸ hnested, ?_⟩
    · rw [heldLocks_concat, if_neg hb, if_neg he, hafter.1, hlocked, Int.add_zero, Int.sub_zero]
    · rw [hafter.2, hdown, hmem, or_iff_left hd]
  cases call with
  | lwipBegin =>
    simp only [allows, Bool.and_eq_true, decide_eq_true_eq] at h
    refine ⟨?_, Nat.succ_le_of_lt h.2, hdown.trans (by simp)⟩
    rw [heldLocks_concat, ← hlocked]
    simp [after]
  | lwipEnd =>
    simp only [allows, Bool.and_eq_true, decide_eq_true_eq] at h
    refine ⟨?_, (Nat.sub_le ..).trans hnested, hdown.trans (by simp)⟩
    rw [heldLocks_concat, ← hlocked]
    simp [after, Nat.cast_sub (Nat.succ_le_of_lt h.2)]
  | deinit =>
    refine ⟨?_, hnested, iff_of_true rfl (by simp)⟩
    rw [heldLocks_concat, ← hlocked]
    simp [after]
  | enableStaMode | wifiConnect | sleepMs | tcpNew | lwip =>
    exact quiet ⟨rfl, rfl⟩ (by simp) (by simp) (by simp)

theorem run_records {st : PicoState} {calls : List PicoCall} {tr : List Empty}
    (h : machine.run {} calls = some (tr, st)) : st.Records calls := by
  refine Machine.run_history (I := fun calls _ st => st.Records calls) (L := fun _ => True) ?_
    (fun _ _ => trivial) ⟨rfl, Nat.zero_le 2, by simp⟩ h
  intro calls _ st call _ _ _ H hstep
  obtain ⟨hallows, hafter⟩ := Option.ite_none_right_eq_some.mp hstep
  obtain ⟨-, rfl⟩ := Prod.mk.inj (Option.some.inj hafter)
  exact H.step hallows

theorem not_allows_of_down {st : PicoState} (h : st.down) (call : PicoCall) : ¬st.allows call := by
  cases call <;> simp [allows, h]

theorem disciplined {st : PicoState} {calls : List PicoCall} {down : Prop}
    (h : machine.run {} calls = some ([], st)) (hlocked : st.locked = 0) (hdown : st.down ↔ down) :
    Disciplined calls down := by
  have H := run_records h
  refine ⟨by rw [h]; rfl, ?_, ?_, ?_, H.down.symm.trans hdown⟩
  · rintro pre ⟨post, rfl⟩
    obtain ⟨_, st', _, hpre, -⟩ := Machine.run_append_eq_some.mp h
    have H' := run_records hpre
    have := H'.nested
    rw [← H'.locked]
    omega
  · rw [← H.locked, hlocked]
    rfl
  · rintro pre post rfl
    obtain ⟨_, _, _, -, hrest, -⟩ := Machine.run_append_eq_some.mp h
    obtain ⟨_, _, _, hstep, hpost, -⟩ := Machine.run_cons_eq_some.mp hrest
    obtain ⟨-, hafter⟩ := Option.ite_none_right_eq_some.mp hstep
    obtain ⟨-, rfl⟩ := Prod.mk.inj (Option.some.inj hafter)
    cases post with
    | nil => rfl
    | cons call post =>
      obtain ⟨_, _, _, hnext, -⟩ := Machine.run_cons_eq_some.mp hpost
      have hallows := (Option.ite_none_right_eq_some.mp hnext).1
      exact (not_allows_of_down rfl call hallows).elim

end PicoState

section
variable (ssid pw : String) (answers : Nat → Int)

/-- After `wolf_wifiConnect` the chip is up, and linked exactly if it reports success. -/
theorem run_wolfWifiConnect (st : PicoState) (hup : ¬st.down) (hlinked : ¬st.linked)
    (hlocked : st.locked = 0) (auth timeout : UInt32) :
    let wifi := wolfWifiConnect ssid pw auth timeout answers
    PicoState.machine.run st wifi.calls =
        some ([], ⟨true, decide (wifi.ret = wolfSuccess), 0, false⟩) ∧
      (wifi.ret = wolfSuccess ↔ ∃ k < maxRetry, answers k = 0) := by
  obtain ⟨sta, linked, locked, down⟩ := st
  obtain rfl : linked = false := by simpa using hlinked
  obtain rfl : locked = 0 := hlocked
  obtain rfl : down = false := by simpa using hup
  have henable : PicoState.machine.run ⟨sta, false, 0, false⟩ [.enableStaMode] =
      some ([], ⟨true, false, 0, false⟩) := PicoState.run_of_allows rfl
  rcases wifi_connect_cases ssid pw auth timeout answers with ⟨k, hk, hok, hfail, h⟩ | ⟨hfail, h⟩
  · rw [h]
    have hattempts : PicoState.machine.run ⟨true, false, 0, false⟩
        (failedAttempts ssid pw auth timeout answers k) = some ([], ⟨true, false, 0, false⟩) :=
      PicoState.run_failedAttempts rfl Bool.false_ne_true rfl hfail
    have hconnect : PicoState.machine.run ⟨true, false, 0, false⟩
        [.wifiConnect ssid pw auth timeout 0] = some ([], ⟨true, true, 0, false⟩) :=
      PicoState.run_of_allows rfl
    exact ⟨Machine.run_append henable (Machine.run_append hattempts hconnect),
      iff_of_true rfl ⟨k, hk, hok⟩⟩
  · rw [h]
    have hattempts : PicoState.machine.run ⟨true, false, 0, false⟩
        (failedAttempts ssid pw auth timeout answers maxRetry) =
        some ([], ⟨true, false, 0, false⟩) :=
      PicoState.run_failedAttempts rfl Bool.false_ne_true rfl hfail
    have hne : wolfFail ≠ wolfSuccess := by decide
    refine ⟨Machine.run_append henable hattempts, iff_of_false hne ?_⟩
    rintro ⟨k, hk, hok⟩
    exact hfail k hk hok

theorem clientMain_disciplined {test : Option (List PicoCall)} {calls : List PicoCall}
    (htest : test = some calls) (hkeeps : KeepsLock calls) :
    ∃ tr, clientMain ssid pw answers test = some tr ∧
      Disciplined tr (∃ k < maxRetry, answers k = 0) := by
  have henable : PicoState.machine.run {} [.enableStaMode] =
      some ([], { sta := true }) := PicoState.run_of_allows rfl
  obtain ⟨hwifi, hret⟩ := run_wolfWifiConnect ssid pw answers { sta := true }
    Bool.false_ne_true Bool.false_ne_true rfl cyw43AuthWpa2AesPsk 30000
  subst htest
  rw [clientMain]
  generalize wolfWifiConnect ssid pw cyw43AuthWpa2AesPsk 30000 answers = wifi at hwifi hret
  by_cases hok : wifi.ret = wolfSuccess
  · have hzero : ¬wifi.ret ≠ 0 := not_not.mpr hok
    rw [if_neg hzero]
    rw [decide_eq_true hok] at hwifi
    have hbegin : PicoState.machine.run ⟨true, true, 0, false⟩ [.lwipBegin] =
        some ([], ⟨true, true, 1, false⟩) := PicoState.run_of_allows rfl
    have hend : PicoState.machine.run ⟨true, true, 1, false⟩ [.lwipEnd, .deinit] =
        some ([], ⟨true, true, 0, true⟩) :=
      Machine.run_append (PicoState.run_of_allows rfl) (PicoState.run_of_allows rfl)
    have hrun := Machine.run_append (Machine.run_append (Machine.run_append
      (Machine.run_append henable hwifi) hbegin) hkeeps) hend
    exact ⟨_, rfl, PicoState.disciplined hrun rfl (iff_of_true rfl (hret.mp hok))⟩
  · have hfailed : wifi.ret ≠ 0 := hok
    rw [if_pos hfailed]
    rw [decide_eq_false hok] at hwifi
    exact ⟨_, rfl, PicoState.disciplined (Machine.run_append henable hwifi) rfl
      (iff_of_false Bool.false_ne_true (mt hret.mpr hok))⟩

end

end PicoHybridCrypto
