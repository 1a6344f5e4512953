import PicoHybridCrypto.Tcp.System

/-! # What a connect reports

Once `tcp_connect` has succeeded, `wolf_TCPconnect` takes two statements, the second of which
clears `connected`, and then tests the flag until it is set. `ConnectPhase` says where the call
is after any events: it has returned as soon as it tested the flag after a connected callback
with `ERR_OK` that came after the clearing. Failures never reach the test
(`failure_reported_iff`), a return of `WOLF_SUCCESS` need not mean a connection
(`connect_sound_iff`), and a connection can go unnoticed (`notification_kept_iff`). -/

set_option autoImplicit true

namespace PicoHybridCrypto
open Machine

/-! ## Schedules -/

namespace Event

def isTick : Event → Bool
  | .tick => true
  | .callback .. => false

abbrev connectedOk (p : Pcb) : Event := .callback p (.connected errOk)

def Connects : Event → Prop
  | .tick => False
  | .callback _ c => c.Connects

/-- The err callback, or the connected callback with an error code. -/
def FailsConnect : Event → Prop
  | .callback _ (.connected code) => code ≠ errOk
  | .callback _ (.err _) => True
  | _ => False

theorem connects_iff {e : Event} : e.Connects ↔ ∃ p, e = connectedOk p := by
  constructor
  · intro h
    rcases e with _ | ⟨p, c⟩
    · exact h.elim
    · cases c with
      | connected code =>
        cases (h : code = errOk)
        exact ⟨p, rfl⟩
      | _ => exact h.elim
  · rintro ⟨p, rfl⟩
    exact (rfl : errOk = errOk)

end Event

def ticks (es : List Event) : Nat := es.countP Event.isTick

@[simp] theorem ticks_nil : ticks [] = 0 := rfl

@[simp] theorem ticks_append (es fs : List Event) : ticks (es ++ fs) = ticks es + ticks fs :=
  List.countP_append

@[simp] theorem ticks_tick : ticks (.tick :: es) = ticks es + 1 :=
  List.countP_cons_of_pos rfl

@[simp] theorem ticks_callback : ticks (.callback tpcb c :: es) = ticks es :=
  List.countP_cons_of_neg Bool.false_ne_true

/-- A connected callback with `ERR_OK` ran after the flag was cleared. -/
def Signalled (es : List Event) : Prop :=
  ∃ p, OccursAfter (2 ≤ ticks ·) (.connectedOk p) es

/-- The caller tested the flag after that. -/
def TestedSignalled : List Event → Prop := OccursAfter Signalled .tick

theorem signalled_concat : Signalled (es ++ [e]) ↔ Signalled es ∨ e.Connects ∧ 2 ≤ ticks es := by
  simp only [Signalled, occursAfter_concat, Event.connects_iff, exists_or, exists_and_right]

theorem testedSignalled_concat :
    TestedSignalled (es ++ [e]) ↔ TestedSignalled es ∨ e = .tick ∧ Signalled es :=
  occursAfter_concat

theorem Signalled.exists_connects (h : Signalled es) : ∃ e ∈ es, e.Connects := by
  obtain ⟨p, pre, post, rfl, -⟩ := h
  exact ⟨.connectedOk p, by simp, rfl⟩

theorem TestedSignalled.exists_connects (h : TestedSignalled es) : ∃ e ∈ es, e.Connects := by
  obtain ⟨pre, post, rfl, hpre⟩ := h
  obtain ⟨e, he, hc⟩ := hpre.exists_connects
  exact ⟨e, List.mem_append_left _ he, hc⟩

/-! ## Where a connect is -/

/-- Where a call of `wolf_TCPconnect` is after `es` if `tcp_new_ip_type` and `tcp_connect`
succeeded. -/
inductive ConnectPhase (es : List Event) (s : Sys) : Prop
  | testErr (hn : ticks es = 0) (hcontrol : s.control = .connectTestErr errOk)
  | clear (hn : ticks es = 1) (hcontrol : s.control = .connectClear)
  | wait (hn : 2 ≤ ticks es) (htest : ¬TestedSignalled es) (hcontrol : s.control = .connectWait)
    (hconn : s.sock.connected ↔ Signalled es)
  | returned (htest : TestedSignalled es) (hcontrol : s.control = .connectReturned wolfSuccess)

theorem not_signalled_of_ticks (h : ticks es < 2) : ¬Signalled es := by
  rintro ⟨p, pre, post, rfl, hn⟩
  rw [ticks_append] at h
  omega

theorem not_testedSignalled_of_ticks (h : ticks es < 2) : ¬TestedSignalled es := by
  rintro ⟨pre, post, rfl, hpre⟩
  rw [ticks_append] at h
  exact not_signalled_of_ticks (by omega) hpre

namespace Sys

theorem tick_testErr {s : Sys} (h : s.control = .connectTestErr errOk) :
    s.tick = { s with control := .connectClear } := by
  simp [tick, h]

theorem tick_clear {s : Sys} (h : s.control = .connectClear) :
    s.tick = { s with sock := { s.sock with connected := false }, control := .connectWait } := by
  simp [tick, h]

theorem tick_wait {s : Sys} (h : s.control = .connectWait) :
    s.tick = { s with
      control := if s.sock.connected then .connectReturned wolfSuccess else .connectWait } := by
  simp [tick, h]

end Sys

theorem ConnectPhase.step (H : ConnectPhase es s) (e : Event) :
    ConnectPhase (es ++ [e]) (s.event e).2 := by
  cases e with
  | tick =>
    show ConnectPhase (es ++ [.tick]) s.tick
    cases H with
    | testErr hn hcontrol =>
      rw [Sys.tick_testErr hcontrol]
      exact .clear (by simp [hn]) rfl
    | clear hn hcontrol =>
      rw [Sys.tick_clear hcontrol]
      have hsig : ¬Signalled es := not_signalled_of_ticks (by omega)
      have htest : ¬TestedSignalled es := not_testedSignalled_of_ticks (by omega)
      refine .wait (by simp [hn]) ?_ rfl ?_
      · simp [testedSignalled_concat, hsig, htest]
      · simp [signalled_concat, hsig, Event.Connects]
    | wait hn htest hcontrol hconn =>
      rw [Sys.tick_wait hcontrol]
      by_cases hsig : Signalled es
      · exact .returned (testedSignalled_concat.mpr (.inr ⟨rfl, hsig⟩))
          (if_pos (hconn.mpr hsig))
      · refine .wait (by simp; omega) ?_ (if_neg (mt hconn.mp hsig)) ?_
        · simp [testedSignalled_concat, hsig, htest]
        · simp [signalled_concat, hconn, Event.Connects]
    | returned htest hcontrol =>
      have htick : s.tick = s := by simp [Sys.tick, hcontrol]
      rw [htick]
      exact .returned (testedSignalled_concat.mpr (.inl htest)) hcontrol
  | callback tpcb c =>
    have hn' : ticks (es ++ [.callback tpcb c]) = ticks es := by simp
    have htest' : TestedSignalled (es ++ [.callback tpcb c]) ↔ TestedSignalled es := by
      simp [testedSignalled_concat]
    cases H with
    | testErr hn hcontrol => exact .testErr (hn'.trans hn) hcontrol
    | clear hn hcontrol => exact .clear (hn'.trans hn) hcontrol
    | wait hn htest hcontrol hconn =>
      refine .wait (hn' ▸ hn) (mt htest'.mp htest) hcontrol ?_
      have hrun := Callback.run_connected c s.sock tpcb
      rw [hconn] at hrun
      rw [signalled_concat, and_iff_left hn]
      exact hrun
    | returned htest hcontrol => exact .returned (htest'.mpr htest) hcontrol

/-- The state in which `tcp_connect` has accepted the request on the new pcb `p`. -/
def Sys.connecting (s : Sys) (addr : SockaddrIn) (p : Pcb) : Sys :=
  (s.wolfTCPconnect addr (some p) errOk).2

theorem Sys.connectPhase_after (s : Sys) (addr : SockaddrIn) (p : Pcb) (es : List Event) :
    ConnectPhase es ((s.connecting addr p).after es) := by
  induction es using List.reverseRecOn with
  | nil => exact .testErr rfl rfl
  | append_singleton es e ih =>
    rw [Sys.after_append]
    exact ih.step e

theorem ConnectPhase.between_iff (H : ConnectPhase es s) :
    s.control.between ↔ TestedSignalled es := by
  cases H with
  | testErr hn hcontrol =>
    exact iff_of_false (by simp [hcontrol, Control.between])
      (not_testedSignalled_of_ticks (by omega))
  | clear hn hcontrol =>
    exact iff_of_false (by simp [hcontrol, Control.between])
      (not_testedSignalled_of_ticks (by omega))
  | wait hn htest hcontrol hconn =>
    exact iff_of_false (by simp [hcontrol, Control.between]) htest
  | returned htest hcontrol => exact iff_of_true (by simp [hcontrol, Control.between]) htest

theorem ConnectPhase.control_eq (H : ConnectPhase es s) (h : TestedSignalled es) :
    s.control = .connectReturned wolfSuccess := by
  cases H with
  | testErr hn => exact (not_testedSignalled_of_ticks (by omega) h).elim
  | clear hn => exact (not_testedSignalled_of_ticks (by omega) h).elim
  | wait hn htest => exact (htest h).elim
  | returned htest hcontrol => exact hcontrol

/-! ## Failures -/

/-- The call reports a failed attempt: if a callback tells of a failure and none of a connection,
it has returned by the end with something other than `WOLF_SUCCESS`. -/
def FailureReported (s : Sys) (addr : SockaddrIn) (p : Pcb) (es : List Event) : Prop :=
  (∃ e ∈ es, e.FailsConnect) → (∀ e ∈ es, ¬e.Connects) →
    ∃ ret, ret ≠ wolfSuccess ∧ ((s.connecting addr p).after es).control = .connectReturned ret

/-- Without a connected callback with `ERR_OK` the call does not return. -/
theorem Sys.connecting_waits {es : List Event} (hes : ∀ e ∈ es, ¬e.Connects) (s : Sys)
    (addr : SockaddrIn) (p : Pcb) : ¬((s.connecting addr p).after es).control.between := by
  intro h
  obtain ⟨e, he, hc⟩ := ((s.connectPhase_after addr p es).between_iff.mp h).exists_connects
  exact hes e he hc

/-- No failure is ever reported: the call reports a failed attempt exactly when there is none. -/
theorem failure_reported_iff (s : Sys) (addr : SockaddrIn) (p : Pcb) (es : List Event) :
    FailureReported s addr p es ↔
      ¬((∃ e ∈ es, e.FailsConnect) ∧ ∀ e ∈ es, ¬e.Connects) := by
  constructor
  · rintro h ⟨hfails, hes⟩
    obtain ⟨ret, -, hret⟩ := h hfails hes
    refine Sys.connecting_waits hes s addr p ?_
    rw [hret]
    rfl
  · intro h hfails hes
    exact (h ⟨hfails, hes⟩).elim

/-- The peer refuses the connection during the first poll: the call goes on polling. -/
theorem refusal_not_reported :
    ¬FailureReported (.start ⟨fun _ => none⟩) ⟨0, 0⟩ 1
      [.tick, .tick, .callback 1 (.err errRst), .tick] := by
  intro h
  obtain ⟨ret, -, hret⟩ := h ⟨_, .tail _ (.tail _ (.head _)), trivial⟩ (by
    simp [Event.Connects, Callback.Connects])
  cases hret

/-! ## Successes -/

/-- If the call returns `WOLF_SUCCESS`, which is what its callers test for, the socket has a pcb
and the connected callback with `ERR_OK` ran on that pcb before the return. -/
def ConnectSound (s : Sys) (addr : SockaddrIn) (newPcb : Option Pcb) (answer : ErrT)
    (es : List Event) : Prop :=
  let s₀ := (s.wolfTCPconnect addr newPcb answer).2
  (s₀.after es).control = .connectReturned wolfSuccess →
    ∃ p, (s₀.after es).sock.tcpPcb = some p ∧
      ∃ pre post, es = pre ++ .connectedOk p :: post ∧ ¬(s₀.after pre).control.between

/-- The wait loop tests the flag after a connected callback of the loop, and none has run on `p`
yet: it was the callback of another pcb. -/
def TestedForeign (p : Pcb) (es : List Event) : Prop :=
  OccursAfter (fun pre => Signalled pre ∧ .connectedOk p ∉ pre) .tick es

theorem TestedForeign.testedSignalled (h : TestedForeign p es) : TestedSignalled es := by
  obtain ⟨pre, post, hes, hsig, -⟩ := h
  exact ⟨pre, post, hes, hsig⟩

section
variable {s : Sys} {addr : SockaddrIn} {p : Pcb}

/-- The wait loop returns because of a callback on `p` if it never tests a foreign one. -/
theorem exists_connectedOk (htest : TestedSignalled es) (h : ¬TestedForeign p es) :
    ∃ pre post, es = pre ++ .connectedOk p :: post ∧
      ¬((s.connecting addr p).after pre).control.between := by
  induction es using List.reverseRecOn with
  | nil =>
    obtain ⟨pre, post, hnil, -⟩ := htest
    cases List.append_eq_nil_iff.mp hnil.symm |>.2
  | append_singleton es e ih =>
    by_cases hes : TestedSignalled es
    · obtain ⟨pre, post, rfl, hpre⟩ := ih hes fun hf => h (occursAfter_concat.mpr (.inl hf))
      exact ⟨pre, post ++ [e], by simp, hpre⟩
    -- this is the test that ends the loop
    · obtain ⟨rfl, hsig⟩ := (testedSignalled_concat.mp htest).resolve_left hes
      have hp : .connectedOk p ∈ es := by
        by_contra hp
        exact h (occursAfter_concat.mpr (.inr ⟨rfl, hsig, hp⟩))
      obtain ⟨pre, post, rfl⟩ := List.append_of_mem hp
      refine ⟨pre, post ++ [.tick], by simp, fun hpre => hes ?_⟩
      rw [← (s.connectPhase_after addr p _).between_iff, Sys.after_append,
        Sys.control_after_of_between hpre]
      exact hpre

/-- A callback on `p` that runs before the return runs before every test that ends the loop. -/
theorem not_testedForeign (htest : TestedForeign p es)
    (h : es = pre ++ .connectedOk p :: post)
    (hpre : ¬((s.connecting addr p).after pre).control.between) : False := by
  obtain ⟨pre', post', h', hsig, hp⟩ := htest
  rcases List.append_eq_append_iff.mp (h'.symm.trans h) with ⟨mid, rfl, hmid⟩ | ⟨mid, rfl, hmid⟩
  -- the callback on `p` comes after the test, when the call has returned
  · cases mid with
    | nil => cases hmid
    | cons e mid =>
      cases hmid
      refine hpre ((s.connectPhase_after addr p _).between_iff.mpr ?_)
      exact ⟨pre', mid, rfl, hsig⟩
  -- it comes before the test, which is then no foreign one
  · cases mid with
    | nil => cases hmid
    | cons e mid =>
      cases hmid
      exact hp (by simp)

end

/-- `tcp_connect` has failed with `answer`; the call is about to return or has returned. -/
def Sys.ConnectFailing (answer : ErrT) (s : Sys) : Prop :=
  s.control = .connectTestErr answer ∨ s.control = .connectReturned wolfFail

theorem Sys.connect_refused {answer : ErrT} (hanswer : answer ≠ errOk) (s : Sys)
    (addr : SockaddrIn) (p : Pcb) (es : List Event) :
    ((s.wolfTCPconnect addr (some p) answer).2.after es).control ≠
      .connectReturned wolfSuccess := by
  have step {t : Sys} {e : Event} (h : t.ConnectFailing answer) :
      (t.event e).2.ConnectFailing answer := by
    cases e with
    | callback tpcb c => exact h
    | tick =>
      right
      show t.tick.control = .connectReturned wolfFail
      rcases h with h | h
      · simp [tick, h, hanswer]
      · simp [tick, h]
  have h : ((s.wolfTCPconnect addr (some p) answer).2.after es).ConnectFailing answer :=
    Sys.after_inv (L := fun _ => True) (fun _ => step) (fun _ _ => trivial) (.inl rfl)
  rcases h with h | h <;> rw [h] <;> simp [wolfSuccess, wolfFail]

/-- A return of `WOLF_SUCCESS` means a connection if and only if there was a pcb for the call
and, once `tcp_connect` has succeeded, the wait loop never tests the flag after the connected
callback of another pcb and before that of its own. -/
theorem connect_sound_iff (s : Sys) (addr : SockaddrIn) (newPcb : Option Pcb) (answer : ErrT)
    (es : List Event) :
    ConnectSound s addr newPcb answer es ↔
      ∃ p, newPcb = some p ∧ (answer = errOk → ¬TestedForeign p es) := by
  cases newPcb with
  | none =>
    refine iff_of_false (fun h => ?_) (by simp)
    have hcontrol :=
      Sys.control_after_of_between (s := (s.wolfTCPconnect addr none answer).2) rfl es
    obtain ⟨p, hp, -⟩ := h hcontrol
    rw [Sys.after_tcpPcb] at hp
    cases hp
  | some p =>
    by_cases hanswer : answer = errOk
    · subst hanswer
      have phase := s.connectPhase_after addr p es
      constructor
      · intro h
        refine ⟨p, rfl, fun _ htest => ?_⟩
        obtain ⟨q, hq, pre, post, hes, hpre⟩ := h (phase.control_eq htest.testedSignalled)
        rw [Sys.after_tcpPcb] at hq
        cases hq
        exact not_testedForeign htest hes hpre
      · rintro ⟨q, hq, htest⟩ hcontrol
        cases hq
        have hbetween : TestedSignalled es := phase.between_iff.mp (hcontrol ▸ rfl)
        exact ⟨p, Sys.after_tcpPcb _ es, exists_connectedOk hbetween (htest rfl)⟩
    · refine iff_of_true (fun hcontrol => ?_) ⟨p, rfl, fun h => (hanswer h).elim⟩
      exact (Sys.connect_refused hanswer s addr p es hcontrol).elim

/-- Without a free pcb, `false` reads as `WOLF_SUCCESS`. -/
theorem connect_without_pcb_unsound :
    ¬ConnectSound (.start ⟨fun _ => none⟩) ⟨0, 0⟩ none errOk [] := by
  intro h
  obtain ⟨p, hp, -⟩ := h rfl
  cases hp

/-! ## The notification -/

/-- The connected callback runs after `pre` and is the last one with `ERR_OK`. From then on the
flag is set at every test of the wait loop, and the call returns `WOLF_SUCCESS` once the caller
has taken enough statements. -/
structure NotificationKept (s : Sys) (addr : SockaddrIn) (p : Pcb) (pre : List Event) : Prop where
  connected_at_test : ∀ post, (∀ e ∈ post, ¬e.Connects) →
    ((s.connecting addr p).after (pre ++ .connectedOk p :: post)).control = .connectWait →
    ((s.connecting addr p).after (pre ++ .connectedOk p :: post)).sock.connected
  returns : ∃ n, ∀ post, (∀ e ∈ post, ¬e.Connects) → n ≤ ticks post →
    ((s.connecting addr p).after (pre ++ .connectedOk p :: post)).control =
      .connectReturned wolfSuccess

/-- A notification that comes before the flag is cleared is not there at the next test. -/
theorem Sys.notification_cleared (s : Sys) (addr : SockaddrIn) (p : Pcb) {pre : List Event}
    (hpre : ticks pre < 2) : ∃ n,
      ((s.connecting addr p).after
        (pre ++ .connectedOk p :: List.replicate n .tick)).control = .connectWait ∧
      ¬((s.connecting addr p).after
        (pre ++ .connectedOk p :: List.replicate n .tick)).sock.connected := by
  have H := (s.connectPhase_after addr p pre).step (.connectedOk p)
  simp only [Sys.after_append, Sys.after_cons]
  generalize (((s.connecting addr p).after pre).event (.connectedOk p)).2 = t at H ⊢
  cases H with
  | testErr hn hcontrol =>
    refine ⟨2, ?_⟩
    show t.tick.tick.control = .connectWait ∧ ¬t.tick.tick.sock.connected
    rw [Sys.tick_testErr hcontrol, Sys.tick_clear rfl]
    exact ⟨rfl, Bool.false_ne_true⟩
  | clear hn hcontrol =>
    refine ⟨1, ?_⟩
    show t.tick.control = .connectWait ∧ ¬t.tick.sock.connected
    rw [Sys.tick_clear hcontrol]
    exact ⟨rfl, Bool.false_ne_true⟩
  | wait hn => simp at hn; omega
  | returned htest => exact (not_testedSignalled_of_ticks (by simpa using hpre) htest).elim

/-- The notification is kept if and only if it comes after the caller has taken the two
statements that follow the release of the lwIP lock: the test of `err`, and the assignment that
clears the flag. -/
theorem notification_kept_iff (s : Sys) (addr : SockaddrIn) (p : Pcb) (pre : List Event) :
    NotificationKept s addr p pre ↔ 2 ≤ ticks pre := by
  constructor
  · intro h
    by_contra hpre
    obtain ⟨n, hcontrol, hconn⟩ := s.notification_cleared addr p (not_le.mp hpre)
    refine hconn (h.connected_at_test _ ?_ hcontrol)
    intro e he
    cases List.eq_of_mem_replicate he
    exact not_false
  · intro hpre
    refine ⟨fun post _ hcontrol => ?_, 1, fun post _ hpost => ?_⟩
    · have hsig : Signalled (pre ++ .connectedOk p :: post) := ⟨p, pre, post, rfl, hpre⟩
      cases s.connectPhase_after addr p (pre ++ .connectedOk p :: post) with
      | wait hn htest _ hconn => exact hconn.mpr hsig
      | testErr _ h | clear _ h | returned _ h => cases h.symm.trans hcontrol
    · refine (s.connectPhase_after addr p _).control_eq ?_
      have htick : .tick ∈ post := by
        obtain ⟨e, he, htick⟩ := List.countP_pos_iff.mp hpost
        cases e with
        | tick => exact he
        | callback => cases htick
      obtain ⟨mid, post, rfl⟩ := List.append_of_mem htick
      exact ⟨pre ++ .connectedOk p :: mid, post, by simp, p, pre, mid, rfl, hpre⟩

/-- The connection comes up as soon as the lwIP lock is released. -/
theorem early_notification_lost : ¬NotificationKept (.start ⟨fun _ => none⟩) ⟨0, 0⟩ 1 [] := by
  intro h
  refine absurd (h.connected_at_test [.tick, .tick] (by simp [Event.Connects]) rfl) ?_
  exact Bool.false_ne_true

end PicoHybridCrypto
