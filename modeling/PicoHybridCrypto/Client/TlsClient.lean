import PicoHybridCrypto.Theory.Ledger
import PicoHybridCrypto.Tcp.Connect
import PicoHybridCrypto.Tcp.PcbConservation

/-! # What the TLS client releases

`tlsClient_test` has three kinds of exit: two `return`s, jumps to `exit:` before `sock` is
assigned, and jumps to `exit:` with a socket. The socket is released with plain `free`, so the
pcb of its connection keeps it as callback argument unless lwIP has dropped the pcb before
(`tls_lifetimes_iff`). -/

set_option autoImplicit true

namespace PicoHybridCrypto

/-! ## Pcbs that carry the socket -/

def Label.ErrFor (p : Pcb) (a : Label) : Prop := ∃ code, a = .event (.callback p (.err code))

theorem Label.NoErr.not_errFor {a : Label} (ha : a.NoErr) (p : Pcb) : ¬a.ErrFor p := by
  rintro ⟨code, rfl⟩
  exact ha

theorem Label.errFor_iff {p q : Pcb} {code : ErrT} :
    (Label.event (.callback q (.err code))).ErrFor p ↔ p = q := by
  constructor
  · rintro ⟨code', h⟩
    cases h
    rfl
  · rintro rfl
    exact ⟨code, rfl⟩

theorem Event.exists_err {e : Event} (h : ¬(Label.event e).NoErr) :
    ∃ q code, e = .callback q (.err code) := by
  rcases e with _ | ⟨q, c⟩
  · exact (h trivial).elim
  · cases c with
    | err code => exact ⟨q, code, rfl⟩
    | _ => exact (h trivial).elim

theorem Lwip.carries_free (l : Lwip) (p q : Pcb) :
    (l.free q).Carries p ↔ l.Carries p ∧ p ≠ q := by
  by_cases hp : p = q
  · subst hp
    refine iff_of_false ?_ fun h => h.2 rfl
    rintro ⟨st, hst, -⟩
    rw [free_pcbs_self] at hst
    cases hst
  · rw [and_iff_left hp, Carries, free_pcbs_of_ne hp, Carries]

namespace Sys

theorem event_err_lwip (s : Sys) (q : Pcb) (code : ErrT) :
    (s.event (.callback q (.err code))).2.lwip = s.lwip.free q :=
  Lwip.applyAll_of_inert (fun _ => Callback.calls_inert) _

/-- Once connected, a pcb carries the socket until its err callback. -/
theorem step_carries {s t : Sys} {a : Label} {calls : List PcbCall} (ha : a.newPcb? = none)
    (h : machine.step s a = some (calls, t)) (p : Pcb) :
    t.lwip.Carries p ↔ s.lwip.Carries p ∧ ¬a.ErrFor p := by
  have kept (hlwip : t.lwip = s.lwip) (hnoErr : a.NoErr) :
      t.lwip.Carries p ↔ s.lwip.Carries p ∧ ¬a.ErrFor p := by
    rw [hlwip, and_iff_left (hnoErr.not_errFor p)]
  rcases step_cases h with ⟨addr, newPcb, answer, rfl, -⟩ | ⟨buff, answer, rfl, -, ht⟩ |
    ⟨buff, len, rfl, -, rfl, rfl⟩ | ⟨e, rfl, ht⟩
  · cases ha
  · cases ht
    exact kept (Lwip.applyAll_of_inert (fun _ hc => (wolfTCPwrite_calls_inert hc).2) _) trivial
  · exact kept rfl trivial
  · obtain ⟨rfl, rfl⟩ := Prod.ext_iff.mp ht
    by_cases hnoErr : (Label.event e).NoErr
    · exact kept (event_lwip hnoErr).1 hnoErr
    · obtain ⟨q, code, rfl⟩ := Event.exists_err hnoErr
      rw [event_err_lwip, Lwip.carries_free, Label.errFor_iff]

theorem run_carries {s t : Sys} {ls : List Label} {calls : List PcbCall}
    (hls : ∀ a ∈ ls, a.newPcb? = none) (h : machine.run s ls = some (calls, t)) (p : Pcb) :
    t.lwip.Carries p ↔ s.lwip.Carries p ∧ ∀ a ∈ ls, ¬a.ErrFor p := by
  refine Machine.run_history
    (I := fun ls _ t => t.lwip.Carries p ↔ s.lwip.Carries p ∧ ∀ a ∈ ls, ¬a.ErrFor p)
    ?_ hls (by simp) h
  intro ls tr t a out u ha ih hstep
  rw [step_carries ha hstep p, ih]
  simp only [List.mem_append, List.mem_singleton, or_imp, forall_and, forall_eq, and_assoc]

end Sys

/-! ## The client -/

def wolfsslSuccess : Int := 1

/-- What the pointers of `tlsClient_test` can refer to. `stray` is whatever an unassigned pointer
refers to. -/
inductive Resource
  | ctx | ssl | sock | stray
  deriving DecidableEq

/-- A wolfSSL call that does input and output on the socket: what it does there, interleaved with
lwIP's callbacks, and what it returns. -/
structure SslCall where
  labels : List Label
  no_connect : ∀ a ∈ labels, a.newPcb? = none
  ret : Int

/-- How the library calls of one execution of `tlsClient_test` turn out. -/
structure TlsOutcomes where
  /-- `wolfSSL_CTX_new` returns a context. -/
  ctxNew : Bool
  /-- What `wolfSSL_CTX_load_verify_buffer` returns. -/
  caLoad : Int
  /-- The bits on the stack where `sock` is. -/
  sockInit : UInt32
  /-- `calloc` returns memory for the socket. -/
  socket : Bool
  inetPton : Int
  servAddr : SockaddrIn
  newPcb : Option Pcb
  answer : ErrT
  /-- What happens until `wolf_TCPconnect` has returned. -/
  connecting : List Event
  /-- `wolfSSL_new` returns an object. -/
  sslNew : Bool
  handshake : SslCall
  write : SslCall
  read : SslCall
  /-- The callbacks that arrive between the last call and the release of the socket. -/
  exiting : List Event

def Control.connectRet : Control → Option Int
  | .connectReturned ret => some ret
  | _ => none

/-- The state after some labels if the last call has returned by then. -/
def Sys.perform (s : Sys) (ls : List Label) : Option Sys :=
  (machine.run s ls).bind fun (_, t) => if t.control.between then some t else none

namespace TlsOutcomes

/-- `tlsClient_test` from the call of `wolfSSL_new` to `exit:`, with whether `ssl` is set there. It
is `none` where a call does not return. -/
def converse (o : TlsOutcomes) (s : Sys) : Option (Bool × Sys) :=
  if o.sslNew = false then some (false, s)
  else
    (s.perform o.handshake.labels).bind fun s =>
    if o.handshake.ret ≠ wolfsslSuccess then some (true, s)
    else
      (s.perform o.write.labels).bind fun s =>
      if o.write.ret < 0 then some (true, s)
      else (s.perform o.read.labels).map fun s => (true, s)

/-- From the test of the address to `exit:`. -/
def session (o : TlsOutcomes) (s : Sys) : Option (Bool × Sys) :=
  if o.inetPton ≠ 1 then some (false, s)
  else
    (s.perform (.connect o.servAddr o.newPcb o.answer :: o.connecting.map .event)).bind fun s =>
    if s.control.connectRet ≠ some wolfSuccess then some (false, s) else o.converse s

end TlsOutcomes

/-- The releases at `exit:`, each behind the test of its pointer. -/
def tlsExit (ssl sock ctx : Option Resource) : List Resource :=
  ssl.toList ++ sock.toList ++ ctx.toList

/-- What `tlsClient_test` has acquired and released, and lwIP when it returns. -/
structure TlsResult where
  log : List (Ledger.Entry Resource)
  lwip : Lwip

def tlsClientTest (o : TlsOutcomes) (l : Lwip) : Option TlsResult :=
  if o.ctxNew = false then
    -- `return;`
    some { log := [], lwip := l }
  else if o.caLoad ≠ wolfsslSuccess then
    -- `sock` has not been assigned yet
    let sock := if o.sockInit = 0 then none else some .stray
    some { log := Ledger.log [.ctx] (tlsExit none sock (some .ctx)), lwip := l }
  else
    match wolfTCPsocket o.socket with
    | none =>
      -- `return;`
      some { log := Ledger.log [.ctx] [], lwip := l }
    | some sock =>
      (o.session ⟨sock, l, .ready⟩).map fun (hasSsl, s) =>
        let ssl := if hasSsl then some .ssl else none
        { log := Ledger.log ([.ctx, .sock] ++ ssl.toList) (tlsExit ssl (some .sock) (some .ctx))
          lwip := (s.after o.exiting).lwip }

/-! ## Exactly when its lifetimes are right -/

/-- Everything acquired has been released once and nothing else has been released, and once the
socket has been, no pcb carries it. -/
structure Lifetimes (r : TlsResult) : Prop where
  settled : Ledger.Settled r.log
  assigned : .release .stray ∉ r.log
  no_carrier : .release .sock ∈ r.log → ∀ p, ¬r.lwip.Carries p

namespace TlsOutcomes

/-- What happens to the socket from `wolfSSL_new` to `exit:`. -/
def conversation (o : TlsOutcomes) : List Label :=
  if o.sslNew = false then []
  else o.handshake.labels ++
    if o.handshake.ret ≠ wolfsslSuccess then []
    else o.write.labels ++ if o.write.ret < 0 then [] else o.read.labels

/-- What happens to the socket from `tcp_connect` to its release. -/
def during (o : TlsOutcomes) : List Label :=
  o.connecting.map .event ++
    (if o.newPcb.isSome ∧ o.answer ≠ errOk then [] else o.conversation) ++
    o.exiting.map .event

/-- The exits without a defect: before the context, with an unassigned `sock` that happens to be
`NULL`, and with a socket that no pcb carries any more. -/
def Clean (o : TlsOutcomes) : Prop :=
  o.ctxNew = true →
    if o.caLoad ≠ wolfsslSuccess then o.sockInit = 0
    else o.socket = true ∧
      (o.inetPton = 1 → ∀ p ∈ o.newPcb, ∃ a ∈ o.during, a.ErrFor p)

end TlsOutcomes

theorem Sys.perform_eq_some {s t : Sys} {ls : List Label} :
    s.perform ls = some t ↔
      (∃ calls, machine.run s ls = some (calls, t)) ∧ t.control.between := by
  simp only [perform, Option.bind_eq_some_iff, Option.ite_none_right_eq_some, Prod.exists,
    Option.some.injEq]
  constructor
  · rintro ⟨calls, t', h, hb, rfl⟩
    exact ⟨⟨calls, h⟩, hb⟩
  · rintro ⟨⟨calls, h⟩, hb⟩
    exact ⟨calls, t, h, hb, rfl⟩

theorem Control.connectRet_eq_some {c : Control} {ret : Int} :
    c.connectRet = some ret ↔ c = .connectReturned ret := by
  cases c <;> simp [connectRet]

/-- A connect that has returned has failed exactly when `tcp_connect` refused the new pcb. -/
theorem Sys.connectRet_iff {s t : Sys} {addr : SockaddrIn} {newPcb : Option Pcb} {answer : ErrT}
    {es : List Event} (ht : t = (s.wolfTCPconnect addr newPcb answer).2.after es)
    (hb : t.control.between) :
    t.control.connectRet ≠ some wolfSuccess ↔ newPcb.isSome ∧ answer ≠ errOk := by
  rw [Ne, Control.connectRet_eq_some]
  subst ht
  cases newPcb with
  | none =>
    refine iff_of_false (not_not.mpr ?_) (by simp)
    exact control_after_of_between (s := (s.wolfTCPconnect addr none answer).2) rfl es
  | some p =>
    by_cases hanswer : answer = errOk
    · subst hanswer
      refine iff_of_false (not_not.mpr ?_) (by simp)
      have phase := s.connectPhase_after addr p es
      exact phase.control_eq (phase.between_iff.mp hb)
    · exact iff_of_true (s.connect_refused hanswer addr p es) ⟨rfl, hanswer⟩

namespace TlsOutcomes

variable {o : TlsOutcomes}

theorem converse_run {s t : Sys} {hasSsl : Bool} (h : o.converse s = some (hasSsl, t)) :
    ∃ calls, Sys.machine.run s o.conversation = some (calls, t) := by
  by_cases hnew : o.sslNew = false
  · rw [converse, if_pos hnew] at h
    rw [conversation, if_pos hnew]
    cases h
    exact ⟨[], rfl⟩
  rw [converse, if_neg hnew] at h
  rw [conversation, if_neg hnew]
  obtain ⟨s₁, hhandshake, h⟩ := Option.bind_eq_some_iff.mp h
  obtain ⟨⟨calls₁, h₁⟩, -⟩ := Sys.perform_eq_some.mp hhandshake
  by_cases hret : o.handshake.ret ≠ wolfsslSuccess
  · rw [if_pos hret] at h
    rw [if_pos hret]
    cases h
    exact ⟨_, Machine.run_append h₁ (Machine.run_nil t)⟩
  rw [if_neg hret] at h
  rw [if_neg hret]
  obtain ⟨s₂, hwrite, h⟩ := Option.bind_eq_some_iff.mp h
  obtain ⟨⟨calls₂, h₂⟩, -⟩ := Sys.perform_eq_some.mp hwrite
  by_cases hneg : o.write.ret < 0
  · rw [if_pos hneg] at h
    rw [if_pos hneg]
    cases h
    exact ⟨_, Machine.run_append h₁ (Machine.run_append h₂ (Machine.run_nil t))⟩
  rw [if_neg hneg] at h
  rw [if_neg hneg]
  obtain ⟨s₃, hread, h⟩ := Option.map_eq_some_iff.mp h
  obtain ⟨⟨calls₃, h₃⟩, -⟩ := Sys.perform_eq_some.mp hread
  cases h
  exact ⟨_, Machine.run_append h₁ (Machine.run_append h₂ h₃)⟩

/-- The steps of a session between the call of `wolf_TCPconnect` and the release are `during`. -/
theorem session_run {s t : Sys} {hasSsl : Bool} (haddr : o.inetPton = 1)
    (h : o.session s = some (hasSsl, t)) :
    ∃ calls, Sys.machine.run (s.wolfTCPconnect o.servAddr o.newPcb o.answer).2 o.during =
      some (calls, t.after o.exiting) := by
  rw [session, if_neg (not_not.mpr haddr)] at h
  obtain ⟨s₁, hconnect, h⟩ := Option.bind_eq_some_iff.mp h
  obtain ⟨⟨calls, hconnect⟩, hb⟩ := Sys.perform_eq_some.mp hconnect
  obtain ⟨calls₀, s₀, calls₁, hstep, h₁, -⟩ := Machine.run_cons_eq_some.mp hconnect
  obtain ⟨-, hstep⟩ := Option.ite_none_right_eq_some.mp hstep
  obtain ⟨-, rfl⟩ := Prod.ext_iff.mp (Option.some.inj hstep)
  obtain ⟨calls₁', hevents⟩ :=
    (s.wolfTCPconnect o.servAddr o.newPcb o.answer).2.run_events o.connecting
  obtain ⟨-, hs₁⟩ := Prod.ext_iff.mp (Option.some.inj (h₁.symm.trans hevents))
  have hfails := Sys.connectRet_iff hs₁ hb
  obtain ⟨calls₃, hexit⟩ := t.run_events o.exiting
  suffices hbody : ∃ calls₂, Sys.machine.run s₁
      (if o.newPcb.isSome ∧ o.answer ≠ errOk then [] else o.conversation) = some (calls₂, t) by
    obtain ⟨calls₂, h₂⟩ := hbody
    exact ⟨_, Machine.run_append (Machine.run_append h₁ h₂) hexit⟩
  by_cases hfail : o.newPcb.isSome ∧ o.answer ≠ errOk
  · rw [if_pos (hfails.mpr hfail)] at h
    rw [if_pos hfail]
    cases h
    exact ⟨[], rfl⟩
  · rw [if_neg (mt hfails.mp hfail)] at h
    rw [if_neg hfail]
    exact converse_run h

theorem conversation_no_connect : ∀ a ∈ o.conversation, a.newPcb? = none := by
  intro a ha
  simp only [conversation] at ha
  split_ifs at ha <;> simp only [List.mem_append, List.not_mem_nil, or_false] at ha
  · exact o.handshake.no_connect a ha
  · rcases ha with ha | ha
    · exact o.handshake.no_connect a ha
    · exact o.write.no_connect a ha
  · rcases ha with ha | ha | ha
    · exact o.handshake.no_connect a ha
    · exact o.write.no_connect a ha
    · exact o.read.no_connect a ha

theorem during_no_connect : ∀ a ∈ o.during, a.newPcb? = none := by
  have events {es : List Event} {a : Label} (ha : a ∈ es.map Label.event) : a.newPcb? = none := by
    obtain ⟨e, -, rfl⟩ := List.mem_map.mp ha
    rfl
  intro a ha
  simp only [during, List.mem_append] at ha
  rcases ha with (ha | ha) | ha
  · exact events ha
  · split_ifs at ha
    · cases ha
    · exact conversation_no_connect a ha
  · exact events ha

/-- The only pcb that may carry the socket when it is released is the one of its connect. -/
theorem session_carries {l : Lwip} (hl : ∀ p, ¬l.Carries p) {t : Sys} {hasSsl : Bool}
    (h : o.session (.start l) = some (hasSsl, t)) :
    (∀ p, ¬(t.after o.exiting).lwip.Carries p) ↔
      (o.inetPton = 1 → ∀ p ∈ o.newPcb, ∃ a ∈ o.during, a.ErrFor p) := by
  by_cases haddr : o.inetPton = 1
  · obtain ⟨calls, hrun⟩ := session_run haddr h
    have hconnect (p : Pcb) :
        ((Sys.start l).wolfTCPconnect o.servAddr o.newPcb o.answer).2.lwip.Carries p ↔
          o.newPcb = some p := by
      cases o.newPcb with
      | none => exact iff_of_false (hl p) (by simp)
      | some q =>
        have := connect_carries l o.servAddr q o.answer p
        rw [or_iff_left (hl p)] at this
        exact this.trans (by rw [Option.some.injEq, eq_comm])
    simp only [Sys.run_carries during_no_connect hrun, hconnect, haddr, forall_const, not_and,
      not_forall, not_not, Option.mem_def, exists_prop]
  · refine iff_of_true (fun p hp => ?_) fun h => (haddr h).elim
    rw [session, if_pos haddr] at h
    cases h
    obtain ⟨calls, hexit⟩ := (Sys.start l).run_events o.exiting
    have hnone : ∀ a ∈ o.exiting.map Label.event, a.newPcb? = none := by simp [Label.newPcb?]
    exact hl p ((Sys.run_carries hnone hexit p).mp hp).1

end TlsOutcomes

/-! ## The three kinds of exit -/

theorem lifetimes_iff {as rs : List Resource} (has : as.Nodup) (l : Lwip) :
    Lifetimes ⟨Ledger.log as rs, l⟩ ↔
      rs.Perm as ∧ .stray ∉ rs ∧ (.sock ∈ rs → ∀ p, ¬l.Carries p) := by
  constructor
  · intro h
    exact ⟨(Ledger.settled_iff_perm has).mp h.settled,
      fun hs => h.assigned (Ledger.release_mem_log.mpr hs),
      fun hs => h.no_carrier (Ledger.release_mem_log.mpr hs)⟩
  · rintro ⟨hperm, hstray, hsock⟩
    exact ⟨(Ledger.settled_iff_perm has).mpr hperm,
      fun hs => hstray (Ledger.release_mem_log.mp hs),
      fun hs => hsock (Ledger.release_mem_log.mp hs)⟩

theorem lifetimes_nothing (l : Lwip) : Lifetimes ⟨[], l⟩ :=
  ⟨Ledger.settledAt_nil, List.not_mem_nil, nofun⟩

/-- The second `return` leaks the context. -/
theorem not_lifetimes_ctx (l : Lwip) : ¬Lifetimes ⟨Ledger.log [.ctx] [], l⟩ := by
  intro h
  have hperm := ((lifetimes_iff (List.nodup_singleton _) l).mp h).1
  cases hperm.length_eq

theorem lifetimes_unassigned_iff (init : UInt32) (l : Lwip) :
    Lifetimes ⟨Ledger.log [.ctx]
      (tlsExit none (if init = 0 then none else some .stray) (some .ctx)), l⟩ ↔ init = 0 := by
  rw [lifetimes_iff (List.nodup_singleton _)]
  by_cases hinit : init = 0
  · rw [if_pos hinit]
    exact iff_of_true ⟨by decide, by decide, fun h => absurd h (by decide)⟩ hinit
  · rw [if_neg hinit]
    exact iff_of_false (fun h => absurd h.2.1 (by decide)) hinit

theorem lifetimes_session_iff (hasSsl : Bool) (l : Lwip) :
    let ssl := if hasSsl then some .ssl else none
    Lifetimes ⟨Ledger.log ([.ctx, .sock] ++ ssl.toList)
      (tlsExit ssl (some .sock) (some .ctx)), l⟩ ↔ ∀ p, ¬l.Carries p := by
  intro ssl
  have hperm : (tlsExit ssl (some .sock) (some .ctx)).Perm ([.ctx, .sock] ++ ssl.toList) := by
    cases hasSsl <;> decide
  have hnodup : ([Resource.ctx, .sock] ++ ssl.toList).Nodup := by
    cases hasSsl <;> decide
  rw [lifetimes_iff hnodup, and_iff_right hperm, hperm.mem_iff, hperm.mem_iff]
  have hstray : .stray ∉ [Resource.ctx, .sock] ++ ssl.toList := by
    cases hasSsl <;> decide
  rw [and_iff_right hstray]
  exact imp_iff_right (by simp)

/-- For every outcome of every library call and every interleaving of lwIP's callbacks with them:
the lifetimes are right if and only if the outcomes are clean. -/
theorem tls_lifetimes_iff {l : Lwip} (hl : ∀ p, ¬l.Carries p) {o : TlsOutcomes} {r : TlsResult}
    (h : tlsClientTest o l = some r) : Lifetimes r ↔ o.Clean := by
  unfold tlsClientTest at h
  by_cases hctx : o.ctxNew = false
  · rw [if_pos hctx] at h
    cases h
    refine iff_of_true (lifetimes_nothing l) fun hctx' => ?_
    cases hctx.symm.trans hctx'
  rw [if_neg hctx] at h
  rw [TlsOutcomes.Clean, imp_iff_right (eq_true_of_ne_false hctx)]
  by_cases hca : o.caLoad ≠ wolfsslSuccess
  · rw [if_pos hca] at h
    rw [if_pos hca]
    cases h
    exact lifetimes_unassigned_iff o.sockInit l
  rw [if_neg hca] at h
  rw [if_neg hca]
  cases hsocket : o.socket with
  | false =>
    rw [hsocket] at h
    cases h
    exact iff_of_false (not_lifetimes_ctx l) fun h => Bool.false_ne_true h.1
  | true =>
    rw [hsocket] at h
    obtain ⟨⟨hasSsl, s⟩, hsession, rfl⟩ := Option.map_eq_some_iff.mp h
    rw [and_iff_right rfl, ← TlsOutcomes.session_carries hl hsession]
    exact lifetimes_session_iff hasSsl _

/-- The connection comes up, `wolfSSL_connect` fails, and some callbacks arrive before the
release. -/
def failedHandshake (exiting : List Event) : TlsOutcomes where
  ctxNew := true
  caLoad := wolfsslSuccess
  sockInit := 0
  socket := true
  inetPton := 1
  servAddr := ⟨0, 0⟩
  newPcb := some 1
  answer := errOk
  connecting := [.tick, .tick, .tick, .callback 1 (.connected errOk), .tick]
  sslNew := true
  handshake := ⟨[], nofun, -1⟩
  write := ⟨[], nofun, 0⟩
  read := ⟨[], nofun, 0⟩
  exiting

theorem failedHandshake_returns (exiting : List Event) :
    ∃ r, tlsClientTest (failedHandshake exiting) ⟨fun _ => none⟩ = some r := ⟨_, rfl⟩

theorem tls_lifetimes_iff_reset : ∃ r,
    tlsClientTest (failedHandshake [.callback 1 (.err errRst)]) ⟨fun _ => none⟩ = some r ∧
      Lifetimes r := by
  obtain ⟨r, hr⟩ := failedHandshake_returns [.callback 1 (.err errRst)]
  refine ⟨r, hr, (tls_lifetimes_iff ?_ hr).mpr ?_⟩
  · rintro p ⟨st, hst, -⟩
    cases hst
  · refine fun _ => ⟨rfl, fun _ p hp => ?_⟩
    cases hp
    exact ⟨.event (.callback 1 (.err errRst)), by simp [TlsOutcomes.during, failedHandshake],
      errRst, rfl⟩

/-- Nothing but the failure happens: pcb 1 carries the released socket. -/
theorem released_socket_carried : ∃ r,
    tlsClientTest (failedHandshake []) ⟨fun _ => none⟩ = some r ∧ ¬Lifetimes r := by
  refine ⟨_, rfl, fun h => ?_⟩
  exact h.no_carrier (Ledger.release_mem_log.mpr (by decide)) 1 ⟨_, rfl, rfl⟩

end PicoHybridCrypto
