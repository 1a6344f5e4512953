import PicoHybridCrypto.Theory.CString
import PicoHybridCrypto.Tcp.ReadWait
import PicoHybridCrypto.Client.TlsClient

/-! # What the TCP client prints

`tcpClient_test` prints its local buffer with `%s`. `wolf_TCPread` stores the received bytes and
nothing behind them, so what is printed is what was received exactly when there is a NUL among
the received bytes: for a reply that is there when `recv` is called (`client_prints_received_iff`)
and for one it waits for (`client_prints_received_at_return`). -/

set_option autoImplicit true

namespace PicoHybridCrypto
open Cells

/-! ## The client -/

def buffSize : UInt32 := 2048

/-- `msg`, with the zeros that fill it up to `SIZE_OF_CLIENT_HELLO`. -/
def fakeClientHello : CBuffer where
  bytes :=
    [0x16, 0x03, 0x03, 0x03, 0x2a, 0x01, 0x00, 0x03, 0x26] ++
    [0x20, 0x46, 0x61, 0x6b, 0x65, 0x20, 0x43, 0x6c, 0x69, 0x65, 0x6e, 0x74,
     0x20, 0x48, 0x65, 0x6c, 0x6c, 0x6f] ++ List.replicate 788 0
  length_lt := by
    simp only [List.length_append, List.length_cons, List.length_nil, List.length_replicate]
    decide

/-- How the library calls of one execution of `tcpClient_test` turn out, and the callbacks that
arrive meanwhile. -/
structure TcpOutcomes where
  socket : Bool
  inetPton : Int
  servAddr : SockaddrIn
  newPcb : Option Pcb
  answer : ErrT
  /-- What happens until `wolf_TCPconnect` has returned. -/
  connecting : List Event
  writeAnswer : ErrT
  /-- What happens between the write and the call of `recv`. `main` holds the lwIP lock, so in the
  program this is nothing: callbacks come in the polls of `connect` and `recv`. -/
  sending : List Event
  /-- What happens from the first test of `buffer_len` until the socket is closed. -/
  receiving : List Event
  closeAnswer : ErrT

def Control.writeRet : Control → Option Int
  | .writeReturned ret => some ret
  | _ => none

/-- What `recv` returned, and the memory at `buffer` when it is printed. -/
structure Message where
  ret : Int
  buffer : Int → UInt8

/-- The message, if one is printed, and lwIP when `tcpClient_test` returns. -/
structure TcpResult where
  message : Option Message
  lwip : Lwip

namespace TcpOutcomes

/-- `tcpClient_test` from the test of the address to the call of `recv`: an error is a jump to
`exit:`, and `none` a call that does not return. -/
def untilRecv (o : TcpOutcomes) (s : Sys) : Option (Except Sys Sys) :=
  if o.inetPton ≠ 1 then some (.error s)
  else
    (s.perform (.connect o.servAddr o.newPcb o.answer :: o.connecting.map .event)).bind fun s =>
    if s.control.connectRet ≠ some wolfSuccess then some (.error s)
    else
      (s.perform (.write fakeClientHello o.writeAnswer :: o.sending.map .event)).map fun s =>
      if s.control.writeRet.any (· < 0) then .error s else .ok s

/-- From the call of `recv` to `exit:`. The first poll comes behind the first test of
`buffer_len`. -/
def recv (o : TcpOutcomes) (buffer : Int → UInt8) (s : Sys) : Option (Option Message × Sys) :=
  (s.perform (.read buffer buffSize :: .event .tick :: o.receiving.map .event)).map fun s =>
  match s.control with
  | .readReturned ret buffer => (if ret < 0 then none else some ⟨ret, buffer⟩, s)
  | _ => (none, s)

def exit (o : TcpOutcomes) (message : Option Message) (s : Sys) : TcpResult where
  message
  lwip := s.lwip.applyAll (wolfTCPclose s.sock o.closeAnswer).calls

end TcpOutcomes

/-- `buffer` is what the local `buffer` holds before it is written. -/
def tcpClientTest (o : TcpOutcomes) (buffer : Int → UInt8) (l : Lwip) : Option TcpResult :=
  match wolfTCPsocket o.socket with
  | none => some { message := none, lwip := l }
  | some sock =>
    (o.untilRecv ⟨sock, l, .ready⟩).bind fun
      | .error s => some (o.exit none s)
      | .ok s => (o.recv buffer s).map fun (message, s) => o.exit message s

theorem tcpClientTest_of_socket {o : TcpOutcomes} (hsocket : o.socket = true)
    (buffer : Int → UInt8) (l : Lwip) : tcpClientTest o buffer l =
      (o.untilRecv (.start l)).bind fun
        | .error s => some (o.exit none s)
        | .ok s => (o.recv buffer s).map fun (message, s) => o.exit message s := by
  rw [tcpClientTest, hsocket]
  rfl

def TcpOutcomes.message (o : TcpOutcomes) (buffer : Int → UInt8) (l : Lwip) : Option Message :=
  (tcpClientTest o buffer l).bind (·.message)

/-! ## Exactly when it prints what was received -/

/-- The printed text depends on the first `ret` bytes only, and the printing looks at no
others. -/
structure Message.FromReceived (msg : Message) : Prop where
  text : ∀ m, (∀ k : Nat, (k : Int) < msg.ret → m k = msg.buffer k) →
    CString.text m = CString.text msg.buffer
  consults : ∀ k, CString.Consults msg.buffer k → (k : Int) < msg.ret

/-- Two contents of memory that differ at most in the cells of `buffer`. -/
def SameOutside (m m' : Int → UInt8) : Prop :=
  ∀ i, ¬(0 ≤ i ∧ i < (buffSize.toNat : Int)) → m i = m' i

/-- Whatever was in `buffer` before, the same text is printed, and it comes from what was
received. -/
def TcpOutcomes.PrintsReceived (o : TcpOutcomes) (l : Lwip) : Prop :=
  ∀ m m', SameOutside m m' → ∃ msg msg',
    o.message m l = some msg ∧ o.message m' l = some msg' ∧
      CString.text msg.buffer = CString.text msg'.buffer ∧ msg.FromReceived ∧ msg'.FromReceived

/-- Bytes stored at `buffer` contain a NUL exactly when there is one in front of their end. -/
theorem exists_copyIn_zero_iff (m : Int → UInt8) (xs : List UInt8) :
    (∃ j : Nat, j < xs.length ∧ copyIn m 0 xs j = 0) ↔ 0 ∈ xs := by
  rw [List.mem_iff_getElem]
  constructor
  · rintro ⟨j, hj, hzero⟩
    exact ⟨j, hj, (copyIn_zero hj).symm.trans hzero⟩
  · rintro ⟨j, hj, hzero⟩
    exact ⟨j, hj, (copyIn_zero hj).trans hzero⟩

theorem Message.fromReceived_iff (m : Int → UInt8) (xs : List UInt8) :
    FromReceived ⟨xs.length, copyIn m 0 xs⟩ ↔ 0 ∈ xs := by
  rw [← exists_copyIn_zero_iff m]
  constructor
  · intro h
    refine CString.consults_lt_iff.mp fun k hk => ?_
    exact Int.ofNat_lt.mp (h.consults k hk)
  · intro h
    exact ⟨fun m' hm => CString.text_congr h fun j hj => hm j (Int.ofNat_lt.mpr hj),
      fun k hk => Int.ofNat_lt.mpr (CString.consults_lt_iff.mpr h k hk)⟩

theorem length_fakeClientHello : fakeClientHello.len = 815 := by
  simp only [CBuffer.len, fakeClientHello, List.length_append, List.length_cons, List.length_nil,
    List.length_replicate]

theorem Sys.wolfTCPwrite_control (s : Sys) (buff : CBuffer) (answer : ErrT) :
    (s.wolfTCPwrite buff answer).2.control = .writeReturned (toInt buff.len) := by
  simp only [wolfTCPwrite, PicoHybridCrypto.wolfTCPwrite]

namespace TcpOutcomes

variable {o : TcpOutcomes} {s t : Sys}

/-- The state after the statement that a call begins with, and the events that follow. -/
theorem run_call {l : Label} {es : List Event} {calls : List PcbCall}
    (h : Sys.machine.run s (l :: es.map .event) = some (calls, t)) :
    ∃ calls₀ s₀, Sys.machine.step s l = some (calls₀, s₀) ∧ t = s₀.after es := by
  obtain ⟨calls₀, s₀, calls₁, hstep, hrun, -⟩ := Machine.run_cons_eq_some.mp h
  obtain ⟨calls₁', hevents⟩ := s₀.run_events es
  obtain ⟨-, rfl⟩ := Prod.mk.inj (Option.some.inj (hrun.symm.trans hevents))
  exact ⟨calls₀, s₀, hstep, rfl⟩

/-- The length of the hello is returned, so that the test for a negative result fails. -/
theorem write_not_negative
    (h : s.perform (.write fakeClientHello o.writeAnswer :: o.sending.map .event) = some t) :
    ¬t.control.writeRet.any (· < 0) := by
  obtain ⟨⟨calls, hrun⟩, -⟩ := Sys.perform_eq_some.mp h
  obtain ⟨calls₀, s₀, hstep, rfl⟩ := run_call hrun
  obtain ⟨-, hstep⟩ := Option.ite_none_right_eq_some.mp hstep
  obtain ⟨-, rfl⟩ := Prod.ext_iff.mp (Option.some.inj hstep)
  have hcontrol := s.wolfTCPwrite_control fakeClientHello o.writeAnswer
  have hlen : toInt fakeClientHello.len = 815 := by
    rw [length_fakeClientHello]
    exact CInt.signed_of_mem (w := 31) (by decide) (by decide)
  rw [Sys.control_after_of_between (by rw [hcontrol]; rfl), hcontrol, hlen]
  decide

theorem untilRecv_ok (H : s.sock.WF) (h : o.untilRecv s = some (.ok t)) :
    t.sock.WF ∧ t.control.between := by
  rw [untilRecv] at h
  by_cases haddr : o.inetPton ≠ 1
  · rw [if_pos haddr] at h
    cases h
  rw [if_neg haddr] at h
  obtain ⟨s₁, hconnect, h⟩ := Option.bind_eq_some_iff.mp h
  obtain ⟨⟨calls₁, h₁⟩, -⟩ := Sys.perform_eq_some.mp hconnect
  by_cases hret : s₁.control.connectRet ≠ some wolfSuccess
  · rw [if_pos hret] at h
    cases h
  rw [if_neg hret] at h
  obtain ⟨s₂, hwrite, h⟩ := Option.map_eq_some_iff.mp h
  obtain ⟨⟨calls₂, h₂⟩, hb⟩ := Sys.perform_eq_some.mp hwrite
  rw [if_neg (write_not_negative hwrite)] at h
  cases h
  exact ⟨Sys.run_WF (Sys.run_WF H h₁) h₂, hb⟩

/-- `recv` hands over what is unread at the test that ends its wait. -/
theorem recv_eq (H : s.sock.WF) (hb : s.control.between) {sock : Socket}
    (hreturn : s.sock.atReturn (.tick :: o.receiving) = some sock) (buffer : Int → UInt8) :
    ∃ t, o.recv buffer s =
      some (some ⟨(min buffSize.toNat sock.unread.length : Nat),
        copyIn buffer 0 (sock.unread.take buffSize.toNat)⟩, t) := by
  let waiting := s.wolfTCPread buffer buffSize
  let t := waiting.after (.tick :: o.receiving)
  have hread : Sys.machine.step s (.read buffer buffSize) = some ([], waiting) := if_pos hb
  have hcontrol := Sys.control_after_readWait (s := waiting) H rfl (.tick :: o.receiving)
  have hsock : waiting.sock.atReturn (.tick :: o.receiving) = some sock := hreturn
  rw [hsock] at hcontrol
  obtain ⟨calls, hrest⟩ := waiting.run_events (.tick :: o.receiving)
  have hperform : s.perform (.read buffer buffSize :: .event .tick :: o.receiving.map .event) =
      some t := by
    refine Sys.perform_eq_some.mpr ⟨⟨_, Machine.run_cons hread hrest⟩, ?_⟩
    rw [hcontrol]
    rfl
  refine ⟨t, ?_⟩
  rw [recv, hperform]
  simp only [Option.map_some, t, hcontrol, if_neg (not_lt.mpr (Int.natCast_nonneg _))]

theorem message_eq {l : Lwip} (hsocket : o.socket = true)
    (h : o.untilRecv (.start l) = some (.ok s)) {sock : Socket}
    (hreturn : s.sock.atReturn (.tick :: o.receiving) = some sock) (buffer : Int → UInt8) :
    let received := sock.unread.take buffSize.toNat
    o.message buffer l = some ⟨received.length, copyIn buffer 0 received⟩ := by
  intro received
  obtain ⟨H, hb⟩ := untilRecv_ok Socket.WF.zeroed h
  obtain ⟨t, ht⟩ := recv_eq (o := o) H hb hreturn buffer
  have hlength : received.length = min buffSize.toNat sock.unread.length := List.length_take
  rw [hlength, message, tcpClientTest_of_socket hsocket, h]
  simp only [Option.bind_some, ht, Option.map_some]
  rfl

end TcpOutcomes

/-- For every run that calls `recv` and in which it finds bytes, at once or after a wait: what is
printed is what was received, for every prior content of the buffer, if and only if one of the
received bytes that fit into the buffer is NUL. -/
theorem client_prints_received_at_return {l : Lwip} {o : TcpOutcomes} {s : Sys} {sock : Socket}
    (hsocket : o.socket = true) (h : o.untilRecv (.start l) = some (.ok s))
    (hreturn : s.sock.atReturn (.tick :: o.receiving) = some sock) :
    o.PrintsReceived l ↔ 0 ∈ sock.unread.take buffSize.toNat := by
  have hmessage := TcpOutcomes.message_eq hsocket h hreturn
  constructor
  · intro hprints
    obtain ⟨msg, -, hmsg, -, -, hfrom, -⟩ := hprints (fun _ => 0) (fun _ => 0) fun _ _ => rfl
    cases (hmessage _).symm.trans hmsg
    exact (Message.fromReceived_iff _ _).mp hfrom
  · intro hzero m m' _
    have hfrom (m : Int → UInt8) := (Message.fromReceived_iff m _).mpr hzero
    refine ⟨_, _, hmessage m, hmessage m', ?_, hfrom m, hfrom m'⟩
    refine CString.text_congr ((exists_copyIn_zero_iff m' _).mpr hzero) fun j hj => ?_
    exact (copyIn_zero hj).trans (copyIn_zero hj).symm

/-- For every run in which bytes have arrived when `recv` is called: what is printed is what was
received, for every prior content of the buffer, if and only if one of the received bytes that
fit into the buffer is NUL. -/
theorem client_prints_received_iff {l : Lwip} {o : TcpOutcomes} {s : Sys}
    (hsocket : o.socket = true) (h : o.untilRecv (.start l) = some (.ok s))
    (hne : 0 < s.sock.bufferLen) :
    o.PrintsReceived l ↔ 0 ∈ s.sock.unread.take buffSize.toNat :=
  client_prints_received_at_return hsocket h (if_pos hne)

/-- The connection comes up, and the poll in which it does brings a reply. -/
def greeted (reply : Pbuf) : TcpOutcomes where
  socket := true
  inetPton := 1
  servAddr := ⟨0, 0⟩
  newPcb := some 1
  answer := errOk
  connecting := [.tick, .tick, .tick, .callback 1 (.connected errOk),
    .callback 1 (.recv (some reply)), .tick]
  writeAnswer := errOk
  sending := []
  receiving := []
  closeAnswer := errOk

/-- The connect returns with the reply in the buffer. -/
theorem greeted_connect (reply : Pbuf) (hle : reply.totLen ≤ bufSize) : ∃ s,
    (Sys.start ⟨fun _ => none⟩).perform (.connect (greeted reply).servAddr (greeted reply).newPcb
        (greeted reply).answer :: (greeted reply).connecting.map .event) = some s ∧
      s.control = .connectReturned wolfSuccess ∧ s.sock.WF ∧ s.sock.unread = reply.payload := by
  let o := greeted reply
  let requested : Sys := (Sys.start ⟨fun _ => none⟩).connecting o.servAddr 1
  let waiting : Sys := requested.after [.tick, .tick, .tick, .callback 1 (.connected errOk)]
  let arrived : Sys := (waiting.callback 1 (.recv (some reply))).2
  have htested : TestedSignalled o.connecting :=
    ⟨_, [], rfl, 1, [.tick, .tick, .tick], [.callback 1 (.recv (some reply))], rfl, by decide⟩
  have hcontrol : arrived.tick.control = .connectReturned wolfSuccess :=
    (Sys.connectPhase_after _ o.servAddr 1 o.connecting).control_eq htested
  have hsock : arrived.tick.sock = arrived.sock := by
    rw [Sys.tick_wait (s := arrived) rfl]
  have H : waiting.sock.WF := ⟨le_rfl, Int.natCast_nonneg bufSize⟩
  have hunread : arrived.sock.unread = reply.payload.take bufSize :=
    lwipCbClientRecv_unread H 1 reply
  refine ⟨arrived.tick, ?_, hcontrol, hsock ▸ lwipCbClientRecv_WF H 1 (some reply), ?_⟩
  · obtain ⟨calls, hrest⟩ := requested.run_events o.connecting
    refine Sys.perform_eq_some.mpr ⟨⟨_, Machine.run_cons rfl hrest⟩, ?_⟩
    rw [hcontrol]
    rfl
  · rw [hsock, hunread]
    exact List.take_of_length_le hle

theorem greeted_untilRecv (reply : Pbuf) (hpos : 0 < reply.totLen)
    (hle : reply.totLen ≤ buffSize.toNat) : ∃ s,
    (greeted reply).untilRecv (.start ⟨fun _ => none⟩) = some (.ok s) ∧
      0 < s.sock.bufferLen ∧ s.sock.unread.take buffSize.toNat = reply.payload := by
  let o := greeted reply
  have hfits : buffSize.toNat ≤ bufSize := by decide
  obtain ⟨s, hconnect, hcontrol, H, hunread⟩ := greeted_connect reply (hle.trans hfits)
  let sent : Sys := (s.wolfTCPwrite fakeClientHello errOk).2
  have hwrite : s.perform (.write fakeClientHello o.writeAnswer :: o.sending.map .event) =
      some sent := by
    refine Sys.perform_eq_some.mpr ⟨⟨_, Machine.run_singleton (if_pos ?_)⟩, rfl⟩
    rw [hcontrol]
    rfl
  have haddr : ¬o.inetPton ≠ 1 := not_not.mpr rfl
  have hreturned : ¬s.control.connectRet ≠ some wolfSuccess := by
    rw [hcontrol]
    exact not_not.mpr rfl
  have hsent : sent.sock.unread = reply.payload := hunread
  refine ⟨sent, ?_, ?_, ?_⟩
  · rw [TcpOutcomes.untilRecv, if_neg haddr, hconnect, Option.bind_some, if_neg hreturned, hwrite,
      Option.map_some, if_neg (TcpOutcomes.write_not_negative hwrite)]
  · exact H.bufferLen_pos_iff.mpr (hunread ▸ List.length_pos_iff.mp hpos)
  · rw [hsent]
    exact List.take_of_length_le hle

theorem client_prints_received_iff_terminated :
    (greeted ⟨[72, 0], by decide⟩).PrintsReceived ⟨fun _ => none⟩ := by
  obtain ⟨s, h, hne, hreceived⟩ := greeted_untilRecv ⟨[72, 0], by decide⟩ (by decide) (by decide)
  refine (client_prints_received_iff rfl h hne).mpr ?_
  rw [hreceived]
  decide

/-- Without the NUL the next byte of the stack is looked at. -/
theorem unterminated_reply_leaks :
    ¬(greeted ⟨[72], by decide⟩).PrintsReceived ⟨fun _ => none⟩ := by
  obtain ⟨s, h, hne, hreceived⟩ := greeted_untilRecv ⟨[72], by decide⟩ (by decide) (by decide)
  intro hprints
  obtain ⟨msg, -, hmsg, -, -, hfrom, -⟩ := hprints (fun _ => 0) (fun _ => 0) fun _ _ => rfl
  have hmessage := TcpOutcomes.message_eq rfl h (if_pos hne) (fun _ => 0)
  cases hmessage.symm.trans hmsg
  have hzero := (Message.fromReceived_iff _ _).mp hfrom
  rw [hreceived] at hzero
  exact absurd hzero (by decide)

end PicoHybridCrypto
