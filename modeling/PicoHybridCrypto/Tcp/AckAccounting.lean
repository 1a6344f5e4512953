import PicoHybridCrypto.Tcp.ReceiveQueue

/-! # Counting acknowledged bytes

`sent_len` counts the bytes acknowledged since the last write or reset. Together with the bytes
that are still unreported it never exceeds what was ever in flight at a time, because a write
resets the counter and an acknowledgement only moves bytes from one count to the other
(`Flight.Bounded`). So the counter stays below any bound on the bytes in flight that an `int`
can hold (`ack_accounting`); lwIP's bound is `TCP_SND_BUF`. -/

set_option autoImplicit true

namespace PicoHybridCrypto

/-- A socket, with the number of bytes that lwIP has queued and not reported yet. -/
structure Flight where
  sock : Socket
  unreported : Nat

/-- Writes and acknowledgements; lwIP reports only what is unreported. -/
def Flight.machine : Machine Flight Op Obs where
  step s
    | .write buff answer =>
      (Socket.machine.step s.sock (.write buff answer)).map fun (out, sock) =>
        (out, ⟨sock, s.unreported + (tcpWriteQueued buff answer).length⟩)
    | .callback tpcb (.sent len) =>
      if len.toNat ≤ s.unreported then
        (Socket.machine.step s.sock (.callback tpcb (.sent len))).map fun (out, sock) =>
          (out, ⟨sock, s.unreported - len.toNat⟩)
      else none
    | _ => none

namespace Flight

theorem step_write (s : Flight) (buff : CBuffer) (answer : ErrT) :
    machine.step s (.write buff answer) =
      some ([.wrote (toInt buff.len) buff.bytes (tcpWriteQueued buff answer)],
        ⟨(wolfTCPwrite s.sock buff answer).sock,
          s.unreported + (tcpWriteQueued buff answer).length⟩) := by
  simp only [machine, Socket.step_write, Option.map_some]

theorem step_sent {s : Flight} (tpcb : Pcb) {len : UInt16} (hlen : len.toNat ≤ s.unreported) :
    machine.step s (.callback tpcb (.sent len)) =
      some ([], ⟨(lwipCbClientSent s.sock len).sock, s.unreported - len.toNat⟩) := by
  simp only [machine, if_pos hlen, Socket.step_sent, Option.map_some]

theorem step_cases {s t : Flight} {op : Op} {out : List Obs}
    (h : machine.step s op = some (out, t)) :
    (∃ buff answer, op = .write buff answer ∧
      t = ⟨(wolfTCPwrite s.sock buff answer).sock,
        s.unreported + (tcpWriteQueued buff answer).length⟩) ∨
    ∃ tpcb len, op = .callback tpcb (.sent len) ∧ len.toNat ≤ s.unreported ∧
      t = ⟨(lwipCbClientSent s.sock len).sock, s.unreported - len.toNat⟩ := by
  cases op with
  | write buff answer =>
    rw [step_write] at h
    exact .inl ⟨buff, answer, rfl, (congrArg Prod.snd (Option.some.inj h)).symm⟩
  | read => cases h
  | callback tpcb c =>
    cases c with
    | sent len =>
      obtain ⟨hlen, -⟩ := Option.ite_none_right_eq_some.mp h
      rw [step_sent tpcb hlen] at h
      exact .inr ⟨tpcb, len, rfl, hlen, (congrArg Prod.snd (Option.some.inj h)).symm⟩
    | _ => cases h

/-- The acknowledged and the unreported bytes together stay within the bound. -/
structure Bounded (M : Nat) (s : Flight) : Prop where
  nonneg : 0 ≤ s.sock.sentLen
  le : s.sock.sentLen + s.unreported ≤ M

section
variable {M : Nat} {s : Flight} (H : s.Bounded M) (hM : M < 2 ^ 31)
include H hM

theorem Bounded.add_exact {len : UInt16} (hlen : len.toNat ≤ s.unreported) :
    toInt (s.sock.sentLen + len.toNat) = s.sock.sentLen + len.toNat := by
  have := H.nonneg
  have := H.le
  exact CInt.signed_of_mem (w := 31) (by omega) (by omega)

theorem Bounded.sent {len : UInt16} (hlen : len.toNat ≤ s.unreported) :
    Bounded M ⟨(lwipCbClientSent s.sock len).sock, s.unreported - len.toNat⟩ := by
  have hadd := H.add_exact hM hlen
  have := H.nonneg
  have := H.le
  by_cases hfull : (bufSize : Int) ≤ toInt (s.sock.sentLen + len.toNat)
  · by_cases hc : s.sock.Clears len
    · rw [lwipCbClientSent_clears hc]
      exact ⟨le_rfl, by simp only; omega⟩
    · rw [lwipCbClientSent_completes hfull hc, hadd]
      exact ⟨by simp only; omega, by simp only; omega⟩
  · rw [lwipCbClientSent_counts hfull, hadd]
    exact ⟨by simp only; omega, by simp only; omega⟩

theorem Bounded.step {t : Flight} {op : Op} {out : List Obs}
    (h : machine.step s op = some (out, t)) (ht : t.unreported ≤ M) : t.Bounded M := by
  rcases step_cases h with ⟨buff, answer, -, rfl⟩ | ⟨tpcb, len, -, hlen, rfl⟩
  -- the write resets the counter, and what it queues is within the bound
  · refine ⟨le_rfl, ?_⟩
    have hzero : (wolfTCPwrite s.sock buff answer).sock.sentLen = 0 := rfl
    rw [hzero, zero_add]
    exact_mod_cast ht
  · exact H.sent hM hlen

/-- With fewer than `BUF_SIZE` bytes in flight an acknowledgement is only counted. -/
theorem Bounded.sent_counts (hbuf : M < bufSize) {len : UInt16} (hlen : len.toNat ≤ s.unreported) :
    (lwipCbClientSent s.sock len).sock =
      { s.sock with sentLen := s.sock.sentLen + len.toNat } := by
  have hadd := H.add_exact hM hlen
  have := H.le
  rw [lwipCbClientSent_counts (by omega), hadd]

end

/-- The count is within the bound, and what an acknowledgement that lwIP may send next does to it
and to the rest of the socket. -/
structure Accounted (M : Nat) (s : Flight) : Prop where
  sentLen_mem : 0 ≤ s.sock.sentLen ∧ s.sock.sentLen ≤ M
  no_overflow : ∀ len : UInt16, len.toNat ≤ s.unreported →
    toInt (s.sock.sentLen + len.toNat) = s.sock.sentLen + len.toNat
  only_counts : M < bufSize → ∀ len : UInt16, len.toNat ≤ s.unreported →
    let sock := (lwipCbClientSent s.sock len).sock
    sock.bufferLen = s.sock.bufferLen ∧ sock.runCount = s.sock.runCount ∧
      sock.complete = s.sock.complete

theorem Bounded.accounted {M : Nat} {s : Flight} (H : s.Bounded M) (hM : M < 2 ^ 31) :
    s.Accounted M where
  sentLen_mem := ⟨H.nonneg, by have := H.le; omega⟩
  no_overflow := fun _ hlen => H.add_exact hM hlen
  only_counts := fun hbuf _ hlen => by
    rw [H.sent_counts hM hbuf hlen]
    exact ⟨rfl, rfl, rfl⟩

/-- In every run of writes and acknowledgements, from any socket whose count is zero: if at most
`M` bytes are unreported throughout, and `M` is an `int`, then in every state the count lies
between zero and `M` and its addition does not overflow, and if `M` is below `BUF_SIZE`, an
acknowledgement changes neither the buffer nor the run count nor `complete`. -/
theorem ack_accounting {M : Nat} (hM : M < 2 ^ 31) {start : Socket} (hstart : start.sentLen = 0)
    {ops : List Op}
    (hflight : machine.Always (fun _ _ s => s.unreported ≤ M) ⟨start, 0⟩ ops) :
    machine.Always (fun _ _ s => s.Accounted M) ⟨start, 0⟩ ops := by
  have hbounded : machine.Always (fun _ _ s => s.Bounded M) ⟨start, 0⟩ ops := by
    refine Machine.Always.induct (L := fun _ => True) (fun _ H h ht => H.step hM h ht)
      (fun _ _ => trivial) ?_ hflight
    exact ⟨hstart.ge, by simp [hstart]⟩
  exact fun pre hpre tr s h => (hbounded pre hpre tr s h).accounted hM

theorem length_tcpWriteQueued_le (buff : CBuffer) (answer : ErrT) :
    (tcpWriteQueued buff answer).length ≤ 65535 := by
  rw [tcpWriteQueued]
  split_ifs
  · rw [List.length_take]
    have : toUShort buff.len < 2 ^ 16 := CInt.unsigned_lt 16 _
    omega
  · exact Nat.zero_le _

theorem always_unreported_le (sock : Socket) (ops : List Op) :
    machine.Always (fun _ _ s => s.unreported ≤ 65535 * ops.length) ⟨sock, 0⟩ ops := by
  intro pre hpre tr s h
  have hlen : s.unreported ≤ 65535 * pre.length := by
    refine Machine.run_history (I := fun l _ s => s.unreported ≤ 65535 * l.length)
      (L := fun _ => True) ?_ (fun _ _ => trivial) le_rfl h
    intro l tr t a out u _ ht hstep
    rw [List.length_append, List.length_singleton]
    rcases step_cases hstep with ⟨buff, answer, -, rfl⟩ | ⟨tpcb, len, -, hlen, rfl⟩
    · have := length_tcpWriteQueued_le buff answer
      simp only
      omega
    · simp only
      omega
  have := hpre.length_le
  omega

theorem ack_accounting_echo :
    machine.Always (fun _ _ s => s.Accounted 131070) ⟨.zeroed, 0⟩
      [.write ⟨[42], by decide⟩ errOk, .callback 1 (.sent 1)] :=
  ack_accounting (by decide) rfl (always_unreported_le _ _)

/-! ## More bytes in flight than an `int` can count -/

/-- The largest block a single `tcp_write` can take. -/
def bigBlock : CBuffer where
  bytes := List.replicate 65535 0
  length_lt := by
    rw [List.length_replicate]
    decide

theorem length_tcpWriteQueued_bigBlock : (tcpWriteQueued bigBlock errOk).length = 65535 := by
  have hlen : bigBlock.len = 65535 := List.length_replicate
  rw [tcpWriteQueued, if_pos rfl, hlen, List.length_take]
  show min _ bigBlock.len = 65535
  rw [hlen, toUShort, CInt.unsigned_natCast (by decide), min_self]

/-- The bytes of the writes pile up as long as none of them is acknowledged. -/
theorem run_writes {s : Flight} (hs : s.sock.sentLen = 0) (n : Nat) :
    ∃ tr, machine.run s (List.replicate n (.write bigBlock errOk)) =
      some (tr, ⟨s.sock, s.unreported + n * 65535⟩) := by
  induction n generalizing s with
  | zero => exact ⟨[], by simp⟩
  | succ n ih =>
    have hsock : (wolfTCPwrite s.sock bigBlock errOk).sock = s.sock := by
      rcases hsock : s.sock with ⟨⟩
      simp_all [wolfTCPwrite]
    have hstep := step_write s bigBlock errOk
    rw [hsock, length_tcpWriteQueued_bigBlock] at hstep
    obtain ⟨tr, h⟩ := ih (s := ⟨s.sock, s.unreported + 65535⟩) hs
    have hsum : s.unreported + 65535 + n * 65535 = s.unreported + (n + 1) * 65535 := by omega
    rw [← hsum]
    exact ⟨_, Machine.run_cons hstep h⟩

def bigAck : Op := .callback 1 (.sent 65535)

theorem step_bigAck {s : Flight} (h : 65535 ≤ s.unreported) :
    machine.step s bigAck =
      some ([], ⟨(lwipCbClientSent s.sock 65535).sock, s.unreported - 65535⟩) :=
  step_sent 1 h

theorem le_sub_block {n u : Nat} (h : (n + 1) * 65535 ≤ u) : n * 65535 ≤ u - 65535 :=
  Nat.le_sub_of_add_le (by rwa [Nat.succ_mul] at h)

theorem sub_block_sub (n u : Nat) : u - 65535 - n * 65535 = u - (n + 1) * 65535 := by
  rw [Nat.sub_sub, Nat.succ_mul, Nat.add_comm]

theorem runCount_succ {s : Flight} (h₀ : 0 ≤ s.sock.runCount) (h : s.sock.runCount + 1 < 2 ^ 31) :
    toInt (s.sock.runCount + 1) = s.sock.runCount + 1 :=
  CInt.signed_of_mem (w := 31) (by omega) (by omega)

/-- The first nine acknowledgements of a whole block reset the count. -/
theorem run_resets {s : Flight} (hs : s.sock.sentLen = 0) (h₀ : 0 ≤ s.sock.runCount) (n : Nat)
    (hn : s.sock.runCount + n < testIterations) (hflight : n * 65535 ≤ s.unreported) :
    ∃ tr t, machine.run s (List.replicate n bigAck) = some (tr, t) ∧
      t.sock.sentLen = 0 ∧ t.sock.runCount = s.sock.runCount + n ∧
      t.unreported = s.unreported - n * 65535 := by
  have hiter : testIterations = 10 := rfl
  induction n generalizing s with
  | zero => exact ⟨[], s, rfl, hs, (add_zero _).symm, by omega⟩
  | succ n ih =>
    have hrest := le_sub_block hflight
    have hcount := runCount_succ h₀ (by omega)
    have hclears : s.sock.Clears 65535 := by
      refine ⟨?_, by omega⟩
      rw [hs]
      decide
    have hstep := step_bigAck (s := s) (by omega)
    rw [lwipCbClientSent_clears hclears, hcount] at hstep
    obtain ⟨tr, t, h, hsent, hrun, hun⟩ := ih (s := ⟨{ s.sock with
      sentLen := 0, bufferLen := 0, runCount := s.sock.runCount + 1 }, s.unreported - 65535⟩)
      rfl (by simp only; omega) (by simp only; omega) hrest
    refine ⟨_, t, Machine.run_cons hstep h, hsent, ?_, hun.trans (sub_block_sub n _)⟩
    rw [hrun, Nat.cast_succ]
    simp only
    omega

/-- From the tenth on they add up. -/
theorem run_grows {s : Flight} (hs : 0 ≤ s.sock.sentLen) (h₀ : testIterations ≤ s.sock.runCount + 1)
    (n : Nat) (hrun : s.sock.runCount + n < 2 ^ 31) (hsent : s.sock.sentLen + n * 65535 < 2 ^ 31)
    (hflight : n * 65535 ≤ s.unreported) :
    ∃ tr t, machine.run s (List.replicate n bigAck) = some (tr, t) ∧
      t.sock.sentLen = s.sock.sentLen + n * 65535 ∧ t.unreported = s.unreported - n * 65535 := by
  have hiter : testIterations = 10 := rfl
  induction n generalizing s with
  | zero => exact ⟨[], s, rfl, by omega, by omega⟩
  | succ n ih =>
    have hrest := le_sub_block hflight
    have hcount := runCount_succ (s := s) (by omega) (by omega)
    have hlen : ((65535 : UInt16).toNat : Int) = 65535 := rfl
    have hadd : toInt (s.sock.sentLen + (65535 : UInt16).toNat) = s.sock.sentLen + 65535 := by
      rw [hlen]
      exact CInt.signed_of_mem (w := 31) (by omega) (by omega)
    have hfull : (bufSize : Int) ≤ toInt (s.sock.sentLen + (65535 : UInt16).toNat) := by
      have := bufSize_lt
      omega
    have hclears : ¬s.sock.Clears 65535 := fun h => by
      have := h.2
      omega
    have hstep := step_bigAck (s := s) (by omega)
    rw [lwipCbClientSent_completes hfull hclears, hcount, hadd] at hstep
    obtain ⟨tr, t, h, hsent', hun⟩ := ih (s := ⟨{ s.sock with
      sentLen := s.sock.sentLen + 65535, runCount := s.sock.runCount + 1, complete := true },
      s.unreported - 65535⟩)
      (by simp only; omega) (by simp only; omega) (by simp only; omega) (by simp only; omega) hrest
    refine ⟨_, t, Machine.run_cons hstep h, ?_, hun.trans (sub_block_sub n _)⟩
    rw [hsent', Nat.cast_succ]
    simp only
    omega

/-- Writes of 33000 whole blocks and acknowledgements of 32778 of them: the first nine reset the
count, and the last of the others makes it wrap. -/
def wrapOps : List Op :=
  List.replicate 33000 (.write bigBlock errOk) ++
    (List.replicate 9 bigAck ++ (List.replicate 32768 bigAck ++ [bigAck]))

theorem run_wrapOps : ∃ tr s, machine.run ⟨.zeroed, 0⟩ wrapOps = some (tr, s) ∧
    s.sock.sentLen < 0 := by
  obtain ⟨tr₁, h₁⟩ := run_writes (s := ⟨.zeroed, 0⟩) rfl 33000
  obtain ⟨tr₂, s₂, h₂, hsent₂, hrun₂, hun₂⟩ := run_resets (s := ⟨.zeroed, 0 + 33000 * 65535⟩)
    rfl le_rfl 9 (by decide) (by simp only; omega)
  obtain ⟨tr₃, s₃, h₃, hsent₃, hun₃⟩ := run_grows (s := s₂) hsent₂.ge (by rw [hrun₂]; decide)
    32768 (by rw [hrun₂]; decide) (by rw [hsent₂]; decide) (by rw [hun₂]; simp only; omega)
  have hwraps : toInt (s₃.sock.sentLen + (65535 : UInt16).toNat) = -2147450881 := by
    rw [hsent₃, hsent₂]
    decide
  have h₄ := step_bigAck (s := s₃) (by rw [hun₃, hun₂]; simp only; omega)
  rw [lwipCbClientSent_counts (by rw [hwraps]; decide), hwraps] at h₄
  refine ⟨_, _, Machine.run_append h₁ (Machine.run_append h₂ (Machine.run_append h₃
    (Machine.run_singleton h₄))), ?_⟩
  show (-2147450881 : Int) < 0
  decide

/-- Without a bound on the bound, the count can leave it. -/
theorem ack_accounting_wraps :
    ¬∀ (M : Nat) (ops : List Op),
      machine.Always (fun _ _ s => s.unreported ≤ M) ⟨.zeroed, 0⟩ ops →
      machine.Always (fun _ _ s => 0 ≤ s.sock.sentLen ∧ s.sock.sentLen ≤ M) ⟨.zeroed, 0⟩ ops := by
  intro H
  obtain ⟨tr, s, h, hneg⟩ := run_wrapOps
  have := (H _ _ (always_unreported_le .zeroed wrapOps) _ List.prefix_rfl tr s h).1
  omega

end Flight

end PicoHybridCrypto
