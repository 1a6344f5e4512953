import PicoHybridCrypto.Tcp.ReceiveQueue

/-! # Integrity of the transmitted stream

`wolf_TCPwrite` returns the length it was asked to write whatever `tcp_write` answered. What its
callers take for sent is what lwIP queued exactly when every refused write was empty
(`transmit_intact_iff`) and, among accepted writes, when every length is below `2^16`
(`write_lengths_exact_iff`). -/

set_option autoImplicit true

namespace PicoHybridCrypto

/-- The bytes a caller takes for sent that looks for failure in a negative return only. -/
def reportedBytes (tr : List Obs) : List UInt8 :=
  tr.flatMap fun
    | .wrote ret buff _ => if 0 ≤ ret then buff.take ret.toNat else []
    | _ => []

def queuedBytes (tr : List Obs) : List UInt8 :=
  tr.flatMap fun
    | .wrote _ _ queued => queued
    | _ => []

structure WriteCall where
  buff : CBuffer
  answer : ErrT

def WriteCall.op (w : WriteCall) : Op := .write w.buff w.answer

def WriteCall.obs (w : WriteCall) : Obs :=
  .wrote (toInt w.buff.len) w.buff.bytes (tcpWriteQueued w.buff w.answer)

theorem Socket.run_writes (sock : Socket) (calls : List WriteCall) :
    ∃ sock', Socket.machine.run sock (calls.map WriteCall.op) =
      some (calls.map WriteCall.obs, sock') := by
  induction calls generalizing sock with
  | nil => exact ⟨sock, rfl⟩
  | cons w calls ih =>
    obtain ⟨sock', h⟩ := ih (wolfTCPwrite sock w.buff w.answer).sock
    exact ⟨sock', Machine.run_cons (Socket.step_write sock w.buff w.answer) h⟩

/-- wolfSSL sends through this callback: the `int` result passes through an `unsigned long`. -/
def wolfCbTCPwrite (sock : Socket) (buff : CBuffer) (answer : ErrT) : WriteResult :=
  let r := wolfTCPwrite sock buff answer
  { r with ret := toInt (toULong r.ret) }

theorem wolfCbTCPwrite_eq (sock : Socket) (buff : CBuffer) (answer : ErrT) :
    wolfCbTCPwrite sock buff answer = wolfTCPwrite sock buff answer := by
  have h : toInt (toULong (toInt buff.len)) = toInt buff.len :=
    (CInt.signed_unsigned 32 _).trans (CInt.signed_signed 32 _)
  simp only [wolfCbTCPwrite, wolfTCPwrite, h]

/-! ## Lengths below `2^16` -/

section
variable {w : WriteCall} (h : w.buff.len < 2 ^ 16)
include h

theorem WriteCall.reportedBytes_obs : reportedBytes [w.obs] = w.buff.bytes := by
  have hret : toInt w.buff.len = w.buff.len :=
    CInt.signed_of_mem (w := 31) (by omega) (by omega)
  simp only [reportedBytes, WriteCall.obs, hret, List.flatMap_singleton, Int.toNat_natCast]
  rw [if_pos (by omega), CBuffer.len, List.take_length]

theorem WriteCall.queuedBytes_obs :
    queuedBytes [w.obs] = if w.answer = errOk then w.buff.bytes else [] := by
  have hlen : toUShort w.buff.len = w.buff.len := CInt.unsigned_natCast h
  simp only [queuedBytes, WriteCall.obs, tcpWriteQueued, hlen, List.flatMap_singleton]
  rw [CBuffer.len, List.take_length]

end

theorem reportedBytes_cons (o : Obs) (tr : List Obs) :
    reportedBytes (o :: tr) = reportedBytes [o] ++ reportedBytes tr := by
  simp [reportedBytes]

theorem queuedBytes_cons (o : Obs) (tr : List Obs) :
    queuedBytes (o :: tr) = queuedBytes [o] ++ queuedBytes tr := by
  simp [queuedBytes]

/-- lwIP never queues more than the callers take for sent. -/
theorem length_queuedBytes_le {calls : List WriteCall}
    (h : ∀ w ∈ calls, w.buff.len < 2 ^ 16) :
    (queuedBytes (calls.map WriteCall.obs)).length ≤
      (reportedBytes (calls.map WriteCall.obs)).length := by
  induction calls with
  | nil => exact le_rfl
  | cons w calls ih =>
    have hw := h w (.head _)
    have := ih fun v hv => h v (.tail _ hv)
    rw [List.map_cons, queuedBytes_cons, reportedBytes_cons, WriteCall.queuedBytes_obs hw,
      WriteCall.reportedBytes_obs hw, List.length_append, List.length_append]
    split_ifs
    · omega
    · rw [List.length_nil]
      omega

theorem reportedBytes_eq_queuedBytes_iff {calls : List WriteCall}
    (h : ∀ w ∈ calls, w.buff.len < 2 ^ 16) :
    reportedBytes (calls.map WriteCall.obs) = queuedBytes (calls.map WriteCall.obs) ↔
      ∀ w ∈ calls, w.answer ≠ errOk → w.buff.bytes = [] := by
  induction calls with
  | nil => simp [reportedBytes, queuedBytes]
  | cons w calls ih =>
    have hw := h w (.head _)
    have hcalls : ∀ v ∈ calls, v.buff.len < 2 ^ 16 := fun v hv => h v (.tail _ hv)
    have hle := length_queuedBytes_le hcalls
    rw [List.map_cons, queuedBytes_cons, reportedBytes_cons, WriteCall.queuedBytes_obs hw,
      WriteCall.reportedBytes_obs hw, List.forall_mem_cons, ← ih hcalls]
    by_cases hok : w.answer = errOk
    · simp [hok]
    · rw [if_neg hok, List.nil_append]
      constructor
      · intro heq
        -- the reported bytes of the later writes already cover what lwIP queued of them
        have hlen := congrArg List.length heq
        rw [List.length_append] at hlen
        have hnil : w.buff.bytes = [] := List.length_eq_zero_iff.mp (by omega)
        rw [hnil, List.nil_append] at heq
        exact ⟨fun _ => hnil, heq⟩
      · rintro ⟨hnil, heq⟩
        rw [hnil hok, heq, List.nil_append]

/-- For every sequence of writes of up to 65535 bytes and all answers of `tcp_write`: the bytes
reported as sent are those lwIP queued if and only if every refused write was empty. -/
theorem transmit_intact_iff (sock : Socket) (calls : List WriteCall)
    (h : ∀ w ∈ calls, w.buff.len ≤ 65535) :
    ∃ tr sock', Socket.machine.run sock (calls.map WriteCall.op) = some (tr, sock') ∧
      (reportedBytes tr = queuedBytes tr ↔
        ∀ w ∈ calls, w.answer ≠ errOk → w.buff.bytes = []) := by
  obtain ⟨sock', hrun⟩ := sock.run_writes calls
  exact ⟨_, sock', hrun,
    reportedBytes_eq_queuedBytes_iff fun w hw => Nat.lt_succ_of_le (h w hw)⟩

def oneByte : CBuffer := ⟨[42], by decide⟩

def noBytes : CBuffer := ⟨[], by decide⟩

/-- A write that is accepted, and an empty one that is refused. -/
theorem transmit_intact_iff_accepted :
    ∃ tr sock', Socket.machine.run .zeroed [.write oneByte errOk, .write noBytes errMem] =
        some (tr, sock') ∧
      reportedBytes tr = queuedBytes tr := by
  obtain ⟨tr, sock', hrun, hiff⟩ :=
    transmit_intact_iff .zeroed [⟨oneByte, errOk⟩, ⟨noBytes, errMem⟩] (by decide)
  exact ⟨tr, sock', hrun, hiff.mpr (by decide)⟩

/-- A write refused for lack of memory is reported as sent. -/
theorem refused_write_reported :
    ∃ tr sock', Socket.machine.run .zeroed [.write oneByte errMem] = some (tr, sock') ∧
      reportedBytes tr = [42] ∧ queuedBytes tr = [] :=
  ⟨_, _, rfl, by decide, by decide⟩

/-! ## Lengths from `2^16` on -/

/-- A write returns the number of bytes lwIP queued of it. -/
def Obs.Exact : Obs → Prop
  | .wrote ret _ queued => ret = queued.length
  | _ => True

/-- Every write returns what lwIP queued of it, so that the peer receives the reported prefixes
of the buffers. -/
def WritesExact (tr : List Obs) : Prop :=
  (∀ o ∈ tr, o.Exact) ∧ reportedBytes tr = queuedBytes tr

/-- The length reaches lwIP modulo `2^16` and the caller modulo `2^32`. -/
theorem WriteCall.exact_iff {w : WriteCall} (hok : w.answer = errOk) :
    w.obs.Exact ↔ w.buff.len < 2 ^ 16 := by
  have hlt := w.buff.length_lt
  have hqueued : (tcpWriteQueued w.buff w.answer).length = w.buff.len % 2 ^ 16 := by
    rw [tcpWriteQueued, if_pos hok, List.length_take, toUShort, CInt.unsigned_natCast_eq_mod]
    exact min_eq_left (Nat.mod_le _ _)
  show toInt w.buff.len = (tcpWriteQueued w.buff w.answer).length ↔ _
  rw [hqueued]
  constructor
  · intro h
    -- the return value is not negative, so it is the length itself
    have hnonneg : 0 ≤ toInt w.buff.len := by
      rw [h]
      exact Int.natCast_nonneg _
    have hlen : toInt w.buff.len = w.buff.len :=
      CInt.signed_of_nonneg (Int.natCast_nonneg _) (by exact_mod_cast hlt) hnonneg
    have hmod : w.buff.len = w.buff.len % 2 ^ 16 := by exact_mod_cast hlen.symm.trans h
    rw [hmod]
    exact Nat.mod_lt _ (Nat.two_pow_pos 16)
  · intro h
    rw [Nat.mod_eq_of_lt h]
    exact CInt.signed_of_mem (w := 31) (by omega) (by omega)

/-- For every sequence of writes of any length below `2^32` that `tcp_write` accepts: every write
returns the number of bytes queued if and only if every length is below `2^16`. -/
theorem write_lengths_exact_iff (sock : Socket) (calls : List WriteCall)
    (hok : ∀ w ∈ calls, w.answer = errOk) :
    ∃ tr sock', Socket.machine.run sock (calls.map WriteCall.op) = some (tr, sock') ∧
      (WritesExact tr ↔ ∀ w ∈ calls, w.buff.len < 2 ^ 16) := by
  obtain ⟨sock', hrun⟩ := sock.run_writes calls
  refine ⟨_, sock', hrun, ?_⟩
  constructor
  · intro h w hw
    exact (WriteCall.exact_iff (hok w hw)).mp (h.1 _ (List.mem_map_of_mem hw))
  · intro h
    refine ⟨?_, (reportedBytes_eq_queuedBytes_iff h).mpr fun w hw hne => (hne (hok w hw)).elim⟩
    intro o ho
    obtain ⟨w, hw, rfl⟩ := List.mem_map.mp ho
    exact (WriteCall.exact_iff (hok w hw)).mpr (h w hw)

theorem write_lengths_exact_iff_oneByte :
    ∃ tr sock', Socket.machine.run .zeroed [.write oneByte errOk] = some (tr, sock') ∧
      (WritesExact tr ↔ ∀ w ∈ [WriteCall.mk oneByte errOk], w.buff.len < 2 ^ 16) :=
  write_lengths_exact_iff .zeroed [⟨oneByte, errOk⟩] (by simp)

def wrappingBlock : CBuffer where
  bytes := List.replicate (2 ^ 16) 0
  length_lt := by
    rw [List.length_replicate]
    decide

/-- The block is reported as sent in full, and lwIP was given none of it. -/
theorem wrapped_write_reported : ∃ tr sock',
    Socket.machine.run .zeroed [.write wrappingBlock errOk] = some (tr, sock') ∧
      ¬WritesExact tr := by
  refine ⟨_, _, Machine.run_singleton (Socket.step_write .zeroed wrappingBlock errOk), fun h => ?_⟩
  have hexact := h.1 _ (List.mem_singleton_self _)
  have hlt := (WriteCall.exact_iff (w := ⟨wrappingBlock, errOk⟩) rfl).mp hexact
  rw [CBuffer.len, wrappingBlock, List.length_replicate] at hlt
  exact lt_irrefl _ hlt

end PicoHybridCrypto
