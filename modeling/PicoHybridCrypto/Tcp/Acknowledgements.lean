import PicoHybridCrypto.Tcp.ReceiveStream

/-! # Acknowledgements and incoming data

`lwip_cb_client_sent` empties the receive buffer each time `BUF_SIZE` acknowledged bytes have
added up. A run is compared with the same run without its acknowledgements: what the application
reads is the same exactly as long as no acknowledgement empties a buffer with unread bytes
(`acks_undisturbed_iff`). -/

set_option autoImplicit true

namespace PicoHybridCrypto
open Cells

def Op.isSent : Op → Bool
  | .callback _ (.sent _) => true
  | _ => false

def withoutAcks (ops : List Op) : List Op := ops.filter fun op => !op.isSent

/-- From `start`, the calls `ops` without the acknowledgements make the same reads return the
same bytes and leave the same unread bytes. -/
def AcksUndisturbed (start : Socket) (ops : List Op) (tr : List Obs) (sock : Socket) : Prop :=
  ∃ tr' sock', Socket.machine.run start (withoutAcks ops) = some (tr', sock') ∧
    reads tr' = reads tr ∧ sock'.unread = sock.unread

@[simp] theorem withoutAcks_append (l l' : List Op) :
    withoutAcks (l ++ l') = withoutAcks l ++ withoutAcks l' := List.filter_append ..

/-- The run without acknowledgements observes the same and holds the same queue. -/
def SameQueue (start : Socket) (ops : List Op) (tr : List Obs) (sock : Socket) : Prop :=
  ∃ q sock', sock.Holds q ∧ sock'.Holds q ∧
    Socket.machine.run start (withoutAcks ops) = some (tr, sock')

theorem SameQueue.undisturbed {start sock : Socket} {ops : List Op} {tr : List Obs}
    (H : SameQueue start ops tr sock) : AcksUndisturbed start ops tr sock := by
  obtain ⟨q, sock', hq, hq', hrun⟩ := H
  exact ⟨tr, sock', hrun, rfl, by rw [hq'.unread, hq.unread]⟩

theorem Op.eq_sent_of_isSent {op : Op} (h : op.isSent = true) :
    ∃ tpcb len, op = .callback tpcb (.sent len) := by
  unfold Op.isSent at h
  split at h
  · exact ⟨_, _, rfl⟩
  · cases h

theorem Socket.keeps_of_not_isSent {op : Op} (h : op.isSent = false) (sock : Socket) :
    sock.Keeps op := by
  unfold Socket.Keeps
  split
  · cases h
  · trivial

/-- A call that throws no unread bytes away keeps the two runs together. -/
theorem SameQueue.step {start sock sock' : Socket} {ops : List Op} {tr out : List Obs} {op : Op}
    (H : SameQueue start ops tr sock)
    (hstep : Socket.machine.step sock op = some (out, sock')) (hkeep : sock.Keeps op) :
    SameQueue start (ops ++ [op]) (tr ++ out) sock' := by
  obtain ⟨q, other, hq, hq', hrun⟩ := H
  cases hsent : op.isSent with
  | true =>
    obtain ⟨tpcb, len, rfl⟩ := Op.eq_sent_of_isSent hsent
    rw [Socket.step_sent] at hstep
    obtain ⟨rfl, rfl⟩ := Prod.mk.inj (Option.some.inj hstep)
    refine ⟨q, other, hq.sent hkeep, hq', ?_⟩
    simpa [withoutAcks, hsent] using hrun
  | false =>
    have hboth := Socket.machine_lockStep hq hkeep
    rw [hstep] at hboth
    obtain ⟨q', hqueue, hh⟩ := hboth.exists_right
    have hother := Socket.machine_lockStep hq' (Socket.keeps_of_not_isSent hsent other)
    rw [hqueue] at hother
    obtain ⟨other', hstep', hh'⟩ := hother.exists_left
    refine ⟨q', other', hh, hh', ?_⟩
    have : withoutAcks [op] = [op] := by simp [withoutAcks, hsent]
    rw [withoutAcks_append, this]
    exact Machine.run_append hrun (Machine.run_singleton hstep')

/-- An acknowledgement that throws unread bytes away separates the two runs at once. -/
theorem SameQueue.not_undisturbed {start sock : Socket} {ops : List Op} {tr : List Obs} {op : Op}
    (H : SameQueue start ops tr sock) (hkeep : ¬sock.Keeps op) :
    ∃ out sock', Socket.machine.step sock op = some (out, sock') ∧
      ¬AcksUndisturbed start (ops ++ [op]) (tr ++ out) sock' := by
  unfold Socket.Keeps at hkeep
  split at hkeep
  · rename_i tpcb len
    obtain ⟨hclears, hunread⟩ := Classical.not_imp.mp hkeep
    refine ⟨_, _, Socket.step_sent sock tpcb len, ?_⟩
    rintro ⟨tr', other', hrun', -, hsame⟩
    obtain ⟨q, other, hq, hq', hrun⟩ := H
    rw [withoutAcks_append, show withoutAcks [.callback tpcb (.sent len)] = [] from rfl,
      List.append_nil, hrun] at hrun'
    obtain ⟨-, rfl⟩ := Prod.mk.inj (Option.some.inj hrun')
    rw [lwipCbClientSent_unread, if_pos hclears, hq'.unread, ← hq.unread] at hsame
    exact hunread hsame
  · exact absurd trivial hkeep

/-- For every run of one socket: at every point its reads have returned the same bytes and it
has the same unread bytes as without its acknowledgements, if and only if no acknowledgement
empties the buffer while it holds unread bytes. -/
theorem acks_undisturbed_iff {start : Socket} (H : start.WF) (ops : List Op) :
    Socket.machine.Always (AcksUndisturbed start) start ops ↔
      Socket.machine.Along Socket.Keeps start ops := by
  obtain ⟨q, hq⟩ := H.exists_holds
  exact Machine.always_iff_along (L := fun _ => True) SameQueue.undisturbed
    (fun _ hI hkeep hstep => hI.step hstep hkeep) (fun _ hI hkeep => hI.not_undisturbed hkeep)
    (fun _ _ => trivial) ⟨q, start, hq, hq, rfl⟩

/-- A run in which lwIP reports only bytes it has queued and not reported yet, and never holds
more than `TCP_SND_BUF` of them. `pending` counts them. -/
def AcksOwed (pending : Nat) : List Op → Prop
  | [] => pending ≤ tcpSndBuf
  | .write buff answer :: ops =>
    pending ≤ tcpSndBuf ∧ AcksOwed (pending + (tcpWriteQueued buff answer).length) ops
  | .callback _ (.sent len) :: ops =>
    pending ≤ tcpSndBuf ∧ len.toNat ≤ pending ∧ AcksOwed (pending - len.toNat) ops
  | _ :: ops => pending ≤ tcpSndBuf ∧ AcksOwed pending ops

def connectedSocket : Socket := { Socket.zeroed with tcpPcb := some 0, connected := true }

theorem connectedSocket_WF : connectedSocket.WF := ⟨le_rfl, Int.natCast_nonneg bufSize⟩

def zeroBlock : CBuffer where
  bytes := List.replicate 8192 0
  length_lt := by
    rw [List.length_replicate]
    decide

/-- A block is written, one byte arrives, and then the block is acknowledged. -/
def ackAfterData : List Op :=
  [.write zeroBlock errOk, .callback 0 (.recv (some ⟨[7], by decide⟩)), .callback 0 (.sent 8192)]

theorem ackAfterData_owed : AcksOwed 0 ackAfterData := by
  have hlen : (tcpWriteQueued zeroBlock errOk).length = 8192 := by
    rw [tcpWriteQueued, if_pos rfl, CBuffer.len, zeroBlock, List.length_take,
      List.length_replicate]
    decide
  refine ⟨by decide, ?_⟩
  rw [hlen]
  refine ⟨by decide, by decide, by decide, ?_⟩
  rw [AcksOwed]
  decide

/-- A block that is acknowledged before a byte arrives and is read. -/
theorem acks_undisturbed_iff_connected :
    Socket.machine.Always (AcksUndisturbed connectedSocket) connectedSocket
      [.write zeroBlock errOk, .callback 0 (.sent 8192),
       .callback 0 (.recv (some ⟨[7], by decide⟩)), .read (fun _ => 0) 1] := by
  refine (acks_undisturbed_iff connectedSocket_WF _).mpr ⟨trivial, fun _ sock hwrite => ?_⟩
  obtain ⟨-, rfl⟩ := Prod.mk.inj
    (Option.some.inj ((Socket.step_write connectedSocket zeroBlock errOk).symm.trans hwrite))
  have hnothing : (wolfTCPwrite connectedSocket zeroBlock errOk).sock.unread = [] := rfl
  exact ⟨fun _ => hnothing, fun _ _ _ => ⟨trivial, fun _ _ _ => ⟨trivial, fun _ _ _ => trivial⟩⟩⟩

/-- The acknowledgement throws the byte away; without it the byte is still there. -/
theorem ackAfterData_disturbs :
    AcksOwed 0 ackAfterData ∧
      ¬Socket.machine.Always (AcksUndisturbed connectedSocket) connectedSocket ackAfterData := by
  refine ⟨ackAfterData_owed, fun h => ?_⟩
  let written := (wolfTCPwrite connectedSocket zeroBlock errOk).sock
  let received := (lwipCbClientRecv written 0 (some ⟨[7], by decide⟩)).sock
  have hkeep : ¬received.Keeps (.callback 0 (.sent 8192)) := by
    intro hkeep
    have hwf : written.WF := ⟨le_rfl, Int.natCast_nonneg bufSize⟩
    have hunread := lwipCbClientRecv_unread hwf 0 ⟨[7], by decide⟩
    exact absurd (hunread.symm.trans (hkeep ⟨by decide, by decide⟩)) (by decide)
  obtain ⟨q, hq⟩ := connectedSocket_WF.exists_holds
  have hstart : SameQueue connectedSocket [] [] connectedSocket := ⟨q, _, hq, hq, rfl⟩
  have hwrite := Socket.step_write connectedSocket zeroBlock errOk
  have hrecv := Socket.step_recv written 0 ⟨[7], by decide⟩
  have hsame := (hstart.step hwrite trivial).step hrecv trivial
  obtain ⟨out, sock, hstep, hbad⟩ := hsame.not_undisturbed hkeep
  exact hbad (h _ List.prefix_rfl _ _ (Machine.run_append
    (Machine.run_append (Machine.run_singleton hwrite) (Machine.run_singleton hrecv))
    (Machine.run_singleton hstep)))

end PicoHybridCrypto
