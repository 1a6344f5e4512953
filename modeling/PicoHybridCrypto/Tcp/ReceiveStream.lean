import PicoHybridCrypto.Tcp.ReceiveQueue

/-! # Integrity of the received stream

Every callback credits its whole payload to lwIP, but the socket keeps only what fits. The
bytes handed to the application are the credited ones exactly as long as every payload fits in
what is left of the buffer (`receive_stream_intact_iff`). -/

set_option autoImplicit true

namespace PicoHybridCrypto
open Cells

/-- What the reads have returned, with the memory at `buff` after each. -/
def reads (tr : List Obs) : List (Int × (Int → UInt8)) :=
  tr.filterMap fun
    | .returned ret buff => some (ret, buff)
    | _ => none

def returnedBytes (tr : List Obs) : List UInt8 :=
  tr.flatMap fun
    | .returned ret buff => slice buff ret.toNat
    | _ => []

def creditedBytes (tr : List Obs) : List UInt8 :=
  tr.flatMap fun
    | .credited bytes => bytes
    | _ => []

theorem reads_append (tr out : List Obs) : reads (tr ++ out) = reads tr ++ reads out :=
  List.filterMap_append

@[simp] theorem returnedBytes_append (tr out : List Obs) :
    returnedBytes (tr ++ out) = returnedBytes tr ++ returnedBytes out := List.flatMap_append

@[simp] theorem creditedBytes_append (tr out : List Obs) :
    creditedBytes (tr ++ out) = creditedBytes tr ++ creditedBytes out := List.flatMap_append

/-- No credited byte is lost, duplicated or reordered: it has been returned or is unread. -/
def StreamIntact (tr : List Obs) (sock : Socket) : Prop :=
  returnedBytes tr ++ sock.unread = creditedBytes tr

/-- A payload the callback is run with fits behind the unread bytes. -/
def Socket.Fits (sock : Socket) : Op → Prop
  | .callback _ (.recv (some p)) => sock.bufferLen + p.totLen ≤ bufSize
  | _ => True

def Queue.Fits (q : TailDrop UInt8 bufSize) : Op → Prop
  | .callback _ (.recv (some p)) => p.payload.length ≤ q.room
  | _ => True

theorem Socket.Holds.fits_iff {sock : Socket} {q : TailDrop UInt8 bufSize} (H : sock.Holds q)
    (op : Op) : sock.Fits op ↔ Queue.Fits q op := by
  unfold Socket.Fits Queue.Fits
  split
  · rw [TailDrop.room, ← H.unread, Pbuf.totLen, ← H.wf.length_unread]
    have := H.wf.length_unread_le
    omega
  · exact Iff.rfl

/-! ## One step of the queue -/

/-- What one step takes out and what it leaves is what there was and what it credits. -/
theorem Queue.step_conserves {q q' : TailDrop UInt8 bufSize} {op : Op} {out : List Obs}
    (hfit : Queue.Fits q op) (h : Queue.machine.step q op = some (out, q')) :
    returnedBytes out ++ q'.items = q.items ++ creditedBytes out := by
  unfold Queue.machine at h
  rcases op with ⟨tpcb, c⟩ | ⟨buff, answer⟩ | ⟨buff, len⟩
  · rcases c with (_ | p) | _ | _ | _ | _
    case recv.some =>
      obtain ⟨rfl, rfl⟩ := Prod.mk.inj (Option.some.inj h)
      rw [TailDrop.push_of_fits hfit]
      split_ifs with hp
      · simp [returnedBytes, creditedBytes]
      · have : p.payload = [] := List.length_eq_zero_iff.mp (by rw [Pbuf.totLen] at hp; omega)
        simp [returnedBytes, creditedBytes, this]
    all_goals
      obtain ⟨rfl, rfl⟩ := Prod.mk.inj (Option.some.inj h)
      simp [returnedBytes, creditedBytes]
  · obtain ⟨rfl, rfl⟩ := Prod.mk.inj (Option.some.inj h)
    simp [returnedBytes, creditedBytes]
  · simp only at h
    split_ifs at h
    obtain ⟨rfl, rfl⟩ := Prod.mk.inj (Option.some.inj h)
    have hread : returnedBytes [.returned (q.front len.toNat).length
        (copyIn buff 0 (q.front len.toNat))] = q.front len.toNat := by
      simp [returnedBytes, slice_copyIn_zero]
    rw [hread, TailDrop.front_append_pop]
    simp [creditedBytes]

/-- A payload that does not fit is credited in full and kept in part. -/
theorem Queue.step_loses {q : TailDrop UInt8 bufSize} {op : Op} (hfit : ¬Queue.Fits q op) :
    ∃ out q', Queue.machine.step q op = some (out, q') ∧ returnedBytes out = [] ∧
      q'.items.length < q.items.length + (creditedBytes out).length := by
  unfold Queue.Fits at hfit
  split at hfit
  · rename_i tpcb p
    have hp : 0 < p.totLen := by
      rw [Pbuf.totLen]
      omega
    refine ⟨_, _, rfl, ?_, ?_⟩
    · simp [returnedBytes, hp]
    · simpa [creditedBytes, hp] using TailDrop.length_push_of_not_fits hfit
  · exact absurd trivial hfit

/-! ## Whole runs -/

/-- In a run without acknowledgements the stream is intact at every point exactly when every
payload fits. -/
theorem streamIntact_always_iff {ops : List Op}
    (hops : ∀ op ∈ ops, ∀ sock : Socket, sock.Keeps op) :
    Socket.machine.Always (fun _ tr sock => StreamIntact tr sock) .zeroed ops ↔
      Socket.machine.Along Socket.Fits .zeroed ops := by
  refine Machine.always_iff_along (I := fun _ tr sock => sock.WF ∧ StreamIntact tr sock)
    (L := fun op => ∀ sock : Socket, sock.Keeps op) And.right ?_ ?_ hops ⟨.zeroed, rfl⟩
  · intro _ tr sock op out sock' hkeep ⟨hwf, hI⟩ hfit hstep
    obtain ⟨q, hq⟩ := hwf.exists_holds
    have hboth := Socket.machine_lockStep hq (hkeep sock)
    rw [hstep] at hboth
    obtain ⟨q', hstep', hq'⟩ := hboth.exists_right
    have hcons := Queue.step_conserves ((hq.fits_iff op).mp hfit) hstep'
    refine ⟨hq'.wf, ?_⟩
    calc returnedBytes (tr ++ out) ++ sock'.unread
      _ = returnedBytes tr ++ (returnedBytes out ++ q'.items) := by simp [hq'.unread]
      _ = (returnedBytes tr ++ sock.unread) ++ creditedBytes out := by
          rw [hcons, hq.unread, List.append_assoc]
      _ = creditedBytes (tr ++ out) := by rw [hI, creditedBytes_append]
  · intro _ tr sock op hkeep ⟨hwf, hI⟩ hfit
    obtain ⟨q, hq⟩ := hwf.exists_holds
    obtain ⟨out, q', hstep', hret, hlt⟩ := Queue.step_loses (mt (hq.fits_iff op).mpr hfit)
    have hboth := Socket.machine_lockStep hq (hkeep sock)
    rw [hstep'] at hboth
    obtain ⟨sock', hstep, hq'⟩ := hboth.exists_left
    refine ⟨out, sock', hstep, fun hI' => ?_⟩
    have hlen := congrArg List.length hI
    have hlen' := congrArg List.length hI'
    simp only [returnedBytes_append, creditedBytes_append, hret, List.append_nil,
      List.length_append, hq'.unread, hq.unread] at hlen hlen'
    omega

/-- The calls of the receive stream: a pbuf within the receive window, or a read. The window is
fully open at each callback, since the callback before credited all it was given. -/
inductive Op.Streams : Op → Prop
  | recv (tpcb : Pcb) {p : Pbuf} : p.totLen ≤ tcpWnd → Streams (.callback tpcb (.recv (some p)))
  | read (buff : Int → UInt8) (len : UInt32) : Streams (.read buff len)

theorem Op.Streams.keeps {op : Op} (h : op.Streams) (sock : Socket) : sock.Keeps op := by
  cases h <;> trivial

/-- For every sequence of receive callbacks and reads on a fresh socket: at every point the
bytes returned followed by the unread bytes are the bytes credited to lwIP, if and only if every
payload fits in the free part of the buffer when its callback runs. -/
theorem receive_stream_intact_iff (ops : List Op) (hops : ∀ op ∈ ops, op.Streams) :
    Socket.machine.Always (fun _ tr sock => StreamIntact tr sock) .zeroed ops ↔
      Socket.machine.Along Socket.Fits .zeroed ops :=
  streamIntact_always_iff fun op hop => (hops op hop).keeps

theorem receive_stream_intact_iff_echo :
    Socket.machine.Always (fun _ tr sock => StreamIntact tr sock) .zeroed
      [.callback 0 (.recv (some ⟨[7], by decide⟩)), .read (fun _ => 0) 1] := by
  refine (receive_stream_intact_iff _ ?_).mpr ?_
  · simp only [List.forall_mem_cons, List.not_mem_nil, false_imp_iff, implies_true, and_true]
    exact ⟨.recv 0 (by decide), .read _ _⟩
  · refine ⟨?_, fun out sock h => ⟨trivial, fun _ _ _ => trivial⟩⟩
    simp only [Socket.Fits, Socket.zeroed, Pbuf.totLen]
    decide

/-! ## Bursts -/

/-- Payloads that arrive with no read in between all fit exactly when their total does. -/
theorem Socket.along_fits_burst (tpcb : Pcb) {sock : Socket} (H : sock.WF) (ps : List Pbuf) :
    Socket.machine.Along Socket.Fits sock (ps.map fun p => .callback tpcb (.recv (some p))) ↔
      sock.bufferLen + (ps.map Pbuf.totLen).sum ≤ bufSize := by
  induction ps generalizing sock with
  | nil => exact iff_of_true trivial (by simpa using H.le_bufSize)
  | cons p ps ih =>
    have hstep := Socket.step_recv sock tpcb p
    have hwf := lwipCbClientRecv_WF H tpcb (some p)
    rw [List.map_cons, Machine.Along, List.map_cons, List.sum_cons]
    by_cases hfit : sock.bufferLen + p.totLen ≤ bufSize
    · have hlen : (lwipCbClientRecv sock tpcb (some p)).sock.bufferLen =
          sock.bufferLen + p.totLen := by
        rw [← hwf.length_unread, lwipCbClientRecv_unread H, List.length_append,
          List.length_take, ← H.length_unread]
        have := H.length_unread
        rw [Pbuf.totLen] at hfit ⊢
        omega
      have := ih hwf
      rw [hlen] at this
      constructor
      · rintro ⟨-, hrest⟩
        have := this.mp (hrest _ _ hstep)
        simp only [Nat.cast_add] at this ⊢
        omega
      · intro h
        refine ⟨hfit, fun out t ht => ?_⟩
        obtain ⟨rfl, rfl⟩ := Prod.mk.inj (Option.some.inj (hstep.symm.trans ht))
        exact this.mpr (by simp only [Nat.cast_add] at h ⊢; omega)
    · refine iff_of_false (fun h => hfit h.1) (fun h => hfit ?_)
      simp only [Nat.cast_add] at h
      omega

def fullSegment : Pbuf := ⟨List.replicate tcpMss 0, by rw [List.length_replicate]; decide⟩

/-- Six full-sized segments between two reads; together they are well within the window. -/
def sixSegments : List Op :=
  (List.replicate 6 fullSegment).map fun p => .callback 0 (.recv (some p))

theorem fullSegment_totLen : fullSegment.totLen = 1460 := List.length_replicate

theorem sixSegments_streams : ∀ op ∈ sixSegments, op.Streams := by
  intro op hop
  obtain ⟨p, hp, rfl⟩ := List.mem_map.mp hop
  rw [List.eq_of_mem_replicate hp]
  refine .recv 0 ?_
  rw [fullSegment_totLen]
  decide

/-- lwIP is told that all 8760 bytes were taken, but only 8192 were kept. -/
theorem sixSegments_not_intact :
    (∀ op ∈ sixSegments, op.Streams) ∧
      ¬Socket.machine.Always (fun _ tr sock => StreamIntact tr sock) .zeroed sixSegments := by
  refine ⟨sixSegments_streams, ?_⟩
  rw [streamIntact_always_iff fun op hop => (sixSegments_streams op hop).keeps, sixSegments,
    Socket.along_fits_burst 0 .zeroed, List.map_replicate, List.sum_replicate,
    fullSegment_totLen]
  decide

end PicoHybridCrypto
