import PicoHybridCrypto.Tcp.BufferBound

/-! # When a pending read returns

The loop of `wolf_TCPread` tests `buffer_len` and nothing else. A read returns exactly when
there is unread data at one of its tests, however the connection ends, and then it returns as much
of that data as fits (`read_ends_iff`). -/

set_option autoImplicit true

namespace PicoHybridCrypto
open Cells

/-- The callbacks lwIP runs in one `cyw43_arch_poll`, each with its pcb. -/
abbrev Poll := List (Pcb × Callback)

def Socket.deliver (sock : Socket) (b : Poll) : Socket :=
  b.foldl (fun sock e => (e.2.run sock e.1).sock) sock

@[simp] theorem Socket.deliver_cons (sock : Socket) (e : Pcb × Callback) (b : Poll) :
    sock.deliver (e :: b) = (e.2.run sock e.1).sock.deliver b := rfl

theorem Socket.deliver_WF {sock : Socket} (H : sock.WF) (b : Poll) : (sock.deliver b).WF := by
  induction b generalizing sock with
  | nil => exact H
  | cons e b ih => exact ih (Callback.run_WF H e.2 e.1)

/-- The peer has closed the connection, or lwIP has given it up. -/
def Callback.Ends : Callback → Prop
  | .recv none | .err _ => True
  | _ => False

def Callback.IsData : Callback → Prop
  | .recv (some p) => 0 < p.totLen
  | _ => False

/-- An acknowledgement that empties the buffer. -/
def Callback.Clears (sock : Socket) : Callback → Prop
  | .sent len => sock.Clears len
  | _ => False

def Socket.ClearedBy (sock : Socket) : Poll → Prop
  | [] => False
  | e :: b => e.2.Clears sock ∨ (e.2.run sock e.1).sock.ClearedBy b

/-- The poll brings data that no later acknowledgement of the same poll throws away. -/
def Socket.GetsData (sock : Socket) : Poll → Prop
  | [] => False
  | e :: b =>
    (e.2.IsData ∧ ¬(e.2.run sock e.1).sock.ClearedBy b) ∨ (e.2.run sock e.1).sock.GetsData b

def Socket.GetsDataIn (sock : Socket) : List Poll → Prop
  | [] => False
  | b :: bs => sock.GetsData b ∨ (sock.deliver b).GetsDataIn bs

/-- The socket at the test that ends a read. While the read waits, its tests leave the socket
alone. -/
def Socket.atReturn (sock : Socket) : List Event → Option Socket
  | [] => none
  | .tick :: es => if 0 < sock.bufferLen then some sock else sock.atReturn es
  | .callback tpcb c :: es => (c.run sock tpcb).sock.atReturn es

theorem Callback.run_bufferLen_pos {sock : Socket} (H : sock.WF) (c : Callback) (tpcb : Pcb) :
    0 < (c.run sock tpcb).sock.bufferLen ↔
      (0 < sock.bufferLen ∧ ¬c.Clears sock) ∨ c.IsData := by
  have quiet (hc : c.Quiet) (hcl : ¬c.Clears sock) (hd : ¬c.IsData) :
      0 < (c.run sock tpcb).sock.bufferLen ↔ (0 < sock.bufferLen ∧ ¬c.Clears sock) ∨ c.IsData := by
    rw [(hc.run sock tpcb).2.1]
    tauto
  cases c with
  | recv p =>
    cases p with
    | none => exact quiet rfl not_false not_false
    | some p =>
      have hwf := lwipCbClientRecv_WF H tpcb (some p)
      have hlen := congrArg List.length (lwipCbClientRecv_unread H tpcb p)
      have := hwf.length_unread
      have := H.length_unread
      have := H.length_unread_le
      have : 0 < bufSize := by decide
      simp only [List.length_append, List.length_take] at hlen
      simp only [Callback.run, Callback.Clears, Callback.IsData, Pbuf.totLen, not_false_eq_true,
        and_true]
      omega
  | sent len =>
    simp only [Callback.run, lwipCbClientSent_bufferLen, Callback.Clears, Callback.IsData,
      or_false]
    split_ifs with h
    · simp [h]
    · simp [h]
  | connected code => exact quiet trivial not_false not_false
  | poll => exact quiet trivial not_false not_false
  | err code => exact quiet trivial not_false not_false

/-- There is unread data after a poll if there was before and nothing emptied the buffer, or if
the poll brought some. -/
theorem Socket.deliver_bufferLen_pos {sock : Socket} (H : sock.WF) (b : Poll) :
    0 < (sock.deliver b).bufferLen ↔
      (0 < sock.bufferLen ∧ ¬sock.ClearedBy b) ∨ sock.GetsData b := by
  induction b generalizing sock with
  | nil => simp [Socket.deliver, Socket.ClearedBy, Socket.GetsData]
  | cons e b ih =>
    rw [Socket.deliver_cons, ih (Callback.run_WF H e.2 e.1), Callback.run_bufferLen_pos H,
      Socket.ClearedBy, Socket.GetsData]
    tauto

/-! ## The loop -/

/-- The loop over successive polls: a test before the first and one after each. -/
def pollEvents (bs : List Poll) : List Event :=
  .tick :: bs.flatMap fun b => b.map (fun e => .callback e.1 e.2) ++ [.tick]

theorem pollEvents_cons (b : Poll) (bs : List Poll) :
    pollEvents (b :: bs) =
      .tick :: (b.map (fun e => .callback e.1 e.2) ++ pollEvents bs) := by
  simp [pollEvents]

namespace Socket

theorem WF.atReturn {sock sock' : Socket} (H : sock.WF) {es : List Event}
    (h : sock.atReturn es = some sock') : sock'.WF ∧ 0 < sock'.bufferLen := by
  induction es generalizing sock with
  | nil => cases h
  | cons e es ih =>
    cases e with
    | tick =>
      rw [Socket.atReturn] at h
      split_ifs at h with hpos
      · cases h
        exact ⟨H, hpos⟩
      · exact ih H h
    | callback tpcb c => exact ih (Callback.run_WF H c tpcb) h

theorem atReturn_callbacks (sock : Socket) (b : Poll) (es : List Event) :
    sock.atReturn (b.map (fun e => .callback e.1 e.2) ++ es) = (sock.deliver b).atReturn es := by
  induction b generalizing sock with
  | nil => rfl
  | cons e b ih => exact ih (e.2.run sock e.1).sock

theorem WF.isSome_atReturn_iff {sock : Socket} (H : sock.WF) (bs : List Poll) :
    (sock.atReturn (pollEvents bs)).isSome ↔ 0 < sock.bufferLen ∨ sock.GetsDataIn bs := by
  induction bs generalizing sock with
  | nil =>
    show (if 0 < sock.bufferLen then some sock else none).isSome ↔ 0 < sock.bufferLen ∨ False
    split_ifs with hpos <;> simp [hpos]
  | cons b bs ih =>
    rw [pollEvents_cons, Socket.atReturn, Socket.atReturn_callbacks]
    split_ifs with hpos
    · exact iff_of_true rfl (.inl hpos)
    · have hdata := Socket.deliver_bufferLen_pos H b
      rw [ih (Socket.deliver_WF H b), GetsDataIn, hdata]
      tauto

end Socket

namespace Sys

theorem tick_readWait {s : Sys} (hs : s.control = .readWait buff len) :
    s.tick = if 0 < s.sock.bufferLen then
      { s with
        sock := (readBuffered s.sock buff len).sock
        control := .readReturned (readBuffered s.sock buff len).ret
          (readBuffered s.sock buff len).buff }
      else s := by
  unfold tick
  rw [hs]

/-- A read returns as much as fits of what is unread at the test that ends it, and without such a
test it waits. -/
theorem control_after_readWait {s : Sys} (H : s.sock.WF) (hs : s.control = .readWait buff len)
    (es : List Event) : (s.after es).control =
      match s.sock.atReturn es with
      | some sock =>
        .readReturned (min len.toNat sock.unread.length : Nat)
          (copyIn buff 0 (sock.unread.take len.toNat))
      | none => .readWait buff len := by
  induction es generalizing s with
  | nil => exact hs
  | cons e es ih =>
    cases e with
    | tick =>
      show (s.tick.after es).control = _
      rw [tick_readWait hs, Socket.atReturn]
      split_ifs
      · rw [control_after_of_between rfl]
        simp only [readBuffered_ret H, readBuffered_buff H]
      · exact ih H hs
    | callback tpcb c => exact ih (s := (s.callback tpcb c).2) (Callback.run_WF H c tpcb) hs

/-- The read has returned: `unread`, as far as it fits, is at `buff` and has been counted, or there
is none and the caller is told so. -/
def ReadAnswered (s : Sys) (buff : Int → UInt8) (len : UInt32) (unread : List UInt8) : Prop :=
  ∃ ret buff', s.control = .readReturned ret buff' ∧
    if unread = [] then ret ≤ 0
    else ret = min len.toNat unread.length ∧ buff' = copyIn buff 0 (unread.take len.toNat)

theorem readAnswered_after_iff {s : Sys} (H : s.sock.WF) (hs : s.control = .readWait buff len)
    (es : List Event) :
    (s.after es).ReadAnswered buff len ((s.sock.atReturn es).elim [] Socket.unread) ↔
      (s.sock.atReturn es).isSome := by
  have hcontrol := control_after_readWait H hs es
  cases hreturn : s.sock.atReturn es with
  | none =>
    rw [hreturn] at hcontrol
    refine iff_of_false ?_ Bool.false_ne_true
    rintro ⟨ret, buff', h, -⟩
    cases hcontrol.symm.trans h
  | some sock =>
    rw [hreturn] at hcontrol
    obtain ⟨hwf, hpos⟩ := H.atReturn hreturn
    have hne : sock.unread ≠ [] := hwf.bufferLen_pos_iff.mp hpos
    refine iff_of_true ⟨_, _, hcontrol, ?_⟩ rfl
    rw [Option.elim_some, if_neg hne]
    exact ⟨by push_cast; rfl, rfl⟩

end Sys

def Label.callback? : Label → Option Callback
  | .event (.callback _ c) => some c
  | _ => none

/-- The connection has ended, before the read or during one of its polls. -/
def ConnectionEnds (history : List Label) (bs : List Poll) : Prop :=
  (∃ c ∈ history.filterMap Label.callback?, c.Ends) ∨ ∃ b ∈ bs, ∃ e ∈ b, e.2.Ends

/-- A read that is called in `s` after `history` returns within the polls `bs` if the connection
ends before or during them: with the unread bytes if one of its tests finds any, and otherwise with
zero or a negative value. -/
def EndsWithConnection (history : List Label) (s : Sys) (buff : Int → UInt8) (len : UInt32)
    (bs : List Poll) : Prop :=
  ConnectionEnds history bs →
    ((s.wolfTCPread buff len).after (pollEvents bs)).ReadAnswered buff len
      ((s.sock.atReturn (pollEvents bs)).elim [] Socket.unread)

/-- In every reachable state and for all polls of a read: the read returns as it should when the
connection ends if and only if, whenever the connection ends, there is unread data when the read is
called or one of the polls brings some. -/
theorem read_ends_iff {l : Lwip} {history : List Label} {calls : List PcbCall} {s : Sys}
    (h : Sys.machine.run (.start l) history = some (calls, s)) (buff : Int → UInt8)
    (len : UInt32) (bs : List Poll) :
    EndsWithConnection history s buff len bs ↔
      (ConnectionEnds history bs → 0 < s.sock.bufferLen ∨ s.sock.GetsDataIn bs) := by
  have H : s.sock.WF := Sys.run_WF .zeroed h
  refine imp_congr_right fun _ => ?_
  rw [← H.isSome_atReturn_iff]
  exact Sys.readAnswered_after_iff (s := s.wolfTCPread buff len) H rfl (pollEvents bs)

theorem read_ends_iff_data :
    EndsWithConnection [] (.start ⟨fun _ => none⟩) (fun _ => 0) 1
      [[(1, .recv (some ⟨[7], by decide⟩)), (1, .recv none)]] := by
  refine (read_ends_iff rfl _ _ _).mpr fun _ => .inr (.inl (.inl ⟨?_, ?_⟩))
  · exact Nat.one_pos
  · exact fun h => h.elim id id

/-- The peer closes the connection while a read waits: the read keeps waiting. -/
theorem read_waits_after_close :
    Sys.machine.run (.start ⟨fun _ => none⟩) Sys.openLabels = some (Sys.openCalls, Sys.opened) ∧
      ¬EndsWithConnection Sys.openLabels Sys.opened (fun _ => 0) 1 [[(1, .recv none)]] := by
  refine ⟨Sys.run_openLabels, fun h => ?_⟩
  obtain ⟨ret, buff, hret, -⟩ := h (.inr ⟨_, .head _, _, .head _, trivial⟩)
  cases hret

end PicoHybridCrypto
