import PicoHybridCrypto.Theory.CInt
import Mathlib.Logic.Function.Basic

/-! # lwIP as the TCP layer sees it

The types and calls of lwIP that `tcp.c` uses, with their documented behaviour: error codes,
packet buffers, and the pool of protocol control blocks (pcbs) with the callbacks registered on
each. The sizes are those of `lwipopts_examples_common.h`. -/

set_option autoImplicit true

namespace PicoHybridCrypto

/-- `int` on the target. -/
abbrev toInt (x : Int) : Int := CInt.signed 32 x

/-- `unsigned long`, `u32_t` and `size_t` on the target. -/
abbrev toULong (x : Int) : Nat := CInt.unsigned 32 x

/-- `uint16_t` and `u16_t`. -/
abbrev toUShort (x : Int) : Nat := CInt.unsigned 16 x

def tcpMss : Nat := 1460
def tcpWnd : Nat := 8 * tcpMss
def tcpSndBuf : Nat := 8 * tcpMss

/-! ## Error codes -/

/-- `err_t`, a signed byte. -/
abbrev ErrT := Int8

def errOk : ErrT := 0
def errMem : ErrT := -1
def errAbrt : ErrT := -13
def errRst : ErrT := -14

/-! ## Packet buffers -/

/-- A received pbuf chain. Its `tot_len` is a `u16_t`. -/
structure Pbuf where
  payload : List UInt8
  totLen_lt : payload.length < 2 ^ 16

def Pbuf.totLen (p : Pbuf) : Nat := p.payload.length

/-- The bytes `pbuf_copy_partial` copies out of `p`; it returns their number. -/
def pbufCopyPartial (p : Pbuf) (len offset : Nat) : List UInt8 :=
  (p.payload.drop offset).take len

/-! ## Protocol control blocks -/

/-- The address of a `struct tcp_pcb`. -/
abbrev Pcb := Nat

/-- The lwIP calls that take a pcb. The registrations carry whether a callback (the socket, for
`tcp_arg`) or `NULL` is registered; calls that can fail carry lwIP's answer. -/
inductive PcbFn
  | tcpArg (sock : Bool)
  | tcpPoll (callback : Bool) (interval : Nat)
  | tcpSent (callback : Bool)
  | tcpRecv (callback : Bool)
  | tcpErr (callback : Bool)
  | tcpConnect (ipaddr : UInt32) (port : UInt16) (answer : ErrT)
  | tcpWrite (len : Nat) (answer : ErrT)
  | tcpOutput
  | tcpRecved (len : Nat)
  | tcpClose (answer : ErrT)
  | tcpAbort
  deriving DecidableEq

structure PcbCall where
  fn : PcbFn
  pcb : Option Pcb
  deriving DecidableEq

/-- What lwIP keeps for an allocated pcb: whether its callback argument is the socket, and
which callbacks are registered. -/
structure PcbState where
  arg : Bool := false
  poll : Bool := false
  sent : Bool := false
  recv : Bool := false
  err : Bool := false
  connected : Bool := false
  deriving DecidableEq

/-- The effect of a call on the pcb it is applied to; `none` is a freed pcb. A failed
`tcp_close` leaves the pcb as it was. -/
def PcbState.apply (s : PcbState) : PcbFn → Option PcbState
  | .tcpArg sock => some { s with arg := sock }
  | .tcpPoll cb _ => some { s with poll := cb }
  | .tcpSent cb => some { s with sent := cb }
  | .tcpRecv cb => some { s with recv := cb }
  | .tcpErr cb => some { s with err := cb }
  | .tcpConnect _ _ answer => some { s with connected := answer = errOk }
  | .tcpWrite .. | .tcpOutput | .tcpRecved _ => some s
  | .tcpClose answer => if answer = errOk then none else some s
  | .tcpAbort => none

structure Lwip where
  pcbs : Pcb → Option PcbState

namespace Lwip

def Live (l : Lwip) (p : Pcb) : Prop := (l.pcbs p).isSome

/-- `tcp_new_ip_type` handing out the pcb `p`. -/
def alloc (l : Lwip) (p : Pcb) : Lwip := ⟨Function.update l.pcbs p (some {})⟩

def free (l : Lwip) (p : Pcb) : Lwip := ⟨Function.update l.pcbs p none⟩

/-- The pool after one call. A call on a pcb that is not allocated has no defined effect; the
pool is left alone, and `OnLive` tells such calls. -/
def apply (l : Lwip) (c : PcbCall) : Lwip :=
  match c.pcb with
  | none => l
  | some p => ⟨Function.update l.pcbs p ((l.pcbs p).bind (·.apply c.fn))⟩

def applyAll (l : Lwip) (cs : List PcbCall) : Lwip := cs.foldl apply l

/-- Each call of the list is made on a pcb that is live at that moment. -/
def OnLive : Lwip → List PcbCall → Prop
  | _, [] => True
  | l, c :: cs => (∃ p, c.pcb = some p ∧ l.Live p) ∧ OnLive (l.apply c) cs

@[simp] theorem applyAll_nil (l : Lwip) : l.applyAll [] = l := rfl

theorem live_alloc_self (l : Lwip) (p : Pcb) : (l.alloc p).Live p := by
  simp [alloc, Live]

theorem not_live_free_self (l : Lwip) (p : Pcb) : ¬(l.free p).Live p := by
  simp [free, Live]

theorem live_free {l : Lwip} {p q : Pcb} (hne : p ≠ q) : (l.free q).Live p ↔ l.Live p := by
  simp [free, Live, Function.update_of_ne hne]

/-- Only `tcp_abort` and a successful `tcp_close` free a pcb. -/
def Frees : PcbFn → Prop
  | .tcpClose answer => answer = errOk
  | .tcpAbort => True
  | _ => False

instance : DecidablePred Frees
  | .tcpClose answer => inferInstanceAs (Decidable (answer = errOk))
  | .tcpAbort => .isTrue trivial
  | .tcpArg _ | .tcpPoll .. | .tcpSent _ | .tcpRecv _ | .tcpErr _ | .tcpConnect .. | .tcpWrite ..
  | .tcpOutput | .tcpRecved _ => .isFalse not_false

/-- Calls that neither free a pcb nor change what is registered on it. -/
def Inert : PcbFn → Prop
  | .tcpWrite .. | .tcpOutput | .tcpRecved _ => True
  | _ => False

theorem Inert.not_frees {fn : PcbFn} (h : Inert fn) : ¬Frees fn := by
  cases fn <;> first | exact h.elim | exact not_false

theorem apply_of_inert {c : PcbCall} (h : Inert c.fn) (l : Lwip) : l.apply c = l := by
  rcases c with ⟨fn, _ | p⟩
  · rfl
  · have happly (s : PcbState) : s.apply fn = some s := by
      cases fn <;> first | exact h.elim | rfl
    have hbind : (l.pcbs p).bind (·.apply fn) = l.pcbs p := by simp [happly]
    simp only [apply, hbind, Function.update_eq_self]

theorem applyAll_of_inert {cs : List PcbCall} (h : ∀ c ∈ cs, Inert c.fn) (l : Lwip) :
    l.applyAll cs = l := by
  induction cs generalizing l with
  | nil => rfl
  | cons c cs ih =>
    show (l.apply c).applyAll cs = l
    rw [apply_of_inert (h c (.head _)), ih fun d hd => h d (.tail _ hd)]

theorem isSome_apply {fn : PcbFn} (h : ¬Frees fn) (s : PcbState) : (s.apply fn).isSome := by
  cases fn with
  | tcpClose answer =>
    have hne : answer ≠ errOk := h
    rw [PcbState.apply, if_neg hne]
    rfl
  | tcpAbort => exact (h trivial).elim
  | _ => rfl

theorem live_apply {l : Lwip} {c : PcbCall} (hc : ¬Frees c.fn) {p : Pcb} (h : l.Live p) :
    (l.apply c).Live p := by
  unfold apply
  cases hp : c.pcb with
  | none => exact h
  | some q =>
    by_cases hq : p = q
    · subst hq
      obtain ⟨s, hs⟩ := Option.isSome_iff_exists.mp h
      show (Function.update l.pcbs p ((l.pcbs p).bind (·.apply c.fn)) p).isSome
      rw [Function.update_self, hs]
      exact isSome_apply hc s
    · simpa [Live, Function.update_of_ne hq] using h

theorem live_applyAll {l : Lwip} {cs : List PcbCall} (hcs : ∀ c ∈ cs, ¬Frees c.fn) {p : Pcb}
    (h : l.Live p) : (l.applyAll cs).Live p := by
  induction cs generalizing l with
  | nil => exact h
  | cons c cs ih =>
    exact ih (fun d hd => hcs d (.tail _ hd)) (live_apply (hcs c (.head _)) h)

/-- Calls on one live pcb that do not free it are all made on a live pcb. -/
theorem onLive_append {l : Lwip} {cs ds : List PcbCall} {p : Pcb} (h : l.Live p)
    (hp : ∀ c ∈ cs, c.pcb = some p) (hcs : ∀ c ∈ cs, ¬Frees c.fn)
    (hds : ∀ l' : Lwip, l'.Live p → OnLive l' ds) : l.OnLive (cs ++ ds) := by
  induction cs generalizing l with
  | nil => exact hds l h
  | cons c cs ih =>
    refine ⟨⟨p, hp c (.head _), h⟩, ?_⟩
    exact ih (live_apply (hcs c (.head _)) h) (fun d hd => hp d (.tail _ hd))
      fun d hd => hcs d (.tail _ hd)

end Lwip

end PicoHybridCrypto
