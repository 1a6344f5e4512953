import PicoHybridCrypto.Tcp.StreamAccounting
import PicoHybridCrypto.Tcp.Visible

/-! # How the stream is cut does not matter

TCP may deliver the same bytes in one segment or in several. Pushing them into the buffer one
after the other keeps as many of them as pushing them at once (`Visible.push_append`), so that the
application cannot tell the difference for the rest of the run, and the peer may send as much
(`segmentation_independent`). -/

set_option autoImplicit true

namespace PicoHybridCrypto

namespace Visible

/-- Received bytes are kept as far as they fit. -/
def push (v : Visible) (bytes : List UInt8) : Visible :=
  { v with unread := v.unread ++ bytes.take (bufSize - v.unread.length) }

theorem push_nil (v : Visible) : v.push [] = v := by
  rw [push, List.take_nil, List.append_nil]

theorem push_append (v : Visible) (xs ys : List UInt8) :
    v.push (xs ++ ys) = (v.push xs).push ys :=
  congrArg (Visible.mk v.tcpPcb · v.sentLen v.runCount v.connected)
    (TailDrop.append_take_append v.unread xs ys bufSize)

end Visible

/-- The segments `ps` arrive one after the other. -/
def segments (tpcb : Pcb) (ps : List Pbuf) : List Label :=
  ps.map fun p => .event (.callback tpcb (.recv (some p)))

/-- The same labels, but for segments in a row, which carry the same bytes cut another way. -/
inductive Resegmented : List Label → List Label → Prop
  | nil : Resegmented [] []
  | label (a : Label) : Resegmented ls ls' → Resegmented (a :: ls) (a :: ls')
  | segments (tpcb : Pcb) {ps ps' : List Pbuf} :
    ps.flatMap Pbuf.payload = ps'.flatMap Pbuf.payload → Resegmented ls ls' →
    Resegmented (segments tpcb ps ++ ls) (segments tpcb ps' ++ ls')

namespace Sys

/-- The state after some segments, and what has been seen of them. -/
structure Received (s : Sys) (bytes : List UInt8) (out : List Obs) (t : Sys) : Prop where
  wf : t.sock.WF
  visible : t.sock.visible = s.sock.visible.push bytes
  lwip : t.lwip = s.lwip
  control : t.control = s.control
  credited : creditedBytes out = bytes
  returned : reads out = []

variable {s s' t : Sys}

theorem step_segment (H : s.sock.WF) (tpcb : Pcb) (p : Pbuf) : ∃ out t,
    streams.step s (.event (.callback tpcb (.recv (some p)))) = some (out, t) ∧
      s.Received p.payload out t := by
  have hcontrol : (s.callback tpcb (.recv (some p))).2.control = s.control := rfl
  refine ⟨_, _, rfl, Callback.run_WF H (.recv (some p)) tpcb, ?_, ?_, hcontrol, ?_, ?_⟩
  · exact Socket.visible_run H (.recv (some p)) tpcb
  · exact Lwip.applyAll_of_inert (fun _ => Callback.calls_inert) s.lwip
  · exact (congrArg creditedBytes (s.observed_segment _ tpcb p)).trans (creditedBytes_segment p)
  · refine (congrArg reads (s.observed_segment _ tpcb p)).trans ?_
    split_ifs <;> rfl

theorem run_segments (H : s.sock.WF) (tpcb : Pcb) (ps : List Pbuf) : ∃ out t,
    streams.run s (segments tpcb ps) = some (out, t) ∧
      s.Received (ps.flatMap Pbuf.payload) out t := by
  induction ps generalizing s with
  | nil => exact ⟨[], s, rfl, H, (s.sock.visible.push_nil).symm, rfl, rfl, rfl, rfl⟩
  | cons p ps ih =>
    obtain ⟨out, t, hstep, hp⟩ := step_segment H tpcb p
    obtain ⟨rest, u, hrun, hps⟩ := ih hp.wf
    refine ⟨out ++ rest, u, Machine.run_cons hstep hrun, hps.wf, ?_, ?_, ?_, ?_, ?_⟩
    · rw [hps.visible, hp.visible, List.flatMap_cons, Visible.push_append]
    · rw [hps.lwip, hp.lwip]
    · rw [hps.control, hp.control]
    · rw [creditedBytes_append, hp.credited, hps.credited, List.flatMap_cons]
    · rw [reads_append, hp.returned, hps.returned, List.append_nil]

/-- Two systems that received the same bytes agree. -/
theorem SameView.received {u u' : Sys} (H : s.SameView s') (h : s.Received bytes out u)
    (h' : s'.Received bytes out' u') : u.SameView u' where
  wf := h.wf
  wf' := h'.wf
  visible := by rw [h.visible, h'.visible, H.visible]
  lwip := by rw [h.lwip, h'.lwip, H.lwip]
  control := by rw [h.control, h'.control, H.control]

/-- What is observed of a step depends on the calls it makes and on where the caller is. -/
theorem observed_congr {t t' : Sys} (h : s.control = s'.control) (ht : t.control = t'.control)
    (l : Label) (calls : List PcbCall) : s.observed l calls t = s'.observed l calls t' := by
  rcases l with _ | _ | _ | ⟨_ | _⟩ <;> simp only [observed, h, ht]

theorem streams_sameView : streams.LockStep streams SameView fun _ _ => True :=
  machine_sameView.emit fun l calls hs ht => observed_congr hs.control ht.control l calls

/-- Two runs that the application cannot tell apart, and that credit the same bytes. -/
structure Alike (x y : List Obs × Sys) : Prop where
  view : x.2.SameView y.2
  returned : reads x.1 = reads y.1
  credited : creditedBytes x.1 = creditedBytes y.1

theorem Alike.append {x y : List Obs × Sys} {tr tr' : List Obs}
    (hreturned : reads tr = reads tr') (hcredited : creditedBytes tr = creditedBytes tr')
    (h : Alike x y) : Alike (tr ++ x.1, x.2) (tr' ++ y.1, y.2) where
  view := h.view
  returned := by rw [reads_append, reads_append, hreturned, h.returned]
  credited := by rw [creditedBytes_append, creditedBytes_append, hcredited, h.credited]

theorem Alike.map_append {x y : Option (List Obs × Sys)} {tr tr' : List Obs}
    (hreturned : reads tr = reads tr') (hcredited : creditedBytes tr = creditedBytes tr')
    (h : Option.Rel Alike x y) :
    Option.Rel Alike (x.map fun x => (tr ++ x.1, x.2)) (y.map fun y => (tr' ++ y.1, y.2)) := by
  cases h with
  | some h => exact .some (h.append hreturned hcredited)
  | none => exact .none

end Sys

/-- However the bytes that arrive are cut into segments: the two runs are possible alike, credit
the same bytes, return the same from every read, and lead to systems that agree from then on. -/
theorem segmentation_independent {s s' : Sys} (H : s.SameView s') (h : Resegmented ls ls') :
    Option.Rel Sys.Alike (Sys.streams.run s ls) (Sys.streams.run s' ls') := by
  induction h generalizing s s' with
  | nil => exact .some ⟨H, rfl, rfl⟩
  | label a _ ih =>
    have hstep : Machine.SameUpTo Sys.SameView (Sys.streams.step s a) (Sys.streams.step s' a) :=
      Sys.streams_sameView H trivial
    rcases hstep.cases with ⟨h, h'⟩ | ⟨out, t, t', h, h', ht⟩
    · rw [Machine.run_cons_eq_none h, Machine.run_cons_eq_none h']
      exact .none
    · rw [Machine.run_cons_eq h, Machine.run_cons_eq h']
      exact Sys.Alike.map_append rfl rfl (ih ht)
  | @segments _ _ tpcb ps ps' hbytes _ ih =>
    obtain ⟨out, t, hrun, ht⟩ := Sys.run_segments H.wf tpcb ps
    obtain ⟨out', t', hrun', ht'⟩ := Sys.run_segments H.wf' tpcb ps'
    rw [← hbytes] at ht'
    rw [Machine.run_append_eq hrun, Machine.run_append_eq hrun']
    refine Sys.Alike.map_append ?_ ?_ (ih (H.received ht ht'))
    · rw [ht.returned, ht'.returned]
    · rw [ht.credited, ht'.credited]

/-- A read of two bytes. -/
def readLabels : List Label := [.read (fun _ => 0) 2, .event .tick]

theorem segmentation_independent_two :
    Option.Rel Sys.Alike
      (Sys.streams.run Sys.opened (segments 1 [⟨[7, 8], by decide⟩] ++ readLabels))
      (Sys.streams.run Sys.opened
        (segments 1 [⟨[7], by decide⟩, ⟨[8], by decide⟩] ++ readLabels)) := by
  have hwf : Sys.opened.sock.WF := ⟨by decide, by decide⟩
  exact segmentation_independent ⟨hwf, hwf, rfl, rfl, rfl⟩
    (.segments 1 rfl (.label _ (.label _ .nil)))

end PicoHybridCrypto
