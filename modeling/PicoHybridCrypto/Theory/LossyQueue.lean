import PicoHybridCrypto.Theory.TailDrop

/-! # What a lossy queue delivers

A tail-drop queue that is also emptied now and then loses elements in two ways. What it delivers
is still the stream it was offered with some elements left out (`TailDrop.Accounted`): nothing is
made up, doubled or moved, and each element left out is counted once. -/

set_option autoImplicit true

namespace TailDrop

variable {α : Type*} {cap : Nat}

/-- What is done to a queue. -/
inductive Op (α : Type*)
  | push (xs : List α)
  | pop (n : Nat)
  | clear
  | skip

/-- The elements an operation offers to the queue. -/
def Op.offered : Op α → List α
  | .push xs => xs
  | _ => []

def apply (q : TailDrop α cap) : Op α → TailDrop α cap
  | .push xs => q.push xs
  | .pop n => q.pop n
  | .clear => empty
  | .skip => q

/-- The elements an operation hands out. -/
def taken (q : TailDrop α cap) : Op α → List α
  | .pop n => q.front n
  | _ => []

/-- How many elements an operation throws away. -/
def lost (q : TailDrop α cap) : Op α → Nat
  | .push xs => xs.length - q.room
  | .clear => q.items.length
  | _ => 0

/-- Of the stream `offered`, `taken` has been handed out and `kept` is still there, in order; the
`lost` elements are all that is missing. -/
structure Accounted (offered taken kept : List α) (lost : Nat) : Prop where
  sublist : (taken ++ kept).Sublist offered
  length : taken.length + kept.length + lost = offered.length

namespace Accounted

variable {offered taken kept : List α} {n : Nat}

theorem nil : Accounted (α := α) [] [] [] 0 := ⟨.slnil, rfl⟩

/-- Nothing is missing exactly when nothing has been lost. -/
theorem intact_iff (H : Accounted offered taken kept n) : taken ++ kept = offered ↔ n = 0 := by
  have hlen := H.length
  constructor
  · intro h
    have := congrArg List.length h
    rw [List.length_append] at this
    omega
  · intro h
    refine H.sublist.eq_of_length ?_
    rw [List.length_append]
    omega

/-- Every operation keeps the account. -/
theorem apply {q : TailDrop α cap} (H : Accounted offered taken q.items n) (op : Op α) :
    Accounted (offered ++ op.offered) (taken ++ q.taken op) (q.apply op).items
      (n + q.lost op) := by
  have hlen := H.length
  have hcap := q.length_le
  cases op with
  | push xs =>
    constructor
    · show ((taken ++ []) ++ (q.items ++ xs.take q.room)).Sublist (offered ++ xs)
      rw [List.append_nil, ← List.append_assoc]
      exact H.sublist.append (List.take_sublist _ _)
    · show (taken ++ []).length + (q.items ++ xs.take q.room).length + (n + (xs.length - q.room)) =
        (offered ++ xs).length
      simp only [List.append_nil, List.length_append, List.length_take]
      omega
  | pop k =>
    have hsplit := q.front_append_pop k
    constructor
    · show ((taken ++ q.front k) ++ (q.pop k).items).Sublist (offered ++ [])
      rw [List.append_assoc, hsplit, List.append_nil]
      exact H.sublist
    · show (taken ++ q.front k).length + (q.pop k).items.length + (n + 0) = (offered ++ []).length
      have := congrArg List.length hsplit
      simp only [List.append_nil, List.length_append] at this ⊢
      omega
  | clear =>
    constructor
    · show ((taken ++ []) ++ []).Sublist (offered ++ [])
      rw [List.append_nil, List.append_nil, List.append_nil]
      exact (List.sublist_append_left _ _).trans H.sublist
    · show (taken ++ []).length + 0 + (n + q.items.length) = (offered ++ []).length
      simp only [List.append_nil]
      omega
  | skip =>
    simpa [Op.offered, TailDrop.taken, TailDrop.apply, lost] using H

end Accounted

/-! ## Taking elements out earlier -/

/-- Of two lists, the front of the one with the longer tail. -/
theorem sublist_of_append_sublist {as bs as' bs' : List α} (h : (as ++ bs).Sublist (as' ++ bs'))
    (hle : bs'.length ≤ bs.length) : as.Sublist as' := by
  have hdrop := h.reverse.drop bs.length
  rw [List.reverse_append, List.reverse_append] at hdrop
  have htail : (bs'.reverse ++ as'.reverse).drop bs.length |>.Sublist as'.reverse := by
    rw [List.drop_append, List.drop_eq_nil_of_le (by rwa [List.length_reverse]), List.nil_append]
    exact List.drop_sublist _ _
  rw [List.drop_left' List.length_reverse] at hdrop
  exact List.reverse_sublist.mp (hdrop.trans htail)

/-- Of two queues that are offered the same, the second hands its elements out earlier: what the
first has handed out or still holds, the second has handed out or still holds, and it holds no
more than the first. -/
structure Ahead (taken : List α) (q : TailDrop α cap) (taken' : List α) (q' : TailDrop α cap) :
    Prop where
  sublist : (taken ++ q.items).Sublist (taken' ++ q'.items)
  length : q'.items.length ≤ q.items.length

namespace Ahead

variable {taken taken' : List α} {q q' : TailDrop α cap}

theorem refl (taken : List α) (q : TailDrop α cap) : Ahead taken q taken q := ⟨.refl _, Nat.le_refl _⟩

/-- The second queue alone hands some out. -/
theorem pop_right (H : Ahead taken q taken' q') (n : Nat) :
    Ahead taken q (taken' ++ q'.front n) (q'.pop n) where
  sublist := by
    rw [List.append_assoc, front_append_pop]
    exact H.sublist
  length := by
    have hlength := H.length
    simp only [pop, List.length_drop]
    omega

/-- The first queue alone hands some out, while the second is empty. -/
theorem pop_left (H : Ahead taken q taken' q') (h : q'.items = []) (n : Nat) :
    Ahead (taken ++ q.front n) (q.pop n) taken' q' where
  sublist := by
    rw [List.append_assoc, front_append_pop]
    exact H.sublist
  length := by
    rw [h]
    exact Nat.zero_le _

/-- An operation on both queues. A block that is pushed fits into the shorter one as far as into
the longer one, and a clearing leaves only what has been handed out. -/
theorem apply (H : Ahead taken q taken' q') (op : Op α) :
    Ahead (taken ++ q.taken op) (q.apply op) (taken' ++ q'.taken op) (q'.apply op) := by
  have hlength := H.length
  cases op with
  | push xs =>
    have hcap := q.length_le
    constructor
    · show ((taken ++ []) ++ (q.items ++ xs.take q.room)).Sublist
        ((taken' ++ []) ++ (q'.items ++ xs.take q'.room))
      rw [List.append_nil, List.append_nil, ← List.append_assoc, ← List.append_assoc]
      exact H.sublist.append (List.take_sublist_take_left (Nat.sub_le_sub_left hlength cap))
    · simp only [TailDrop.apply, push, room, List.length_append, List.length_take]
      omega
  | pop n =>
    constructor
    · show ((taken ++ q.front n) ++ (q.pop n).items).Sublist
        ((taken' ++ q'.front n) ++ (q'.pop n).items)
      rw [List.append_assoc, front_append_pop, List.append_assoc, front_append_pop]
      exact H.sublist
    · simp only [TailDrop.apply, pop, List.length_drop]
      omega
  | clear =>
    have hfront := sublist_of_append_sublist H.sublist hlength
    refine ⟨?_, Nat.le_refl 0⟩
    show ((taken ++ []) ++ []).Sublist ((taken' ++ []) ++ [])
    simpa using hfront
  | skip =>
    refine ⟨?_, hlength⟩
    show ((taken ++ []) ++ q.items).Sublist ((taken' ++ []) ++ q'.items)
    simpa using H.sublist

end Ahead

/-! ## Runs -/

/-- The queue after some operations, with everything they handed out. -/
def runOps (q : TailDrop α cap) : List (Op α) → List α × TailDrop α cap
  | [] => ([], q)
  | op :: ops => (q.taken op ++ ((q.apply op).runOps ops).1, ((q.apply op).runOps ops).2)

theorem runOps_concat (q : TailDrop α cap) (ops : List (Op α)) (op : Op α) :
    q.runOps (ops ++ [op]) =
      ((q.runOps ops).1 ++ (q.runOps ops).2.taken op, (q.runOps ops).2.apply op) := by
  induction ops generalizing q with
  | nil => simp [runOps]
  | cons o ops ih =>
    rw [List.cons_append, runOps, ih]
    simp [runOps, List.append_assoc]

end TailDrop
