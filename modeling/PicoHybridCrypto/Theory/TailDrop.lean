import Mathlib.Data.List.Basic

/-! # Bounded tail-drop queues

A queue with room for `cap` elements. What does not fit is dropped from the tail of the block
being pushed; nothing that was accepted is lost or reordered. -/

set_option autoImplicit true

/-- A queue of at most `cap` elements, oldest first. -/
@[ext]
structure TailDrop (α : Type*) (cap : Nat) where
  items : List α
  length_le : items.length ≤ cap

namespace TailDrop

variable {α : Type*} {cap : Nat}

def empty : TailDrop α cap := ⟨[], Nat.zero_le _⟩

def room (q : TailDrop α cap) : Nat := cap - q.items.length

/-- Append what fits of a block. -/
def push (q : TailDrop α cap) (xs : List α) : TailDrop α cap where
  items := q.items ++ xs.take q.room
  length_le := by
    have := q.length_le
    simp only [List.length_append, List.length_take, room]
    omega

def front (q : TailDrop α cap) (n : Nat) : List α := q.items.take n

def pop (q : TailDrop α cap) (n : Nat) : TailDrop α cap where
  items := q.items.drop n
  length_le := by
    have := q.length_le
    simp only [List.length_drop]
    omega

/-- Taking elements out neither loses nor reorders any. -/
theorem front_append_pop (q : TailDrop α cap) (n : Nat) :
    q.front n ++ (q.pop n).items = q.items :=
  List.take_append_drop n q.items

/-- What fits of two blocks behind each other fits of the one and then of the other. -/
theorem append_take_append (as xs ys : List α) (cap : Nat) :
    as ++ (xs ++ ys).take (cap - as.length) =
      as ++ xs.take (cap - as.length) ++
        ys.take (cap - (as ++ xs.take (cap - as.length)).length) := by
  have hroom : cap - (as ++ xs.take (cap - as.length)).length = cap - as.length - xs.length := by
    rw [List.length_append, List.length_take]
    omega
  rw [hroom, List.take_append, List.append_assoc]

theorem push_of_fits {q : TailDrop α cap} {xs : List α} (h : xs.length ≤ q.room) :
    (q.push xs).items = q.items ++ xs := by
  show q.items ++ xs.take q.room = q.items ++ xs
  rw [List.take_of_length_le h]

theorem length_push_of_not_fits {q : TailDrop α cap} {xs : List α} (h : ¬xs.length ≤ q.room) :
    (q.push xs).items.length < q.items.length + xs.length := by
  simp only [push, List.length_append, List.length_take]
  omega

end TailDrop
