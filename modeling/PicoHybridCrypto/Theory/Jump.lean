import Mathlib.Tactic.TypeStar

/-! # Statements that may jump to a label

A statement of a C function in which all failures jump forward to one label is a function on the
variables: `ok` goes on to the next statement, `error` jumps. A triple has a postcondition for each
of the two and the exact condition under which the statement goes on. -/

set_option autoImplicit true

namespace Jump

/-- The variables at the label, which the statements also reach by going on to their end. -/
def atLabel : Except σ σ → σ
  | .ok s => s
  | .error s => s

/-- From `P`, the statement goes on to `Q` if `c` holds, and otherwise jumps with `R`. -/
structure Triple (P : σ → Prop) (f : σ → Except σ σ) (c : Prop) (Q R : σ → Prop) : Prop where
  ok : P s → c → ∃ t, f s = .ok t ∧ Q t
  error : P s → ¬c → ∃ t, f s = .error t ∧ R t

namespace Triple

variable {P Q Q' R R' S : σ → Prop} {f g : σ → Except σ σ} {c d : Prop}

theorem test [Decidable c] {u v : σ → σ} (hok : ∀ s, P s → c → Q (u s))
    (herror : ∀ s, P s → ¬c → R (v s)) :
    Triple P (fun s => if c then .ok (u s) else .error (v s)) c Q R where
  ok hs hc := ⟨_, if_pos hc, hok _ hs hc⟩
  error hs hc := ⟨_, if_neg hc, herror _ hs hc⟩

/-- A statement that cannot fail. -/
theorem assign {u : σ → σ} (h : ∀ s, P s → Q (u s)) :
    Triple P (fun s => .ok (u s)) True Q R where
  ok hs _ := ⟨_, rfl, h _ hs⟩
  error _ hc := (hc trivial).elim

theorem conseq (H : Triple P f c Q R) (hQ : ∀ s, Q s → Q' s) (hR : ∀ s, R s → R' s) :
    Triple P f c Q' R' where
  ok hs hc :=
    have ⟨t, ht, h⟩ := H.ok hs hc
    ⟨t, ht, hQ t h⟩
  error hs hc :=
    have ⟨t, ht, h⟩ := H.error hs hc
    ⟨t, ht, hR t h⟩

theorem seq (H : Triple P f c Q S) (K : Triple Q g d R S) :
    Triple P (fun s => f s >>= g) (c ∧ d) R S := by
  constructor
  · intro s hs ⟨hc, hd⟩
    obtain ⟨t, ht, hQ⟩ := H.ok hs hc
    obtain ⟨u, hu, hR⟩ := K.ok hQ hd
    exact ⟨u, by rw [ht]; exact hu, hR⟩
  · intro s hs hcd
    by_cases hc : c
    · obtain ⟨t, ht, hQ⟩ := H.ok hs hc
      obtain ⟨u, hu, hS⟩ := K.error hQ fun hd => hcd ⟨hc, hd⟩
      exact ⟨u, by rw [ht]; exact hu, hS⟩
    · obtain ⟨t, ht, hS⟩ := H.error hs hc
      exact ⟨t, by rw [ht]; rfl, hS⟩

/-- What holds at the label, by the way it is reached. -/
theorem label (H : Triple P f c Q R) (hs : P s) :
    c ∧ Q (atLabel (f s)) ∨ ¬c ∧ R (atLabel (f s)) := by
  by_cases hc : c
  · obtain ⟨t, ht, hQ⟩ := H.ok hs hc
    exact .inl ⟨hc, by rwa [ht]⟩
  · obtain ⟨t, ht, hR⟩ := H.error hs hc
    exact .inr ⟨hc, by rwa [ht]⟩

end Triple

end Jump
