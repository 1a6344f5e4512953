import Mathlib.Data.List.Basic

/-! # Loops that can be left early

A C loop over a list of inputs, one for each iteration. An iteration emits one observation and
goes on, or leaves the loop with a value. Where a guard on the input decides which
(`Loop.Guarded`), the loop ends if and only if all inputs pass the guard (`Loop.Guarded.ends_iff`),
and what the iteration `k` emits is known from the inputs up to `k`
(`Loop.Guarded.emitted_iff`). -/

set_option autoImplicit true

namespace Loop

/-- What the completed iterations emit, and how the loop ends. -/
def run (body : σ → ι → Except ε (ο × σ)) : σ → List ι → List ο × Except ε σ
  | s, [] => ([], .ok s)
  | s, i :: is =>
    match body s i with
    | .error e => ([], .error e)
    | .ok (out, t) => (out :: (run body t is).1, (run body t is).2)

variable {body : σ → ι → Except ε (ο × σ)}

@[simp] theorem run_nil (s : σ) : run body s [] = ([], .ok s) := rfl

theorem run_cons_ok (h : body s i = .ok (out, t)) :
    run body s (i :: is) = (out :: (run body t is).1, (run body t is).2) := by
  rw [run, h]

theorem run_cons_error (h : body s i = .error e) : run body s (i :: is) = ([], .error e) := by
  rw [run, h]

/-- A loop that is left is left by one of its iterations. -/
theorem exists_error (h : (run body s is).2 = .error e) : ∃ t, ∃ i ∈ is, body t i = .error e := by
  induction is generalizing s with
  | nil => cases h
  | cons i is ih =>
    cases hbody : body s i with
    | error e' =>
      rw [run_cons_error hbody] at h
      cases h
      exact ⟨s, i, .head _, hbody⟩
    | ok y =>
      rw [run_cons_ok hbody] at h
      obtain ⟨t, j, hj, hjbody⟩ := ih h
      exact ⟨t, j, .tail _ hj, hjbody⟩

/-- The iterations that pass the guard `G` emit `emit s i` and go on with `next s i`. -/
structure Guarded (body : σ → ι → Except ε (ο × σ)) (G : ι → Prop) (emit : σ → ι → ο)
    (next : σ → ι → σ) : Prop where
  ok_iff : ∀ {s i y}, body s i = .ok y ↔ G i ∧ y = (emit s i, next s i)

namespace Guarded

theorem unguarded (emit : σ → ι → ο) (next : σ → ι → σ) :
    Guarded (fun s i => (.ok (emit s i, next s i) : Except ε (ο × σ))) (fun _ => True) emit
      next := by
  constructor
  intro s i y
  rw [and_iff_right trivial, Except.ok.injEq, eq_comm]

variable {G : ι → Prop} {emit : σ → ι → ο} {next : σ → ι → σ} (H : Guarded body G emit next)
include H

/-- A test in front of a guarded iteration, which leaves the loop where it applies. -/
theorem test (c : ι → Prop) [DecidablePred c] (err : σ → ι → ε) :
    Guarded (fun s i => if c i then .error (err s i) else body s i) (fun i => ¬c i ∧ G i) emit
      next := by
  constructor
  intro s i y
  by_cases hc : c i
  · rw [if_pos hc]
    exact iff_of_false nofun fun h => h.1.1 hc
  · rw [if_neg hc, H.ok_iff, and_iff_right hc]

theorem of_iff {G' : ι → Prop} (h : ∀ i, G' i ↔ G i) : Guarded body G' emit next := by
  constructor
  intro s i y
  rw [h i, H.ok_iff]

theorem of_guard (h : G i) : body s i = .ok (emit s i, next s i) :=
  H.ok_iff.mpr ⟨h, rfl⟩

theorem exists_error (h : ¬G i) : ∃ e, body s i = .error e := by
  cases hbody : body s i with
  | error e => exact ⟨e, rfl⟩
  | ok y => exact (h (H.ok_iff.mp hbody).1).elim

theorem ends_iff : (run body s is).2 = .ok t ↔ (∀ i ∈ is, G i) ∧ t = is.foldl next s := by
  induction is generalizing s with
  | nil => simp [eq_comm]
  | cons i is ih =>
    rw [List.forall_mem_cons, List.foldl_cons]
    by_cases hi : G i
    · rw [run_cons_ok (H.of_guard hi), and_iff_right hi]
      exact ih
    · obtain ⟨e, he⟩ := H.exists_error (s := s) hi
      rw [run_cons_error he]
      exact iff_of_false nofun fun h => hi h.1.1

/-- The loop ends with all inputs folded into its state, or an input that does not pass the guard
leaves it. -/
theorem cases (s : σ) (is : List ι) :
    (∃ e, (run body s is).2 = .error e ∧ ∃ t, ∃ i ∈ is, ¬G i ∧ body t i = .error e) ∨
    (run body s is).2 = .ok (is.foldl next s) ∧ ∀ i ∈ is, G i := by
  cases hrun : (run body s is).2 with
  | error e =>
    obtain ⟨t, i, hi, hbody⟩ := Loop.exists_error hrun
    refine .inl ⟨e, rfl, t, i, hi, fun hG => ?_, hbody⟩
    cases hbody.symm.trans (H.of_guard hG)
  | ok t =>
    obtain ⟨hall, rfl⟩ := H.ends_iff.mp hrun
    exact .inr ⟨rfl, hall⟩

/-- The iteration `k` emits something if the inputs up to it pass the guard. -/
theorem emitted_iff {k : Nat} (hk : is[k]? = some i) :
    (run body s is).1[k]? = some out ↔
      (∀ j ∈ is.take (k + 1), G j) ∧ out = emit ((is.take k).foldl next s) i := by
  induction is generalizing s k with
  | nil => cases hk
  | cons i' is ih =>
    by_cases hi' : G i'
    · rw [run_cons_ok (H.of_guard hi'), List.take_succ_cons, List.forall_mem_cons,
        and_iff_right hi']
      cases k with
      | zero =>
        cases hk
        simp [eq_comm]
      | succ k => exact ih hk
    · obtain ⟨e, he⟩ := H.exists_error (s := s) hi'
      rw [run_cons_error he]
      exact iff_of_false nofun fun h => hi' (h.1 i' (by simp))

end Guarded

/-- The rule of a loop that can be left early. `P` holds of what has been emitted so far and the
state before each iteration; `Q` holds of what has been emitted when an iteration leaves. -/
theorem run_rule {P : List ο → σ → Prop} {Q : List ο → ε → Prop} {L : ι → Prop}
    (hok : ∀ {tr s i out t}, L i → P tr s → body s i = .ok (out, t) → P (tr ++ [out]) t)
    (herror : ∀ {tr s i e}, L i → P tr s → body s i = .error e → Q tr e)
    (hL : ∀ i ∈ is, L i) (hs : P [] s) :
    match (run body s is).2 with
    | .ok t => P (run body s is).1 t
    | .error e => Q (run body s is).1 e := by
  suffices H : ∀ pre, P pre s → match (run body s is).2 with
      | .ok t => P (pre ++ (run body s is).1) t
      | .error e => Q (pre ++ (run body s is).1) e by
    simpa using H [] hs
  clear hs
  induction is generalizing s with
  | nil =>
    intro pre hpre
    simpa using hpre
  | cons i is ih =>
    intro pre hpre
    have hi := hL i (.head _)
    cases hbody : body s i with
    | error e =>
      rw [run_cons_error hbody]
      simpa using herror hi hpre hbody
    | ok y =>
      obtain ⟨out, t⟩ := y
      rw [run_cons_ok hbody]
      simpa using ih (fun j hj => hL j (.tail _ hj)) (pre ++ [out]) (hok hi hpre hbody)

/-! ## Which iterations there are -/

theorem run_append {outs : List ο} (h : run body s is = (outs, .ok t)) (js : List ι) :
    run body s (is ++ js) = (outs ++ (run body t js).1, (run body t js).2) := by
  induction is generalizing s outs with
  | nil =>
    cases h
    rfl
  | cons i is ih =>
    cases hbody : body s i with
    | error e =>
      rw [run_cons_error hbody] at h
      cases h
    | ok y =>
      rw [run_cons_ok hbody] at h
      obtain ⟨rfl, ht⟩ := Prod.mk.inj h
      rw [List.cons_append, run_cons_ok hbody, ih (Prod.ext rfl ht)]
      rfl

/-- Iterations that pass the guard and emit something that does not depend on the state. -/
theorem Guarded.run_of_forall {G : ι → Prop} {f : ι → ο} {next : σ → ι → σ}
    (H : Guarded body G (fun _ => f) next) (his : ∀ i ∈ is, G i) (s : σ) :
    run body s is = (is.map f, .ok (is.foldl next s)) := by
  induction is generalizing s with
  | nil => rfl
  | cons i is ih =>
    rw [run_cons_ok (H.of_guard (his i (.head _))), ih fun j hj => his j (.tail _ hj)]
    rfl

/-- The first input that does not pass the guard is the last that is looked at. -/
theorem Guarded.run_of_first {G : ι → Prop} {f : ι → ο} {next : σ → ι → σ} {e : ε}
    (H : Guarded body G (fun _ => f) next) (his : ∀ i ∈ is, G i) (hj : ∀ t, body t j = .error e)
    (js : List ι) (s : σ) : run body s (is ++ j :: js) = (is.map f, .error e) := by
  rw [run_append (H.run_of_forall his s), run_cons_error (hj _), List.append_nil]

/-- Two loops with the same guard complete the same number of iterations. -/
theorem Guarded.length_eq {body' : τ → κ → Except δ (θ × τ)} {G : ι → Prop} {G' : κ → Prop}
    {emit : σ → ι → ο} {next : σ → ι → σ} {emit' : τ → κ → θ} {next' : τ → κ → τ}
    (H : Guarded body G emit next) (H' : Guarded body' G' emit' next') {f : ι → κ}
    (hG : ∀ i, G i ↔ G' (f i)) (s : σ) (t : τ) (is : List ι) :
    (run body s is).1.length = (run body' t (is.map f)).1.length := by
  induction is generalizing s t with
  | nil => rfl
  | cons i is ih =>
    rw [List.map_cons]
    by_cases hi : G i
    · rw [run_cons_ok (H.of_guard hi), run_cons_ok (H'.of_guard ((hG i).mp hi)),
        List.length_cons, List.length_cons, ih]
    · obtain ⟨e, he⟩ := H.exists_error (s := s) hi
      obtain ⟨e', he'⟩ := H'.exists_error (s := t) (mt (hG i).mpr hi)
      rw [run_cons_error he, run_cons_error he']
      rfl

/-- A loop whose iterations overwrite the state ends with what the last one wrote. -/
theorem foldl_overwrite {f : ι → σ} {is : List ι} {i : ι} (h : is.getLast? = some i) (s : σ) :
    is.foldl (fun _ i => f i) s = f i := by
  obtain ⟨is, rfl⟩ := List.getLast?_eq_some_iff.mp h
  rw [List.foldl_append]
  rfl

end Loop
