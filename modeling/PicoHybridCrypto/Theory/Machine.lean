import Mathlib.Algebra.GroupWithZero.Nat
import Mathlib.Data.Option.Basic
import Mathlib.Data.List.Infix

/-! # Deterministic labelled machines

Runs of a partial step function over lists of labels, each step emitting a list of
observations. The rules are the induction rules of whole runs: an invariant (`Machine.run_inv`),
a lock-step relation between two machines (`Machine.LockStep.run`), and the exact condition
under which a property of histories holds at every point of a run
(`Machine.always_iff_along`). -/

set_option autoImplicit true

/-- `step s a` is `none` where the label `a` is not enabled in `s`, and otherwise gives what
the step emits and the state after it. -/
structure Machine (σ ι ο : Type*) where
  step : σ → ι → Option (List ο × σ)

namespace Machine

variable {M : Machine σ ι ο} {N : Machine τ ι ο}

/-- The run of a list of labels, with everything it emits in order. -/
def run (M : Machine σ ι ο) : σ → List ι → Option (List ο × σ)
  | s, [] => some ([], s)
  | s, a :: as =>
    (M.step s a).bind fun (out, t) => (M.run t as).map fun (rest, u) => (out ++ rest, u)

@[simp] theorem run_nil (s : σ) : M.run s [] = some ([], s) := rfl

theorem run_cons_eq_some :
    M.run s (a :: as) = some (tr, u) ↔
      ∃ out t rest, M.step s a = some (out, t) ∧ M.run t as = some (rest, u) ∧
        tr = out ++ rest := by
  simp only [run, Option.bind_eq_some_iff, Option.map_eq_some_iff, Prod.exists, Prod.mk.injEq]
  constructor
  · rintro ⟨out, t, hstep, rest, u', hrun, rfl, rfl⟩
    exact ⟨out, t, rest, hstep, hrun, rfl⟩
  · rintro ⟨out, t, rest, hstep, hrun, rfl⟩
    exact ⟨out, t, hstep, rest, u, hrun, rfl, rfl⟩

theorem run_cons (h : M.step s a = some (out, t)) (hrun : M.run t as = some (rest, u)) :
    M.run s (a :: as) = some (out ++ rest, u) :=
  run_cons_eq_some.mpr ⟨out, t, rest, h, hrun, rfl⟩

theorem run_singleton (h : M.step s a = some (out, t)) : M.run s [a] = some (out, t) := by
  simpa using run_cons h (run_nil t)

theorem run_append (h : M.run s as = some (tr, t)) (hrest : M.run t bs = some (rest, u)) :
    M.run s (as ++ bs) = some (tr ++ rest, u) := by
  induction as generalizing s tr with
  | nil =>
    cases h
    simpa using hrest
  | cons a as ih =>
    obtain ⟨out, t', tr', hstep, hrun, rfl⟩ := run_cons_eq_some.mp h
    rw [List.cons_append, List.append_assoc]
    exact run_cons hstep (ih hrun)

theorem run_append_eq_some :
    M.run s (as ++ bs) = some (tr, u) ↔
      ∃ tr₁ t tr₂, M.run s as = some (tr₁, t) ∧ M.run t bs = some (tr₂, u) ∧
        tr = tr₁ ++ tr₂ := by
  constructor
  · intro h
    induction as generalizing s tr with
    | nil => exact ⟨[], s, tr, rfl, h, rfl⟩
    | cons a as ih =>
      obtain ⟨out, s', rest, hstep, hrun, rfl⟩ := run_cons_eq_some.mp h
      obtain ⟨tr₁, t, tr₂, h₁, h₂, rfl⟩ := ih hrun
      exact ⟨_, t, tr₂, run_cons hstep h₁, h₂, (List.append_assoc ..).symm⟩
  · rintro ⟨tr₁, t, tr₂, h₁, h₂, rfl⟩
    exact run_append h₁ h₂

theorem run_concat_eq_some :
    M.run s (as ++ [a]) = some (tr, u) ↔
      ∃ tr₁ t out, M.run s as = some (tr₁, t) ∧ M.step t a = some (out, u) ∧
        tr = tr₁ ++ out := by
  simp only [run_append_eq_some, run_cons_eq_some, run_nil, Option.some.injEq, Prod.mk.injEq]
  constructor
  · rintro ⟨tr₁, t, tr₂, h₁, ⟨out, u, rest, hstep, ⟨rfl, rfl⟩, rfl⟩, rfl⟩
    exact ⟨tr₁, t, out, h₁, hstep, by rw [List.append_nil]⟩
  · rintro ⟨tr₁, t, out, h₁, hstep, rfl⟩
    exact ⟨tr₁, t, out, h₁, ⟨out, u, [], hstep, ⟨rfl, rfl⟩, (List.append_nil _).symm⟩, rfl⟩

theorem run_cons_eq (h : M.step s a = some (out, t)) (as : List ι) :
    M.run s (a :: as) = (M.run t as).map fun x => (out ++ x.1, x.2) := by
  rw [run, h, Option.bind_some]

theorem run_cons_eq_none (h : M.step s a = none) (as : List ι) : M.run s (a :: as) = none := by
  rw [run, h, Option.bind_none]

/-- A run is continued from where its first part ends. -/
theorem run_append_eq (h : M.run s as = some (tr, t)) (bs : List ι) :
    M.run s (as ++ bs) = (M.run t bs).map fun x => (tr ++ x.1, x.2) := by
  induction as generalizing s tr with
  | nil =>
    cases h
    exact (congrFun Option.map_id (M.run _ bs)).symm
  | cons a as ih =>
    obtain ⟨out, s', rest, hstep, hrun, rfl⟩ := run_cons_eq_some.mp h
    rw [List.cons_append, run_cons_eq hstep, ih hrun, Option.map_map]
    simp only [Function.comp_def, List.append_assoc]

/-- The same machine, emitting something else at each step. -/
def emit (M : Machine σ ι ο) (f : σ → ι → List ο → σ → List ο') : Machine σ ι ο' where
  step s a := (M.step s a).map fun (out, t) => (f s a out t, t)

theorem emit_step_eq_some {f : σ → ι → List ο → σ → List ο'} :
    (M.emit f).step s a = some (out', t) ↔
      ∃ out, M.step s a = some (out, t) ∧ f s a out t = out' := by
  simp only [emit, Option.map_eq_some_iff, Prod.exists, Prod.mk.injEq]
  constructor
  · rintro ⟨out, t, hstep, hout, rfl⟩
    exact ⟨out, hstep, hout⟩
  · rintro ⟨out, hstep, hout⟩
    exact ⟨out, t, hstep, hout, rfl⟩

theorem run_emit (f : σ → ι → List ο → σ → List ο') (h : M.run s as = some (tr, t)) :
    ∃ tr', (M.emit f).run s as = some (tr', t) := by
  induction as generalizing s tr with
  | nil =>
    cases h
    exact ⟨[], rfl⟩
  | cons a as ih =>
    obtain ⟨out, s', rest, hstep, hrun, rfl⟩ := run_cons_eq_some.mp h
    obtain ⟨rest', hrest⟩ := ih hrun
    exact ⟨_, run_cons (emit_step_eq_some.mpr ⟨out, hstep, rfl⟩) hrest⟩

/-- Blocks of labels that lead back to the state they start from do so one after the other. -/
theorem run_flatMap {f : β → List ι} {bs : List β} (h : ∀ b ∈ bs, M.run s (f b) = some ([], s)) :
    M.run s (bs.flatMap f) = some ([], s) := by
  induction bs with
  | nil => rfl
  | cons b bs ih =>
    rw [List.flatMap_cons]
    exact run_append (h b (.head _)) (ih fun c hc => h c (.tail _ hc))

/-- What every step preserves, every run preserves. `L` restricts the labels of the run. -/
theorem run_inv {P : σ → Prop} {L : ι → Prop}
    (hstep : ∀ {s a out t}, L a → P s → M.step s a = some (out, t) → P t)
    (hL : ∀ a ∈ as, L a) (hs : P s) (h : M.run s as = some (tr, t)) : P t := by
  induction as generalizing s tr with
  | nil =>
    cases h
    exact hs
  | cons a as ih =>
    obtain ⟨out, s', tr', ha, hrun, rfl⟩ := run_cons_eq_some.mp h
    exact ih (fun b hb => hL b (.tail _ hb)) (hstep (hL a (.head _)) hs ha) hrun

/-! ## Conditions on the steps of a run -/

/-- Every step of the run meets the condition `C` in the state it is taken from. -/
def Along (M : Machine σ ι ο) (C : σ → ι → Prop) : σ → List ι → Prop
  | _, [] => True
  | s, a :: as => C s a ∧ ∀ out t, M.step s a = some (out, t) → M.Along C t as

theorem along_of_forall {C : σ → ι → Prop} (h : ∀ s, ∀ a ∈ as, C s a) (s : σ) :
    M.Along C s as := by
  induction as generalizing s with
  | nil => trivial
  | cons a as ih =>
    exact ⟨h s a (.head _), fun _ t _ => ih (fun s b hb => h s b (.tail _ hb)) t⟩

/-- `P` holds of the labels taken, the observations made and the state reached at every
point of the run of `as` from `s`. -/
def Always (M : Machine σ ι ο) (P : List ι → List ο → σ → Prop) (s : σ) (as : List ι) : Prop :=
  ∀ pre, pre <+: as → ∀ tr t, M.run s pre = some (tr, t) → P pre tr t

/-- The rule of histories: `I` holds at every point of a run if every step keeps it, where the
step may use that `A` holds at its end. -/
theorem Always.induct {A I : List ι → List ο → σ → Prop} {L : ι → Prop}
    (hstep : ∀ {l tr t a out u}, L a → I l tr t → M.step t a = some (out, u) →
      A (l ++ [a]) (tr ++ out) u → I (l ++ [a]) (tr ++ out) u)
    (hL : ∀ a ∈ as, L a) (hs : I [] [] s) (hA : M.Always A s as) : M.Always I s as := by
  intro pre
  induction pre using List.reverseRecOn with
  | nil =>
    intro _ tr t h
    cases h
    exact hs
  | append_singleton pre a ih =>
    intro hpre tr u h
    obtain ⟨tr, t, out, hrun, ha, rfl⟩ := run_concat_eq_some.mp h
    have hI := ih ((List.prefix_append pre [a]).trans hpre) tr t hrun
    exact hstep (hL a (hpre.subset (by simp))) hI ha (hA _ hpre _ _ h)

/-- What every step preserves of the history so far holds of every run's history. -/
theorem run_history {I : List ι → List ο → σ → Prop} {L : ι → Prop}
    (hstep : ∀ {l tr t a out u}, L a → I l tr t → M.step t a = some (out, u) →
      I (l ++ [a]) (tr ++ out) u)
    (hL : ∀ a ∈ as, L a) (hs : I [] [] s) (h : M.run s as = some (tr, t)) : I as tr t := by
  have hA : M.Always (fun _ _ _ => True) s as := fun _ _ _ _ _ => trivial
  exact Always.induct (fun ha hI hstep' _ => hstep ha hI hstep') hL hs hA as List.prefix_rfl tr t h

/-- The exact condition of a history property. `I` is an invariant of the histories that
implies `P`; a step that meets `C` keeps it, and a step that does not is enabled and breaks
`P` at once. -/
theorem always_iff_along {I P : List ι → List ο → σ → Prop} {C : σ → ι → Prop} {L : ι → Prop}
    (hP : ∀ {l tr s}, I l tr s → P l tr s)
    (good : ∀ {l tr s a out t}, L a → I l tr s → C s a → M.step s a = some (out, t) →
      I (l ++ [a]) (tr ++ out) t)
    (bad : ∀ {l tr s a}, L a → I l tr s → ¬C s a → ∃ out t, M.step s a = some (out, t) ∧
      ¬P (l ++ [a]) (tr ++ out) t)
    (hL : ∀ a ∈ as, L a) (hs : I [] [] s) : M.Always P s as ↔ M.Along C s as := by
  suffices H : ∀ l tr s, I l tr s →
      (M.Always (fun l' tr' => P (l ++ l') (tr ++ tr')) s as ↔ M.Along C s as) by
    simpa using H [] [] s hs
  clear hs s
  induction as with
  | nil =>
    intro l tr s hs
    refine ⟨fun _ => trivial, fun _ pre hpre tr' t hrun => ?_⟩
    cases List.prefix_nil.mp hpre
    cases hrun
    simpa using hP hs
  | cons a as ih =>
    intro l tr s hs
    have ha := hL a (.head _)
    have ih := ih fun b hb => hL b (.tail _ hb)
    constructor
    · intro h
      have hC : C s a := by
        by_contra hC
        obtain ⟨out, t, hstep, hbad⟩ := bad ha hs hC
        exact hbad (h [a] ⟨as, rfl⟩ out t (run_singleton hstep))
      refine ⟨hC, fun out t hstep => (ih _ _ t (good ha hs hC hstep)).mp ?_⟩
      intro pre hpre tr' u hrun
      have := h (a :: pre) (List.cons_prefix_cons.mpr ⟨rfl, hpre⟩) _ u (run_cons hstep hrun)
      simpa using this
    · rintro ⟨hC, hrest⟩ pre hpre tr' u hrun
      cases pre with
      | nil =>
        cases hrun
        simpa using hP hs
      | cons b pre =>
        obtain ⟨rfl, hpre'⟩ := List.cons_prefix_cons.mp hpre
        obtain ⟨out, t, rest, hstep, hrun', rfl⟩ := run_cons_eq_some.mp hrun
        have := (ih _ _ t (good ha hs hC hstep)).mpr (hrest out t hstep) pre hpre' rest u hrun'
        simpa using this

/-- As `run_history`, where the step may use which run led to its state. -/
theorem run_history_of_run {I : List ι → List ο → σ → Prop}
    (hstep : ∀ {l tr t a out u}, M.run s l = some (tr, t) → I l tr t →
      M.step t a = some (out, u) → I (l ++ [a]) (tr ++ out) u)
    (hs : I [] [] s) (h : M.run s as = some (tr, t)) : I as tr t := by
  have hboth : M.run s as = some (tr, t) ∧ I as tr t := by
    refine run_history (I := fun l tr t => M.run s l = some (tr, t) ∧ I l tr t)
      (L := fun _ => True) ?_ (fun _ _ => trivial) ⟨rfl, hs⟩ h
    intro l tr t a out u _ ⟨hrun, hI⟩ ha
    exact ⟨run_append hrun (run_singleton ha), hstep hrun hI ha⟩
  exact hboth.2

/-! ## Values of the steps of a run -/

/-- The values of `f` at the steps of a run, each in the state it is taken from. -/
def collect (M : Machine σ ι ο) (f : σ → ι → β) : σ → List ι → List β
  | _, [] => []
  | s, a :: as => f s a :: ((M.step s a).map fun (_, t) => M.collect f t as).getD []

/-- The sum of `f` over the steps of a run. -/
def total (M : Machine σ ι ο) (f : σ → ι → Nat) (s : σ) (as : List ι) : Nat :=
  (M.collect f s as).sum

theorem collect_cons {f : σ → ι → β} (h : M.step s a = some (out, t)) :
    M.collect f s (a :: as) = f s a :: M.collect f t as := by
  rw [collect, h, Option.map_some, Option.getD_some]

theorem collect_singleton (f : σ → ι → β) (s : σ) (a : ι) : M.collect f s [a] = [f s a] := by
  rw [collect]
  cases M.step s a <;> rfl

theorem collect_concat {f : σ → ι → β} (h : M.run s as = some (tr, t)) (a : ι) :
    M.collect f s (as ++ [a]) = M.collect f s as ++ [f t a] := by
  induction as generalizing s tr with
  | nil =>
    cases h
    exact collect_singleton f t a
  | cons b as ih =>
    obtain ⟨out, s', rest, hstep, hrun, rfl⟩ := run_cons_eq_some.mp h
    rw [List.cons_append, collect_cons hstep, collect_cons hstep, ih hrun, List.cons_append]

theorem total_concat {f : σ → ι → Nat} (h : M.run s as = some (tr, t)) (a : ι) :
    M.total f s (as ++ [a]) = M.total f s as + f t a := by
  rw [total, collect_concat h, List.sum_append, List.sum_singleton, total]

theorem total_le_length {f : σ → ι → Nat} (hf : ∀ s a, f s a ≤ 1) (s : σ) (as : List ι) :
    M.total f s as ≤ as.length := by
  induction as generalizing s with
  | nil => exact le_rfl
  | cons a as ih =>
    have := hf s a
    rw [total, collect, List.sum_cons, List.length_cons]
    cases M.step s a with
    | none =>
      show f s a + 0 ≤ as.length + 1
      omega
    | some y =>
      have hrest : (M.collect f y.2 as).sum ≤ as.length := ih y.2
      show f s a + (M.collect f y.2 as).sum ≤ as.length + 1
      omega

/-- A sum is zero exactly when every step of the run contributes nothing. -/
theorem total_eq_zero_iff {f : σ → ι → Nat} :
    M.total f s as = 0 ↔ M.Along (fun s a => f s a = 0) s as := by
  induction as generalizing s with
  | nil => exact iff_of_true rfl trivial
  | cons a as ih =>
    rw [total, collect, List.sum_cons, Nat.add_eq_zero_iff, Along]
    refine and_congr_right fun _ => ?_
    cases hstep : M.step s a with
    | none => exact iff_of_true rfl fun _ _ h => nomatch h
    | some y =>
      refine ih.trans ⟨fun h out t ht => ?_, fun h => h y.1 y.2 rfl⟩
      cases ht
      exact h

/-! ## Positions in a history -/

/-- `x` occurs in the list behind a prefix that satisfies `P`. -/
def OccursAfter (P : List α → Prop) (x : α) (as : List α) : Prop :=
  ∃ pre post, as = pre ++ x :: post ∧ P pre

theorem occursAfter_concat {P : List α → Prop} {x a : α} {as : List α} :
    OccursAfter P x (as ++ [a]) ↔ OccursAfter P x as ∨ a = x ∧ P as := by
  constructor
  · rintro ⟨pre, post, h, hP⟩
    rcases List.eq_nil_or_concat post with rfl | ⟨post, b, rfl⟩
    · obtain ⟨rfl, ha⟩ := List.append_inj' h rfl
      exact .inr ⟨List.head_eq_of_cons_eq ha, hP⟩
    · rw [List.concat_eq_append, ← List.cons_append, ← List.append_assoc] at h
      exact .inl ⟨pre, post, (List.append_inj' h rfl).1, hP⟩
  · rintro (⟨pre, post, rfl, hP⟩ | ⟨rfl, hP⟩)
    · exact ⟨pre, post ++ [a], by simp, hP⟩
    · exact ⟨as, [], rfl, hP⟩

/-! ## Two machines in lock step -/

/-- Results of two runs: both undefined, or the same observations and related states. -/
abbrev SameUpTo (R : σ → τ → Prop) : Option (List ο × σ) → Option (List ο × τ) → Prop :=
  Option.Rel fun x y => x.1 = y.1 ∧ R x.2 y.2

/-- From related states the two machines take the steps that meet `C` together. -/
def LockStep (M : Machine σ ι ο) (N : Machine τ ι ο) (R : σ → τ → Prop) (C : σ → ι → Prop) :
    Prop :=
  ∀ {s t a}, R s t → C s a → SameUpTo R (M.step s a) (N.step t a)

theorem LockStep.run {R : σ → τ → Prop} {C : σ → ι → Prop} (H : M.LockStep N R C)
    (hR : R s t) (hC : M.Along C s as) : SameUpTo R (M.run s as) (N.run t as) := by
  induction as generalizing s t with
  | nil => exact .some ⟨rfl, hR⟩
  | cons a as ih =>
    have hstep := H hR hC.1
    simp only [Machine.run]
    cases hs : M.step s a <;> cases ht : N.step t a <;> rw [hs, ht] at hstep <;>
      rcases hstep with hstep | _
    case none.none => exact .none
    case some.some x y =>
      obtain ⟨out, s'⟩ := x
      obtain ⟨out', t'⟩ := y
      obtain ⟨rfl, hR'⟩ := hstep
      have hrest := ih hR' (hC.2 out s' hs)
      simp only [Option.bind_some]
      cases hms : M.run s' as <;> cases hnt : N.run t' as <;> rw [hms, hnt] at hrest <;>
        rcases hrest with hrest | _
      case none.none => exact .none
      case some.some =>
        exact .some ⟨congrArg (out ++ ·) hrest.1, hrest.2⟩

theorem SameUpTo.cases {R : σ → τ → Prop} {x : Option (List ο × σ)} {y : Option (List ο × τ)}
    (h : SameUpTo R x y) :
    x = none ∧ y = none ∨ ∃ out s t, x = some (out, s) ∧ y = some (out, t) ∧ R s t := by
  cases h with
  | none => exact .inl ⟨rfl, rfl⟩
  | @some x y h => exact .inr ⟨x.1, x.2, y.2, rfl, congrArg some (Prod.ext h.1.symm rfl), h.2⟩

/-- Machines in lock step stay so when they emit something else, the same from related states. -/
theorem LockStep.emit {R : σ → τ → Prop} {C : σ → ι → Prop} {f : σ → ι → List ο → σ → List ο'}
    {g : τ → ι → List ο → τ → List ο'} (H : M.LockStep N R C)
    (hfg : ∀ {s t s' t'} (a out), R s t → R s' t' → f s a out s' = g t a out t') :
    (M.emit f).LockStep (N.emit g) R C := by
  intro s t a hR hC
  simp only [Machine.emit]
  rcases (H hR hC).cases with ⟨hs, ht⟩ | ⟨out, s', t', hs, ht, hR'⟩ <;> rw [hs, ht]
  · exact .none
  · exact .some ⟨hfg a out hR hR', hR'⟩

theorem SameUpTo.exists_right {R : σ → τ → Prop} {y : Option (List ο × τ)}
    (h : SameUpTo R (some (tr, s)) y) : ∃ t, y = some (tr, t) ∧ R s t := by
  cases h with
  | @some _ y h => exact ⟨y.2, congrArg some (Prod.ext h.1.symm rfl), h.2⟩

theorem SameUpTo.exists_left {R : σ → τ → Prop} {x : Option (List ο × σ)}
    (h : SameUpTo R x (some (tr, t))) : ∃ s, x = some (tr, s) ∧ R s t := by
  cases h with
  | @some x _ h => exact ⟨x.2, congrArg some (Prod.ext h.1 rfl), h.2⟩

end Machine
