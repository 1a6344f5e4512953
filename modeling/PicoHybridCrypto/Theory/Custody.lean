import Mathlib.Data.Finset.Card
import Mathlib.Data.List.ReduceOption
import PicoHybridCrypto.Theory.Ledger
import PicoHybridCrypto.Theory.Machine

/-! # What a program holds

A log of acquisitions and releases, read as a program that may acquire only what it does not hold,
release only what it holds, and hold at most `cap` things at a time. A log that runs from nothing
to nothing has no leak, no double release and no release of something never acquired. -/

set_option autoImplicit true

namespace Custody

variable {ρ : Type*} [DecidableEq ρ]

def machine (cap : Nat) : Machine (Finset ρ) (Ledger.Entry ρ) Empty where
  step held
    | .acquire r => if r ∉ held ∧ held.card < cap then some ([], insert r held) else none
    | .release r => if r ∈ held then some ([], held.erase r) else none

/-- The log is in order, and leads from holding `held` to holding `held'`. -/
def Leads (cap : Nat) (held : Finset ρ) (log : List (Ledger.Entry ρ)) (held' : Finset ρ) : Prop :=
  (machine cap).run held log = some ([], held')

variable {cap : Nat} {held held' held'' : Finset ρ} {log log' : List (Ledger.Entry ρ)} {r : ρ}

theorem Leads.nil : Leads cap held [] held := rfl

theorem Leads.append (h : Leads cap held log held') (h' : Leads cap held' log' held'') :
    Leads cap held (log ++ log') held'' := Machine.run_append h h'

theorem Leads.acquire (h : r ∉ held) (hcap : held.card < cap) :
    Leads cap held [.acquire r] (insert r held) := Machine.run_singleton (if_pos ⟨h, hcap⟩)

theorem Leads.release (h : r ∈ held) : Leads cap held [.release r] (held.erase r) :=
  Machine.run_singleton (if_pos h)

theorem leads_append_iff :
    Leads cap held (log ++ log') held'' ↔
      ∃ held', Leads cap held log held' ∧ Leads cap held' log' held'' := by
  constructor
  · intro h
    obtain ⟨tr, mid, tr', hlog, hlog', -⟩ := Machine.run_append_eq_some.mp h
    obtain rfl : tr = [] := List.eq_nil_iff_forall_not_mem.mpr fun e => e.elim
    obtain rfl : tr' = [] := List.eq_nil_iff_forall_not_mem.mpr fun e => e.elim
    exact ⟨mid, hlog, hlog'⟩
  · rintro ⟨mid, hlog, hlog'⟩
    exact hlog.append hlog'

theorem Leads.unique (h : Leads cap held log held') (h' : Leads cap held log held'') :
    held' = held'' :=
  (Prod.mk.inj (Option.some.inj (h.symm.trans h'))).2

/-- Several different things, none of them held yet. -/
theorem Leads.acquires {rs : List ρ} (hrs : rs.Nodup) (h : ∀ r ∈ rs, r ∉ held)
    (hcap : held.card + rs.length ≤ cap) :
    Leads cap held (rs.map .acquire) (held ∪ rs.toFinset) := by
  induction rs generalizing held with
  | nil => simpa using Leads.nil
  | cons r rs ih =>
    obtain ⟨hr, hrs⟩ := List.nodup_cons.mp hrs
    have hfresh : r ∉ held := h r (.head _)
    rw [List.length_cons] at hcap
    have hrest : Leads cap (insert r held) (rs.map .acquire) (insert r held ∪ rs.toFinset) := by
      refine ih hrs (fun q hq hmem => ?_) ?_
      · rcases Finset.mem_insert.mp hmem with rfl | hmem
        · exact hr hq
        · exact h q (.tail _ hq) hmem
      · rw [Finset.card_insert_of_notMem hfresh]
        omega
    have hset : held ∪ (r :: rs).toFinset = insert r held ∪ rs.toFinset := by
      rw [List.toFinset_cons, Finset.union_insert, Finset.insert_union]
    rw [hset]
    exact (Leads.acquire hfresh (by omega)).append hrest

theorem Leads.releases {rs : List ρ} (hrs : rs.Nodup) (h : ∀ r ∈ rs, r ∈ held) :
    Leads cap held (rs.map .release) (held \ rs.toFinset) := by
  induction rs generalizing held with
  | nil => simpa using Leads.nil
  | cons r rs ih =>
    obtain ⟨hr, hrs⟩ := List.nodup_cons.mp hrs
    have hrest : Leads cap (held.erase r) (rs.map .release) (held.erase r \ rs.toFinset) := by
      refine ih hrs fun q hq => Finset.mem_erase.mpr ⟨?_, h q (.tail _ hq)⟩
      rintro rfl
      exact hr hq
    have hset : held \ (r :: rs).toFinset = held.erase r \ rs.toFinset := by
      rw [List.toFinset_cons, Finset.sdiff_insert, Finset.erase_sdiff_comm]
    rw [hset]
    exact (Leads.release (h r (.head _))).append hrest

/-- Things are acquired and released again, in whatever order. -/
theorem Leads.roundTrip {rs rs' : List ρ} (hrs : rs.Nodup) (h : ∀ r ∈ rs, r ∉ held)
    (hcap : held.card + rs.length ≤ cap) (hperm : rs'.Perm rs) :
    Leads cap held (Ledger.log rs rs') held := by
  have hreleases : Leads cap (held ∪ rs.toFinset) (rs'.map .release)
      ((held ∪ rs.toFinset) \ rs'.toFinset) :=
    Leads.releases (hperm.nodup_iff.mpr hrs) fun r hr =>
      Finset.mem_union_right _ (List.mem_toFinset.mpr (hperm.subset hr))
  have hback : (held ∪ rs.toFinset) \ rs'.toFinset = held := by
    rw [List.toFinset_eq_of_perm _ _ hperm, Finset.union_sdiff_right]
    refine Finset.sdiff_eq_self_of_disjoint (Finset.disjoint_left.mpr fun r hr hr' => ?_)
    exact h r (List.mem_toFinset.mp hr') hr
  rw [hback] at hreleases
  exact (Leads.acquires hrs h hcap).append hreleases

/-- What is released was held or has been acquired. -/
theorem Leads.mem_of_release (h : Leads cap held log held') (hr : .release r ∈ log) :
    r ∈ held ∨ .acquire r ∈ log := by
  refine Machine.run_history
    (I := fun log _ mid => ∀ r, .release r ∈ log ∨ r ∈ mid → r ∈ held ∨ .acquire r ∈ log)
    (L := fun _ => True) ?_ (fun _ _ => trivial) ?_ h r (.inl hr)
  · intro log _ mid entry _ _ _ ih hstep r hr
    rw [List.mem_append]
    suffices hbefore : .release r ∈ log ∨ r ∈ mid ∨ entry = .acquire r by
      rcases or_assoc.mpr hbefore with hbefore | rfl
      · exact (ih r hbefore).imp_right .inl
      · exact .inr (.inr (.head _))
    cases entry with
    | acquire q =>
      obtain ⟨-, hmid⟩ := Option.ite_none_right_eq_some.mp hstep
      obtain ⟨-, rfl⟩ := Prod.mk.inj (Option.some.inj hmid)
      rcases hr with hr | hr
      · exact .inl (by simpa using hr)
      · rcases Finset.mem_insert.mp hr with rfl | hr
        · exact .inr (.inr rfl)
        · exact .inr (.inl hr)
    | release q =>
      obtain ⟨hq, hmid⟩ := Option.ite_none_right_eq_some.mp hstep
      obtain ⟨-, rfl⟩ := Prod.mk.inj (Option.some.inj hmid)
      rcases hr with hr | hr
      · rcases List.mem_append.mp hr with hr | hr
        · exact .inl hr
        · obtain rfl : r = q := by simpa using hr
          exact .inr (.inl hq)
      · exact .inr (.inl (Finset.mem_of_mem_erase hr))
  · exact fun r hr => .inl (hr.resolve_left List.not_mem_nil)

/-! ## Programs that start with nothing -/

theorem Leads.acquires_empty {rs : List ρ} (hrs : rs.Nodup) (hcap : rs.length ≤ cap) :
    Leads cap ∅ (rs.map .acquire) rs.toFinset := by
  have hleads : Leads cap ∅ (rs.map .acquire) (∅ ∪ rs.toFinset) :=
    .acquires hrs (fun _ _ => Finset.notMem_empty _) (by simpa using hcap)
  rwa [Finset.empty_union] at hleads

theorem Leads.roundTrip_empty {rs rs' : List ρ} (hrs : rs.Nodup) (hcap : rs.length ≤ cap)
    (hperm : rs'.Perm rs) : Leads cap ∅ (Ledger.log rs rs') ∅ :=
  .roundTrip hrs (fun _ _ => Finset.notMem_empty _) (by simpa using hcap) hperm

/-- A log that acquires some of what it then releases is in order exactly if that is all of it. -/
theorem leads_log_iff {rs rs' : List ρ} (hrs : rs.Nodup) (hrs' : rs'.Nodup) (hsub : rs ⊆ rs')
    (hcap : rs.length ≤ cap) :
    Leads cap ∅ (Ledger.log rs rs') held' ↔ rs' ⊆ rs ∧ held' = ∅ := by
  have hback (hall : rs' ⊆ rs) : Leads cap ∅ (Ledger.log rs rs') ∅ :=
    .roundTrip_empty hrs hcap
      ((List.perm_ext_iff_of_nodup hrs' hrs).mpr fun r => ⟨@hall r, @hsub r⟩)
  constructor
  · intro hleads
    have hall : rs' ⊆ rs := by
      intro r hr
      have hacquired := hleads.mem_of_release (Ledger.release_mem_log.mpr hr)
      exact Ledger.acquire_mem_log.mp (hacquired.resolve_left (Finset.notMem_empty r))
    exact ⟨hall, hleads.unique (hback hall)⟩
  · rintro ⟨hall, rfl⟩
    exact hback hall

end Custody
