/-
How often a scalar changes.

Observations of one site are merged into the scalar that stands for it, one after the other.  A
merge that changes the scalar adds candidates to its VALUE, or widens its VALUE to `ANYTHING`, or
widens its TYPE to `Any`.  The limit on sets bounds how often that can happen.

* **`Slot.leeway`**, **`Store.leeway`** — how often a slot, or a scalar, can still change;
* **`Infer.mergeSlots_advances`** — a merge of slots gives back the left one or leaves less leeway;
* **`Infer.merge_advances`** — and so does a merge of scalars;
* **`Infer.Observing`** — observations that are merged one after the other, where the store may be
  changed in between;
* **`Infer.scalar_changes_le`** — under a limit of `m ≥ 1` they change a scalar at most `m + 1`
  times.

The limit is about new sets only.  A scalar that starts with a larger set keeps it until the first
observation that is not in it, and then it is `ANYTHING`.
-/
import ValueInference.Proofs.Becoming
import ValueInference.Proofs.Joined
import ValueInference.Proofs.KnownSlots
import ValueInference.Proofs.Stability

namespace ValueInference

/-! ### Leeway of slots -/

/-- How often a slot can still change while sets have at most `m` candidates: a set can grow, and
what is known can become `ANYTHING`. -/
def Slot.leeway (m : Nat) (v : Slot) : Nat :=
  if v = .anything then 0 else max 1 (m + 1 - (Infer.candidatesOf v).length)

namespace Slot

variable {m : Nat} {v w : Slot}

@[simp] theorem leeway_anything : Slot.anything.leeway m = 0 := rfl

theorem leeway_pos (hv : v ≠ .anything) : 0 < v.leeway m := by
  rw [leeway, if_neg hv]
  omega

/-- More candidates leave less leeway. -/
theorem leeway_lt (hv : v ≠ .anything)
    (hlt : (Infer.candidatesOf v).length < (Infer.candidatesOf w).length)
    (hle : (Infer.candidatesOf w).length ≤ m) : w.leeway m < v.leeway m := by
  by_cases hw : w = .anything
  · rw [hw]
    exact leeway_pos hv
  · rw [leeway, leeway, if_neg hv, if_neg hw]
    omega

theorem leeway_le (hm : 1 ≤ m) (hv : v ≠ .anything → Infer.candidatesOf v ≠ []) :
    v.leeway m ≤ m := by
  rw [leeway]
  split
  · exact Nat.zero_le m
  · next hany =>
    have hpos := List.length_pos_iff.mpr (hv hany)
    omega

theorem Reordered.leeway_eq (h : v.Reordered w) : v.leeway m = w.leeway m := by
  cases h with
  | same => rfl
  | possibilities hperm =>
    have hlength := hperm.length_eq
    simp [leeway, Infer.candidatesOf, hlength]

end Slot

theorem Candidate.Fits.constant {ty : Ty} {c : Candidate} (h : c.Fits ty) :
    c.constant?.isSome = true := by
  cases c with
  | constant d => rfl
  | function f => exact h.elim

namespace Store

variable {s t u : Store} {m : Nat} {v w x : Slot} {ps qs : List Candidate} {n : NodeId} {ty : Ty}

theorem waitsOn_eq_none : s.waitsOn v = none ↔ ∀ p, s.resolve v ≠ .pending p := by
  rw [waitsOn]
  cases s.resolve v <;> simp

theorem waitsOn_of_known (hv : v.pendings = []) : s.waitsOn v = none :=
  waitsOn_eq_none.mpr (Infer.not_pending_of_known hv)

/-- What a slot is known to be lasts. -/
theorem Lasts.resolve_eq (h : Lasts (fun _ => True) s t) (hv : s.waitsOn v = none) :
    t.resolve v = s.resolve v := by
  have hfollow : ∀ fuel w, (∀ p, s.follow fuel w ≠ .pending p) →
      t.follow fuel w = s.follow fuel w := by
    intro fuel
    induction fuel with
    | zero => exact fun w _ => (follow_zero t w).trans (follow_zero s w).symm
    | succ fuel ih =>
      intro w hw
      cases w with
      | pending p =>
        cases hp : s.result? p with
        | none => exact absurd (by rw [follow, hp]) (hw p)
        | some slot =>
          rw [follow, hp] at hw
          rw [follow, follow, hp, h.result p trivial slot hp]
          exact ih slot hw
      | _ => rfl
  have hknown := waitsOn_eq_none.mp hv
  have hsame := hfollow _ v hknown
  refine (resolve_of_final ?_).trans hsame
  rw [hsame]
  exact fun p hp => absurd hp (hknown p)

theorem Continues.lasts (h : s.Continues t) : Lasts (fun _ => True) s t := by
  induction h with
  | refl => exact .refl s
  | step c _ _ ih => exact ih.trans (lasts_change c)

theorem Continues.trans (h : s.Continues t) (h' : t.Continues u) : s.Continues u := by
  induction h' with
  | refl => exact h
  | step c _ hc ih => exact .step c ih hc

/-! ### Counting candidates -/

theorem length_lt_addCandidates (h : s.isSubset qs ps = false) :
    ps.length < (s.addCandidates ps qs).length := by
  have hprefix : ps <+: s.addCandidates ps qs := by
    rw [addCandidates_eq_addNew]
    exact prefix_addNew
  refine Nat.lt_of_le_of_ne hprefix.length_le fun hlength => ?_
  have hsame := hprefix.eq_of_length hlength
  have hsub : s.isSubset qs ps = true := isSubset_of_addCandidates (hsame ▸ s.isSubset_self _)
  rw [h] at hsub
  exact absurd hsub Bool.false_ne_true

theorem nodup_addCandidates (hps : ps.Nodup) : (s.addCandidates ps qs).Nodup := by
  rw [addCandidates_eq_addNew]
  refine pairwise_addNew (fun c d hcd => ?_) hps
  rintro rfl
  exact hcd (s.equalCandidates_refl c)

/-- A constant equals no other candidate. -/
theorem eq_of_equalCandidates_constant {c : Constant} {d : Candidate}
    (h : s.equalCandidates (.constant c) d = true) : d = .constant c := by
  have hfounded : s.FoundedIn (.constant c) := fun n hn => absurd hn List.not_mem_nil
  have halike := (equalCandidates_iff hfounded).mp h
  cases d with
  | constant e => exact congrArg Candidate.constant (Eq.symm halike)
  | function f => exact halike.elim

/-- A set is smaller than one of constants that has more in it. -/
theorem length_lt_of_isSubset (hps : ps.Nodup) (hqs : ∀ d ∈ qs, d.constant?.isSome = true)
    (hsub : s.isSubset ps qs = true) (hnot : s.isSubset qs ps = false) :
    ps.length < qs.length := by
  have hmem : ps ⊆ qs := by
    intro c hc
    obtain ⟨d, hd, hdc⟩ := List.any_eq_true.mp (isSubset_iff_forall.mp hsub c hc)
    cases d with
    | constant e => exact eq_of_equalCandidates_constant hdc ▸ hd
    | function f => exact absurd (hqs _ hd) Bool.false_ne_true
  have hsubperm := hps.subperm hmem
  refine Nat.lt_of_le_of_ne hsubperm.length_le fun hlength => ?_
  have hperm := hsubperm.perm_of_length_le (Nat.le_of_eq hlength.symm)
  have hsame : s.isSubset qs ps = true :=
    isSubset_iff_forall.mpr fun c hc => hasCandidate_of_mem (hperm.mem_iff.mpr hc)
  rw [hnot] at hsame
  exact absurd hsame.symm Bool.false_ne_true.symm

theorem HoldsSlot.nodup (hs : s.Sound) (hv : s.HoldsSlot v) :
    (Infer.candidatesOf (s.resolve v)).Nodup := by
  cases hr : s.resolve v with
  | constant c => exact List.nodup_singleton _
  | possibilities p => exact (hs.sets p (hv.resolved hr)).distinct
  | _ => exact List.nodup_nil

/-! ### Leeway of scalars -/

/-- How often a scalar can still change: its type does so once at most. -/
def leeway (s : Store) (m : Nat) (n : NodeId) : Nat :=
  match s.kind n with
  | .scalar v ty => (s.resolve v).leeway m + if ty = .any then 0 else 1
  | _ => 0

theorem leeway_of_scalar (h : s.kind n = .scalar v ty) :
    s.leeway m n = (s.resolve v).leeway m + if ty = .any then 0 else 1 := by
  rw [leeway, h]

/-- A node is a scalar whose VALUE is known. -/
def KnownScalar (s : Store) (n : NodeId) : Prop :=
  ∃ v ty, s.kind n = .scalar v ty ∧ s.waitsOn v = none

/-- Known scalars stay what they are. -/
theorem KnownScalar.continues (h : s.KnownScalar n) (ht : s.Continues t) :
    t.KnownScalar n ∧ t.leeway m n = s.leeway m n := by
  obtain ⟨v, ty, hk, hv⟩ := h
  have hlasts := ht.lasts
  have hk' : t.kind n = .scalar v ty :=
    (hlasts.kind n (isComplete_of_kind hk nofun)).2.trans hk
  have hresolve := hlasts.resolve_eq hv
  refine ⟨⟨v, ty, hk', ?_⟩, ?_⟩
  · rwa [waitsOn, hresolve, ← waitsOn]
  · rw [leeway_of_scalar hk', leeway_of_scalar hk, hresolve]

theorem leeway_le (hm : 1 ≤ m) (hk : s.kind n = .scalar v ty)
    (hv : s.resolve v ≠ .anything → Infer.candidatesOf (s.resolve v) ≠ []) :
    s.leeway m n ≤ m + 1 := by
  have hvalue := Slot.leeway_le hm hv
  rw [leeway_of_scalar hk]
  split <;> omega

/-! ### Merges of slots -/

/-- What a relaxed merge leaves for two known slots: the left slot, or one with less leeway, unless
this is no set of constants. -/
structure SlotAdvances (s t : Store) (m : Nat) (v x : Slot) : Prop where
  continues : s.Continues t
  admitted : t.AdmitsSlot x
  less : x = v ∨ x.pendings = [] ∧
    ((∀ c ∈ Infer.candidatesOf x, c.constant?.isSome = true) →
      x.leeway m < (s.resolve v).leeway m)

namespace SlotAdvances

theorem left (hs : s.Sound) (hv : s.HoldsSlot v) : s.SlotAdvances s m v v :=
  ⟨.refl, fun p hp => hs.sets p (hv p hp), .inl rfl⟩

theorem anything (hv : s.resolve v ≠ .anything) (ht : s.Continues t) :
    s.SlotAdvances t m v .anything :=
  ⟨ht, nofun, .inr ⟨rfl, fun _ => Slot.leeway_pos hv⟩⟩

end SlotAdvances

theorem continues_record (s : Store) (d : Diagnostic) : s.Continues (s.record d) :=
  .step (.record d) .refl trivial

end Store

namespace Infer

open Store

variable {s t u : Store} {a b r : NodeId} {v w x : Slot} {ty ty' : Ty} {scope : MergeScope} {m : Nat}

theorem mergeCandidates_advances (hs : s.Sound) (hv : s.HoldsSlot v) (hw : s.HoldsSlot w)
    (hlimit : scope.config.maxPossibilities = m) (hknown : w.pendings = [])
    (hconstants : ∀ c ∈ candidatesOf w, c.constant?.isSome = true)
    (hsize : (candidatesOf w).length ≤ m) (hany : s.resolve v ≠ .anything)
    (h : (mergeCandidates scope false v w (s.resolve v) w).outcome s = (.ok x, t)) :
    s.SlotAdvances t m v x := by
  have hnodup := hv.nodup hs
  rw [mergeCandidates, outcome_store_bind] at h
  dsimp only at h
  by_cases hleft : s.isSubset (candidatesOf w) (candidatesOf (s.resolve v)) = true
  · rw [if_pos hleft] at h
    cases h
    exact .left hs hv
  rw [if_neg hleft, if_neg Bool.false_ne_true] at h
  rw [Bool.not_eq_true] at hleft
  by_cases hright : s.isSubset (candidatesOf (s.resolve v)) (candidatesOf w) = true
  · rw [if_pos hright] at h
    cases h
    -- the observation is given back, which is larger and within the limit
    refine ⟨.refl, fun p hp => hs.sets p (hw p hp), .inr ⟨hknown, fun _ => ?_⟩⟩
    have hlt := length_lt_of_isSubset hnodup hconstants hright hleft
    exact Slot.leeway_lt hany hlt hsize
  rw [if_neg hright] at h
  split at h
  · cases h
    exact .anything hany (s.continues_record _)
  · next hsmall =>
    cases h
    refine ⟨.step .token .refl trivial, ?_, .inr ⟨rfl, fun hall => ?_⟩⟩
    · rintro p ⟨⟩
      exact hs.admits_new (nodup_addCandidates hnodup)
    · refine Slot.leeway_lt hany (length_lt_addCandidates hleft) ?_
      -- a set of constants that was made is within the limit
      have hmade : ∀ c ∈ s.addCandidates (candidatesOf (s.resolve v)) (candidatesOf w),
          c.constant?.isSome = true := hall
      rw [List.all_eq_true.mpr hmade, Bool.true_and, decide_eq_true_iff, hlimit] at hsmall
      exact Nat.not_lt.mp hsmall

/-- **A merge of slots** gives back the left one, or leaves less leeway. -/
theorem mergeSlots_advances (hs : s.Sound) (hv : s.HoldsSlot v) (hw : s.HoldsSlot w)
    (hlimit : scope.config.maxPossibilities = m) (hknown : w.pendings = [])
    (hconstants : ∀ c ∈ candidatesOf w, c.constant?.isSome = true)
    (hsize : (candidatesOf w).length ≤ m) (hwaits : s.waitsOn v = none)
    (h : (mergeSlots scope false v w).outcome s = (.ok x, t)) : s.SlotAdvances t m v x := by
  have hresolve := s.resolve_self w hknown
  have hcandidates := mergeCandidates_advances (x := x) (t := t) hs hv hw hlimit hknown hconstants
    hsize
  rw [mergeSlots, outcome_store_bind, hresolve] at h
  dsimp only at h
  cases hrv : s.resolve v with
  | pending p => exact absurd hrv (waitsOn_eq_none.mp hwaits p)
  | anything =>
    rw [hrv] at h
    cases h
    exact .left hs hv
  | constant c =>
    have hany : s.resolve v ≠ .anything := by
      rw [hrv]
      simp
    cases w with
    | pending p => cases hknown
    | anything =>
      rw [hrv] at h
      cases h
      exact .anything hany .refl
    | constant d =>
      rw [hrv] at h
      dsimp only at h
      -- equal constants leave the slot; others widen it to anything
      by_cases hcd : c = d
      · rw [if_pos hcd] at h
        cases h
        exact .left hs hv
      rw [if_neg hcd, if_neg Bool.false_ne_true] at h
      split at h
      · cases h
        exact .anything hany (s.continues_record _)
      · cases h
    | possibilities q =>
      rw [hrv] at h hcandidates
      exact hcandidates (by simp) h
  | possibilities p =>
    have hany : s.resolve v ≠ .anything := by
      rw [hrv]
      simp
    cases w with
    | pending q => cases hknown
    | anything =>
      rw [hrv] at h
      cases h
      exact .anything hany .refl
    | constant d =>
      rw [hrv] at h hcandidates
      exact hcandidates (by simp) h
    | possibilities q =>
      rw [hrv] at h hcandidates
      exact hcandidates (by simp) h

/-! ### Merges of scalars -/

theorem mergeTypes_advances {joined : Ty} (h : (mergeTypes false ty ty').outcome s = (.ok joined, t)) :
    s.Continues t ∧ (joined = ty ∨ ty ≠ .any ∧ joined = .any) := by
  rw [mergeTypes] at h
  split at h
  · cases h
    exact ⟨.refl, .inl rfl⟩
  · next hcover =>
    cases h
    exact ⟨s.continues_record _, .inr ⟨fun hany => hcover (.inr hany), rfl⟩⟩

/-- A node that was made of a scalar with a known VALUE has the same leeway. -/
theorem made_leeway (hmade : s.Made t (.scalar x ty) r) (hx : s.waitsOn x = none) :
    t.KnownScalar r ∧
      t.leeway m r = (s.resolve x).leeway m + if ty = .any then 0 else 1 := by
  have hreordered : (t.kind r).Reordered (.scalar x ty) := hmade.reordered fun ms hms => by
    have halike := hmade.alike
    rw [hms] at halike
    exact halike.elim
  obtain ⟨y, hk, hyx⟩ : ∃ y, t.kind r = .scalar y ty ∧ y.Reordered x := by
    generalize t.kind r = k at hreordered
    cases hreordered with
    | same => exact ⟨x, rfl, .same x⟩
    | scalar _ h => exact ⟨_, rfl, h⟩
  have hresolve : (t.resolve y).Reordered (s.resolve x) := by
    rw [hmade.grows.resolve_eq]
    cases hyx with
    | same => exact .same _
    | possibilities hperm =>
      rw [resolve_self s _ rfl, resolve_self s _ rfl]
      exact .possibilities hperm
  refine ⟨⟨y, ty, hk, waitsOn_eq_none.mpr fun p hp => ?_⟩, ?_⟩
  · rw [hp] at hresolve
    generalize hr : s.resolve x = z at hresolve
    cases hresolve
    exact waitsOn_eq_none.mp hx p hr
  · rw [leeway_of_scalar hk, hresolve.leeway_eq]

/-- **A merge of scalars** gives back the left one, or leaves less leeway. -/
theorem merge_advances (hs : s.Reachable) (hlimit : scope.config.maxPossibilities = m)
    (ha : s.kind a = .scalar v ty) (hwaits : s.waitsOn v = none)
    (hb : s.kind b = .scalar w ty') (hknown : w.pendings = []) (hsize : (candidatesOf w).length ≤ m)
    (h : (merge scope false a b).outcome s = (.ok r, u)) :
    s.Continues u ∧ (r = a ∨ u.KnownScalar r ∧ u.leeway m r < s.leeway m a) := by
  rw [merge, outcome_store_bind, compareDepth, Nat.mul_add_one, mergeWithin, outcome_store_bind,
    outcome_ite] at h
  split at h
  · cases h
    exact ⟨.refl, .inl rfl⟩
  rw [mergeStep, outcome_store_bind, ha, hb] at h
  dsimp only at h
  obtain ⟨joined, t₁, htypes, h⟩ := outcome_bind_ok.mp h
  obtain ⟨x, t₂, hslots, h⟩ := outcome_bind_ok.mp h
  obtain ⟨hcontinues, hjoined⟩ := mergeTypes_advances htypes
  have hgrows := (mergeTypes_widened htypes).2.1
  have hsound := (hcontinues.reachable hs).sound
  have hconstants := fun c hc => (hs.fits b w ty' hb c hc).constant
  have hslot := mergeSlots_advances hsound (hgrows.holdsSlot (holdsSlot_of_kind (by rw [ha]; rfl)))
    (hgrows.holdsSlot (holdsSlot_of_kind (by rw [hb]; rfl))) hlimit hknown hconstants hsize
    (by rwa [hgrows.waitsOn_eq]) hslots
  have htwo := hcontinues.trans hslot.continues
  rw [outcome_ite] at h
  split at h
  · cases h
    exact ⟨htwo, .inl rfl⟩
  next hchanged =>
  obtain ⟨hfault, hplace⟩ := outcome_make_ok h
  have hreach := htwo.reachable hs
  have hadmits : ∀ slot, (Kind.scalar x joined).slot? = some slot → t₂.AdmitsSlot slot := by
    rintro slot ⟨⟩
    exact hslot.admitted
  have hu : (t₂.build (.scalar x joined)).2 = u := congrArg Prod.snd h
  have hlast : t₂.Continues u := hu ▸ .step (.build (.scalar x joined)) .refl hadmits
  have hmade := make_spec hreach.sound hadmits h
  have hkept := htwo.lasts.resolve_eq hwaits
  refine ⟨htwo.trans hlast, .inr ?_⟩
  rcases hslot.less with rfl | ⟨hx, hless⟩
  · -- the VALUE is the same, so the TYPE has become `Any`
    obtain ⟨hne, rfl⟩ := hjoined.resolve_left fun hsame => hchanged ⟨hsame, rfl⟩
    obtain ⟨hscalar, hleeway⟩ := made_leeway (m := m) hmade (by rwa [waitsOn, hkept, ← waitsOn])
    rw [if_pos rfl, hkept] at hleeway
    rw [hleeway, leeway_of_scalar ha, if_neg hne]
    exact ⟨hscalar, Nat.lt_succ_self _⟩
  · obtain ⟨hscalar, hleeway⟩ := made_leeway (m := m) hmade (waitsOn_of_known hx)
    have hfits := (fault?_scalar (labels_of_fault? hfault).1).mp hfault
    have hvalue := hless fun c hc => (hfits c hc).constant
    rw [hgrows.resolve_eq] at hvalue
    rw [resolve_self t₂ x hx] at hleeway
    rw [hleeway, leeway_of_scalar ha]
    refine ⟨hscalar, Nat.add_lt_add_of_lt_of_le hvalue ?_⟩
    rcases hjoined with rfl | ⟨-, rfl⟩
    · exact Nat.le_refl _
    · exact Nat.zero_le _

/-- Without a loop, only a scalar that waits for nothing can be merged with a known one. -/
theorem waitsOn_of_merge (hloop : scope.loop = none) (ha : s.kind a = .scalar v ty)
    (hb : s.kind b = .scalar w ty') (hknown : w.pendings = [])
    (h : (merge scope false a b).outcome s = (.ok r, u)) : s.waitsOn v = none := by
  rw [waitsOn_eq_none]
  intro p hp
  obtain ⟨q, rfl⟩ : ∃ q, v = .pending q := by
    cases v with
    | pending q => exact ⟨q, rfl⟩
    | _ => cases hp.symm.trans (s.resolve_self _ rfl)
  have hfounded : s.Founded a := by
    refine .of_children (present_of_kind ha nofun) fun c hc => ?_
    rw [ha] at hc
    exact absurd hc List.not_mem_nil
  have hapart : ¬ (s.kind a).Alike s.Equals (s.kind b) := by
    rw [ha, hb]
    rintro ⟨-, halike⟩
    cases w with
    | pending q' => cases hknown
    | _ => exact halike.elim
  rw [merge, outcome_store_bind, compareDepth, Nat.mul_add_one, mergeWithin, outcome_store_bind,
    outcome_ite, if_neg, mergeStep, outcome_store_bind, ha, hb] at h
  · dsimp only at h
    obtain ⟨joined, t, htypes, h⟩ := outcome_bind_ok.mp h
    obtain ⟨x, t', hslots, -⟩ := outcome_bind_ok.mp h
    have hgrows := (mergeTypes_widened htypes).2.1
    rw [mergeSlots, outcome_store_bind, hgrows.resolve_eq, hp, resolve_self s w hknown] at hslots
    cases w with
    | pending q' => cases hknown
    | _ =>
      dsimp only at hslots
      rw [deferMerge, hloop] at hslots
      cases hslots
  · rintro (rfl | hequal)
    · exact hapart (.refl fun _ _ => s.equals_refl _)
    · rcases (equal_iff hfounded).mp hequal with rfl | ⟨-, halike⟩
      · exact hapart (.refl fun _ _ => s.equals_refl _)
      · exact hapart halike

end Infer

/-! ### Observations of one site -/

/-- The node is a scalar without a pending, whose VALUE has at most `m` candidates. -/
def Store.Observation (s : Store) (m : Nat) (n : NodeId) : Prop :=
  ∃ w ty, s.kind n = .scalar w ty ∧ w.pendings = [] ∧ (Infer.candidatesOf w).length ≤ m

namespace Infer

open Store

/-- The observations `b 0`, `b 1` and so on are merged, one after the other, into the node `s 0`,
and the first `n` of these merges succeed: merge `i` takes the store `t i` to `u i` and the node
`s i` to `s (i + 1)`.  Before the next merge the store may be changed further. -/
structure Observing (scope : MergeScope) (n : Nat) (t u : Nat → Store) (s b : Nat → NodeId) :
    Prop where
  start : (t 0).Reachable
  observed : ∀ i < n, (t i).Observation scope.config.maxPossibilities (b i)
  merged : ∀ i < n, (merge scope false (s i) (b i)).outcome (t i) = (.ok (s (i + 1)), u i)
  continues : ∀ i < n, (u i).Continues (t (i + 1))

variable {t u : Nat → Store} {s b : Nat → NodeId} {scope : MergeScope} {n m : Nat} {v : Slot}
  {ty : Ty}

/-- **Every change uses up leeway.** -/
theorem Observing.leeway_le (h : Observing scope n t u s b)
    (hlimit : scope.config.maxPossibilities = m) (hknown : (t 0).KnownScalar (s 0)) :
    ∀ k ≤ n, (t k).Reachable ∧ (t k).KnownScalar (s k) ∧
      ((Finset.range k).filter fun i => s (i + 1) ≠ s i).card + (t k).leeway m (s k) ≤
        (t 0).leeway m (s 0) := by
  intro k
  -- the changes so far and the leeway that is left come to no more than the leeway at the start
  induction k with
  | zero => exact fun _ => ⟨h.start, hknown, by simp⟩
  | succ k ih =>
    intro hk
    obtain ⟨hreach, ⟨v, ty, ha, hwaits⟩, hle⟩ := ih (Nat.le_of_succ_le hk)
    obtain ⟨w, ty', hb, hw, hsize⟩ := h.observed k hk
    obtain ⟨hcontinues, hstep⟩ := merge_advances hreach hlimit ha hwaits hb hw (hlimit ▸ hsize)
      (h.merged k hk)
    have hnext := h.continues k hk
    have hreach' := hnext.reachable (hcontinues.reachable hreach)
    rw [Finset.range_add_one, Finset.filter_insert]
    rcases hstep with hsame | ⟨hscalar, hless⟩
    · rw [if_neg (not_not.mpr hsame), hsame]
      obtain ⟨hscalar, hleeway⟩ := KnownScalar.continues (m := m) ⟨v, ty, ha, hwaits⟩
        (hcontinues.trans hnext)
      exact ⟨hreach', hscalar, hleeway ▸ hle⟩
    · obtain ⟨hscalar', hleeway⟩ := hscalar.continues (m := m) hnext
      refine ⟨hreach', hscalar', ?_⟩
      have hnew : k ∉ (Finset.range k).filter fun i => s (i + 1) ≠ s i := by simp
      split
      · rw [Finset.card_insert_of_notMem hnew]
        omega
      · omega

/-- **Widening bounds how often a scalar changes:** under a limit of `m ≥ 1`, observations of at
most `m` candidates each change it at most `m + 1` times, as long as no merge fails.  The scalar
itself may start with any set that has a candidate, as every set is made with; one that waits for a
pending is put off to the loop of the merge, if there is one. -/
theorem scalar_changes_le (hlimit : scope.config.maxPossibilities = m) (hm : 1 ≤ m)
    (h : Observing scope n t u s b) (hscalar : (t 0).kind (s 0) = .scalar v ty)
    (hsome : ∀ p, (t 0).resolve v = .possibilities p → p.candidates ≠ [])
    (hwaits : scope.loop = none ∨ (t 0).waitsOn v = none) :
    ((Finset.range n).filter fun i => s (i + 1) ≠ s i).card ≤ m + 1 := by
  rcases Nat.eq_zero_or_pos n with rfl | hn
  · exact Nat.zero_le _
  have hknown : (t 0).waitsOn v = none := by
    refine hwaits.elim (fun hloop => ?_) id
    obtain ⟨w, ty', hb, hw, -⟩ := h.observed 0 hn
    exact waitsOn_of_merge hloop hscalar hb hw (h.merged 0 hn)
  have hroom : (t 0).leeway m (s 0) ≤ m + 1 := by
    refine Store.leeway_le hm hscalar fun hany => ?_
    cases hr : (t 0).resolve v with
    | constant c => exact List.cons_ne_nil _ _
    | anything => exact absurd hr hany
    | possibilities p => exact hsome p hr
    | pending p => exact absurd hr (waitsOn_eq_none.mp hknown p)
  obtain ⟨-, -, hle⟩ := h.leeway_le hlimit ⟨v, ty, hscalar, hknown⟩ n (Nat.le_refl n)
  omega

/-- Two integers, and any floating point number. -/
def numbers : Store :=
  ofForms [.scalar (.constant (.int 1)) .i64, .scalar (.constant (.int 2)) .i64,
    .scalar .anything .f64]

/-- The limit that keeps single constants alone. -/
def oneConstant : MergeScope := { config := { maxPossibilities := 1 } }

/-- The store after the first merges of the numbers into the first one. -/
def numbersAfter : Nat → Store
  | 0 => numbers
  | i + 1 => ((merge oneConstant false ([0, 3].getD i 0) (i + 1)).outcome (numbersAfter i)).2

/-- The bound is reached: first the VALUE changes, then the TYPE. -/
theorem scalar_changes_le_numbers :
    [0, 3, 4].Nodup ∧ ((Finset.range 2).filter fun i =>
      [0, 3, 4].getD (i + 1) 0 ≠ [0, 3, 4].getD i 0).card ≤ 1 + 1 := by
  have hfirst : (numbersAfter 0).kind 0 = .scalar (.constant (.int 1)) .i64 := by decide +kernel
  have hmerges : Observing oneConstant 2 numbersAfter (fun i => numbersAfter (i + 1))
      (fun i => [0, 3, 4].getD i 0) fun i => i + 1 := by
    refine ⟨reachable_ofForms (by simp [Kind.slot?]), fun i hi => ?_, fun i hi => ?_,
      fun i _ => .refl⟩
    · obtain rfl | rfl : i = 0 ∨ i = 1 := by omega
      · exact ⟨.constant (.int 2), .i64, by decide +kernel, rfl, Nat.le_refl 1⟩
      · exact ⟨.anything, .f64, by decide +kernel, rfl, Nat.zero_le 1⟩
    · obtain rfl | rfl : i = 0 ∨ i = 1 := by omega
      · exact outcome_of_toOption (by decide +kernel)
      · exact outcome_of_toOption (by decide +kernel)
  refine ⟨by decide,
    scalar_changes_le rfl (Nat.le_refl 1) hmerges hfirst (fun p hp => ?_) (.inl rfl)⟩
  cases (resolve_self _ _ rfl).symm.trans hp

end Infer

end ValueInference
