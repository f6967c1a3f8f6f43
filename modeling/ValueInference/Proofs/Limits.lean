/-
The limit on possibility sets.

A relaxed merge of two sets of constants keeps the left one if nothing is new.  Otherwise it puts
the two together, and a result beyond the limit becomes `ANYTHING`.  There is one way past the
limit: if the right set takes in the left one, it is handed out as it is, whatever its size.

* **`Store.card_le_addCandidates`** — two sets put together have no fewer candidates than their
  union;
* **`Infer.mergeSlots_constants`** — what a relaxed merge of sets of constants gives;
* **`Infer.relaxed_within_limit`** — unless a larger set takes in the left one, the limit holds for
  every set that a relaxed merge changes the left slot to, and larger unions become `ANYTHING`.
-/
import ValueInference.Proofs.Widening

namespace ValueInference

namespace Store

variable {s t : Store} {ps qs : List Candidate} {c : Candidate} {v w : Slot}

/-! ### Sets of constants -/

/-- The slot is known, and all its candidates are constants. -/
structure KnownConstants (s : Store) (v : Slot) : Prop where
  known : s.waitsOn v = none
  constants : ∀ c ∈ Infer.candidatesOf (s.resolve v), c.constant?.isSome = true

/-- The slot stands for a possibility set. -/
def IsSet (s : Store) (v : Slot) : Prop := ∃ p, s.resolve v = .possibilities p

/-- Everything the left slot may be is on the right, with something new, and the right slot is
beyond the limit. -/
def OutgrownBy (s : Store) (limit : Nat) (v w : Slot) : Prop :=
  s.resolve v ≠ .anything ∧
    Infer.candidatesOf (s.resolve v) ⊆ Infer.candidatesOf (s.resolve w) ∧
    ¬ Infer.candidatesOf (s.resolve w) ⊆ Infer.candidatesOf (s.resolve v) ∧
    limit < (Infer.candidatesOf (s.resolve w)).length

theorem hasCandidate_constants (hps : ∀ d ∈ ps, d.constant?.isSome = true) :
    s.hasCandidate ps c = true ↔ c ∈ ps := by
  refine ⟨fun h => ?_, hasCandidate_of_mem⟩
  obtain ⟨d, hd, hdc⟩ := List.any_eq_true.mp h
  cases d with
  | constant e => exact eq_of_equalCandidates_constant hdc ▸ hd
  | function f => exact absurd (hps _ hd) Bool.false_ne_true

theorem isSubset_constants (hqs : ∀ d ∈ qs, d.constant?.isSome = true) :
    s.isSubset ps qs = true ↔ ps ⊆ qs :=
  isSubset_iff_forall.trans (forall₂_congr fun _ _ => hasCandidate_constants hqs)

theorem mem_addCandidates (hps : ∀ d ∈ ps, d.constant?.isSome = true)
    (hqs : ∀ d ∈ qs, d.constant?.isSome = true) :
    c ∈ s.addCandidates ps qs ↔ c ∈ ps ∨ c ∈ qs := by
  refine ⟨mem_of_mem_addCandidates, ?_⟩
  rintro (hc | hc)
  · exact subset_addCandidates hc
  · refine (hasCandidate_constants fun d hd => ?_).mp (hasCandidate_addCandidates c hc)
    exact (mem_of_mem_addCandidates hd).elim (hps d) (hqs d)

/-- **Two sets of constants put together** have no fewer candidates than their union. -/
theorem card_le_addCandidates (hps : ∀ d ∈ ps, d.constant?.isSome = true)
    (hqs : ∀ d ∈ qs, d.constant?.isSome = true) :
    (ps ++ qs).toFinset.card ≤ (s.addCandidates ps qs).length := by
  have hsame : (ps ++ qs).toFinset = (s.addCandidates ps qs).toFinset := by
    ext c
    rw [List.mem_toFinset, List.mem_toFinset, mem_addCandidates hps hqs, List.mem_append]
  exact hsame ▸ List.toFinset_card_le _

end Store

namespace Infer

open Store

variable {s t : Store} {scope : MergeScope} {v w x : Slot}

/-- **A relaxed merge of sets of constants,** one of which may be a single constant. -/
theorem mergeSlots_constants (hv : s.KnownConstants v) (hw : s.KnownConstants w)
    (hanyv : s.resolve v ≠ .anything) (hanyw : s.resolve w ≠ .anything)
    (hset : s.IsSet v ∨ s.IsSet w) :
    let p := candidatesOf (s.resolve v)
    let q := candidatesOf (s.resolve w)
    let union := s.addCandidates p q
    (mergeSlots scope false v w).outcome s =
      if q ⊆ p then (.ok v, s)
      else if p ⊆ q then (.ok w, s)
      else if scope.config.maxPossibilities < union.length then
        (.ok .anything, s.record (.tooLarge union.length))
      else (.ok (.possibilities ⟨s.tokens, union⟩), { s with tokens := s.tokens + 1 }) := by
  intro p q union
  have hunion : ∀ c ∈ union, c.constant?.isSome = true := fun c hc =>
    ((mem_addCandidates hv.constants hw.constants).mp hc).elim (hv.constants c) (hw.constants c)
  have hsets : (mergeSlots scope false v w).outcome s =
      (mergeCandidates scope false v w (s.resolve v) (s.resolve w)).outcome s := by
    rw [mergeSlots, outcome_store_bind]
    dsimp only
    cases hrv : s.resolve v with
    | anything => exact absurd hrv hanyv
    | pending a => exact absurd hrv (waitsOn_eq_none.mp hv.known a)
    | constant c =>
      cases hrw : s.resolve w with
      | anything => exact absurd hrw hanyw
      | pending b => exact absurd hrw (waitsOn_eq_none.mp hw.known b)
      | constant d =>
        -- neither slot is a set
        rcases hset with ⟨u, hu⟩ | ⟨u, hu⟩
        · cases hrv.symm.trans hu
        · cases hrw.symm.trans hu
      | possibilities b => rfl
    | possibilities a =>
      cases hrw : s.resolve w with
      | anything => exact absurd hrw hanyw
      | pending b => exact absurd hrw (waitsOn_eq_none.mp hw.known b)
      | constant d => rfl
      | possibilities b => rfl
  rw [hsets, mergeCandidates, outcome_store_bind]
  dsimp only
  rw [outcome_ite]
  refine if_congr (isSubset_constants hv.constants) rfl ?_
  rw [if_neg Bool.false_ne_true, outcome_ite]
  refine if_congr (isSubset_constants hw.constants) rfl ?_
  rw [outcome_ite]
  refine if_congr ?_ rfl rfl
  rw [List.all_eq_true.mpr hunion, Bool.true_and, decide_eq_true_iff]

/-- Where a slot is `ANYTHING`, or both are single constants, a relaxed merge makes no set. -/
theorem mergeSlots_settled (hv : s.waitsOn v = none) (hw : s.waitsOn w = none)
    (hsingle : s.resolve v = .anything ∨ s.resolve w = .anything ∨ ¬ (s.IsSet v ∨ s.IsSet w))
    (h : (mergeSlots scope false v w).outcome s = (.ok x, t)) : x = v ∨ x = .anything := by
  rw [mergeSlots, outcome_store_bind] at h
  dsimp only at h
  cases hrv : s.resolve v with
  | anything =>
    rw [hrv] at h
    cases h
    exact .inl rfl
  | pending a => exact absurd hrv (waitsOn_eq_none.mp hv a)
  | constant c =>
    cases hrw : s.resolve w with
    | anything =>
      rw [hrv, hrw] at h
      cases h
      exact .inr rfl
    | pending b => exact absurd hrw (waitsOn_eq_none.mp hw b)
    | constant d =>
      rw [hrv, hrw] at h
      dsimp only at h
      split at h
      · cases h
        exact .inl rfl
      rw [if_neg Bool.false_ne_true] at h
      split at h
      · cases h
        exact .inr rfl
      · cases h
    | possibilities b =>
      rcases hsingle with hany | hany | hnone
      · cases hrv.symm.trans hany
      · cases hrw.symm.trans hany
      · exact absurd (.inr ⟨b, hrw⟩) hnone
  | possibilities a =>
    cases hrw : s.resolve w with
    | anything =>
      rw [hrv, hrw] at h
      cases h
      exact .inr rfl
    | pending b => exact absurd hrw (waitsOn_eq_none.mp hw b)
    | constant d =>
      rcases hsingle with hany | hany | hnone
      · cases hrv.symm.trans hany
      · cases hrw.symm.trans hany
      · exact absurd (.inl ⟨a, hrv⟩) hnone
    | possibilities b =>
      rcases hsingle with hany | hany | hnone
      · cases hrv.symm.trans hany
      · cases hrw.symm.trans hany
      · exact absurd (.inl ⟨a, hrv⟩) hnone

/-- A set that a relaxed merge of sets of constants changes the left slot to is within the limit,
unless it is the right one. -/
theorem size_le_of_mergeSlots (hv : s.KnownConstants v) (hw : s.KnownConstants w)
    (hfits : ¬ s.OutgrownBy scope.config.maxPossibilities v w) {u : Possibilities}
    (h : (mergeSlots scope false v w).outcome s = (.ok x, t)) (hx : x ≠ v)
    (hu : t.resolve x = .possibilities u) : u.size ≤ scope.config.maxPossibilities := by
  by_cases hsets :
      s.resolve v ≠ .anything ∧ s.resolve w ≠ .anything ∧ (s.IsSet v ∨ s.IsSet w)
  · obtain ⟨hanyv, hanyw, hset⟩ := hsets
    rw [mergeSlots_constants hv hw hanyv hanyw hset] at h
    split at h
    · cases h
      exact absurd rfl hx
    next hnew =>
    split at h
    · next hright =>
      cases h
      have hsize : u.size = (candidatesOf (s.resolve w)).length := by
        rw [hu]
        rfl
      rw [hsize]
      exact Nat.not_lt.mp fun hlt => hfits ⟨hanyv, hright, hnew, hlt⟩
    split at h
    · cases h
      rw [resolve_self _ _ rfl] at hu
      cases hu
    · next hsmall =>
      cases h
      rw [resolve_self _ _ rfl] at hu
      cases hu
      exact Nat.not_lt.mp hsmall
  · have hsingle :
        s.resolve v = .anything ∨ s.resolve w = .anything ∨ ¬ (s.IsSet v ∨ s.IsSet w) := by
      by_contra hnot
      rw [not_or, not_or, not_not] at hnot
      exact hsets hnot
    obtain rfl | rfl := mergeSlots_settled hv.known hw.known hsingle h
    · exact absurd rfl hx
    · rw [resolve_self _ _ rfl] at hu
      cases hu

/-- **The limit on sets:** let two slots be known, with constants as candidates.  Unless the right
one takes in the left one and is beyond the limit itself,

* a set that a relaxed merge changes the left slot to is within the limit;
* two sets, or a set and a constant, become `ANYTHING` if something is new on the right and the
  union is beyond the limit.

If the right one does take in the left one, the merge hands it out, whatever its size. -/
theorem relaxed_within_limit (hv : s.KnownConstants v) (hw : s.KnownConstants w) :
    (¬ s.OutgrownBy scope.config.maxPossibilities v w →
      (∀ x t u, (mergeSlots scope false v w).outcome s = (.ok x, t) → x ≠ v →
        t.resolve x = .possibilities u → u.size ≤ scope.config.maxPossibilities) ∧
      (s.resolve v ≠ .anything → s.IsSet v ∨ s.IsSet w →
        ¬ candidatesOf (s.resolve w) ⊆ candidatesOf (s.resolve v) →
        scope.config.maxPossibilities <
          (candidatesOf (s.resolve v) ++ candidatesOf (s.resolve w)).toFinset.card →
        ∃ t, (mergeSlots scope false v w).outcome s = (.ok .anything, t))) ∧
    (s.OutgrownBy scope.config.maxPossibilities v w → s.IsSet v ∨ s.IsSet w →
      (mergeSlots scope false v w).outcome s = (.ok w, s)) := by
  have hany : ∀ {x : Slot}, s.resolve x = .anything → candidatesOf (s.resolve x) = [] := by
    intro x hx
    rw [hx]
    rfl
  refine ⟨fun hfits => ⟨fun x t u h hx hu => size_le_of_mergeSlots hv hw hfits h hx hu, ?_⟩, ?_⟩
  · intro hanyv hset hnew hlarge
    have hanyw : s.resolve w ≠ .anything := fun hw' => hnew (by simp [hany hw'])
    have hunion := card_le_addCandidates (s := s) hv.constants hw.constants
    rw [mergeSlots_constants hv hw hanyv hanyw hset, if_neg hnew, if_neg, if_pos (by omega)]
    · exact ⟨_, rfl⟩
    · -- the right slot takes in the left one, so that the union is no larger than it
      intro hright
      have hall : (candidatesOf (s.resolve v) ++ candidatesOf (s.resolve w)).toFinset =
          (candidatesOf (s.resolve w)).toFinset := by
        ext c
        simpa using fun hc => hright hc
      rw [hall] at hlarge
      exact hfits ⟨hanyv, hright, hnew, hlarge.trans_le (List.toFinset_card_le _)⟩
  · rintro ⟨hanyv, hright, hnew, -⟩ hset
    have hanyw : s.resolve w ≠ .anything := fun hw' => hnew (by simp [hany hw'])
    rw [mergeSlots_constants hv hw hanyv hanyw hset, if_neg hnew, if_pos hright]

/-- The limit that keeps pairs. -/
def pairsOnly : MergeScope := { config := { maxPossibilities := 2 } }

/-- A slot that is one of some integers. -/
def oneOf (token : Nat) (values : List Int64) : Slot :=
  .possibilities ⟨token, values.map fun i => .constant (.int i)⟩

/-- Two pairs with three integers between them become `ANYTHING`.  Three integers that take in a
pair are handed out. -/
theorem relaxed_within_limit_pairs :
    (∃ t, (mergeSlots pairsOnly false (oneOf 0 [1, 2]) (oneOf 1 [2, 3])).outcome { tokens := 2 } =
      (.ok .anything, t)) ∧
    (mergeSlots pairsOnly false (oneOf 0 [1, 2]) (oneOf 1 [1, 2, 3])).outcome { tokens := 2 } =
      (.ok (oneOf 1 [1, 2, 3]), { tokens := 2 }) := by
  have hresolve : ∀ token values, Store.resolve { tokens := 2 } (oneOf token values) =
      oneOf token values := fun _ _ => resolve_self _ _ rfl
  have hknown : ∀ token values, KnownConstants { tokens := 2 } (oneOf token values) := by
    refine fun token values => ⟨waitsOn_of_known rfl, fun c hc => ?_⟩
    rw [hresolve] at hc
    obtain ⟨i, -, rfl⟩ := List.mem_map.mp hc
    rfl
  refine ⟨((relaxed_within_limit (hknown 0 [1, 2]) (hknown 1 [2, 3])).1 ?_).2 ?_ ?_ ?_ ?_,
    (relaxed_within_limit (hknown 0 [1, 2]) (hknown 1 [1, 2, 3])).2 ⟨?_, ?_, ?_, ?_⟩ ?_⟩
  · rintro ⟨-, hright, -⟩
    rw [hresolve, hresolve] at hright
    exact absurd hright (by decide +kernel)
  · rw [hresolve]
    exact nofun
  · exact .inl ⟨_, hresolve _ _⟩
  · rw [hresolve, hresolve]
    decide +kernel
  · rw [hresolve, hresolve]
    decide +kernel
  · rw [hresolve]
    exact nofun
  · rw [hresolve, hresolve]
    decide +kernel
  · rw [hresolve, hresolve]
    decide +kernel
  · rw [hresolve]
    decide +kernel
  · exact .inl ⟨_, hresolve _ _⟩

end Infer

end ValueInference
