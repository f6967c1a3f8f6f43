/-
Merges as upper bounds.

A relaxed merge gives a description that covers both operands, and a forced merge tells whether the
left operand covers the right one.  A caller therefore sees by identity that a description has
settled: the relaxed merge gives back the left operand exactly where the forced one succeeds.

* **`Infer.relaxed_covers_both`** — the result of a relaxed merge takes in both operands;
* **`Infer.forced_trans`** — forced merges compose;
* **`Infer.forced_iff_relaxed_left`** — the forced merge succeeds exactly where the relaxed one
  gives back the left operand, and then neither changes the store.
-/
import ValueInference.Proofs.Relaxed
import ValueInference.Proofs.Transitivity

namespace ValueInference

/-- Lists of booleans, from single ones to those of anything at all. -/
def Store.booleans : Store :=
  .ofForms [.scalar (.constant (.bool true)) .bool, .scalar .anything .bool,
    .scalar .anything .any, .list 0, .list 1, .list 2, .scalar (.constant (.bool false)) .bool,
    .list 6]

theorem Store.reachable_booleans : Store.booleans.Reachable :=
  reachable_ofForms (by simp [Kind.slot?])

theorem Store.regular_booleans : ∀ n ∈ [3, 4, 5, 7], Store.booleans.Regular n := by
  intro n hn
  refine .of_everywhere 2 ?_
  revert n
  decide +kernel

namespace Infer

variable {s t u : Store} {a b c r r' : NodeId}

/-- A forced merge that succeeds leaves the store as it was. -/
theorem covers_of_forced {scope : MergeScope} (hs : s.Sound) (ha : s.Closed a) (hb : s.Closed b)
    (h : (merge scope true a b).outcome s = (.ok r, t)) : s.Covers a b ∧ t = s := by
  obtain ⟨hforced, hrefused⟩ := merge_yields hs ha hb scope true
  by_cases hcovers : s.Covers a b
  · rw [hforced hcovers] at h
    exact ⟨hcovers, (congrArg Prod.snd h).symm⟩
  · obtain ⟨e, he⟩ := hrefused rfl hcovers
    rw [he] at h
    exact absurd (congrArg Prod.fst h) (by simp)

/-- **A relaxed merge gives an upper bound**: where it succeeds, both operands are taken in by its
result, which is given back unchanged, if no union in the result lists a member twice. -/
theorem relaxed_covers_both (hs : s.Reachable) (ha : s.Ground a) (hb : s.Ground b)
    {scope : MergeScope} (h : (merge scope false a b).outcome s = (.ok r, t)) (hr : t.Plain r)
    (scope' : MergeScope) :
    (merge scope' true r a).outcome t = (.ok r, t) ∧
      (merge scope' true r b).outcome t = (.ok r, t) := by
  have hwide := merge_widened hs.sound ha hb h
  obtain ⟨hra, hrb⟩ := hwide.upper hr
  have hca := hwide.grows.closed ha.closed
  have hcb := hwide.grows.closed hb.closed
  exact ⟨(merge_yields hwide.sound hwide.closed hca scope' true).1 hra,
    (merge_yields hwide.sound hwide.closed hcb scope' true).1 hrb⟩

theorem relaxed_covers_both_booleans :
    ∃ t, (merge {} true 4 3).outcome t = (.ok 4, t) ∧ (merge {} true 4 7).outcome t = (.ok 4, t) := by
  have hground := fun n hn => (Store.regular_booleans n hn).toGround
  have hmerge : (merge {} false 3 7).outcome Store.booleans =
      (.ok 4, ((merge {} false 3 7).outcome Store.booleans).2) :=
    outcome_of_toOption (by decide +kernel)
  refine ⟨_, relaxed_covers_both Store.reachable_booleans (hground 3 (by simp))
    (hground 7 (by simp)) hmerge (.of_everywhere 2 ?_) {}⟩
  decide +kernel

/-- **Convergence shows by identity**: a forced merge succeeds exactly where the relaxed one gives
back the left operand.  Both then give it back and leave the store, diagnostics included, as it
was. -/
theorem forced_iff_relaxed_left (hs : s.Reachable) (ha : s.Ground a) (hb : s.Ground b)
    (scope : MergeScope) :
    ((∃ r t, (merge scope true a b).outcome s = (.ok r, t)) ↔
        ∃ t, (merge scope false a b).outcome s = (.ok a, t)) ∧
      ((∃ r t, (merge scope true a b).outcome s = (.ok r, t)) →
        (merge scope true a b).outcome s = (.ok a, s) ∧
          (merge scope false a b).outcome s = (.ok a, s)) := by
  have hforced := (merge_yields hs.sound ha.closed hb.closed scope true).1
  have hrelaxed := (merge_yields hs.sound ha.closed hb.closed scope false).1
  have hcovers : (∃ r t, (merge scope true a b).outcome s = (.ok r, t)) → s.Covers a b := by
    rintro ⟨r, t, h⟩
    exact (covers_of_forced hs.sound ha.closed hb.closed h).1
  refine ⟨⟨fun h => ⟨s, hrelaxed (hcovers h)⟩, ?_⟩, fun h => ?_⟩
  · rintro ⟨t, h⟩
    exact ⟨a, s, hforced ((merge_widened hs.sound ha hb h).same rfl)⟩
  · exact ⟨hforced (hcovers h), hrelaxed (hcovers h)⟩

theorem forced_iff_relaxed_left_booleans :
    (merge {} true 4 3).outcome Store.booleans = (.ok 4, Store.booleans) ∧
      (merge {} false 4 3).outcome Store.booleans = (.ok 4, Store.booleans) := by
  have hground := fun n hn => (Store.regular_booleans n hn).toGround
  refine (forced_iff_relaxed_left Store.reachable_booleans (hground 4 (by simp))
    (hground 3 (by simp)) {}).2 ⟨4, _, outcome_of_toOption ?_⟩
  decide +kernel

/-- **Forced merges compose**: what takes in a value takes in all that this one takes in, if no
set in either of the two has equal candidates. -/
theorem forced_trans (hs : s.Reachable) (ha : s.Regular a) (hb : s.Regular b) (hc : s.Ground c)
    {scope scope' : MergeScope} (h : (merge scope true a b).outcome s = (.ok r, t))
    (h' : (merge scope' true b c).outcome t = (.ok r', u)) (scope'' : MergeScope) :
    (merge scope'' true a c).outcome u = (.ok a, u) := by
  obtain ⟨hab, rfl⟩ := covers_of_forced hs.sound ha.closed hb.closed h
  obtain ⟨hbc, rfl⟩ := covers_of_forced hs.sound hb.closed hc.closed h'
  have hac := ha.covers_trans hs.sound hb hc.closed hab hbc
  exact (merge_yields hs.sound ha.closed hc.closed scope'' true).1 hac

theorem forced_trans_booleans : ∃ u, (merge {} true 5 3).outcome u = (.ok 5, u) := by
  have hregular := Store.regular_booleans
  have hab : (merge {} true 5 4).outcome Store.booleans =
      (.ok 5, ((merge {} true 5 4).outcome Store.booleans).2) :=
    outcome_of_toOption (by decide +kernel)
  have hbc : (merge {} true 4 3).outcome ((merge {} true 5 4).outcome Store.booleans).2 =
      (.ok 4, ((merge {} true 4 3).outcome ((merge {} true 5 4).outcome Store.booleans).2).2) :=
    outcome_of_toOption (by decide +kernel)
  exact ⟨_, forced_trans Store.reachable_booleans (hregular 5 (by simp)) (hregular 4 (by simp))
    (hregular 3 (by simp)).toGround hab hbc {}⟩

end Infer

end ValueInference
