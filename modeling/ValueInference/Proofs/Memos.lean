/-
What a memo knows after each of its changes.

* **`Memo.Met`** — the node has a result, or a placeholder that stands for it;
* **`Memo.inside`** — the nodes that are being rebuilt, innermost first;
* **`Memo.lookup_expect`**, **`Memo.lookup_leave`**, **`Memo.lookup_publish`** — what a lookup
  finds after a change.
-/
import ValueInference.Rebuild
import Mathlib.Data.List.Basic

namespace ValueInference

section

variable {α : Type} {n m : NodeId} {xs : List (NodeId × α)}

theorem mem_keys_of_lookup {a : α} (h : xs.lookup n = some a) : n ∈ xs.map Prod.fst := by
  obtain ⟨front, back, rfl, -⟩ := List.lookup_eq_some_iff.mp h
  simp

theorem lookup_eq_none_of_not_mem (h : n ∉ xs.map Prod.fst) : xs.lookup n = none := by
  cases hx : xs.lookup n with
  | none => rfl
  | some a => exact absurd (mem_keys_of_lookup hx) h

theorem join_lookup_eq_none {xs : List (NodeId × Option α)}
    (h : ∀ a, xs.lookup n ≠ some (some a)) : (xs.lookup n).join = none :=
  Option.eq_none_iff_forall_ne_some.mpr fun a ha => h a (Option.join_eq_some_iff.mp ha)

theorem exists_lookup_of_mem_keys (h : n ∈ xs.map Prod.fst) : ∃ a, xs.lookup n = some a := by
  rw [← Option.isSome_iff_exists, List.lookup_isSome_iff]
  obtain ⟨x, hx, rfl⟩ := List.mem_map.mp h
  exact ⟨x, hx, by simp⟩

theorem lookup_filter_ne (h : m ≠ n) : (xs.filter fun e => e.1 ≠ n).lookup m = xs.lookup m := by
  induction xs with
  | nil => rfl
  | cons x xs ih =>
    obtain ⟨l, a⟩ := x
    by_cases hl : l = n
    · subst hl
      have hm : (m == l) = false := beq_eq_false_iff_ne.mpr h
      rw [List.filter_cons_of_neg (by simp), ih, List.lookup_cons, hm]
    · rw [List.filter_cons_of_pos (by simp [hl]), List.lookup_cons, List.lookup_cons, ih]

theorem filter_eq_self_of_not_mem (h : n ∉ xs.map Prod.fst) :
    (xs.filter fun e => e.1 ≠ n) = xs := by
  refine List.filter_eq_self.mpr fun x hx => ?_
  simp only [ne_eq, decide_eq_true_eq]
  rintro rfl
  exact h (List.mem_map_of_mem hx)

end

namespace Memo

variable {memo : Memo} {n m ph out : NodeId}

/-- The node has a result, or a placeholder that stands for it. -/
def Met (memo : Memo) (n : NodeId) : Prop :=
  (∃ out, memo.done.lookup n = some out) ∨ ∃ ph, memo.inProgress.lookup n = some (some ph)

/-- The nodes that are being rebuilt, innermost first. -/
def inside (memo : Memo) : List NodeId := memo.inProgress.map Prod.fst

theorem inProgress_enter (h : n ∉ memo.inside) :
    (memo.enter n).inProgress = (n, none) :: memo.inProgress := by
  rw [enter, filter_eq_self_of_not_mem h]

theorem inside_enter (h : n ∉ memo.inside) : (memo.enter n).inside = n :: memo.inside := by
  rw [inside, inProgress_enter h]
  rfl

theorem lookup_enter (h : n ∉ memo.inside) (hm : m ≠ n) :
    (memo.enter n).inProgress.lookup m = memo.inProgress.lookup m := by
  have hne : (m == n) = false := beq_eq_false_iff_ne.mpr hm
  rw [inProgress_enter h, List.lookup_cons, hne]

theorem inside_expect (n ph : NodeId) : (memo.expect n ph).inside = memo.inside := by
  rw [inside, expect, List.map_map]
  refine List.map_congr_left fun e _ => ?_
  simp only [Function.comp_apply]
  split
  · next he => exact he.symm
  · rfl

theorem lookup_expect_self (h : memo.inProgress.lookup n = some none) (ph : NodeId) :
    (memo.expect n ph).inProgress.lookup n = some (some ph) := by
  rw [expect]
  dsimp only
  generalize memo.inProgress = xs at h
  induction xs with
  | nil => exact absurd h (by simp)
  | cons x xs ih =>
    obtain ⟨l, e⟩ := x
    rw [List.map_cons]
    by_cases hl : l = n
    · rw [if_pos hl]
      exact List.lookup_cons_self
    · have hne : (n == l) = false := beq_eq_false_iff_ne.mpr (Ne.symm hl)
      rw [List.lookup_cons, hne] at h
      rw [if_neg hl, List.lookup_cons, hne]
      exact ih h

theorem lookup_expect (hm : m ≠ n) (ph : NodeId) :
    (memo.expect n ph).inProgress.lookup m = memo.inProgress.lookup m := by
  rw [expect]
  dsimp only
  generalize memo.inProgress = xs
  induction xs with
  | nil => rfl
  | cons x xs ih =>
    obtain ⟨l, e⟩ := x
    rw [List.map_cons]
    by_cases hl : l = n
    · have hne : (m == n) = false := beq_eq_false_iff_ne.mpr hm
      rw [if_pos hl, List.lookup_cons, List.lookup_cons, hl, hne]
      exact ih
    · rw [if_neg hl, List.lookup_cons, List.lookup_cons, ih]

theorem lookup_leave (hm : m ≠ n) :
    (memo.leave n).inProgress.lookup m = memo.inProgress.lookup m :=
  lookup_filter_ne hm

/-- The innermost node is left. -/
theorem inside_leave {stack : List NodeId} (h : memo.inside = n :: stack) (hn : n ∉ stack) :
    (memo.leave n).inside = stack := by
  rw [inside] at h
  rw [inside, leave]
  dsimp only
  rcases hxs : memo.inProgress with _ | ⟨⟨l, e⟩, xs⟩
  · rw [hxs] at h
    exact absurd h (by simp)
  · rw [hxs, List.map_cons] at h
    obtain ⟨rfl, rfl⟩ := List.cons.inj h
    rw [List.filter_cons_of_neg (by simp), filter_eq_self_of_not_mem hn]

/-! ### Placeholders -/

/-- A node that is entered has no placeholder. -/
theorem lookup_enter_eq_some (h : n ∉ memo.inside) :
    (memo.enter n).inProgress.lookup m = some (some ph) ↔
      memo.inProgress.lookup m = some (some ph) := by
  by_cases hm : m = n
  · subst hm
    constructor
    · intro hopen
      rw [inProgress_enter h, List.lookup_cons_self] at hopen
      exact absurd hopen (by simp)
    · exact fun hopen => absurd (mem_keys_of_lookup hopen) h
  · rw [lookup_enter h hm]

theorem lookup_expect_eq_some {x : NodeId} (h : memo.inProgress.lookup n = some none) :
    (memo.expect n ph).inProgress.lookup m = some (some x) ↔
      m = n ∧ x = ph ∨ memo.inProgress.lookup m = some (some x) := by
  by_cases hm : m = n
  · subst hm
    rw [lookup_expect_self h, h]
    simp [eq_comm]
  · rw [lookup_expect hm]
    simp [hm]

theorem lookup_leave_eq_some {stack : List NodeId} (h : memo.inside = n :: stack) (hn : n ∉ stack) :
    (memo.leave n).inProgress.lookup m = some (some ph) ↔
      m ≠ n ∧ memo.inProgress.lookup m = some (some ph) := by
  by_cases hm : m = n
  · subst hm
    refine iff_of_false (fun hopen => ?_) fun hopen => hopen.1 rfl
    have hmem : m ∈ (memo.leave m).inside := mem_keys_of_lookup hopen
    rw [inside_leave h hn] at hmem
    exact hn hmem
  · rw [lookup_leave hm]
    simp [hm]

/-! ### Results -/

theorem lookup_publish_self : (memo.publish n out).done.lookup n = some out :=
  List.lookup_cons_self

theorem lookup_publish (hm : m ≠ n) :
    (memo.publish n out).done.lookup m = memo.done.lookup m := by
  have hne : (m == n) = false := beq_eq_false_iff_ne.mpr hm
  rw [publish, List.lookup_cons, hne]
  exact lookup_filter_ne hm

end Memo

end ValueInference
