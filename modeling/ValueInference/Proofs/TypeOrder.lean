/-
The order of types, and unions of types as sets.

* **`Ty.compare_swap`**, **`Ty.compare_trans`** — the order of types is linear;
* **`Ty.Ascending`** — lists of types that are strictly ascending, as `Ty.sort` leaves them;
* **`Ty.sort_congr`** — lists with the same types have the same sorted list;
* **`Ty.WellFormed`**, **`Ty.Canonical`** — types that are no union, or a flat one of two members at
  least, which a canonical one lists in their order;
* **`Ty.union?_congr`** — the union of some types depends only on the types that they stand for;
* **`Ty.union?_eq_some_iff`** — the union of well-formed types is the canonical type that stands for
  the same types.

Types are compared by their constructors first, so different constructors are settled by
`Ty.rank` once and each inductive proof is left with the cases of equal constructors.
-/
import ValueInference.Ty
import Mathlib.Data.List.Perm.Basic

namespace ValueInference

namespace Ty

/-! ### The order is linear -/

theorem compare_of_rank_ne {a b : Ty} (h : a.rank ≠ b.rank) :
    compare a b = Ord.compare a.rank b.rank := by
  cases a <;> cases b <;> first | exact absurd rfl h | rfl

mutual

theorem compare_swap (a b : Ty) : compare a b = (compare b a).swap := by
  by_cases h : a.rank = b.rank
  · cases a <;> cases b <;> try (cases h; done)
    case tuple.tuple as bs => exact compareList_swap as bs
    case union.union as bs => exact compareList_swap as bs
    case list.list a b => exact compare_swap a b
    case array.array a b => exact compare_swap a b
    case jtagged.jtagged a b => exact compare_swap a b
    case function.function as a bs b =>
      simp only [compare]
      rw [compareList_swap as bs, compare_swap a b, Ordering.swap_then]
    all_goals exact Std.OrientedOrd.eq_swap
  · rw [compare_of_rank_ne h, compare_of_rank_ne (Ne.symm h)]
    exact Std.OrientedOrd.eq_swap

theorem compareList_swap (as bs : List Ty) : compareList as bs = (compareList bs as).swap := by
  match as, bs with
  | [], [] | [], _ :: _ | _ :: _, [] => rfl
  | a :: as, b :: bs =>
    simp only [compareList]
    rw [compare_swap a b, compareList_swap as bs, Ordering.swap_then]

end

theorem rank_le_of_lt {a b : Ty} (h : compare a b = .lt) : a.rank ≤ b.rank := by
  by_cases hr : a.rank = b.rank
  · exact Nat.le_of_eq hr
  · rw [compare_of_rank_ne hr] at h
    exact Nat.le_of_lt (Nat.compare_eq_lt.mp h)

/-- Comparing one thing first and another after that is transitive where both comparisons are. -/
theorem then_trans {α β : Type} {f : α → α → Ordering} {g : β → β → Ordering} {a b c : α}
    {x y z : β} (heq : ∀ {a b}, f a b = .eq ↔ a = b)
    (hf : f a b = .lt → f b c = .lt → f a c = .lt)
    (hg : g x y = .lt → g y z = .lt → g x z = .lt)
    (hab : (f a b).then (g x y) = .lt) (hbc : (f b c).then (g y z) = .lt) :
    (f a c).then (g x z) = .lt := by
  rw [Ordering.then_eq_lt] at *
  obtain hab | ⟨hab, hxy⟩ := hab <;> obtain hbc | ⟨hbc, hyz⟩ := hbc
  · exact .inl (hf hab hbc)
  · cases heq.mp hbc
    exact .inl hab
  · cases heq.mp hab
    exact .inl hbc
  · cases heq.mp hab
    exact .inr ⟨hbc, hg hxy hyz⟩

mutual

theorem compare_trans (a b c : Ty) (hab : compare a b = .lt) (hbc : compare b c = .lt) :
    compare a c = .lt := by
  have hr : a.rank ≤ c.rank := Nat.le_trans (rank_le_of_lt hab) (rank_le_of_lt hbc)
  by_cases h : a.rank = c.rank
  · have hb : a.rank = b.rank := Nat.le_antisymm (rank_le_of_lt hab) (h ▸ rank_le_of_lt hbc)
    cases a <;> cases b <;> try (cases hb; done)
    all_goals cases c <;> try (cases h; done)
    case tuple.tuple.tuple as bs cs => exact compareList_trans as bs cs hab hbc
    case union.union.union as bs cs => exact compareList_trans as bs cs hab hbc
    case list.list.list a b c => exact compare_trans a b c hab hbc
    case array.array.array a b c => exact compare_trans a b c hab hbc
    case jtagged.jtagged.jtagged a b c => exact compare_trans a b c hab hbc
    case function.function.function as a bs b cs c =>
      exact then_trans (compareList_eq_iff _ _) (compareList_trans as bs cs)
        (compare_trans a b c) hab hbc
    case record.record.record a b c =>
      exact (Std.TransCmp.lt_trans hab hbc : Ord.compare a c = .lt)
    case int.int.int a b c => exact (Std.TransCmp.lt_trans hab hbc : Ord.compare a c = .lt)
    case uint.uint.uint a b c => exact (Std.TransCmp.lt_trans hab hbc : Ord.compare a c = .lt)
    case float.float.float a b c => exact (Std.TransCmp.lt_trans hab hbc : Ord.compare a c = .lt)
    all_goals exact hab
  · rw [compare_of_rank_ne h]
    exact Nat.compare_eq_lt.mpr (Nat.lt_of_le_of_ne hr h)

theorem compareList_trans (as bs cs : List Ty) (hab : compareList as bs = .lt)
    (hbc : compareList bs cs = .lt) : compareList as cs = .lt := by
  match as, bs, cs with
  | [], _, _ :: _ => rfl
  | _, [], [] | _, _ :: _, [] => simp [compareList] at hbc
  | _ :: _, [], _ :: _ => simp [compareList] at hab
  | a :: as, b :: bs, c :: cs =>
    exact then_trans (compare_eq_iff _ _) (compare_trans a b c) (compareList_trans as bs cs)
      hab hbc

end

instance : Std.OrientedCmp compare := ⟨compare_swap _ _⟩

theorem not_lt_of_lt {a b : Ty} (h : compare a b = .lt) : ¬ compare b a = .lt :=
  Std.OrientedCmp.not_lt_of_lt h

/-! ### Ascending lists -/

/-- Lists of types in their order, without repetition. -/
def Ascending (ts : List Ty) : Prop :=
  ts.Pairwise fun t u => compare t u = .lt

theorem Ascending.nodup {ts : List Ty} (h : Ascending ts) : ts.Nodup :=
  h.imp fun hlt heq => by
    rw [heq, (compare_eq_iff _ _).mpr rfl] at hlt
    exact nomatch hlt

/-- An ascending list is known by the types it holds. -/
theorem Ascending.eq {ts us : List Ty} (ht : Ascending ts) (hu : Ascending us)
    (h : ∀ t, t ∈ ts ↔ t ∈ us) : ts = us :=
  List.Perm.eq_of_pairwise (fun _ _ _ _ htu hut => absurd htu (not_lt_of_lt hut)) ht hu
    ((List.perm_ext_iff_of_nodup ht.nodup hu.nodup).mpr h)

@[simp] theorem mem_insert {t u : Ty} {us : List Ty} : t ∈ insert u us ↔ t = u ∨ t ∈ us := by
  induction us with
  | nil => simp [insert]
  | cons v us ih =>
    cases h : compare u v with
    | lt => simp [insert, h]
    | eq =>
      cases (compare_eq_iff u v).mp h
      simp [insert, h]
    | gt => simp [insert, h, ih, or_left_comm]

theorem Ascending.insert {t : Ty} {us : List Ty} (h : Ascending us) : Ascending (insert t us) := by
  induction us with
  | nil => exact List.pairwise_singleton _ _
  | cons u us ih =>
    obtain ⟨hu, hus⟩ := List.pairwise_cons.mp h
    cases htu : compare t u with
    | lt =>
      simp only [Ty.insert, htu]
      refine List.pairwise_cons.mpr ⟨fun v hv => ?_, h⟩
      obtain rfl | hv := List.mem_cons.mp hv
      · exact htu
      · exact compare_trans t u v htu (hu v hv)
    | eq => simpa only [Ty.insert, htu] using h
    | gt =>
      simp only [Ty.insert, htu]
      refine List.pairwise_cons.mpr ⟨fun v hv => ?_, ih hus⟩
      obtain rfl | hv := mem_insert.mp hv
      · exact Std.OrientedCmp.lt_of_gt htu
      · exact hu v hv

theorem foldl_insert (ts us : List Ty) (h : Ascending us) :
    Ascending (ts.foldl (fun sorted t => insert t sorted) us) ∧
      ∀ t, t ∈ ts.foldl (fun sorted t => insert t sorted) us ↔ t ∈ ts ∨ t ∈ us := by
  induction ts generalizing us with
  | nil => simpa using h
  | cons v ts ih =>
    obtain ⟨hasc, hmem⟩ := ih (insert v us) h.insert
    refine ⟨hasc, fun t => (hmem t).trans ?_⟩
    rw [mem_insert, List.mem_cons, or_left_comm, or_assoc]

theorem ascending_sort (ts : List Ty) : Ascending (sort ts) :=
  (foldl_insert ts [] List.Pairwise.nil).1

@[simp] theorem mem_sort {t : Ty} {ts : List Ty} : t ∈ sort ts ↔ t ∈ ts :=
  ((foldl_insert ts [] List.Pairwise.nil).2 t).trans (by simp)

/-- **Lists with the same types have the same sorted list.** -/
theorem sort_congr {ts us : List Ty} (h : ∀ t, t ∈ ts ↔ t ∈ us) : sort ts = sort us :=
  (ascending_sort ts).eq (ascending_sort us) fun t => by simpa using h t

/-! ### Unions -/

def isUnion : Ty → Bool
  | .union _ => true
  | _ => false

/-- A union among well-formed types has two members at least, and none of them is a union. -/
def WellFormed (t : Ty) : Prop :=
  t.isUnion = true → 2 ≤ t.alternatives.length ∧ ∀ u ∈ t.alternatives, u.isUnion = false

/-- A union among canonical types has two members at least, none of them a union, in ascending
order. -/
def Canonical (t : Ty) : Prop :=
  t.isUnion = true →
    2 ≤ t.alternatives.length ∧ Ascending t.alternatives ∧ ∀ u ∈ t.alternatives, u.isUnion = false

instance (ts : List Ty) : Decidable (Ascending ts) :=
  inferInstanceAs (Decidable (ts.Pairwise fun t u => compare t u = .lt))

instance (t : Ty) : Decidable t.WellFormed :=
  inferInstanceAs (Decidable (t.isUnion = true → _))

instance (t : Ty) : Decidable t.Canonical :=
  inferInstanceAs (Decidable (t.isUnion = true → _))

theorem alternatives_of_not_union {t : Ty} (h : t.isUnion = false) : t.alternatives = [t] := by
  cases t <;> first | rfl | exact nomatch h

theorem canonical_of_not_union {t : Ty} (h : t.isUnion = false) : t.Canonical :=
  fun hunion => nomatch h.symm.trans hunion

theorem Canonical.ascending {t : Ty} (h : t.Canonical) : Ascending t.alternatives := by
  cases hunion : t.isUnion with
  | true => exact (h hunion).2.1
  | false => exact alternatives_of_not_union hunion ▸ List.pairwise_singleton _ _

theorem Canonical.wellFormed {t : Ty} (h : t.Canonical) : t.WellFormed :=
  fun hunion => ⟨(h hunion).1, (h hunion).2.2⟩

/-- What a well-formed type stands for is something, and no union. -/
theorem WellFormed.alternatives_flat {t : Ty} (h : t.WellFormed) :
    t.alternatives ≠ [] ∧ ∀ u ∈ t.alternatives, u.isUnion = false := by
  cases hunion : t.isUnion with
  | true =>
    obtain ⟨hsome, hflat⟩ := h hunion
    exact ⟨List.ne_nil_of_length_pos (by omega), hflat⟩
  | false =>
    rw [alternatives_of_not_union hunion]
    exact ⟨List.cons_ne_nil t [], List.forall_mem_singleton.mpr hunion⟩

/-- What a canonical type stands for is sorted, so it is known by the types in it. -/
theorem Canonical.sort_eq {t : Ty} {us : List Ty} (h : t.Canonical)
    (hus : ∀ u, u ∈ us ↔ u ∈ t.alternatives) : sort us = t.alternatives :=
  (ascending_sort us).eq h.ascending fun u => mem_sort.trans (hus u)

/-- **The union of some types depends only on the types that they stand for.** -/
theorem union?_congr {ts us : List Ty}
    (h : ∀ t, t ∈ ts.flatMap alternatives ↔ t ∈ us.flatMap alternatives) :
    union? ts = union? us := by
  rw [union?, union?, sort_congr h]

/-- **The union of well-formed types is the canonical type that stands for the same types.** -/
theorem union?_eq_some_iff {ts : List Ty} {t : Ty} (hts : ∀ u ∈ ts, u.WellFormed) :
    union? ts = some t ↔
      t.Canonical ∧ ∀ u, u ∈ ts.flatMap alternatives ↔ u ∈ t.alternatives := by
  have hflat : ∀ u ∈ sort (ts.flatMap alternatives), u.isUnion = false := by
    intro u hu
    obtain ⟨v, hv, huv⟩ := List.mem_flatMap.mp (mem_sort.mp hu)
    exact (hts v hv).alternatives_flat.2 u huv
  have hmem : ∀ u, u ∈ ts.flatMap alternatives ↔ u ∈ sort (ts.flatMap alternatives) :=
    fun u => mem_sort.symm
  constructor
  · intro h
    simp only [union?] at h
    split at h
    · exact nomatch h
    · rename_i v hsort
      cases h
      have hv : t.isUnion = false := hflat t (by simp [hsort])
      exact ⟨canonical_of_not_union hv, fun u => by rw [hmem, hsort, alternatives_of_not_union hv]⟩
    · rename_i hnil hone
      cases h
      refine ⟨fun _ => ⟨?_, ascending_sort _, hflat⟩, hmem⟩
      match hs : sort (ts.flatMap alternatives) with
      | [] => exact absurd hs hnil
      | [v] => exact absurd hs (hone v)
      | _ :: _ :: _ => simp [alternatives]
  · rintro ⟨ht, hsame⟩
    simp only [union?, ht.sort_eq hsame]
    cases t
    case union members =>
      match members, (ht rfl).1 with
      | _ :: _ :: _, _ => rfl
    all_goals rfl

end Ty

end ValueInference
