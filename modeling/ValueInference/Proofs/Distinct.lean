/-
Values that differ are all kept.

Unions, tagged unions and possibility sets are put together from lists: equal things count once,
and what has no order is sorted.  Nothing is lost of things that differ.

* **`stableSort_perm`**, **`stableSort_pairwise`** — sorting is a permutation into an order;
* **`foldl_eq_append`** — things that differ from all before them are added one after the other;
* **`thinned_foldl`** — if things that equal earlier ones are left out, each of them still equals
  one that is left;
* **`Infer.outcome_union`**, **`Infer.outcome_possibilitiesOf`** — unions and sets of what differs.
-/
import ValueInference.Union
import ValueInference.Proofs.Matching
import ValueInference.Proofs.Outcome
import Mathlib.Data.List.Nodup

namespace ValueInference

section

variable {α β : Type}

/-! ### Sorting -/

theorem insertBefore_perm (le : α → α → Bool) (a : α) (as : List α) :
    (insertBefore le a as).Perm (a :: as) := by
  induction as with
  | nil => exact .refl _
  | cons b bs ih =>
    rw [insertBefore]
    split
    · exact .refl _
    · exact (ih.cons b).trans (.swap a b bs)

theorem stableSort_perm (le : α → α → Bool) (as : List α) : (stableSort le as).Perm as := by
  induction as with
  | nil => exact .refl _
  | cons a as ih => exact (insertBefore_perm le a _).trans (ih.cons a)

/-- Sorting puts a list in order, for any order in which two things can be compared. -/
theorem stableSort_pairwise {le : α → α → Bool} (htotal : ∀ a b, le a b = false → le b a = true)
    (htrans : ∀ a b c, le a b = true → le b c = true → le a c = true) (as : List α) :
    (stableSort le as).Pairwise fun a b => le a b = true := by
  have hinsert : ∀ a (bs : List α), bs.Pairwise (fun a b => le a b = true) →
      (insertBefore le a bs).Pairwise fun a b => le a b = true := by
    intro a bs
    induction bs with
    | nil => exact fun _ => List.pairwise_singleton _ _
    | cons b bs ih =>
      intro hbs
      obtain ⟨hb, hrest⟩ := List.pairwise_cons.mp hbs
      rw [insertBefore]
      split
      · next hab =>
        refine List.pairwise_cons.mpr ⟨fun x hx => ?_, hbs⟩
        rcases List.mem_cons.mp hx with rfl | hx
        · exact hab
        · exact htrans a b x hab (hb x hx)
      · next hab =>
        refine List.pairwise_cons.mpr ⟨fun x hx => ?_, ih hrest⟩
        rcases List.mem_cons.mp ((insertBefore_perm le a bs).mem_iff.mp hx) with rfl | hx
        · exact htotal x b (Bool.eq_false_iff.mpr hab)
        · exact hb x hx
  induction as with
  | nil => exact .nil
  | cons a as ih => exact hinsert a _ ih

/-- Things with different labels are sorted by their labels into one order. -/
theorem stableSort_labels_congr {fs gs : List (String × α)} (hfs : (fs.map Prod.fst).Nodup)
    (h : fs.Perm gs) :
    stableSort (fun f g => f.1 ≤ g.1) fs = stableSort (fun f g => f.1 ≤ g.1) gs := by
  have hsorted : ∀ as : List (String × α), (stableSort (fun f g => f.1 ≤ g.1) as).Pairwise
      fun f g => decide (f.1 ≤ g.1) = true := stableSort_pairwise
    (fun f g hfg => decide_eq_true ((String.le_total f.1 g.1).resolve_left (of_decide_eq_false hfg)))
    fun f g h hfg hgh => decide_eq_true
      (String.le_trans (of_decide_eq_true hfg) (of_decide_eq_true hgh))
  refine List.Perm.eq_of_pairwise (fun f g hf hg hfg hgf => ?_) (hsorted _) (hsorted _)
    ((stableSort_perm _ _).trans (h.trans (stableSort_perm _ _).symm))
  have hlabel : f.1 = g.1 := String.le_antisymm (of_decide_eq_true hfg) (of_decide_eq_true hgf)
  have hf' := (stableSort_perm _ _).mem_iff.mp hf
  have hg' := h.mem_iff.mpr ((stableSort_perm _ _).mem_iff.mp hg)
  exact List.inj_on_of_nodup_map hfs hf' hg' hlabel

/-! ### Adding one after the other -/

/-- Things that differ from all before them are added one after the other. -/
theorem foldl_eq_append {f : List α → α → List α} {D : α → α → Prop}
    (hf : ∀ as b, (∀ a ∈ as, D a b) → f as b = as ++ [b]) :
    ∀ {bs as : List α}, (as ++ bs).Pairwise D → bs.foldl f as = as ++ bs := by
  intro bs
  induction bs with
  | nil => simp
  | cons b bs ih =>
    intro as hpair
    have hnew := hf as b fun a ha =>
      (List.pairwise_append.mp hpair).2.2 a ha b List.mem_cons_self
    rw [List.foldl_cons, hnew, ih (by simpa using hpair)]
    simp

/-- What is left of a list when whatever equals something before it is left out. -/
structure Thinned (E : α → α → Bool) (as bs : List α) : Prop where
  sublist : as.Sublist bs
  distinct : as.Pairwise fun a b => E a b = false
  covered : ∀ b ∈ bs, ∃ a ∈ as, a = b ∨ E a b = true

/-- Things are added one after the other, unless something that is there equals them. -/
theorem thinned_foldl {E : α → α → Bool} {f : List α → α → List α}
    (hf : ∀ as b, f as b = if as.any fun a => E a b then as else as ++ [b]) (bs : List α) :
    Thinned E (bs.foldl f []) bs := by
  suffices hfold : ∀ {bs as : List α}, (as.Pairwise fun a b => E a b = false) →
      ∃ kept, bs.foldl f as = as ++ kept ∧ kept.Sublist bs ∧
        ((as ++ kept).Pairwise fun a b => E a b = false) ∧
          ∀ b ∈ bs, ∃ a ∈ as ++ kept, a = b ∨ E a b = true by
    obtain ⟨kept, hkept, hsub, hdistinct, hcovered⟩ := @hfold bs [] List.Pairwise.nil
    rw [hkept]
    exact ⟨hsub, hdistinct, hcovered⟩
  intro bs
  induction bs with
  | nil =>
    intro as has
    exact ⟨[], by simp, .slnil, by simpa using has, fun _ hb => absurd hb List.not_mem_nil⟩
  | cons b bs ih =>
    intro as has
    rw [List.foldl_cons, hf]
    by_cases hany : (as.any fun a => E a b) = true
    · rw [if_pos hany]
      obtain ⟨kept, hkept, hsub, hdistinct, hcovered⟩ := ih has
      obtain ⟨a, ha, hab⟩ := List.any_eq_true.mp hany
      refine ⟨kept, hkept, hsub.cons b, hdistinct, fun c hc => ?_⟩
      rcases List.mem_cons.mp hc with rfl | hc
      · exact ⟨a, List.mem_append_left _ ha, .inr hab⟩
      · exact hcovered c hc
    · rw [if_neg hany]
      have hnew : (as ++ [b]).Pairwise fun a b => E a b = false := by
        refine List.pairwise_append.mpr ⟨has, List.pairwise_singleton _ _, fun a ha c hc => ?_⟩
        obtain rfl := List.mem_singleton.mp hc
        exact Bool.eq_false_iff.mpr fun hac => hany (List.any_eq_true.mpr ⟨a, ha, hac⟩)
      obtain ⟨kept, hkept, hsub, hdistinct, hcovered⟩ := ih hnew
      have hsplit : as ++ [b] ++ kept = as ++ (b :: kept) := by simp
      rw [hsplit] at hkept hdistinct hcovered
      refine ⟨b :: kept, hkept, hsub.cons_cons b, hdistinct, fun c hc => ?_⟩
      rcases List.mem_cons.mp hc with rfl | hc
      · exact ⟨c, List.mem_append_right _ List.mem_cons_self, .inl rfl⟩
      · exact hcovered c hc

theorem Thinned.ne_nil {E : α → α → Bool} {as bs : List α} (h : Thinned E as bs)
    (hbs : bs ≠ []) : as ≠ [] := by
  obtain ⟨b, hb⟩ := List.exists_mem_of_ne_nil bs hbs
  obtain ⟨a, ha, -⟩ := h.covered b hb
  exact List.ne_nil_of_mem ha

/-- What is left of a list depends on how its things compare with each other alone. -/
theorem foldl_thinned_congr {E E' : α → α → Bool} {f f' : List α → α → List α}
    (hf : ∀ as b, f as b = if as.any fun a => E a b then as else as ++ [b])
    (hf' : ∀ as b, f' as b = if as.any fun a => E' a b then as else as ++ [b]) {bs : List α}
    (h : ∀ a ∈ bs, ∀ b ∈ bs, E a b = E' a b) : bs.foldl f [] = bs.foldl f' [] := by
  suffices hfold : ∀ {cs as : List α}, (∀ c ∈ cs, c ∈ bs) → (∀ a ∈ as, a ∈ bs) →
      cs.foldl f as = cs.foldl f' as from hfold (fun _ => id) nofun
  intro cs
  induction cs with
  | nil => exact fun _ _ => rfl
  | cons c cs ih =>
    intro as hcs has
    have hc := hcs c List.mem_cons_self
    have hany : (as.any fun a => E a c) = as.any fun a => E' a c := by
      rw [Bool.eq_iff_iff, List.any_eq_true, List.any_eq_true]
      exact exists_congr fun a => and_congr_right fun ha => by rw [h a (has a ha) c hc]
    rw [List.foldl_cons, List.foldl_cons, hf, hf', hany]
    refine ih (fun d hd => hcs d (List.mem_cons_of_mem c hd)) fun a ha => ?_
    split at ha
    · exact has a ha
    · rcases List.mem_append.mp ha with ha | ha
      · exact has a ha
      · exact List.mem_singleton.mp ha ▸ hc

/-- What holds between the things of one list holds between those of a related list. -/
theorem pairwise_of_forall₂ {R : α → β → Prop} {D : α → α → Prop} {E : β → β → Prop} {as : List α}
    {bs : List β} (h : List.Forall₂ R as bs) (hbs : bs.Pairwise E)
    (hED : ∀ a a', ∀ b ∈ bs, ∀ b' ∈ bs, R a b → R a' b' → E b b' → D a a') : as.Pairwise D := by
  induction h with
  | nil => exact .nil
  | @cons a b as bs hab hrest ih =>
    obtain ⟨hb, hbs⟩ := List.pairwise_cons.mp hbs
    refine List.pairwise_cons.mpr ⟨fun a' ha' => ?_, ih hbs fun a a' b hb b' hb' => ?_⟩
    · obtain ⟨b', hb', hab'⟩ := exists_of_forall₂ hrest a' ha'
      exact hED a a' b List.mem_cons_self b' (List.mem_cons_of_mem b hb') hab hab' (hb b' hb')
    · exact hED a a' b (List.mem_cons_of_mem _ hb) b' (List.mem_cons_of_mem _ hb')

end

/-! ### Members -/

theorem Kind.isUnion_cases (k : Kind) : (∃ ms, k = .union ms) ∨ k.isUnion = false := by
  cases k with
  | union ms => exact .inl ⟨ms, rfl⟩
  | _ => exact .inr rfl

namespace Store

variable {s : Store} {a : NodeId}

theorem sortMembers_perm (s : Store) (ms : List NodeId) : (s.sortMembers ms).Perm ms := by
  rw [sortMembers]
  refine ((stableSort_perm _ _).map _).trans (.of_eq ?_)
  rw [List.map_map]
  exact List.map_id _

theorem members_of_not_union (h : (s.kind a).isUnion = false) : s.members a = [a] := by
  rw [members]
  split
  · next ms hk =>
    rw [hk] at h
    exact absurd h (by simp [Kind.isUnion])
  · rfl

theorem members_of_union {ms : List NodeId} (h : s.kind a = .union ms) : s.members a = ms := by
  rw [members, h]

/-- The members of a value are those of the union that it is, or it is the only one. -/
theorem members_cases {P : List NodeId → Prop} (hunion : ∀ ms, s.kind a = .union ms → P ms)
    (hsingle : (s.kind a).isUnion = false → P [a]) : P (s.members a) := by
  rcases (s.kind a).isUnion_cases with ⟨ms, hk⟩ | hnot
  · exact members_of_union hk ▸ hunion ms hk
  · exact members_of_not_union hnot ▸ hsingle hnot

/-- No member of a value is a union if none in a union is. -/
theorem members_flat_of
    (h : ∀ ms, s.kind a = .union ms → ∀ m ∈ ms, (s.kind m).isUnion = false) :
    ∀ m ∈ s.members a, (s.kind m).isUnion = false :=
  members_cases h fun hsingle _ hm => List.mem_singleton.mp hm ▸ hsingle

/-- Without a union among them, values are their own members. -/
theorem flatMap_members {ms : List NodeId} (hflat : ∀ m ∈ ms, (s.kind m).isUnion = false) :
    ms.flatMap s.members = ms := by
  induction ms with
  | nil => rfl
  | cons m ms ih =>
    rw [List.flatMap_cons, members_of_not_union (hflat m List.mem_cons_self),
      ih fun n hn => hflat n (List.mem_cons_of_mem m hn)]
    rfl

theorem thinned_distinctMembers {ms : List NodeId}
    (hflat : ∀ m ∈ ms, (s.kind m).isUnion = false) :
    Thinned s.equal (s.distinctMembers ms) ms := by
  rw [distinctMembers, flatMap_members hflat]
  exact thinned_foldl (fun _ _ => rfl) ms

theorem thinned_addCandidates (s : Store) (cs : List Candidate) :
    Thinned s.equalCandidates (s.addCandidates [] cs) cs :=
  thinned_foldl (fun _ _ => rfl) cs

/-- Members that differ from each other are all kept. -/
theorem distinctMembers_eq {ms : List NodeId} (hflat : ∀ m ∈ ms, (s.kind m).isUnion = false)
    (hdistinct : ms.Pairwise fun m n => s.equal m n = false) : s.distinctMembers ms = ms := by
  rw [distinctMembers, flatMap_members hflat]
  refine (foldl_eq_append (fun as b hb => ?_) hdistinct : _ = [] ++ ms)
  have hany : (as.any fun m => s.equal m b) = false := by
    rw [List.any_eq_false]
    exact fun a ha => by rw [hb a ha]; exact Bool.false_ne_true
  rw [addMember, hany]
  rfl

/-- Candidates that differ from each other are all kept. -/
theorem addCandidates_eq {cs : List Candidate}
    (hdistinct : cs.Pairwise fun c d => s.equalCandidates c d = false) :
    s.addCandidates [] cs = cs := by
  refine (foldl_eq_append (fun as b hb => ?_) hdistinct : _ = [] ++ cs)
  have hany : s.hasCandidate as b = false := by
    rw [hasCandidate, List.any_eq_false]
    exact fun a ha => by rw [hb a ha]; exact Bool.false_ne_true
  rw [hany]
  rfl

end Store

namespace Infer

variable {s : Store}

/-- A single member is its own union. -/
theorem outcome_union_single {ms : List NodeId} {m : NodeId} (h : s.distinctMembers ms = [m]) :
    (union ms).outcome s = (.ok m, s) := by
  rw [union, outcome_store_bind, h]
  rfl

theorem outcome_union_several {ms : List NodeId} (h : 2 ≤ (s.distinctMembers ms).length) :
    (union ms).outcome s = (make (.union (s.sortMembers (s.distinctMembers ms)))).outcome s := by
  rw [union, outcome_store_bind]
  match s.distinctMembers ms, h with
  | _ :: _ :: _, _ => rfl

/-- **A union of values that differ** has all of them. -/
theorem outcome_union {ms : List NodeId} (hflat : ∀ m ∈ ms, (s.kind m).isUnion = false)
    (hdistinct : ms.Pairwise fun m n => s.equal m n = false) (hseveral : 2 ≤ ms.length) :
    (union ms).outcome s = (make (.union (s.sortMembers ms))).outcome s := by
  have hkept := Store.distinctMembers_eq hflat hdistinct
  rw [outcome_union_several (by rwa [hkept]), hkept]

/-- A set of some candidates has those that equal none before them. -/
theorem outcome_possibilitiesOf_thinned {cs : List Candidate} (hsome : cs ≠ []) :
    (possibilitiesOf cs).outcome s =
      (.ok ⟨s.tokens, s.addCandidates [] cs⟩, { s with tokens := s.tokens + 1 }) := by
  rw [possibilitiesOf, outcome_store_bind]
  match s.addCandidates [] cs, (s.thinned_addCandidates cs).ne_nil hsome with
  | _ :: _, _ => rfl

/-- **A set of candidates that differ** has all of them. -/
theorem outcome_possibilitiesOf {cs : List Candidate} (hsome : cs ≠ [])
    (hdistinct : cs.Pairwise fun c d => s.equalCandidates c d = false) :
    (possibilitiesOf cs).outcome s = (.ok ⟨s.tokens, cs⟩, { s with tokens := s.tokens + 1 }) := by
  rw [outcome_possibilitiesOf_thinned hsome, Store.addCandidates_eq hdistinct]

end Infer

end ValueInference
