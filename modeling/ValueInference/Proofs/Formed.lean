/-
What the forms in a reachable store are like.

A change either leaves all nodes as they are, or gives one node a form that was checked.  So
whatever the check asks of a form alone holds of all forms, and nodes get digests only over nodes
that have digests: a node on a cycle has none.

* **`Store.change_nodes`** — what a change does to the nodes;
* **`Kind.Formed`**, **`Store.Reachable.formed`** — what the check asks of a form alone;
* **`Store.fault?_eq_none`** — a form over such nodes passes the check again;
* **`Store.Guarded`** — what is below a node with a digest, or below an interned one;
* **`Store.Reachable.founded_of_digest`** — there is no endless way down from a node with a digest.
-/
import ValueInference.Proofs.Equal
import ValueInference.Proofs.Sound

namespace ValueInference

/-- Scalars have constants and functions have functions to choose from, and unions and tagged
unions are large enough. -/
def Kind.Formed : Kind → Prop
  | .scalar (.possibilities p) _ => ∀ c ∈ p.candidates, c.function? = none
  | .function (.possibilities p) => ∀ c ∈ p.candidates, c.function?.isSome = true
  | .function (.constant _) => False
  | .union members => 2 ≤ members.length
  | .tagged options => options ≠ []
  | _ => True

/-- A scalar has nothing below it. -/
theorem Kind.Formed.children_scalar {value : Slot} {ty : Ty} (h : (Kind.scalar value ty).Formed) :
    (Kind.scalar value ty).children = [] := by
  cases value with
  | possibilities p =>
    refine List.eq_nil_iff_forall_not_mem.mpr fun c hc => ?_
    obtain ⟨d, hd, hcd⟩ := List.mem_flatMap.mp hc
    have hconstant := h d hd
    cases d with
    | constant x => exact absurd hcd List.not_mem_nil
    | function f => exact nomatch hconstant
  | _ => rfl

namespace Store

variable {s t : Store}

/-! ### Changes of nodes -/

theorem SameNodes.refl (s : Store) : s.SameNodes s := sameNodes_of_eq rfl rfl

/-- **A change** leaves all nodes as they are, or gives one of them a form without a fault. -/
theorem change_nodes
    (hs : ∀ n, s.isInterned n = true →
      (s.digest n).isSome ∧ ∀ c ∈ (s.kind n).children, s.isInterned c = true)
    (c : Change) :
    s.SameNodes (c.apply s) ∨
      ∃ n k d i, s.fault? k = none ∧ s.Filed n k d i (c.apply s) := by
  cases c with
  | build k =>
    show s.SameNodes (s.build k).2 ∨ ∃ n k' d i, s.fault? k' = none ∧ s.Filed n k' d i (s.build k).2
    rw [Store.build]
    split
    · exact .inl (.refl s)
    next hfault =>
    rcases hplace : s.place k with ⟨n, t⟩
    rcases place_cases hs hplace with ⟨rfl, -⟩ | ⟨-, d, i, hfiled⟩
    · exact .inl (.refl t)
    · exact .inr ⟨n, k, d, i, hfault, hfiled⟩
  | placeholder => exact .inl (sameNodes_placeholder s)
  | complete n k =>
    show s.SameNodes (s.complete n k).2 ∨
      ∃ m k' d i, s.fault? k' = none ∧ s.Filed m k' d i (s.complete n k).2
    rcases hok : (s.complete n k).1 with fault | u
    · have hsame : (s.complete n k).2 = s := complete_of_error hok
      rw [hsame]
      exact .inl (.refl s)
    · obtain ⟨d, hfiled⟩ := complete_filed hok
      exact .inr ⟨n, k, d, false, fault?_of_complete hok, hfiled⟩
  -- the changes that are left write no node
  | token => exact .inl (sameNodes_of_eq rfl rfl)
  | record d => exact .inl (sameNodes_of_eq rfl rfl)
  | collect enabled => exact .inl (sameNodes_of_eq rfl rfl)
  | discard => exact .inl (sameNodes_of_eq rfl rfl)
  | openLoop config => exact .inl (sameNodes_of_eq rfl rfl)
  | openPending l resolver priority =>
    show s.SameNodes (s.openPending l resolver priority).2 ∨ _
    rw [Store.openPending]
    split
    · exact .inl (.refl s)
    split
    · exact .inl (.refl s)
    · exact .inl (sameNodes_of_eq rfl rfl)
  | spawn l d =>
    show s.SameNodes (s.spawn l (.merge d)).2 ∨ _
    rw [spawn]
    split
    · exact .inl (.refl s)
    split
    · exact .inl (.refl s)
    · exact .inl (sameNodes_of_eq rfl rfl)
  | setResult p slot =>
    show s.SameNodes (s.setResult p slot).2 ∨ _
    rw [Store.setResult]
    split
    · exact .inl (.refl s)
    split
    · exact .inl (.refl s)
    split
    · exact .inl (.refl s)
    obtain ⟨loops, hclose⟩ := wakeAll_eq (s.waiters p) (s.modifyPending p fun c =>
      { c with status := .resolved slot, resolver := none, waiters := [] })
    simp only [close, hclose]
    exact .inl (sameNodes_of_eq rfl rfl)

/-! ### Forms -/

theorem formed_of_fault? {k : Kind} (h : s.fault? k = none) : k.Formed := by
  unfold fault? at h
  split at h
  · exact absurd h (by simp)
  cases k with
  | scalar v t =>
    cases v with
    | possibilities p =>
      intro c hc
      have hfit := List.findSome?_eq_none_iff.mp h c hc
      cases c with
      | constant x => rfl
      | function f => exact absurd hfit (by simp)
    | _ => trivial
  | union members =>
    simp only at h
    split at h
    · exact absurd h (by simp)
    · next hlen => exact Nat.not_lt.mp hlen
  | tagged options =>
    simp only at h
    split at h
    · exact absurd h (by simp)
    · next hempty => exact fun hnil => hempty (by rw [hnil]; rfl)
  | function v =>
    simp only [optionsFault?] at h
    cases v with
    | possibilities p =>
      simp only at h
      split at h
      · next hall => exact List.all_eq_true.mp hall
      · exact absurd h (by simp)
    | constant c => exact absurd h (by simp)
    | _ => trivial
  | _ => trivial

/-- Fields with the labels of others are labelled as these are. -/
theorem labelled_of_forall₂ {R : NodeId → NodeId → Prop} {tag : String}
    {fs gs : List (String × NodeId)} (h : List.Forall₂ (SameLabel R) fs gs)
    (hlabelled : (Kind.record tag gs).Labelled) : (Kind.record tag fs).Labelled := by
  show (fs.map Prod.fst).Nodup
  rw [map_eq_of_forall₂ (fun _ _ hxy => hxy.1) h]
  exact hlabelled

/-- Options with the labels of others, in any order, are as those of a tagged union have to be. -/
theorem tagged_of_forall₂ {R : NodeId → NodeId → Prop} {xs ys zs : List (UInt32 × NodeId)}
    (h : List.Forall₂ (SameLabel R) xs ys) (hperm : zs.Perm xs)
    (hlabelled : (Kind.tagged ys).Labelled) (hformed : (Kind.tagged ys).Formed) :
    (Kind.tagged zs).Alike R (.tagged ys) ∧ (Kind.tagged zs).Labelled ∧ (Kind.tagged zs).Formed := by
  refine ⟨(matches_of_forall₂ h).of_perm hperm, ?_, ?_⟩
  · refine ((hperm.map Prod.fst).nodup_iff).mpr ?_
    rw [map_eq_of_forall₂ (fun _ _ hxy => hxy.1) h]
    exact hlabelled
  · rintro rfl
    obtain rfl := hperm.nil_eq
    exact hformed (List.forall₂_nil_left_iff.mp h)

/-- **A form passes the check** if it is formed, labelled and flat, over what exists; scalars are
left out, as they have to fit their types. -/
theorem fault?_eq_none {k : Kind} (hknows : s.knows k = true) (hlabelled : k.Labelled)
    (hformed : k.Formed) (hscalar : ∀ v t, k ≠ .scalar v t)
    (hflat : ∀ ms, k = .union ms → ∀ m ∈ ms, (s.kind m).isUnion = false) :
    s.fault? k = none := by
  unfold fault?
  rw [if_neg (by simp [hknows])]
  cases k with
  | scalar v t => exact absurd rfl (hscalar v t)
  | record tag fields =>
    have hnone := repeated?_eq_none.mpr (⟨hlabelled, fun _ _ => List.not_mem_nil⟩ :
      (fields.map Prod.fst).Nodup ∧ ∀ b ∈ fields.map Prod.fst, b ∉ ([] : List String))
    simp only [hnone, Option.map_none]
  | union members =>
    have hlen : ¬ members.length < 2 := Nat.not_lt.mpr hformed
    have hany : (members.any fun n => (s.kind n).isUnion) = false := by
      rw [List.any_eq_false]
      intro m hm
      rw [hflat members rfl m hm]
      simp
    simp only [if_neg hlen, hany, Bool.false_eq_true, if_false]
  | tagged options =>
    have hempty : options.isEmpty = false := by
      rw [List.isEmpty_eq_false_iff]
      exact hformed
    have hnone := repeated?_eq_none.mpr (⟨hlabelled, fun _ _ => List.not_mem_nil⟩ :
      (options.map Prod.fst).Nodup ∧ ∀ b ∈ options.map Prod.fst, b ∉ ([] : List UInt32))
    simp only [hempty, hnone, Option.map_none, Bool.false_eq_true, if_false]
  | function v =>
    cases v with
    | possibilities p =>
      have hall : (p.candidates.all fun c => c.function?.isSome) = true :=
        List.all_eq_true.mpr hformed
      simp only [optionsFault?, hall, if_true]
    | constant c => exact hformed.elim
    | _ => rfl
  | _ => rfl

/-- **A change keeps the forms as they should be.** -/
theorem formed_change (hs : s.Sound) (h : ∀ n, (s.kind n).Formed) (c : Change) (n : NodeId) :
    ((c.apply s).kind n).Formed := by
  rcases change_nodes hs.interned c with hsame | ⟨m, k, d, i, hfault, hfiled⟩
  · rw [hsame.kind]
    exact h n
  · by_cases hnm : n = m
    · rw [hnm, hfiled.kind_eq]
      exact formed_of_fault? hfault
    · rw [hfiled.kind_of_ne hnm]
      exact h n

theorem formed_empty (n : NodeId) : (({} : Store).kind n).Formed := by
  rw [kind_of_absent (Nat.zero_le n)]
  trivial

theorem Reachable.formed (h : s.Reachable) (n : NodeId) : (s.kind n).Formed := by
  induction h generalizing n with
  | start => exact formed_empty n
  | step c hs _ ih => exact formed_change hs.sound ih c n

theorem Reachable.children_of_scalar {n : NodeId} {value : Slot} {ty : Ty} (h : s.Reachable)
    (hk : s.kind n = .scalar value ty) : (s.kind n).children = [] := by
  have hformed := h.formed n
  rw [hk] at hformed ⊢
  exact hformed.children_scalar

/-- A union has members. -/
theorem Reachable.exists_member {n : NodeId} {ms : List NodeId} (h : s.Reachable)
    (hk : s.kind n = .union ms) : ∃ m, m ∈ ms := by
  have hformed := h.formed n
  rw [hk] at hformed
  exact List.exists_mem_of_length_pos (Nat.lt_of_lt_of_le Nat.zero_lt_two hformed)

/-! ### Digests and interned nodes -/

/-- A node is numbered only over numbered nodes, with no endless way down, and it is interned only
if it is numbered, over interned nodes. -/
structure Guarded (s : Store) : Prop where
  blank : ∀ n, s.isComplete n = false → s.digest n = none ∧ s.isInterned n = false
  numbered : ∀ n, (s.digest n).isSome → ∀ c ∈ (s.kind n).children, (s.digest c).isSome
  founded : ∀ n, (s.digest n).isSome → s.Founded n
  interned : ∀ n, s.isInterned n = true →
    (s.digest n).isSome ∧ ∀ c ∈ (s.kind n).children, s.isInterned c = true

theorem guarded_start : ({} : Store).Guarded where
  blank n _ := ⟨rfl, rfl⟩
  numbered n hn := absurd hn (by simp [digest])
  founded n hn := absurd hn (by simp [digest])
  interned n hn := absurd hn (by simp [isInterned])

/-- It depends on what is read of the nodes. -/
theorem Guarded.of_reads (hs : s.Guarded) (hsize : s.nodes.size ≤ t.nodes.size)
    (hkind : t.kind = s.kind) (hdigest : t.digest = s.digest)
    (hinterned : t.isInterned = s.isInterned) (hcomplete : t.isComplete = s.isComplete) :
    t.Guarded where
  blank n := by
    rw [hcomplete, hdigest, hinterned]
    exact hs.blank n
  numbered n := by
    rw [hdigest, hkind]
    exact hs.numbered n
  founded n hn := by
    rw [hdigest] at hn
    refine (hs.founded n hn).mono (Nat.succ_le_succ hsize) fun x hx => ?_
    exact ⟨Nat.lt_of_lt_of_le hx hsize, congrFun hkind x⟩
  interned n := by
    rw [hinterned, hdigest, hkind]
    exact hs.interned n

/-- Nodes with digests keep their ways down, whatever form another node gets. -/
theorem Filed.founded {n m : NodeId} {k : Kind} {d : Option Nat} {i : Bool} (hs : s.Guarded)
    (h : s.Filed n k d i t) (hm : (s.digest m).isSome) : t.Founded m := by
  refine (hs.founded m hm).induct
    (motive := fun m => (s.digest m).isSome → t.Founded m) (fun x hx ih hdigest => ?_) hm
  have hne : x ≠ n := by
    rintro rfl
    rw [(hs.blank x h.blank).1] at hdigest
    exact nomatch hdigest
  refine .of_children (Nat.lt_of_lt_of_le hx.present h.size_le) ?_
  rw [h.kind_of_ne hne]
  exact fun c hc => ih c hc (hs.numbered x hdigest c hc)

/-- A form that a node gets is not below nodes that are numbered or interned. -/
theorem Guarded.file {n : NodeId} {k : Kind} {d : Option Nat} {i : Bool} (hs : s.Guarded)
    (h : s.Filed n k d i t) : t.Guarded := by
  obtain ⟨hundigested, huninterned⟩ := hs.blank n h.blank
  have hdigest : ∀ c, (s.digest c).isSome → (t.digest c).isSome := by
    intro c hc
    have hcn : c ≠ n := by
      rintro rfl
      rw [hundigested] at hc
      exact nomatch hc
    rwa [h.digest_of_ne hcn]
  have hinterned : ∀ c, s.isInterned c = true → t.isInterned c = true := by
    intro c hc
    have hcn : c ≠ n := by
      rintro rfl
      rw [huninterned] at hc
      exact nomatch hc
    rwa [h.isInterned_of_ne hcn]
  -- what is numbered or interned stays so, as the node that was filed was neither
  refine ⟨fun m hm => ?_, fun m hm => ?_, fun m hm => ?_, fun m hm => ?_⟩ <;>
    by_cases hmn : m = n
  · rw [hmn, h.isComplete_eq] at hm
    exact nomatch hm
  · rw [h.isComplete_of_ne hmn] at hm
    rw [h.digest_of_ne hmn, h.isInterned_of_ne hmn]
    exact hs.blank m hm
  · rw [hmn, h.digest_eq] at hm
    obtain ⟨e, rfl⟩ := Option.isSome_iff_exists.mp hm
    rw [hmn, h.kind_eq]
    exact fun c hc => hdigest c ((h.numbered e rfl).2 c hc)
  · rw [h.digest_of_ne hmn] at hm
    rw [h.kind_of_ne hmn]
    exact fun c hc => hdigest c (hs.numbered m hm c hc)
  · rw [hmn, h.digest_eq] at hm
    obtain ⟨e, rfl⟩ := Option.isSome_iff_exists.mp hm
    rw [hmn]
    refine .of_children (Array.getElem?_eq_some_iff.mp h.node).1 ?_
    rw [h.kind_eq]
    exact fun c hc => h.founded hs ((h.numbered e rfl).2 c hc)
  · rw [h.digest_of_ne hmn] at hm
    exact h.founded hs hm
  · rw [hmn, h.isInterned_eq] at hm
    obtain ⟨-, hbelow, x, hx, -⟩ := h.interned hm
    rw [hmn, h.digest_eq, h.kind_eq, hx]
    exact ⟨rfl, fun c hc => hinterned c (hbelow c hc)⟩
  · rw [h.isInterned_of_ne hmn] at hm
    rw [h.digest_of_ne hmn, h.kind_of_ne hmn]
    exact ⟨(hs.interned m hm).1, fun c hc => hinterned c ((hs.interned m hm).2 c hc)⟩

theorem Guarded.change (hs : s.Guarded) (c : Change) : (c.apply s).Guarded := by
  rcases change_nodes hs.interned c with hsame | ⟨n, k, d, i, -, hfiled⟩
  · exact hs.of_reads hsame.size hsame.kind hsame.digest hsame.interned hsame.complete
  · exact hs.file hfiled

theorem Reachable.guarded (h : s.Reachable) : s.Guarded := by
  induction h with
  | start => exact guarded_start
  | step c _ _ ih => exact ih.change c

/-- **There is no endless way down from a node with a digest.** -/
theorem Reachable.founded_of_digest (h : s.Reachable) (n : NodeId) :
    (s.digest n).isSome → s.Founded n :=
  h.guarded.founded n

end Store

end ValueInference
