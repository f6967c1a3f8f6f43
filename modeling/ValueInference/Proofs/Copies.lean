/-
Copies of the nodes on a cycle.

A walk without changes copies a node on a cycle when a mirror below it is not the node itself.  In
a steady value the copy has all that the node has: members and candidates that were different stay
different, although some of them are placeholders, and no check of a form fails.

* **`Store.Going.told_apart`**, **`Store.Going.candidates_apart`** — mirrors of different members
  and candidates differ;
* **`Store.Going.fault?_of_alike`** — a form over mirrors has no fault;
* **`Store.Going.exists_copy`** — a node can be made of such a form.
-/
import ValueInference.Proofs.Equivalence
import ValueInference.Proofs.Indistinct
import ValueInference.Proofs.Scenes

namespace ValueInference

namespace Store

variable {s t : Store} {v x y m n : NodeId} {stack : List NodeId} {σ : Scene} {k : Kind}

/-- A scalar has nothing below it. -/
theorem not_scalar_of_cycle (hs : s.Reachable) (h : s.Below n n) (value : Slot) (ty : Ty) :
    s.kind n ≠ .scalar value ty := by
  intro hk
  obtain ⟨c, hc, -⟩ := exists_child_of_cycle h
  rw [hs.children_of_scalar hk] at hc
  exact absurd hc List.not_mem_nil

/-- What is alike to a node on a cycle has a form. -/
theorem complete_of_alike {R : NodeId → NodeId → Prop} (hcycle : s.Below n n)
    (h : (t.kind x).Alike R (s.kind n)) : t.isComplete x = true := by
  by_contra hblank
  obtain ⟨c, hc, -⟩ := exists_child_of_cycle hcycle
  have hhead := h.head_eq
  rw [kind_of_incomplete (Bool.eq_false_iff.mpr hblank)] at hhead
  rw [Kind.eq_error_of_head hhead.symm] at hc
  exact absurd hc List.not_mem_nil

namespace Going

/-! ### What mirrors show -/

/-- A mirror has the head of its node, or is a placeholder. -/
theorem head_or_open (h : s.Going v stack σ) (hxy : σ.mirrors x y) (hy : y < s.nodes.size) :
    (σ.store.kind x).head = (s.kind y).head ∨
      σ.store.kind x = .error .incomplete ∧ y ∈ stack := by
  rcases h.mirrored x y hxy with rfl | ⟨-, -, ⟨-, halike⟩ | ⟨hblank, hopen⟩⟩
  · exact .inl (congrArg Kind.head (h.grows.kind_eq hy))
  · exact .inl halike.head_eq
  · exact .inr ⟨kind_of_incomplete hblank, h.inside ▸ mem_keys_of_lookup hopen⟩

theorem isUnion_eq_false (h : s.Going v stack σ) (hxy : σ.mirrors x y) (hy : y < s.nodes.size)
    (hflat : (s.kind y).isUnion = false) : (σ.store.kind x).isUnion = false := by
  rcases h.head_or_open hxy hy with hhead | ⟨hopen, -⟩
  · rw [← Kind.isUnion_head, hhead, Kind.isUnion_head, hflat]
  · rw [hopen]
    rfl

/-- A mirror has the form of its node over mirrors, or is a placeholder. -/
theorem alike_or_open (h : s.Going v stack σ) (hxy : σ.mirrors x y) (hy : y < s.nodes.size) :
    (σ.store.kind x).Alike σ.mirrors (s.kind y) ∨
      σ.store.kind x = .error .incomplete ∧ y ∈ stack := by
  rcases h.mirrored x y hxy with rfl | ⟨-, -, ⟨-, halike⟩ | ⟨hblank, hopen⟩⟩
  · exact .inl (h.grows.kind_eq hy ▸ .refl fun c _ => h.same c)
  · exact .inl halike
  · exact .inr ⟨kind_of_incomplete hblank, h.inside ▸ mem_keys_of_lookup hopen⟩

theorem mirror_lt (h : s.Going v stack σ) (hxy : σ.mirrors x y) (hy : y < s.nodes.size) :
    x < σ.store.nodes.size := by
  rcases h.mirrored x y hxy with rfl | ⟨-, hlt, -⟩
  · exact Nat.lt_of_lt_of_le hy h.grows.size_le
  · exact hlt

section

variable (h : s.Going v (n :: stack) σ) (htrail : s.Trail v (n :: stack)) (hs : s.Sound)

include h htrail

/-- Mirrors that are equal show their forms, if the walk is inside of one of the nodes at most: a
placeholder differs from what has a form. -/
theorem alike_of_equals {y' x' : NodeId} (hone : s.OneOpen n y y') (hne : y ≠ y')
    (hy : y < s.nodes.size) (hy' : y' < s.nodes.size) (hx : σ.mirrors x y) (hx' : σ.mirrors x' y')
    (hequal : σ.store.Equals x x') :
    (σ.store.kind x).Alike σ.mirrors (s.kind y) ∧ (σ.store.kind x').Alike σ.mirrors (s.kind y') := by
  have hhead := head_of_equals hequal
  rcases h.alike_or_open hx hy with halike | ⟨hopen, hin⟩
  · rcases h.alike_or_open hx' hy' with halike' | ⟨hopen', -⟩
    · exact ⟨halike, halike'⟩
    · rw [halike.head_eq, hopen'] at hhead
      exact absurd (Kind.eq_error_of_head hhead) hone.filled.1
  · rcases h.alike_or_open hx' hy' with halike' | ⟨-, hin'⟩
    · rw [halike'.head_eq, hopen] at hhead
      exact absurd (Kind.eq_error_of_head hhead.symm) hone.filled.2
    · exact (htrail.not_both hone hne hin hin').elim

include hs

/-- The places of nodes whose mirrors are equal correspond: the way from one form to the other leads
through both mirrors. -/
theorem places_of_equals {y' x' : NodeId} (hone : s.OneOpen n y y') (hne : y ≠ y')
    (hplaced : (s.kind y).Placed) (hy : y < s.nodes.size) (hy' : y' < s.nodes.size)
    (hx : σ.mirrors x y) (hx' : σ.mirrors x' y') (hequal : σ.store.Equals x x') :
    (s.kind y).Alike (fun a b => a < s.nodes.size ∧ b < s.nodes.size ∧
      ∃ c d, σ.mirrors c a ∧ σ.mirrors d b ∧ σ.store.Equals c d) (s.kind y') := by
  obtain ⟨halike, halike'⟩ := h.alike_of_equals htrail hone hne hy hy' hx hx' hequal
  have hforms := alike_of_equalIn h.reachable.sound
    ⟨h.mirror_lt hx hy, h.mirror_lt hx' hy', hequal⟩
  have hplaced' := halike.placed_iff.mpr hplaced
  have hflip := halike.flip_of_placed (h.reachable.sound.labelled x) hplaced
  refine ((hflip.comp_of_placed hforms hplaced').comp_of_placed halike'
    (hforms.placed_iff.mp hplaced')).imp ?_
  rintro a ha b hb ⟨d, ⟨c, hca, hcd⟩, hdb⟩
  exact ⟨hs.child_lt ha, hs.child_lt hb, c, d, hca, hdb, hcd.2.2⟩

/-- **Mirrors of nodes that are told apart differ**, by induction on what tells them apart. -/
theorem told_apart {y' : NodeId} (hapart : s.ToldApart n y y') (hy : y < s.nodes.size)
    (hy' : y' < s.nodes.size) :
    ∀ {x x'}, σ.mirrors x y → σ.mirrors x' y' → σ.store.equal x x' = false := by
  induction hapart with
  | head one heads =>
    intro x x' hx hx'
    refine Bool.eq_false_iff.mpr fun hequal => ?_
    obtain ⟨halike, halike'⟩ := h.alike_of_equals htrail one (fun hsame => heads (hsame ▸ rfl)) hy hy'
      hx hx' hequal
    exact heads (halike.head_eq.symm.trans ((head_of_equals hequal).trans halike'.head_eq))
  | form one placed unlike =>
    intro x x' hx hx'
    refine Bool.eq_false_iff.mpr fun hequal => ?_
    have hne := (ToldApart.form one placed unlike).ne
    exact unlike _ (h.places_of_equals htrail hs one hne placed hy hy' hx hx' hequal)
  | part one placed place apart ih =>
    intro x x' hx hx'
    refine Bool.eq_false_iff.mpr fun hequal => ?_
    have hne := (ToldApart.part one placed place apart).ne
    obtain ⟨ha, hb, c, d, hca, hdb, hcd⟩ :=
      place _ (h.places_of_equals htrail hs one hne placed hy hy' hx hx' hequal)
    exact Bool.eq_false_iff.mp (ih ha hb hca hdb) hcd
  | fixed left right differ =>
    intro x x' hx hx'
    refine Bool.eq_false_iff.mpr fun hequal => ?_
    obtain rfl := (h.mirrored x _ hx).of_founded left
    obtain rfl := (h.mirrored x' _ hx').of_founded right
    exact Bool.eq_false_iff.mp differ ((h.grows.equals_iff left right).mp hequal)

end

/-- Over nodes on no cycle, a candidate of mirrors is the candidate itself. -/
theorem candidate_eq_of_founded {c d : Candidate} (h : s.Going v stack σ)
    (hcd : c.Alike σ.mirrors d) (hd : s.FoundedIn d) : c = d :=
  Candidate.alike_eq.mp (hcd.imp fun a _ b hb hab => (h.mirrored a b hab).of_founded (hd b hb))

/-- **Mirrors of different candidates differ.** -/
theorem candidates_apart {cs ds : List Candidate} (h : s.Going v (n :: stack) σ)
    (htrail : s.Trail v (n :: stack)) (hs : s.Sound)
    (hchild : ∀ d ∈ ds, ∀ a ∈ d.children, a < s.nodes.size)
    (hds : s.CandidatesApart n ds) (hcs : List.Forall₂ (Candidate.Alike σ.mirrors) cs ds) :
    cs.Pairwise fun c d => σ.store.equalCandidates c d = false := by
  refine pairwise_of_forall₂ hcs hds fun c c' d hd d' hd' hcd hcd' hapart => ?_
  refine Bool.eq_false_iff.mpr fun hequal => ?_
  rcases hapart with hheads | ⟨a, b, hplace, hab⟩ | ⟨hfounded, hfounded', hne⟩
  · exact hheads (hcd.head_eq.symm.trans ((head_of_equalCandidates hequal).trans hcd'.head_eq))
  · have hbelow : ∀ {c d : Candidate}, d ∈ ds → c.Alike σ.mirrors d →
        ∀ x ∈ c.children, x < σ.store.nodes.size := fun hd hcd x hx => by
      obtain ⟨a, ha, hxa⟩ := hcd.exists_child x hx
      exact h.mirror_lt hxa (hchild _ hd a ha)
    have hforms : c.Alike σ.store.EqualIn c' :=
      (equalCandidates_iff_alike h.reachable.sound (hbelow hd hcd) (hbelow hd' hcd')).mp hequal
    have hparts := ((hcd.flip.comp hforms).comp hcd').imp (S := fun a b => a < s.nodes.size ∧
        b < s.nodes.size ∧ ∃ x y, σ.mirrors x a ∧ σ.mirrors y b ∧ σ.store.Equals x y)
      fun a ha b hb hab => by
        obtain ⟨y, ⟨x, hxa, hxy⟩, hyb⟩ := hab
        exact ⟨hchild d hd a ha, hchild d' hd' b hb, x, y, hxa, hyb, hxy.2.2⟩
    obtain ⟨ha, hb, x, y, hxa, hyb, hxy⟩ := hplace _ hparts
    exact Bool.eq_false_iff.mp (h.told_apart htrail hs hab ha hb hxa hyb) hxy
  · obtain rfl := h.candidate_eq_of_founded hcd hfounded
    obtain rfl := h.candidate_eq_of_founded hcd' hfounded'
    rw [equalCandidates_iff (h.grows.foundedIn hfounded), h.grows.alike_iff hfounded hfounded',
      ← equalCandidates_iff hfounded] at hequal
    exact Bool.eq_false_iff.mp hne hequal

/-! ### Forms over mirrors -/

/-- **A form over mirrors has no fault.** -/
theorem fault?_of_alike (h : s.Going v stack σ) (hs : s.Reachable) (hsteady : s.Steady v)
    (hn : s.Leads v n) (hcycle : s.Below n n) (halike : k.Alike σ.mirrors (s.kind n))
    (hknows : σ.store.knows k = true) (hlabelled : k.Labelled) (hformed : k.Formed) :
    σ.store.fault? k = none := by
  refine fault?_eq_none hknows hlabelled hformed (fun value ty hk => ?_) fun ms hk m hm => ?_
  · subst hk
    rcases hform : s.kind n with ⟨v, t⟩ | _ | _ | _ | _ | _ | _ | _ | _ | _ | _
    case scalar => exact not_scalar_of_cycle hs hcycle v t hform
    all_goals
      rw [hform] at halike
      exact halike.elim
  · subst hk
    rcases hform : s.kind n with _ | _ | _ | _ | _ | ms' | _ | _ | _ | _ | _
    case union =>
      rw [hform] at halike
      obtain ⟨m', hm', hmm'⟩ := halike.2 m hm
      have hchild : m' ∈ (s.kind n).children := by rwa [hform]
      exact h.isUnion_eq_false hmm' (hs.sound.child_lt hchild)
        ((hsteady.members n ms' hn hcycle hform).flat m' hm')
    all_goals
      rw [hform] at halike
      exact halike.elim

/-- A form over mirrors is over nodes of the store. -/
theorem knows_of_alike (h : s.Going v stack σ) (hs : s.Sound) (hpresent : n < s.nodes.size)
    (halike : k.Alike σ.mirrors (s.kind n)) (hpendings : k.pendings = [])
    (hslot : ∀ slot, k.slot? = some slot → σ.store.AdmitsSlot slot) :
    σ.store.knows k = true := by
  refine knows_iff.mpr ⟨fun c hc => ?_, fun p hp => ?_⟩
  · have hsets : (σ.store.kind n).Coherent k := sets_coherent hslot n
    rw [h.grows.kind_eq hpresent] at hsets
    obtain ⟨d, hd, hcd⟩ := halike.exists_child (fun a _ => h.same a) hsets.symm c hc
    rcases h.mirrored c d hcd with rfl | ⟨-, hlt, -⟩
    · exact Nat.lt_of_lt_of_le (hs.child_lt hd) h.grows.size_le
    · exact hlt
  · rw [hpendings] at hp
    exact absurd hp List.not_mem_nil

/-- **A node can be made of a form over mirrors.** -/
theorem exists_copy (h : s.Going v stack σ) (hs : s.Reachable) (hsteady : s.Steady v)
    (hn : s.Leads v n) (hcycle : s.Below n n) (halike : k.Alike σ.mirrors (s.kind n))
    (hpendings : k.pendings = []) (hlabelled : k.Labelled) (hformed : k.Formed)
    (hslot : ∀ slot, k.slot? = some slot → σ.store.AdmitsSlot slot) :
    ∃ out t, (Infer.make k).outcome σ.store = (.ok out, t) ∧ σ.store.Grows t ∧ t.Reachable ∧
      (t.kind out).Alike σ.mirrors (s.kind n) := by
  have hpresent := present_of_cycle hs.sound hcycle
  have hknows := h.knows_of_alike hs.sound hpresent halike hpendings hslot
  have hfault := h.fault?_of_alike hs hsteady hn hcycle halike hknows hlabelled hformed
  rcases hplace : σ.store.place k with ⟨out, t⟩
  have hmake : (Infer.make k).outcome σ.store = (.ok out, t) := by
    rw [Infer.outcome_make, build, hfault, hplace]
    rfl
  have hmade := make_spec h.reachable.sound hslot hmake
  have hbuild : (σ.store.build k).2 = t := by
    rw [build, hfault, hplace]
  refine ⟨out, t, hmake, hmade.grows, hbuild ▸ .step (.build k) h.reachable hslot, ?_⟩
  have hsets : (σ.store.kind n).Coherent k := sets_coherent hslot n
  rw [h.grows.kind_eq hpresent] at hsets
  refine (hmade.alike.comp hmade.coherent hsets.symm (fun _ _ => rfl) (fun a _ => h.same a)
    halike).imp ?_
  rintro a _ b _ ⟨c, rfl, hcb⟩
  exact hcb

end Going

end Store

end ValueInference
