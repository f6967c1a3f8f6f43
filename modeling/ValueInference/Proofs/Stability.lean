/-
Equality of values that are still put together.

A placeholder reads as an incomplete error value until it gets its form, so two placeholders are
equal, and so are values over them.  Such an equality does not last: the placeholders may get
different forms.  An equality is *firm* if it pairs nodes with themselves and nodes that have a
form, and exactly the firm ones last.

* **`Store.Continues`**, **`Store.Completes`** — a store is changed further, or only placeholders
  are completed;
* **`Store.FirmlyEqual`** — equal, and no placeholder is taken for another node;
* **`Store.FirmlyEqual.lasts`** — firmly equal nodes stay equal under all changes;
* **`Store.exists_telling`** — there is a way to complete all placeholders after which only nodes
  that are firmly equal are equal;
* **`Store.equality_lasts_iff`** — the equalities of nodes, candidates and function references that
  last, and what this says about members and candidates that were left out.
-/
import ValueInference.Proofs.Finished
import Mathlib.Data.Set.Finite.Lattice

namespace ValueInference

namespace Store

variable {s t u : Store} {a b n x y : NodeId} {R : NodeId → NodeId → Prop}

/-! ### Stores that are changed further -/

/-- The second store comes from the first by changes that bring in nothing but sets as they are
made. -/
inductive Continues (s : Store) : Store → Prop where
  | refl : Continues s s
  | step {t : Store} (c : Change) : Continues s t → t.Admits c → Continues s (c.apply t)

/-- The second store comes from the first by completing placeholders. -/
inductive Completes (s : Store) : Store → Prop where
  | refl : Completes s s
  | step {t : Store} (n : NodeId) (k : Kind) : Completes s t → t.Admits (.complete n k) →
      Completes s (t.complete n k).2

theorem Completes.continues (h : s.Completes t) : s.Continues t := by
  induction h with
  | refl => exact .refl
  | step n k _ hk ih => exact .step (.complete n k) ih hk

theorem Continues.reachable (h : s.Continues t) (hs : s.Reachable) : t.Reachable := by
  induction h with
  | refl => exact hs
  | step c _ hc ih => exact .step c ih hc

/-- Two stores whose nodes read alike have the same nodes with a form. -/
theorem SameNodes.keeps (h : s.SameNodes t) : s.Keeps t := by
  refine ⟨fun n hn => ?_, h.size⟩
  have hform : ∀ {u : Store}, u.isComplete n = true →
      u.nodes[n]? = some ⟨some (u.kind n), u.digest n, u.isInterned n⟩ := by
    intro u hu
    rw [Store.isComplete] at hu
    rw [Store.kind, Store.digest, Store.isInterned]
    revert hu
    rcases u.nodes[n]? with _ | ⟨_ | k, d, i⟩
    · exact fun hu => absurd hu Bool.false_ne_true
    · exact fun hu => absurd hu Bool.false_ne_true
    · exact fun _ => rfl
  rw [hform hn, hform (by rwa [h.complete]), h.kind, h.digest, h.interned]

theorem Sound.keeps_change (hs : s.Sound) (c : Change) : s.Keeps (c.apply s) := by
  rcases change_nodes hs.interned c with hsame | ⟨n, k, d, i, -, hfiled⟩
  · exact hsame.keeps
  · exact hfiled.keeps

theorem Continues.keeps (h : s.Continues t) (hs : s.Reachable) : s.Keeps t := by
  induction h with
  | refl => exact .refl s
  | step c ht _ ih => exact ih.trans ((ht.reachable hs).sound.keeps_change c)

/-! ### Equalities that last -/

/-- A bisimulation that pairs different nodes only if both have a form. -/
structure Firm (s : Store) (R : NodeId → NodeId → Prop) : Prop where
  bisimulation : s.Bisimulation R
  complete : ∀ a b, R a b → a = b ∨ s.isComplete a = true ∧ s.isComplete b = true

/-- The nodes are equal, and no placeholder is taken for another node. -/
def FirmlyEqual (s : Store) (x y : NodeId) : Prop := ∃ R, s.Firm R ∧ R x y

theorem firmlyEqual_refl (s : Store) (x : NodeId) : s.FirmlyEqual x x :=
  ⟨(· = ·), ⟨fun _ _ => .inl, fun _ _ => .inl⟩, rfl⟩

/-- Nodes that have a form keep it, so that a firm relation stays one. -/
theorem Firm.keeps (h : s.Firm R) (ht : s.Keeps t) : t.Firm R := by
  refine ⟨fun a b hab => ?_, fun a b hab => ?_⟩
  · rcases h.complete a b hab with rfl | ⟨ha, hb⟩
    · exact .inl rfl
    · rw [ht.kind_eq ha, ht.kind_eq hb, ht.mayEqual_iff ha hb]
      exact h.bisimulation a b hab
  · exact (h.complete a b hab).imp id fun hab => ⟨ht.isComplete hab.1, ht.isComplete hab.2⟩

theorem FirmlyEqual.keeps (h : s.FirmlyEqual x y) (ht : s.Keeps t) : t.FirmlyEqual x y := by
  obtain ⟨R, hR, hxy⟩ := h
  exact ⟨R, hR.keeps ht, hxy⟩

theorem FirmlyEqual.equalIn (h : s.FirmlyEqual x y) (hs : s.Sound) (hx : x < s.nodes.size)
    (hy : y < s.nodes.size) : s.EqualIn x y := by
  obtain ⟨R, hR, hxy⟩ := h
  exact ⟨hx, hy, equal_of_bisimulation hs hR.bisimulation hx hy hxy⟩

/-- **Firmly equal nodes stay equal** under all changes. -/
theorem FirmlyEqual.lasts (h : s.FirmlyEqual x y) (hs : s.Reachable) (hx : x < s.nodes.size)
    (hy : y < s.nodes.size) (ht : s.Continues t) : t.EqualIn x y := by
  have hkeeps := ht.keeps hs
  exact (h.keeps hkeeps).equalIn (ht.reachable hs).sound (hx.trans_le hkeeps.size_le)
    (hy.trans_le hkeeps.size_le)

/-! ### Telling placeholders apart -/

/-- Forms that are told apart by their numbers. -/
def marker (i : Nat) : Kind := .type (.tuple (List.replicate i .nil))

theorem marker_injective : Function.Injective marker := by
  intro i j h
  have hlists : List.replicate i Ty.nil = List.replicate j Ty.nil := Ty.tuple.inj (Kind.type.inj h)
  simpa using congrArg List.length hlists

/-- Above some number no node of the store has a marker for its form. -/
theorem exists_fresh_marker (s : Store) :
    ∃ bound, ∀ n i, n < s.nodes.size → s.kind n = marker i → i < bound := by
  have hfinite : {i | marker i ∈ s.kind '' Set.Iio s.nodes.size}.Finite :=
    ((Set.finite_Iio s.nodes.size).image s.kind).preimage marker_injective.injOn
  obtain ⟨bound, hbound⟩ := hfinite.bddAbove
  refine ⟨bound + 1, fun n i hn hi => Nat.lt_succ_of_le (hbound ?_)⟩
  exact ⟨n, hn, hi⟩

/-- Some placeholders can be given markers for forms, and the others left as they are. -/
theorem exists_marked (s : Store) (bound : Nat) (ns : List NodeId) :
    ∃ t, s.Completes t ∧ (∀ n, n ∉ ns → t.isComplete n = s.isComplete n) ∧
      s.nodes.size ≤ t.nodes.size ∧
      ∀ n ∈ ns, n < s.nodes.size → s.isComplete n = false → t.kind n = marker (bound + n) := by
  induction ns with
  | nil => exact ⟨s, .refl, fun _ _ => rfl, Nat.le_refl _, fun _ hn => absurd hn List.not_mem_nil⟩
  | cons m ns ih =>
    obtain ⟨t, ht, hothers, hsize, hmarked⟩ := ih
    by_cases hopen : m ∉ ns ∧ m < s.nodes.size ∧ s.isComplete m = false
    · obtain ⟨hnew, hm, hblank⟩ := hopen
      have hok := complete_ok (s := t) (k := marker (bound + m)) rfl (hm.trans_le hsize)
        (by rw [hothers m hnew, hblank])
      obtain ⟨d, hfiled⟩ := complete_filed hok
      refine ⟨_, .step m (marker (bound + m)) ht nofun, fun n hn => ?_, hsize.trans hfiled.size_le,
        fun n hn hlt hn' => ?_⟩
      · obtain ⟨hne, hn⟩ := List.ne_and_not_mem_of_not_mem_cons hn
        rw [hfiled.isComplete_of_ne hne, hothers n hn]
      · by_cases hne : n = m
        · rw [hne, hfiled.kind_eq]
        · rw [hfiled.kind_of_ne hne]
          exact hmarked n ((List.mem_cons.mp hn).resolve_left hne) hlt hn'
    · refine ⟨t, ht, fun n hn => hothers n (List.not_mem_of_not_mem_cons hn), hsize,
        fun n hn hlt hn' => hmarked n ?_ hlt hn'⟩
      rcases List.mem_cons.mp hn with rfl | hn
      · by_contra hnew
        exact hopen ⟨hnew, hlt, hn'⟩
      · exact hn

/-- What is alike to a marker is that marker. -/
theorem alike_marker {k : Kind} {i : Nat} (h : k.Alike R (marker i)) : k = marker i := by
  cases k with
  | type t => exact congrArg Kind.type h
  | _ => exact h.elim

theorem marker_alike {k : Kind} {i : Nat} (h : (marker i).Alike R k) : k = marker i := by
  cases k with
  | type t => exact congrArg Kind.type (Eq.symm h)
  | _ => exact h.elim

/-- **All placeholders can be completed so that only firmly equal nodes are equal.** -/
theorem exists_telling (hs : s.Reachable) :
    ∃ t, s.Completes t ∧ ∀ x y, x < s.nodes.size → y < s.nodes.size → t.Equals x y →
      s.FirmlyEqual x y := by
  obtain ⟨bound, hbound⟩ := s.exists_fresh_marker
  obtain ⟨t, ht, -, hsize, hmarked⟩ := s.exists_marked bound (List.range s.nodes.size)
  have hkeeps := ht.continues.keeps hs
  have hsound := (ht.continues.reachable hs).sound
  have hmarked' : ∀ n, n < s.nodes.size → s.isComplete n = false → t.kind n = marker (bound + n) :=
    fun n hn => hmarked n (List.mem_range.mpr hn) hn
  -- a placeholder got a form that no other node has
  have hsame : ∀ a b, a < s.nodes.size → b < s.nodes.size → s.isComplete a = false →
      t.kind b = marker (bound + a) → a = b := by
    intro a b ha hb hblank hkind
    cases hcb : s.isComplete b with
    | false =>
      rw [hmarked' b hb hcb] at hkind
      exact (Nat.add_left_cancel (marker_injective hkind)).symm
    | true =>
      rw [hkeeps.kind_eq hcb] at hkind
      exact absurd (hbound b _ hb hkind) (by omega)
  let R : NodeId → NodeId → Prop := fun a b =>
    a < s.nodes.size ∧ b < s.nodes.size ∧ t.EqualIn a b
  have hcomplete : ∀ a b, R a b → a = b ∨ s.isComplete a = true ∧ s.isComplete b = true := by
    rintro a b ⟨ha, hb, hab⟩
    have halike := alike_of_equalIn hsound hab
    cases hca : s.isComplete a with
    | false =>
      rw [hmarked' a ha hca] at halike
      exact .inl (hsame a b ha hb hca (marker_alike halike))
    | true =>
      cases hcb : s.isComplete b with
      | false =>
        rw [hmarked' b hb hcb] at halike
        exact .inl (hsame b a hb ha hcb (alike_marker halike)).symm
      | true => exact .inr ⟨rfl, rfl⟩
  have hbisimulation : s.Bisimulation R := by
    rintro a b hab
    rcases hcomplete a b hab with rfl | ⟨hca, hcb⟩
    · exact .inl rfl
    refine (bisimulation_equals hsound a b hab.2.2).imp id fun ⟨hmay, halike⟩ => ?_
    rw [hkeeps.kind_eq hca, hkeeps.kind_eq hcb] at halike
    refine ⟨(hkeeps.mayEqual_iff hca hcb).mp hmay, halike.imp fun c hc d hd hcd => ?_⟩
    exact ⟨hs.sound.child_lt hc, hs.sound.child_lt hd, hcd⟩
  refine ⟨t, ht, fun x y hx hy hxy => ⟨R, ⟨hbisimulation, hcomplete⟩, hx, hy, ?_⟩⟩
  exact ⟨hx.trans_le hsize, hy.trans_le hsize, hxy⟩

/-! ### The equalities that last -/

/-- What holds of a node in all stores that come by completing placeholders. -/
theorem firmlyEqual_iff (hs : s.Reachable) (hx : x < s.nodes.size) (hy : y < s.nodes.size) :
    s.FirmlyEqual x y ↔ ∀ t, s.Completes t → t.equal x y = true := by
  constructor
  · exact fun h t ht => (h.lasts hs hx hy ht.continues).2.2
  · intro h
    obtain ⟨t, ht, htold⟩ := exists_telling hs
    exact htold x y hx hy (h t ht)

theorem firmlyEqual_candidates_iff {c d : Candidate} (hs : s.Reachable)
    (hc : ∀ n ∈ c.children, n < s.nodes.size) (hd : ∀ n ∈ d.children, n < s.nodes.size) :
    c.Alike s.FirmlyEqual d ↔ ∀ t, s.Completes t → t.equalCandidates c d = true := by
  have hlater : ∀ {t}, s.Completes t → t.Sound ∧ (∀ n ∈ c.children, n < t.nodes.size) ∧
      ∀ n ∈ d.children, n < t.nodes.size := fun ht =>
    have hsize := (ht.continues.keeps hs).size_le
    ⟨(ht.continues.reachable hs).sound, fun n hn => (hc n hn).trans_le hsize,
      fun n hn => (hd n hn).trans_le hsize⟩
  constructor
  · intro h t ht
    obtain ⟨hsound, hct, hdt⟩ := hlater ht
    refine (equalCandidates_iff_alike hsound hct hdt).mpr (h.imp fun a ha b hb hab => ?_)
    exact hab.lasts hs (hc a ha) (hd b hb) ht.continues
  · intro h
    obtain ⟨t, ht, htold⟩ := exists_telling hs
    obtain ⟨hsound, hct, hdt⟩ := hlater ht
    refine ((equalCandidates_iff_alike hsound hct hdt).mp (h t ht)).imp fun a ha b hb hab => ?_
    exact htold a b (hc a ha) (hd b hb) hab.2.2

/-- Every node among some members still equals one of those that were kept, if the equalities
between them are firm. -/
theorem distinctMembers_last {ns : List NodeId} (hs : s.Reachable)
    (hpresent : ∀ n ∈ ns.flatMap s.members, n < s.nodes.size)
    (hfirm : ∀ m ∈ ns.flatMap s.members, ∀ n ∈ ns.flatMap s.members, s.equal m n = true →
      s.FirmlyEqual m n) :
    ∀ n ∈ ns.flatMap s.members, ∃ m ∈ s.distinctMembers ns,
      ∀ t, s.Completes t → t.equal m n = true := by
  have hthinned : Thinned s.equal (s.distinctMembers ns) (ns.flatMap s.members) :=
    thinned_foldl (fun _ _ => rfl) _
  intro n hn
  obtain ⟨m, hm, hmn⟩ := hthinned.covered n hn
  have hm' := hthinned.sublist.mem hm
  refine ⟨m, hm, (firmlyEqual_iff hs (hpresent m hm') (hpresent n hn)).mp ?_⟩
  rcases hmn with rfl | hmn
  · exact s.firmlyEqual_refl m
  · exact hfirm m hm' n hn hmn

theorem addCandidates_last {cs : List Candidate} (hs : s.Reachable)
    (hpresent : ∀ c ∈ cs, ∀ n ∈ c.children, n < s.nodes.size)
    (hfirm : ∀ c ∈ cs, ∀ d ∈ cs, s.equalCandidates c d = true → c.Alike s.FirmlyEqual d) :
    ∀ d ∈ cs, ∃ c ∈ s.addCandidates [] cs,
      ∀ t, s.Completes t → t.equalCandidates c d = true := by
  intro d hd
  obtain ⟨c, hc, hcd⟩ := (s.thinned_addCandidates cs).covered d hd
  have hc' := (s.thinned_addCandidates cs).sublist.mem hc
  refine ⟨c, hc, (firmlyEqual_candidates_iff hs (hpresent c hc') (hpresent d hd)).mp ?_⟩
  rcases hcd with rfl | hcd
  · exact .refl fun n _ => s.firmlyEqual_refl n
  · exact hfirm c hc' d hd hcd

/-- **The equalities that last.**  Two nodes, candidates or function references go on to be equal,
however placeholders are completed, exactly if they are firmly equal; and if the equalities of some
members or candidates are firm, whatever was left out as equal to another one stays equal to it. -/
theorem equality_lasts_iff (hs : s.Reachable) :
    (∀ x y, x < s.nodes.size → y < s.nodes.size →
      (s.FirmlyEqual x y ↔ ∀ t, s.Completes t → t.equal x y = true)) ∧
    (∀ c d : Candidate, (∀ n ∈ c.children ++ d.children, n < s.nodes.size) →
      (c.Alike s.FirmlyEqual d ↔ ∀ t, s.Completes t → t.equalCandidates c d = true)) ∧
    (∀ f g : FunctionRef, (∀ n ∈ f.children ++ g.children, n < s.nodes.size) →
      (f.Alike s.FirmlyEqual g ↔ ∀ t, s.Completes t → t.equalRefs f g = true)) ∧
    (∀ ns, (∀ n ∈ ns.flatMap s.members, n < s.nodes.size) →
      (∀ m ∈ ns.flatMap s.members, ∀ n ∈ ns.flatMap s.members, s.equal m n = true →
        s.FirmlyEqual m n) →
      ∀ n ∈ ns.flatMap s.members, ∃ m ∈ s.distinctMembers ns,
        ∀ t, s.Completes t → t.equal m n = true) ∧
    ∀ cs : List Candidate, (∀ c ∈ cs, ∀ n ∈ c.children, n < s.nodes.size) →
      (∀ c ∈ cs, ∀ d ∈ cs, s.equalCandidates c d = true → c.Alike s.FirmlyEqual d) →
      ∀ d ∈ cs, ∃ c ∈ s.addCandidates [] cs, ∀ t, s.Completes t → t.equalCandidates c d = true := by
  have hcandidates : ∀ c d : Candidate, (∀ n ∈ c.children ++ d.children, n < s.nodes.size) →
      (c.Alike s.FirmlyEqual d ↔ ∀ t, s.Completes t → t.equalCandidates c d = true) :=
    fun c d hcd => firmlyEqual_candidates_iff hs (fun n hn => hcd n (List.mem_append_left _ hn))
      fun n hn => hcd n (List.mem_append_right _ hn)
  refine ⟨fun x y => firmlyEqual_iff hs, hcandidates, fun f g hfg => ?_,
    fun ns => distinctMembers_last hs, fun cs => addCandidates_last hs⟩
  -- a reference is compared as the candidate that it is
  exact hcandidates (.function f) (.function g) hfg

/-- Two lists of one placeholder. -/
def sharedLists : Store :=
  (Change.build (.list 0)).apply ((Change.build (.list 0)).apply (Change.placeholder.apply {}))

theorem reachable_sharedLists : sharedLists.Reachable :=
  have hfirst := Reachable.step (.build (.list 0)) (.step .placeholder .start trivial) nofun
  .step (.build (.list 0)) hfirst nofun

/-- The two lists are equal and stay so, and so do functions that return them. -/
theorem equality_lasts_sharedLists :
    let t := (sharedLists.complete 0 (.type .nil)).2
    sharedLists.Completes t ∧ t.equal 1 2 = true ∧
      t.equalRefs (.virtual [] 1) (.virtual [] 2) = true := by
  intro t
  have ht : sharedLists.Completes t := .step 0 (.type .nil) .refl nofun
  have hkinds : sharedLists.kind 1 = .list 0 ∧ sharedLists.kind 2 = .list 0 := by decide +kernel
  have hfirm : sharedLists.FirmlyEqual 1 2 := by
    refine ⟨fun a b => a = b ∨ a = 1 ∧ b = 2, ⟨fun a b hab => ?_, fun a b hab => ?_⟩,
      .inr ⟨rfl, rfl⟩⟩
    · refine hab.imp id ?_
      rintro ⟨rfl, rfl⟩
      refine ⟨⟨fun d e hd _ => ?_, by decide +kernel⟩, ?_⟩
      · exact absurd hd (by rw [show sharedLists.digest 1 = none by decide +kernel]; simp)
      · rw [hkinds.1, hkinds.2]
        exact .inl rfl
    · refine hab.imp id ?_
      rintro ⟨rfl, rfl⟩
      decide +kernel
  obtain ⟨hnodes, -, hrefs, -⟩ := equality_lasts_iff reachable_sharedLists
  exact ⟨ht, (hnodes 1 2 (by decide +kernel) (by decide +kernel)).mp hfirm t ht,
    (hrefs (.virtual [] 1) (.virtual [] 2) (by decide +kernel)).mp ⟨.nil, hfirm⟩ t ht⟩

end Store

end ValueInference
