/-
What a walk that rewrites scalars makes of a union.

The nodes that serve for the members are put together anew, and those that equal earlier ones are
left out.  Some of them are placeholders or lead to placeholders.  Two of which one is left out are
both finished: others are not equated, since shapes tell the members apart.  If only one is left, no
member leads back to the union, and the node that is left serves for it.

* **`Store.SetApart`** — how two nodes that serve for members differ, or are finished;
* **`Store.Redrawing.runs_union`** — a union gives a draft, or the one node that is left.
-/
import ValueInference.Proofs.Redrawn

namespace ValueInference

/-- What holds of both of any two things of a list holds of all of them, if there are two. -/
theorem forall_of_pairwise {α : Type} {P : α → Prop} {as : List α} (hseveral : 2 ≤ as.length)
    (h : as.Pairwise fun a b => P a ∧ P b) : ∀ a ∈ as, P a := by
  match as, hseveral with
  | a :: b :: as, _ =>
    obtain ⟨hfirst, -⟩ := List.pairwise_cons.mp h
    intro c hc
    rcases List.mem_cons.mp hc with rfl | hc
    · exact (hfirst b List.mem_cons_self).1
    · exact (hfirst c hc).2

namespace Store

variable {s t : Store} {v x y m n c d out : NodeId} {k : Kind} {ms new : List NodeId}
  {stack : List NodeId} {σ τ : Scene} {plan : Plan} {F : Scene → Prop} {base fuel : Nat}
  {V : Variant (Rebuild Unit Update)}

/-! ### What passes for a member -/

namespace Drafting

/-- What passes for a node that is no union is none. -/
theorem isUnion_of_passes (h : s.Drafting plan stack σ) (hxy : plan.Passes σ x y)
    (hy : (s.kind y).isUnion = false) : (σ.store.kind x).isUnion = false := by
  by_cases hx : σ.store.isComplete x = true
  · rw [Kind.isUnion_of_shape (h.shape_of_passes hxy hx), hy]
  · rw [kind_of_incomplete (Bool.eq_false_iff.mpr hx)]
    rfl

/-- Finished nodes that differ do so from either side. -/
theorem differ_symm (h : s.Drafting plan stack σ) (hs : s.Subject plan)
    (hy : plan.Known σ y) (hfinished : σ.store.Finished x) (hfinished' : σ.store.Finished y)
    (hdiffer : σ.store.equal x y = false) : σ.store.equal y x = false := by
  refine Bool.eq_false_iff.mpr fun hequal => ?_
  have hsame : σ.store.SameValue y x :=
    ⟨hfinished', hfinished, hfinished'.present, hfinished.present, hequal⟩
  exact Bool.eq_false_iff.mp hdiffer (h.same_symm hs hy hsame).equal.2.2

end Drafting

/-- How two nodes that pass for members of a union stay apart: shapes tell them apart, so that they
are not equated, or both pass for members that do not lead back, and are finished. -/
def SetApart (s : Store) (plan : Plan) (σ : Scene) (u c d : NodeId) : Prop :=
  (¬ σ.store.Equated c d ∧ s.Parted plan σ u c d) ∨
  (s.Aside plan σ u c ∧ s.Aside plan σ u d) ∧ σ.store.Finished c ∧ σ.store.Finished d

theorem SetApart.symm (h : s.SetApart plan σ n c d) : s.SetApart plan σ n d c := by
  refine h.imp (fun ⟨hnot, hparted⟩ => ?_) fun ⟨haside, hfinished⟩ => ?_
  · exact ⟨fun hdc => hnot (.symm d c hdc), hparted.symm⟩
  · exact ⟨haside.symm, hfinished.symm⟩

instance : Std.Symm (s.SetApart plan σ n) := ⟨fun _ _ => SetApart.symm⟩

namespace Redrawing

section

variable (h : s.Redrawing plan v F V stack n base) (hk : s.kind n = .union ms)
  (hσ : s.Drafting plan (n :: stack) σ)

include h hk

theorem member_value (hm : m ∈ ms) : plan.within m :=
  h.subject.closed _ h.value _ (by rwa [hk])

include hσ

/-- **What passes for two members** is set apart. -/
theorem setApart {m' : NodeId} (hm : m ∈ ms) (hm' : m' ∈ ms) (hc : plan.Passes σ c m)
    (hd : plan.Passes σ d m') (hmm' : s.ShownApart n m m') : s.SetApart plan σ n c d := by
  rcases hmm' with hshapes | ⟨hmn, hmn', -⟩
  · refine .inl ⟨h.not_equated hσ (.inl hc) (.inl hd) hshapes, m, ?_, m', ?_, hc, hd, hshapes⟩
    · rwa [hk]
    · rwa [hk]
  · refine .inr ⟨⟨⟨m, by rwa [hk], hc, hmn⟩, ⟨m', by rwa [hk], hd, hmn'⟩⟩, ?_, ?_⟩
    · exact h.finished_of_serves hσ hmn (.inl hc)
    · exact h.finished_of_serves hσ hmn' (.inl hd)

end

/-! ### What is left of the members -/

section

variable (h : s.Redrawing plan v F V stack n base) (hk : s.kind n = .union ms)
  (hσ : s.Drafting plan (n :: stack) σ) (hnew : List.Forall₂ (plan.Passes σ) new ms)

include h hk hσ hnew

theorem pairwise_setApart : new.Pairwise (s.SetApart plan σ n) :=
  pairwise_of_forall₂ hnew (h.subject.members h.value hk)
    fun _ _ _ hm _ hm' hc hd hmm' => h.setApart hk hσ hm hm' hc hd hmm'

omit hk in
/-- What passes for the members is in the store. -/
theorem new_lt (hc : c ∈ new) : c < σ.store.nodes.size := by
  obtain ⟨m, -, hcm⟩ := exists_of_forall₂ hnew c hc
  exact hσ.present_of_known h.subject hcm.1

/-- What is left out passes for a member as what it equals does. -/
theorem passes_of_equal (hc : c ∈ new) (hd : d ∈ new) (hcd : c = d ∨ σ.store.equal c d = true)
    (hdm : plan.Passes σ d m) : plan.Passes σ c m := by
  by_cases hsame : c = d
  · exact hsame ▸ hdm
  have hequal := hcd.resolve_left hsame
  -- shapes do not tell them apart, so both are finished
  rcases (h.pairwise_setApart hk hσ hnew).forall hc hd hsame with
    ⟨hnot, -⟩ | ⟨-, hfinished, hfinished'⟩
  · exact absurd (.rel c d ⟨h.new_lt hσ hnew hc, h.new_lt hσ hnew hd, hequal⟩) hnot
  · obtain ⟨l, -, hcl⟩ := exists_of_forall₂ hnew c hc
    have hvalue : σ.store.SameValue c d :=
      ⟨hfinished, hfinished', hfinished.present, hfinished'.present, hequal⟩
    exact hσ.passes_of_same h.subject hdm (hσ.same_symm h.subject hcl.1 hvalue) hcl.1

/-- **A single node that is left** passes for all members, and none of them leads back to the
union. -/
theorem passes_of_single (hseveral : 2 ≤ ms.length)
    (hleft : Thinned σ.store.equal [c] new) :
    ¬ s.Below n n ∧ ∃ ms, s.kind n = .union ms ∧ ∀ m ∈ ms, plan.Passes σ c m := by
  have hc : c ∈ new := hleft.sublist.subset (List.mem_singleton.mpr rfl)
  have hcovered : ∀ d ∈ new, c = d ∨ σ.store.equal c d = true := by
    intro d hd
    obtain ⟨a, ha, had⟩ := hleft.covered d hd
    exact List.mem_singleton.mp ha ▸ had
  have hequated : ∀ d ∈ new, σ.store.Equated c d := by
    intro d hd
    rcases hcovered d hd with rfl | hequal
    · exact .refl c
    · exact .rel c d ⟨h.new_lt hσ hnew hc, h.new_lt hσ hnew hd, hequal⟩
  have hserved : ∀ m ∈ ms, ∃ d ∈ new, plan.Passes σ d m := exists_of_forall₂ hnew.flip
  -- all of them are equated, so shapes tell no two members apart
  have hback : ms.Pairwise fun m m' => ¬ s.Leads m n ∧ ¬ s.Leads m' n := by
    refine (h.subject.members h.value hk).imp_of_mem fun {m m'} hm hm' hmm' => ?_
    obtain ⟨a, ha, ham⟩ := hserved m hm
    obtain ⟨b, hb, hbm'⟩ := hserved m' hm'
    rcases hmm' with hshapes | ⟨hmn, hmn', -⟩
    · have hab := Relation.EqvGen.trans a c b (.symm c a (hequated a ha)) (hequated b hb)
      exact absurd hab (h.not_equated hσ (.inl ham) (.inl hbm') hshapes)
    · exact ⟨hmn, hmn'⟩
  constructor
  · intro hcycle
    obtain ⟨m, hm, hmn⟩ := exists_child_of_cycle hcycle
    exact forall_of_pairwise hseveral hback m (by rwa [hk] at hm) hmn
  · refine ⟨ms, hk, fun m hm => ?_⟩
    obtain ⟨d, hd, hdm⟩ := hserved m hm
    exact h.passes_of_equal hk hσ hnew hc hd (hcovered d hd) hdm

end

end Redrawing

/-! ### Drafts of unions -/

/-- A union of what serves for the members is a draft, if they are kept apart. -/
theorem drafted_of_union {ws : List NodeId} (hk : s.kind n = .union ms)
    (hx : σ.store.isComplete x = true) (hform : σ.store.kind x = .union ws)
    (hserves : Corresponds (s.Serves plan σ) ws ms)
    (hapart : ws.Pairwise (s.KeptApart plan σ x n)) : s.Drafted plan σ x n := by
  refine ⟨hx, ?_, ?_, fun ms' hms' => ?_, fun p hp => ?_⟩
  · rw [hform, hk]
    rfl
  · rw [hk]
    show Corresponds _ (σ.store.members x) ms
    rwa [members, hform]
  · obtain rfl := Kind.union.inj (hform.symm.trans hms')
    exact hapart
  · rw [hform] at hp
    cases hp

namespace Redrawing

section

variable (h : s.Redrawing plan v F V stack n base) (hk : s.kind n = .union ms)
  (hσ : s.Drafting plan (n :: stack) σ)

include h hk hσ

/-- **A union whose members stay** is a draft of itself. -/
theorem drafted_union (hsame : ∀ m ∈ ms, plan.Passes σ m m) : s.Drafted plan σ n n := by
  have hs := h.subject
  have hkeeps := hσ.grows.keeps
  have hkind : σ.store.kind n = .union ms := by rw [hσ.kind_eq hs h.value, hk]
  have hcorresponds : Corresponds (s.Serves plan σ) ms ms :=
    corresponds_of_forall₂ (List.forall₂_same.mpr fun m hm => .inl (hsame m hm))
  refine drafted_of_union hk (hkeeps.isComplete h.complete) hkind hcorresponds ?_
  refine (hs.members h.value hk).imp_of_mem fun {m m'} hm hm' hmm' => ?_
  rcases hmm' with hshapes | ⟨hmn, hmn', hdiffer⟩
  · exact .inl ⟨m, by rwa [hk], m', by rwa [hk], hsame m hm, hsame m' hm', hshapes⟩
  · have hfinished := hs.finished (h.member_value hk hm)
    have hfinished' := hs.finished (h.member_value hk hm')
    have hdiffer' : σ.store.equal m m' = false := by
      rw [hkeeps.equal_eq hs.reachable.sound hσ.reachable.sound hfinished hfinished', hdiffer]
    refine .inr ⟨⟨⟨m, by rwa [hk], hsame m hm, hmn⟩, ⟨m', by rwa [hk], hsame m' hm', hmn'⟩⟩,
      ⟨⟨hkeeps.finished hfinished, ?_⟩, ⟨hkeeps.finished hfinished', ?_⟩⟩, hdiffer', ?_⟩
    · exact mt (hkeeps.leads_iff hfinished).mp hmn
    · exact mt (hkeeps.leads_iff hfinished').mp hmn'
    · exact hσ.differ_symm hs (.inl (h.member_value hk hm')) (hkeeps.finished hfinished)
        (hkeeps.finished hfinished') hdiffer'

/-- **Several nodes that are left** make a draft of the union. -/
theorem exists_union {ds : List NodeId} (hnew : List.Forall₂ (plan.Passes σ) new ms)
    (hleft : Thinned σ.store.equal ds new) (hseveral : 2 ≤ ds.length) :
    ∃ out t, (Infer.make (.union (σ.store.sortMembers ds))).outcome σ.store = (.ok out, t) ∧
      s.Drafting plan (n :: stack) { σ with store := t } ∧ σ.Extends { σ with store := t } ∧
        s.Drafted plan { σ with store := t } out n := by
  have hs := h.subject
  have hsorted := σ.store.sortMembers_perm ds
  have hpasses : ∀ d ∈ σ.store.sortMembers ds, ∃ m ∈ ms, plan.Passes σ d m := fun d hd =>
    exists_of_forall₂ hnew d (hleft.sublist.subset (hsorted.mem_iff.mp hd))
  have hfault : σ.store.fault? (.union (σ.store.sortMembers ds)) = none := by
    refine fault?_eq_none (knows_iff.mpr ⟨fun d hd => ?_, fun _ hp => ?_⟩) trivial ?_
      (fun _ _ hscalar => nomatch hscalar) fun _ hunion d hd => ?_
    · obtain ⟨m, -, hdm⟩ := hpasses d hd
      exact hσ.present_of_known hs hdm.1
    · exact absurd hp List.not_mem_nil
    · show 2 ≤ (σ.store.sortMembers ds).length
      rwa [hsorted.length_eq]
    · obtain rfl := Kind.union.inj hunion
      obtain ⟨m, hm, hdm⟩ := hpasses d hd
      exact hσ.isUnion_of_passes hdm (hs.flat h.value hk m hm)
  have hnodup : ds.Nodup := by
    refine hleft.distinct.imp fun {c d} hcd => ?_
    rintro rfl
    exact Bool.eq_false_iff.mp hcd (σ.store.equals_refl c)
  obtain ⟨out, t, hout, hdrawn⟩ := exists_drawn hσ.reachable hσ.plain hfault
    (fun _ hslot => nomatch hslot) fun _ hunion =>
      Kind.union.inj hunion ▸ hsorted.nodup_iff.mpr hnodup
  obtain ⟨hgoing, hext⟩ := hσ.of_drawn hdrawn
  refine ⟨out, t, hout, hgoing, hext, ?_⟩
  -- an interned union may list its members in another order
  obtain ⟨ws, hform, hws⟩ := hdrawn.reordered.union_inv
  have hperm : ws.Perm ds := hws.trans hsorted
  have hcorresponds := corresponds_of_thinned hleft hnew fun c hc d hd hcd m hdm =>
    h.passes_of_equal hk hσ hnew hc hd hcd hdm
  have hserves := hcorresponds.imp fun a _ m _ ham =>
    stays_serves s plan (n :: stack) _ _ a m hσ hgoing hext (.inl ham)
  refine drafted_of_union hk hdrawn.complete hform (hserves.of_perm hperm) ?_
  refine hperm.symm.pairwise ?_ KeptApart.symm
  have hpairs := ((h.pairwise_setApart hk hσ hnew).sublist hleft.sublist).and hleft.distinct
  refine hpairs.imp_of_mem fun {c d} hc hd hcd => ?_
  have hsound := hσ.reachable.sound
  have hsound' := hgoing.reachable.sound
  rcases hcd with ⟨⟨-, hparted⟩ | ⟨haside, hfinished, hfinished'⟩, hdiffer⟩
  · exact .inl (hparted.later hext hsound hsound')
  · obtain ⟨m, -, hdm⟩ := hpasses d (hsorted.mem_iff.mpr hd)
    have hdiffer' := hσ.differ_symm hs hdm.1 hfinished hfinished' hdiffer
    refine .inr ⟨⟨haside.1.later hext hsound hsound', haside.2.later hext hsound hsound'⟩,
      ⟨hdrawn.below c (hsorted.mem_iff.mpr hc) hfinished,
        hdrawn.below d (hsorted.mem_iff.mpr hd) hfinished'⟩, ?_, ?_⟩
    · exact (hext.keeps.equal_eq hsound hsound' hfinished hfinished').trans hdiffer
    · exact (hext.keeps.equal_eq hsound hsound' hfinished' hfinished).trans hdiffer'

/-- **A union** gives a draft of it, or the only node that is left of its members. -/
theorem runs_union (hfuel : base < fuel) :
    s.Draws plan F (n :: stack) σ
      (ms.mapM (V.visitor fuel).visit >>= fun new =>
        if new = ms then return n else Rebuild.infer (Infer.union new))
      (s.Redrawn plan n) := by
  have hflat := h.subject.flat h.value hk
  have hseveral : 2 ≤ ms.length := by
    have hformed := h.subject.reachable.formed n
    rwa [hk] at hformed
  have hvisits : ∀ m ∈ ms, Rebuild.Visits V (s.Drafting plan (n :: stack)) Scene.Extends F
      (s.Serves plan) base m := fun m hm => h.visits m (by rwa [hk])
  refine (Rebuild.runs_visits (stays_serves s plan _) hvisits hfuel hσ).bind
    fun τ new hτ _ hserves => ?_
  have hnew : List.Forall₂ (plan.Passes τ) new ms :=
    forall₂_imp_mem hserves fun _ _ m hm ham => ham.passes (hflat m hm)
  by_cases hsame : new = ms
  · subst hsame
    rw [if_pos rfl]
    exact Rebuild.runs_pure hτ (.inl (h.drafted_union hk hτ (List.forall₂_same.mp hnew)))
  rw [if_neg hsame]
  have hleft : Thinned τ.store.equal (τ.store.distinctMembers new) new := by
    refine thinned_distinctMembers fun a ha => ?_
    obtain ⟨m, hm, ham⟩ := exists_of_forall₂ hnew a ha
    exact hτ.isUnion_of_passes ham (hflat m hm)
  match hds : τ.store.distinctMembers new with
  | [] =>
    have hsome : new ≠ [] := by
      rintro rfl
      rw [← hnew.length_eq] at hseveral
      exact absurd hseveral (by simp)
    exact absurd hds (hleft.ne_nil hsome)
  | [c] =>
    rw [hds] at hleft
    exact Rebuild.runs_infer (Infer.outcome_union_single hds) hτ (.refl τ)
      (.inr (h.passes_of_single hk hτ hnew hseveral hleft))
  | _ :: _ :: _ =>
    have hlength : 2 ≤ (τ.store.distinctMembers new).length := by
      rw [hds]
      simp
    obtain ⟨out, t, hout, hgoing, hext, hdraft⟩ := h.exists_union hk hτ hnew hleft hlength
    exact Rebuild.runs_infer ((Infer.outcome_union_several hlength).trans hout) hgoing hext
      (.inl hdraft)

end

end Redrawing

end Store

end ValueInference
