/-
What a walk over code makes of the forms of a value.

A form gives back its node if what is below has stayed the same and its slot does not wait.
Otherwise it is put together anew from what serves for the nodes below, with its slot as it is in
the end, and the new node serves for the node.  A function candidate counts as unchanged if it
equals itself as it was, and then it is kept as it was; so candidates that reach a pending have to
be told apart from what they become.

* **`Store.Clearable`** — a value that can be cleared of its pendings;
* **`Store.Clearing`** — a walk inside of a node, below which visits yield what serves;
* **`Store.clears_rebuilt`** — what is kept, or made anew;
* **`Store.Clearing.clears_slot`** — what becomes of a slot;
* **`Store.Clearing.clears_byForm`** — every form yields a node that serves for its node.
-/
import ValueInference.Proofs.Pausing
import ValueInference.Proofs.WidenedSlots

namespace ValueInference

theorem Kind.Reordered.possibilities_inv {k : Kind} {p : Possibilities}
    (h : k.Reordered (.function (.possibilities p))) :
    ∃ q, k = .function (.possibilities q) ∧ q.candidates.Perm p.candidates := by
  obtain ⟨w, rfl, hw⟩ := h.function_inv
  cases hw with
  | same => exact ⟨p, rfl, .refl _⟩
  | possibilities h => exact ⟨_, rfl, h⟩

namespace Store

variable {κ : Type} {T s t : Store} {v n c x : NodeId} {G : Store → Program κ → Prop}
  {stack reached : List NodeId} {base fuel : Nat} {σ : Point}

/-- A value that can be cleared of its pendings: all of them are resolved to slots that are valid
where they stand, the value does not contain itself, and a function candidate that equals what it
becomes, seen from there, equals it also from its own side. -/
structure Clearable (T : Store) (v : NodeId) : Prop where
  answered : T.Answered v
  acyclic : ∀ n, T.followed.Leads v n → ¬ T.followed.Below n n
  valid : ∀ n, T.followed.Leads v n → T.fault? (T.followed.kind n) = none
  fair : ∀ n f g, T.followed.Leads v n → f ∈ (T.followed.kind n).refs → g.Alike T.Cleared f →
    T.equalRefs g f = true → T.equalRefs f g = true

/-- The computation provides a node that serves for another one. -/
def Provides (T : Store) (v : NodeId) (s : Store) (y : Infer NodeId) (n : NodeId) : Prop :=
  ∃ out t, y.outcome s = (.ok out, t) ∧ (t.Towards T v → s.Before t → T.ClearCopy t out n)

/-- What becomes of a candidate, and whether it counts as changed. -/
structure CandidateCopy (T s : Store) (r : Candidate × Bool) (c : Candidate) : Prop where
  alike : r.1.Alike (T.ClearCopy s) c
  changed : r.2 = true → r.1 ≠ c
  same : r.2 = false → r.1 = c ∧ ∀ a ∈ c.children, T.ClearCopy s a a

/-- What becomes of a slot: what it stands for, or a set of candidates that is put together anew. -/
structure SlotCopy (T s : Store) (new slot : Slot) : Prop where
  admitted : s.AdmitsSlot new
  copy : (new = T.resolve slot ∧ ∀ c ∈ new.children, T.ClearCopy s c c) ∨
    ∃ p cs q, T.resolve slot = .possibilities p ∧
      List.Forall₂ (Candidate.Alike (T.ClearCopy s)) cs p.candidates ∧ cs ≠ p.candidates ∧
        new = .possibilities q ∧ q ≠ p ∧ q.candidates = T.addCandidates [] cs

theorem CandidateCopy.later {r : Candidate × Bool} {d : Candidate} (h : T.CandidateCopy s r d)
    (hst : s.Keeps t) : T.CandidateCopy t r d :=
  ⟨h.alike.imp fun _ _ _ _ hx => hx.later hst, h.changed, fun hr =>
    ⟨(h.same hr).1, fun a ha => ((h.same hr).2 a ha).later hst⟩⟩

section

variable {new : List (Candidate × Bool)} {p : Possibilities}

/-- A set with a candidate that counts as changed has become another one. -/
theorem candidates_ne (h : List.Forall₂ (T.CandidateCopy s) new p.candidates)
    (hany : new.any Prod.snd = true) : new.map Prod.fst ≠ p.candidates := by
  intro heq
  obtain ⟨r, hr, hchanged⟩ := List.any_eq_true.mp hany
  have hsame : List.Forall₂ (fun r d => r.1 = d) new p.candidates := by
    rw [← List.forall₂_map_left_iff (R := (· = ·)), List.forall₂_eq_eq_eq]
    exact heq
  have hnone : List.Forall₂ (fun r _ => r.2 = false) new p.candidates :=
    hsame.mp (fun r d hrd hcopy => Bool.eq_false_iff.mpr fun hr => hcopy.changed hr hrd) h
  obtain ⟨d, -, hr'⟩ := exists_of_forall₂ hnone r hr
  exact nomatch hr'.symm.trans hchanged

/-- What is in a set of which no candidate counts as changed serves for itself. -/
theorem candidates_kept (h : List.Forall₂ (T.CandidateCopy s) new p.candidates)
    (hany : ¬ new.any Prod.snd = true) :
    ∀ a ∈ (Slot.possibilities p).children, T.ClearCopy s a a := by
  intro a ha
  obtain ⟨d, hd, had⟩ := List.mem_flatMap.mp ha
  obtain ⟨r, hr, hcopy⟩ := exists_of_forall₂ h.flip d hd
  refine (hcopy.same (Bool.eq_false_iff.mpr fun hr' => hany ?_)).2 a had
  exact List.any_eq_true.mpr ⟨r, hr, hr'⟩

/-- **A set that is put together anew** has what is left of the candidates in the end. -/
theorem slotCopy_of_changed {slot : Slot} (hs : s.Sound) (hT : T.Sound) (hst : s.Keeps T)
    (h : List.Forall₂ (T.CandidateCopy s) new p.candidates) (hany : new.any Prod.snd = true)
    (hslot : T.resolve slot = .possibilities p) (hadmitted : s.AdmitsSet p) :
    T.SlotCopy { s with tokens := s.tokens + 1 }
      (.possibilities ⟨s.tokens, s.addCandidates [] (new.map Prod.fst)⟩) slot := by
  have halike : List.Forall₂ (Candidate.Alike (T.ClearCopy s)) (new.map Prod.fst) p.candidates :=
    List.forall₂_map_left_iff.mpr (h.imp fun _ _ hcopy => hcopy.alike)
  have hfinished : ∀ d ∈ new.map Prod.fst, ∀ a ∈ d.children, s.Finished a := by
    intro d hd a ha
    obtain ⟨e, -, hde⟩ := exists_of_forall₂ halike d hd
    obtain ⟨b, -, hab⟩ := hde.exists_child a ha
    exact hab.finished
  have hsame : s.addCandidates [] (new.map Prod.fst) = T.addCandidates [] (new.map Prod.fst) :=
    foldl_thinned_congr (fun _ _ => rfl) (fun _ _ => rfl) fun d hd e he =>
      (hst.equalCandidates_eq hs hT (hfinished d hd) (hfinished e he)).symm
  have hnodup : (s.addCandidates [] (new.map Prod.fst)).Nodup := by
    refine (s.thinned_addCandidates _).distinct.imp fun {d e} hdiffer => ?_
    rintro rfl
    rw [s.equalCandidates_refl] at hdiffer
    exact nomatch hdiffer
  refine ⟨?_, .inr ⟨p, new.map Prod.fst, _, hslot, ?_, candidates_ne h hany, rfl, ?_, hsame⟩⟩
  · rintro q ⟨⟩
    exact hs.admits_new hnodup
  · exact halike.imp fun _ _ hde => hde.imp fun _ _ _ _ hx => hx.later s.grows_token.keeps
  · rintro rfl
    exact Nat.lt_irrefl _ hadmitted.issued

end

/-! ### What reaches no pending in the end -/

/-- What is below a form is below the followed one. -/
theorem child_followed (hc : c ∈ (s.kind n).children) : c ∈ (s.followed.kind n).children := by
  rw [kind_followed_eq]
  · exact hc
  · intro w hw
    rw [Kind.children_of_slot hw] at hc
    cases w with
    | pending p => exact absurd hc List.not_mem_nil
    | _ => exact s.resolve_self _ rfl

theorem finished_of_followed (h : s.followed.Finished n) : s.Finished n := fun m hm =>
  (s.isComplete_followed m).symm.trans (h m (hm.lift id fun _ _ => child_followed))

/-- A node over nodes that serve for themselves serves for itself. -/
theorem clearCopy_self (hcomplete : s.isComplete n = true) (hkind : T.kind n = s.kind n)
    (hpendings : (s.kind n).pendings = [])
    (hchildren : ∀ c ∈ (s.kind n).children, T.ClearCopy s c c) : T.ClearCopy s n n := by
  have hfollowed : T.followed.kind n = s.kind n := by
    rw [← hkind]
    refine kind_followed_eq fun w hw => T.resolve_self w ?_
    rwa [Kind.pendings, ← hkind, hw] at hpendings
  refine clearCopy_of_children hcomplete hpendings (fun c hc => ⟨c, hchildren c hc⟩)
    ⟨fun _ => rfl, ?_⟩
  rw [hfollowed]
  split
  · next ms hk =>
    rw [hk] at hchildren
    exact ⟨ms, List.forall₂_same.mpr fun m hm => (hchildren m hm).cleared, by rw [if_pos rfl]⟩
  · next p hk =>
    rw [hk] at hchildren
    refine ⟨p.candidates, p, List.forall₂_same.mpr fun c hc => .refl fun a ha => ?_, hkind.trans hk,
      by rw [if_pos rfl]⟩
    exact (hchildren a (List.mem_flatMap_of_mem hc ha)).cleared
  · rw [hkind]
    exact .refl fun c hc => (hchildren c hc).cleared

/-! ### Walks -/

section

variable (hσ : T.Walking v stack reached σ) (hn : n ∈ reached)

include hσ hn

theorem Walking.complete : σ.store.isComplete n = true := hσ.way.complete (hσ.reached n hn)

theorem Walking.kind_eq : T.kind n = σ.store.kind n := hσ.way.kind_eq (hσ.reached n hn)

theorem Walking.leads_end (hT : T.Answered v) : T.followed.Leads v n :=
  hσ.way.leads_end hT (hσ.reached n hn)

theorem Walking.finished : σ.store.Finished n :=
  finished_of_followed (hσ.way.finished.leads (hσ.reached n hn))

/-- What is below a node is reached where its slot stands for what it stands for in the end. -/
theorem Walking.below (hslot : ∀ w, (T.kind n).slot? = some w → σ.store.resolve w = T.resolve w) :
    T.Walking v stack ((T.followed.kind n).children ++ reached) σ := by
  refine ⟨hσ.way, hσ.remembers, fun c hc => ?_⟩
  rcases List.mem_append.mp hc with hc | hc
  · refine (hσ.reached n hn).tail ?_
    rwa [hσ.way.followed_eq (hσ.reached n hn) fun w hw => hslot w (hσ.kind_eq hn ▸ hw)]
  · exact hσ.reached c hc

end

theorem Walking.forget {more : List NodeId} (hσ : T.Walking v stack (more ++ reached) σ) :
    T.Walking v stack reached σ :=
  ⟨hσ.way, hσ.remembers, fun c hc => hσ.reached c (List.mem_append_right _ hc)⟩

/-- **What is kept**, or made anew. -/
theorem clears_rebuilt {α : Type} [DecidableEq α] {y : Rebuild Unit (Code κ) α} {old : α}
    {F : α → Infer NodeId} (hT : T.Clearable v)
    (hy : T.Clears v G stack reached σ y fun υ new =>
      (new = old → T.ClearCopy υ.store n n) ∧ (new ≠ old → T.Provides v υ.store (F new) n)) :
    T.Clears v G stack reached σ
      (y >>= fun new => if new = old then return n else Rebuild.infer (F new))
      fun υ out => T.ClearCopy υ.store out n := by
  refine hy.bind fun υ new hυ _ ⟨hkeep, hmake⟩ => ?_
  by_cases hsame : new = old
  · rw [if_pos hsame]
    exact Rebuild.yields_pure hυ (hkeep hsame)
  · rw [if_neg hsame]
    obtain ⟨out, t, hout, ht⟩ := hmake hsame
    exact Rebuild.yields_infer hout fun hway hlater =>
      ⟨hυ.later hT.answered hway hlater, ht hway hlater⟩

/-! ### Made nodes -/

/-- A form over nodes that serve becomes a node that serves. -/
theorem provides_make {k : Kind} (hs : s.Sound) (hk : k.Conforms) (hpendings : k.pendings = [])
    (hslot : ∀ w, k.slot? = some w → s.AdmitsSlot w)
    (hflat : ∀ ms, k = .union ms → ∀ m ∈ ms, (s.kind m).isUnion = false)
    (hchildren : ∀ c ∈ k.children, ∃ m, T.ClearCopy s c m)
    (hform : ∀ out, (T.kind out).Reordered k → T.ClearedOf T.Cleared out n) :
    T.Provides v s (Infer.make k) n := by
  have hknows : s.knows k = true := by
    refine knows_iff.mpr ⟨fun c hc => ?_, fun p hp => ?_⟩
    · obtain ⟨m, hm⟩ := hchildren c hc
      exact hm.finished.present
    · rw [hpendings] at hp
      exact absurd hp List.not_mem_nil
  have hfault : s.fault? k = none := fault?_eq_none_iff.mpr ⟨hknows, hk, hflat⟩
  have hunion : ∀ ms, k = .union ms → ∀ m ∈ ms, s.Founded m ∧ s.Clear m := by
    rintro ms rfl m hm
    obtain ⟨m', hm'⟩ := hchildren m hm
    exact ⟨hm'.founded, hm'.clear⟩
  obtain ⟨out, t, hmake, hcomplete, hreordered⟩ := exists_made hs hfault hslot hunion
  refine ⟨out, t, hmake, fun hway hlater => ?_⟩
  refine clearCopy_of_children hcomplete (hreordered.alike.pendings_eq.trans hpendings)
    (fun c hc => ?_) (hform out ?_)
  · exact (hchildren c (hreordered.mem_children.mp hc)).imp fun m hm => hm.later hlater.keeps
  · rwa [hway.later.keeps.kind_eq hcomplete]

/-- A form without a slot is made anew over what serves for the nodes below. -/
theorem provides_paired {k : Kind} (hs : s.Sound) (hslot : (T.kind n).slot? = none)
    (hconforms : (T.kind n).Conforms) (hunion : (T.kind n).isUnion = false)
    (hk : k.Paired (T.ClearCopy s) (T.kind n)) (hn : ¬ T.Clear n) :
    T.Provides v s (Infer.make k) n := by
  have hfollowed : T.followed.kind n = T.kind n := kind_followed_eq (by simp [hslot])
  have hnone : k.slot? = none := by
    cases k <;> cases hform : T.kind n <;> rw [hform] at hk hslot <;>
      first | rfl | exact hk.elim | cases hslot
  refine provides_make hs (hk.conforms hslot hconforms) ?_ (by simp [hnone])
    (fun ms hms => ?_) (fun c hc => ?_) fun out hout => ⟨fun h => absurd h hn, ?_⟩
  · rw [Kind.pendings, hnone]
    rfl
  · rw [← hk.isUnion, hms] at hunion
    cases hunion
  · obtain ⟨m, -, hm⟩ := hk.exists_child hslot c hc
    exact ⟨m, hm⟩
  · rw [hfollowed]
    split
    · next ms hms =>
      rw [hms] at hunion
      cases hunion
    · next p hp =>
      rw [hp] at hslot
      cases hslot
    · exact (hk.imp fun _ _ _ _ hxy => hxy.cleared).of_reordered hout

/-- A form of which only the slot is replaced, by what it stands for. -/
theorem provides_followed {k : Kind} (hs : s.Sound) (hk : T.followed.kind n = k)
    (hunion : k.isUnion = false) (hconforms : k.Conforms) (hpendings : k.pendings = [])
    (hslot : ∀ w, k.slot? = some w → s.AdmitsSlot w)
    (hchildren : ∀ c ∈ k.children, T.ClearCopy s c c) (hn : ¬ T.Clear n) :
    T.Provides v s (Infer.make k) n := by
  refine provides_make hs hconforms hpendings hslot (fun ms hms => ?_)
    (fun c hc => ⟨c, hchildren c hc⟩) fun out hout => ⟨fun h => absurd h hn, ?_⟩
  · rw [hms] at hunion
    exact nomatch hunion
  rw [hk]
  split
  · next ms => exact nomatch hunion
  · next p =>
    obtain ⟨q, hout, hq⟩ := hout.possibilities_inv
    refine ⟨p.candidates, q, List.forall₂_same.mpr fun c hc => .refl fun a ha => ?_, hout, ?_⟩
    · exact (hchildren a (List.mem_flatMap_of_mem hc ha)).cleared
    · rwa [if_pos rfl]
  · exact (Kind.Paired.refl fun c hc => (hchildren c hc).cleared).of_reordered hout

/-- **A union** is put together anew from what serves for its members. -/
theorem provides_union {ms new : List NodeId} (hs : s.Sound) (hT : T.Sound) (hst : s.Keeps T)
    (hk : T.kind n = .union ms) (hvalid : T.fault? (T.kind n) = none)
    (hnew : List.Forall₂ (T.ClearCopy s) new ms) (hne : new ≠ ms) (hn : ¬ T.Clear n) :
    T.Provides v s (Infer.union new) n := by
  obtain ⟨-, hconforms, hflat⟩ := fault?_eq_none_iff.mp hvalid
  have hmember : ∀ x ∈ new, ∃ m, T.ClearCopy s x m ∧ (T.kind x).isUnion = false := by
    intro x hx
    obtain ⟨m, hm, hxm⟩ := exists_of_forall₂ hnew x hx
    exact ⟨m, hxm, hxm.cleared.isUnion (hflat ms hk m hm)⟩
  have hflatT : ∀ x ∈ new, (T.kind x).isUnion = false := fun x hx =>
    (hmember x hx).elim fun _ h => h.2
  have hfinished : ∀ x ∈ new, s.Finished x := fun x hx =>
    (hmember x hx).elim fun _ h => h.1.finished
  have hflats : ∀ x ∈ new, (s.kind x).isUnion = false := fun x hx =>
    hst.kind_eq (hfinished x hx).complete ▸ hflatT x hx
  -- what is left of the members is the same as in the end
  have hsame : s.distinctMembers new = T.distinctMembers new := by
    rw [distinctMembers, distinctMembers, flatMap_members hflats, flatMap_members hflatT]
    exact foldl_thinned_congr (fun _ _ => rfl) (fun _ _ => rfl) fun x hx y hy =>
      (hst.equal_eq hs hT (hfinished x hx) (hfinished y hy)).symm
  have hthinned := thinned_distinctMembers hflats
  have hform : ∀ out, T.UnionOf out new → T.ClearedOf T.Cleared out n := by
    intro out hout
    refine ⟨fun h => absurd h hn, ?_⟩
    rw [kind_followed, hk]
    exact ⟨new, hnew.imp fun _ _ hxm => hxm.cleared, by rwa [if_neg hne]⟩
  rcases hds : s.distinctMembers new with _ | ⟨x, _ | ⟨y, zs⟩⟩
  · refine absurd hds (hthinned.ne_nil fun hnil => ?_)
    rw [hnil, List.forall₂_nil_left_iff] at hnew
    rw [hk, hnew] at hconforms
    exact absurd hconforms (by simp [Kind.Conforms])
  · refine ⟨x, s, Infer.outcome_union_single hds, fun _ _ => ?_⟩
    obtain ⟨m, hxm, -⟩ := hmember x (hthinned.sublist.mem (hds ▸ List.mem_cons_self))
    refine ⟨hxm.finished, hxm.clear, hxm.founded, (hform x (.inl ?_)).cleared⟩
    rw [← hsame, hds]
  · have hseveral : 2 ≤ (s.distinctMembers new).length := by simp [hds]
    have hsorted := s.sortMembers_perm (s.distinctMembers new)
    have hleft : ∀ x ∈ s.sortMembers (s.distinctMembers new), x ∈ new := fun x hx =>
      hthinned.sublist.mem (hsorted.mem_iff.mp hx)
    have hserves : T.Provides v s
        (Infer.make (.union (s.sortMembers (s.distinctMembers new)))) n := by
      refine provides_make hs (hseveral.trans_eq hsorted.length_eq.symm) rfl (by simp [Kind.slot?])
        ?_ (fun c hc => (hmember c (hleft c hc)).imp fun _ h => h.1) fun out hout => ?_
      · rintro ms ⟨⟩ m hm
        exact hflats m (hleft m hm)
      · obtain ⟨xs, hxs, hperm⟩ := hout.union_inv
        have hperm' := hperm.trans hsorted
        refine hform out (.inr ⟨xs, hxs, hseveral.trans_eq hperm'.length_eq.symm, ?_⟩)
        rwa [← hsame]
    obtain ⟨out, t, hout, ht⟩ := hserves
    exact ⟨out, t, (Infer.outcome_union_several hseveral).trans hout, ht⟩

/-! ### Forms -/

/-- A walk is inside of some nodes, and visits below the innermost one yield what serves. -/
structure Clearing (T : Store) (v : NodeId) (G : Store → Program κ → Prop) (stack : List NodeId)
    (n : NodeId) (base : Nat) : Prop where
  sound : T.Sound
  clearable : T.Clearable v
  visited : ∀ c ∈ (T.followed.kind n).children, ∀ reached, c ∈ reached →
    Rebuild.Answers (T.Walking v stack reached) (fun σ y P => T.Clears v G stack reached σ y P)
      .plain (fun υ => T.ClearCopy υ.store) base c

namespace Clearing

theorem endures : Rebuild.Endures (T.Walking v stack reached) Point.Before
    fun υ => T.ClearCopy υ.store :=
  fun _ _ _ _ _ _ hlater hx => hx.later hlater.keeps

variable (h : T.Clearing v G stack n base) (hσ : T.Walking v stack reached σ) (hn : n ∈ reached)

include h hσ

/-- **A candidate** counts as unchanged only if it reaches no pending, and then it stays the
same. -/
theorem clears_candidate {d : Candidate} (hleads : T.followed.Leads v n)
    (hd : ∀ f, d = .function f → f ∈ (T.followed.kind n).refs)
    (hbelow : ∀ c ∈ (T.followed.kind n).children, c ∈ reached)
    (hfuel : ∀ f, d = .function f → base + f.depth + 1 < fuel) :
    T.Clears v G stack reached σ (Rebuild.visitCandidate (Variant.plain.visitor fuel) d)
      fun υ r => T.CandidateCopy υ.store r d := by
  have hchildren : ∀ a ∈ d.children, a ∈ (T.followed.kind n).children := by
    intro a ha
    cases d with
    | constant x => exact absurd ha List.not_mem_nil
    | function f => exact (Kind.mem_refs (hd f rfl)).1 a ha
  have hvisits := fun a ha => h.visited a (hchildren a ha) reached (hbelow a (hchildren a ha))
  refine (Rebuild.composes_yields.candidate rfl endures hvisits hfuel hσ).imp
    fun υ r hυ _ ⟨halike, hsame, hchanged⟩ => ⟨halike, fun hr heq => ?_, fun hr => ?_⟩
  · have hdiffer := hchanged hr
    rw [heq, υ.store.equalCandidates_refl] at hdiffer
    exact nomatch hdiffer
  · -- an equal candidate equals the new one, and so reaches no pending either
    have hkeeps := hυ.way.later.keeps
    have hnew : ∀ x ∈ r.1.children, ∃ a, T.ClearCopy υ.store x a := fun x hx =>
      (halike.exists_child x hx).imp fun _ h => h.2
    have hold : ∀ a ∈ d.children, υ.store.Finished a := fun a ha =>
      hυ.finished (hbelow a (hchildren a ha))
    have hclear : ∀ a ∈ d.children, T.Clear a := by
      obtain ⟨r, b⟩ := r
      cases d with
      | constant x => exact fun a ha => absurd ha List.not_mem_nil
      | function f =>
        cases r with
        | constant y => exact halike.elim
        | function g =>
          have hfinished : ∀ x ∈ (Candidate.function g).children, υ.store.Finished x := fun x hx =>
            (hnew x hx).elim fun _ h => h.finished
          have hequal : T.equalCandidates (.function g) (.function f) = true :=
            (hkeeps.equalCandidates_eq hυ.way.sound h.sound hfinished hold).trans (hsame hr)
          have hequal' : T.equalCandidates (.function f) (.function g) = true :=
            h.clearable.fair n f g hleads (hd f rfl)
              (FunctionRef.Alike.imp halike fun _ _ _ _ hx => hx.cleared) hequal
          have halike' := (equalCandidates_iff_alike h.sound
            (fun a ha => (hkeeps.finished (hold a ha)).present)
            fun x hx => (hkeeps.finished (hfinished x hx)).present).mp hequal'
          intro a ha
          obtain ⟨x, hx, hax⟩ := halike'.exists_child a ha
          obtain ⟨m, hm⟩ := hnew x hx
          exact clear_of_equalIn h.sound hax (hm.later hkeeps).clear
    refine ⟨?_, fun a ha => ?_⟩
    · refine Candidate.alike_eq.mp (halike.imp fun x _ a ha hx => ?_)
      exact hx.cleared.eq_of_clear (hclear a ha)
    · obtain ⟨x, -, hx⟩ := halike.flip.exists_child a ha
      exact hx.cleared.eq_of_clear (hclear a ha) ▸ hx

theorem clears_candidates {p : Possibilities} (hleads : T.followed.Leads v n)
    (hslot : (T.followed.kind n).slot? = some (.possibilities p))
    (hbelow : ∀ c ∈ (T.followed.kind n).children, c ∈ reached)
    (hfuel : base + (T.followed.kind n).refDepth + 1 < fuel) :
    T.Clears v G stack reached σ
      (p.candidates.mapM (Rebuild.visitCandidate (Variant.plain.visitor fuel)))
      fun υ new => List.Forall₂ (T.CandidateCopy υ.store) new p.candidates := by
  refine Rebuild.composes_yields.mapM (S := fun υ => T.CandidateCopy υ.store)
    (fun _ _ _ _ _ _ hlater hd => hd.later hlater.keeps) hσ fun d hd υ hυ => ?_
  have hrefs : ∀ f, d = .function f → f ∈ (T.followed.kind n).refs := by
    rintro f rfl
    rw [Kind.refs, hslot]
    exact List.mem_filterMap.mpr ⟨_, hd, rfl⟩
  refine h.clears_candidate hυ hleads hrefs hbelow fun f hf => ?_
  have hdepth := (Kind.mem_refs (hrefs f hf)).2
  omega

include hn

/-- **A slot** is taken for what it stands for in the end, and the candidates in there for what they
become. -/
theorem clears_slot {slot : Slot} (hslot : (T.kind n).slot? = some slot)
    (hfuel : base + (T.followed.kind n).refDepth + 1 < fuel) :
    T.Clears v G stack reached σ (Rebuild.slot (Variant.plain.visitor fuel) slot)
      fun υ new => T.SlotCopy υ.store new slot := by
  have hT := h.clearable.answered
  have hleads := hσ.leads_end hn hT
  have hends := hT.slot hleads hslot
  have hfollowed : (T.followed.kind n).slot? = some (T.resolve slot) := by
    rw [kind_followed, Kind.slot?_mapSlot, hslot]
    rfl
  have hknown : ∀ p ∈ slot.pendings, p < σ.store.pendings.size := by
    have hpendings := (knows_iff.mp (hσ.way.sound.known n)).2
    rwa [← hσ.kind_eq hn, Kind.pendings, hslot] at hpendings
  -- from where the slot is settled, what is below the node is reached
  have hsettle : T.Clears v G stack ((T.followed.kind n).children ++ reached) σ
      (Rebuild.settle slot) fun υ w =>
        w = T.resolve slot ∧ υ.store.resolve slot = T.resolve slot := by
    refine (Rebuild.yields_settle hσ hknown hends fun t ht hlater =>
      hσ.later hT ht hlater).change fun υ w hυ _ hw => ⟨hυ.below hn fun w' hw' => ?_, hw⟩
    cases hslot.symm.trans hw'
    exact hw.2
  have hheld : ∀ υ, T.Walking v stack ((T.followed.kind n).children ++ reached) υ →
      υ.store.resolve slot = T.resolve slot → υ.store.AdmitsSlot (T.resolve slot) := by
    intro υ hυ hsame p hp
    have hkind := hυ.kind_eq (List.mem_append_right _ hn)
    exact hυ.way.sound.sets p
      ((holdsSlot_of_kind (hkind ▸ hslot)).resolved (hsame.trans hp))
  refine (Rebuild.Yields.bind hsettle fun υ w hυ _ hw => ?_).change
    fun υ new hυ _ hnew => ⟨hυ.forget, hnew⟩
  obtain ⟨rfl, hsame⟩ := hw
  cases hres : T.resolve slot with
  | possibilities p =>
    rw [hres] at hfollowed
    refine Rebuild.Yields.bind (h.clears_candidates hυ hleads hfollowed
      (fun c hc => List.mem_append_left _ hc) hfuel) fun ω new hω hlater hnew => ?_
    have hadmitted : ω.store.AdmitsSlot (.possibilities p) := by
      have hstays := hlater.resolve_stays hω.way.later.persists hends (hsame ▸ hends)
      exact hres ▸ hheld ω hω hstays
    by_cases hany : new.any Prod.snd = true
    · have hsome : new.map Prod.fst ≠ [] := by
        obtain ⟨r, hr, -⟩ := List.any_eq_true.mp hany
        exact List.ne_nil_of_mem (List.mem_map_of_mem hr)
      have hcopy := slotCopy_of_changed hω.way.sound h.sound hω.way.later.keeps hnew hany hres
        (hadmitted p rfl)
      simp only [hany, if_true]
      refine Rebuild.Yields.bind (P := fun υ q => T.SlotCopy υ.store (.possibilities q) slot)
        (Rebuild.yields_infer (Infer.outcome_possibilitiesOf_thinned hsome)
          fun hway hlater' => ⟨hω.later hT hway hlater', hcopy⟩)
        fun υ' q hυ' _ hq => Rebuild.yields_pure hυ' hq
    · simp only [hany]
      exact Rebuild.yields_pure hω
        ⟨hadmitted, .inl ⟨hres.symm, candidates_kept hnew hany⟩⟩
  | _ =>
    have hadmitted := hheld υ hυ hsame
    rw [hres] at hadmitted
    exact Rebuild.yields_pure hυ
      ⟨hadmitted, .inl ⟨hres.symm, fun c hc => absurd hc List.not_mem_nil⟩⟩

/-- A form of which the slot is followed, and nothing else is changed. -/
theorem provides_slot {F : Slot → Kind} {slot new : Slot} (hF : ∀ w, (F w).slot? = some w)
    (hunion : ∀ w, (F w).isUnion = false) (hk : T.kind n = F slot)
    (hfollowed : T.followed.kind n = F (T.resolve slot)) (hadmitted : σ.store.AdmitsSlot new)
    (hnew : new = T.resolve slot) (hchildren : ∀ c ∈ new.children, T.ClearCopy σ.store c c) :
    (new = slot → T.ClearCopy σ.store n n) ∧
      (new ≠ slot → T.Provides v σ.store (Infer.make (F new)) n) := by
  have hT := h.clearable.answered
  have hends : new.pendings = [] := hnew ▸ hT.slot (hσ.leads_end hn hT) (hk ▸ hF slot)
  have hpendings : (F new).pendings = [] := by rwa [Kind.pendings, hF]
  have hbelow : (F new).children = new.children := Kind.children_of_slot (hF new)
  refine ⟨fun hsame => ?_, fun hne => ?_⟩
  · have hkind := hσ.kind_eq hn
    rw [hsame, ← hk, hkind] at hpendings
    refine clearCopy_self (hσ.complete hn) hkind hpendings fun c hc => hchildren c ?_
    rwa [← hbelow, hsame, ← hk, hkind]
  · have hvalid := h.clearable.valid n (hσ.leads_end hn hT)
    rw [hfollowed, ← hnew] at hvalid
    have hconforms := (fault?_eq_none_iff.mp hvalid).2.1
    refine provides_followed hσ.way.sound (hnew ▸ hfollowed) (hunion new) hconforms hpendings
      (fun w hw => ?_) (fun c hc => ?_) fun hclear => ?_
    · obtain rfl := Option.some.inj ((hF new).symm.trans hw)
      exact hadmitted
    · exact hchildren c (hbelow ▸ hc)
    · -- the slot of a node that reaches no pending stands for itself
      have hslots := congrArg Kind.slot? hclear.kind_followed
      rw [hfollowed, hk, hF, hF, ← hnew] at hslots
      exact hne (Option.some.inj hslots)

theorem clears_scalar {value : Slot} {ty : Ty} (hk : T.kind n = .scalar value ty)
    (hfuel : base + (T.followed.kind n).refDepth + 1 < fuel) :
    T.Clears v G stack reached σ
      (Rebuild.slot (Variant.plain.visitor fuel) value >>= fun new =>
        if new = value then return n else Rebuild.infer (Infer.scalar new ty))
      fun υ out => T.ClearCopy υ.store out n := by
  have hT := h.clearable.answered
  have hfollowed : T.followed.kind n = .scalar (T.resolve value) ty := by
    rw [kind_followed, hk]
    rfl
  have hslot := h.clears_slot hσ hn (congrArg Kind.slot? hk) hfuel
  refine clears_rebuilt h.clearable (hslot.imp fun υ new hυ _ hnew => ?_)
  obtain ⟨hadmitted, ⟨hres, hchildren⟩ | ⟨p, cs, q, hp, halike, hne, -⟩⟩ := hnew
  · exact h.provides_slot hυ hn (F := (.scalar · ty)) (fun _ => rfl) (fun _ => rfl) hk hfollowed
      hadmitted hres hchildren
  · -- the candidates of a scalar are constants, which stay the same
    have hvalid := h.clearable.valid n (hυ.leads_end hn hT)
    rw [hfollowed, hp] at hvalid
    have hfits : ∀ c ∈ p.candidates, c.Fits ty := (fault?_eq_none_iff.mp hvalid).2.1
    refine absurd ?_ hne
    rw [← List.forall₂_eq_eq_eq]
    refine forall₂_imp_mem halike fun c _ d hd hcd => ?_
    have hdfits := hfits d hd
    cases d with
    | constant x =>
      cases c with
      | constant y => exact congrArg _ hcd
      | function f => exact hcd.elim
    | function f => exact hdfits.elim

/-- **A function** gets its candidates anew if one of them has changed. -/
theorem clears_function {options : Slot} (hk : T.kind n = .function options)
    (hfuel : base + (T.followed.kind n).refDepth + 1 < fuel) :
    T.Clears v G stack reached σ
      (Rebuild.slot (Variant.plain.visitor fuel) options >>= fun new =>
        if new = options then return n else Rebuild.infer (Infer.function new))
      fun υ out => T.ClearCopy υ.store out n := by
  have hT := h.clearable.answered
  have hfollowed : T.followed.kind n = .function (T.resolve options) := by
    rw [kind_followed, hk]
    rfl
  have hslot := h.clears_slot hσ hn (congrArg Kind.slot? hk) hfuel
  refine clears_rebuilt h.clearable (hslot.imp fun υ new hυ _ hnew => ?_)
  obtain ⟨hadmitted, ⟨hres, hchildren⟩ | ⟨p, cs, q, hp, halike, hne, rfl, hqp, hq⟩⟩ := hnew
  · exact h.provides_slot hυ hn (F := .function) (fun _ => rfl) (fun _ => rfl) hk hfollowed
      hadmitted hres hchildren
  rw [hp] at hfollowed
  refine ⟨fun hsame => ?_, fun _ => ?_⟩
  · -- a set that stands for itself is no other set
    rw [← hsame, T.resolve_self _ rfl] at hp
    exact absurd (Slot.possibilities.inj hp) hqp
  have hleft : ∀ d ∈ q.candidates, d ∈ cs := fun d hd =>
    (T.thinned_addCandidates cs).sublist.mem (hq ▸ hd)
  have hvalid := h.clearable.valid n (hυ.leads_end hn hT)
  rw [hfollowed] at hvalid
  have hfunctions : ∀ d ∈ p.candidates, d.function?.isSome = true :=
    (fault?_eq_none_iff.mp hvalid).2.1
  refine provides_make hυ.way.sound (fun d hd => ?_) rfl (fun w hw => ?_) (fun _ hms => nomatch hms)
    (fun c hc => ?_) fun out hout => ⟨fun hclear => absurd ?_ hne, ?_⟩
  · obtain ⟨e, he, hde⟩ := exists_of_forall₂ halike d (hleft d hd)
    have hefunction := hfunctions e he
    cases d with
    | function f => rfl
    | constant x =>
      cases e with
      | constant y => exact nomatch hefunction
      | function g => exact hde.elim
  · cases hw
    exact hadmitted
  · obtain ⟨d, hd, hcd⟩ := List.mem_flatMap.mp hc
    obtain ⟨e, -, hde⟩ := exists_of_forall₂ halike d (hleft d hd)
    obtain ⟨m, -, hm⟩ := hde.exists_child c hcd
    exact ⟨m, hm⟩
  · have hbelow : ∀ c ∈ (Slot.possibilities p).children, T.Clear c := fun c hc =>
      hclear.child (by rwa [← hclear.kind_followed, hfollowed])
    rw [← List.forall₂_eq_eq_eq]
    refine forall₂_imp_mem halike fun d _ e he hde => Candidate.alike_eq.mp ?_
    refine hde.imp fun x _ c hc hx => ?_
    exact hx.cleared.eq_of_clear (hbelow c (List.mem_flatMap_of_mem he hc))
  · rw [hfollowed]
    obtain ⟨r, hkind, hr⟩ := hout.possibilities_inv
    refine ⟨cs, r, halike.imp fun _ _ hde => hde.imp fun _ _ _ _ hx => hx.cleared, hkind, ?_⟩
    rwa [if_neg hne, ← hq]

omit hσ in
/-- Forms without a slot: what is below them is kept or changed. -/
theorem clears_slotless {α : Type} [DecidableEq α] {y : Rebuild Unit (Code κ) α} {old : α}
    {F : α → Infer NodeId} {P : Point → α → Prop} (hslot : (T.kind n).slot? = none)
    (hy : T.Clears v G stack ((T.followed.kind n).children ++ reached) σ y P)
    (hkeep : ∀ υ, P υ old → ∀ c ∈ (T.kind n).children, T.ClearCopy υ.store c c)
    (hchanged : ∀ υ new, P υ new →
      (∀ x, ∀ c ∈ (T.kind n).children, T.ClearCopy υ.store x c → x = c) → new = old)
    (hmake : ∀ υ new, υ.store.Towards T v → P υ new → new ≠ old → ¬ T.Clear n →
      T.Provides v υ.store (F new) n) :
    T.Clears v G stack reached σ
      (y >>= fun new => if new = old then return n else Rebuild.infer (F new))
      fun υ out => T.ClearCopy υ.store out n := by
  refine (clears_rebuilt h.clearable (hy.imp fun υ new hυ _ hnew =>
    ⟨fun hsame => ?_, fun hne => ?_⟩)).change fun υ out hυ _ hout => ⟨hυ.forget, hout⟩
  · have hkind := hυ.kind_eq (List.mem_append_right _ hn)
    refine clearCopy_self (hυ.complete (List.mem_append_right _ hn)) hkind ?_ fun c hc => ?_
    · rw [← hkind, Kind.pendings, hslot]
      rfl
    · exact hkeep υ (hsame ▸ hnew) c (hkind ▸ hc)
  · refine hmake υ new hυ.way hnew hne fun hclear => hne (hchanged υ new hnew fun x c hc hx => ?_)
    exact hx.cleared.eq_of_clear (hclear.child hc)

/-- Forms with one node below. -/
theorem clears_single {item : NodeId} {F : NodeId → Kind} (hslot : (T.kind n).slot? = none)
    (hunion : (T.kind n).isUnion = false) (hconforms : (T.kind n).Conforms)
    (hchildren : (T.kind n).children = [item])
    (hF : ∀ s x, T.ClearCopy s x item → (F x).Paired (T.ClearCopy s) (T.kind n))
    (hfuel : base < fuel) :
    T.Clears v G stack reached σ
      ((Variant.plain.visitor fuel).visit item >>= fun new =>
        if new = item then return n else Rebuild.infer (Infer.make (F new)))
      fun υ out => T.ClearCopy υ.store out n := by
  have hfollowed : T.followed.kind n = T.kind n := kind_followed_eq fun w hw =>
    nomatch hslot.symm.trans hw
  have hitem : item ∈ (T.followed.kind n).children := by
    rw [hfollowed, hchildren]
    exact List.mem_cons_self
  refine h.clears_slotless hn (F := fun x => Infer.make (F x))
    (P := fun υ new => T.ClearCopy υ.store new item) hslot
    (h.visited item hitem _ (List.mem_append_left _ hitem) fuel hfuel σ
      (hσ.below hn fun w hw => nomatch hslot.symm.trans hw)) ?_ ?_ ?_
  · intro υ hkeep c hc
    rw [hchildren] at hc
    exact List.mem_singleton.mp hc ▸ hkeep
  · exact fun υ new hnew hsame => hsame new item (hchildren ▸ List.mem_cons_self) hnew
  · exact fun υ new hway hnew _ hclear =>
      provides_paired hway.sound hslot hconforms hunion (hF υ.store new hnew) hclear

/-- Forms with a list of nodes below. -/
theorem clears_items {items : List NodeId} {F : List NodeId → Infer NodeId}
    (hslot : (T.kind n).slot? = none) (hchildren : (T.kind n).children = items)
    (hmake : ∀ s new, s.Towards T v → List.Forall₂ (T.ClearCopy s) new items → new ≠ items →
      ¬ T.Clear n → T.Provides v s (F new) n) (hfuel : base < fuel) :
    T.Clears v G stack reached σ
      (items.mapM (Variant.plain.visitor fuel).visit >>= fun new =>
        if new = items then return n else Rebuild.infer (F new))
      fun υ out => T.ClearCopy υ.store out n := by
  subst hchildren
  have hfollowed : T.followed.kind n = T.kind n := kind_followed_eq fun w hw =>
    nomatch hslot.symm.trans hw
  have hvisits := Rebuild.composes_yields.visits endures (fun c hc =>
    h.visited c (hfollowed.symm ▸ hc) _ (List.mem_append_left reached (hfollowed.symm ▸ hc))) hfuel
    (hσ.below hn fun w hw => nomatch hslot.symm.trans hw)
  refine h.clears_slotless hn hslot hvisits ?_ ?_ ?_
  · exact fun υ hkeep => List.forall₂_same.mp hkeep
  · intro υ new hnew hsame
    rw [← List.forall₂_eq_eq_eq]
    exact forall₂_imp_mem hnew fun x _ c hc hx => hsame x c hc hx
  · exact fun υ new hway hnew hne hclear => hmake υ.store new hway hnew hne hclear

/-- Forms with labelled nodes below. -/
theorem clears_fields {β : Type} [DecidableEq β] {fields : List (β × NodeId)}
    {F : List (β × NodeId) → Kind} (hslot : (T.kind n).slot? = none)
    (hunion : (T.kind n).isUnion = false) (hconforms : (T.kind n).Conforms)
    (hchildren : (T.kind n).children = fields.map Prod.snd)
    (hF : ∀ s new, List.Forall₂ (SameLabel (T.ClearCopy s)) new fields →
      (F new).Paired (T.ClearCopy s) (T.kind n)) (hfuel : base < fuel) :
    T.Clears v G stack reached σ
      ((fields.mapM fun (label, field) =>
        return (label, ← (Variant.plain.visitor fuel).visit field)) >>= fun new =>
          if new = fields then return n else Rebuild.infer (Infer.make (F new)))
      fun υ out => T.ClearCopy υ.store out n := by
  have hfollowed : T.followed.kind n = T.kind n := kind_followed_eq fun w hw =>
    nomatch hslot.symm.trans hw
  have hbelow : ∀ x ∈ fields, x.2 ∈ (T.followed.kind n).children := by
    intro x hx
    rw [hfollowed, hchildren]
    exact List.mem_map_of_mem hx
  have hvisits := Rebuild.composes_yields.fields endures (fun x hx =>
    h.visited x.2 (hbelow x hx) _ (List.mem_append_left reached (hbelow x hx))) hfuel
    (hσ.below hn fun w hw => nomatch hslot.symm.trans hw)
  refine h.clears_slotless hn (F := fun new => Infer.make (F new)) hslot hvisits ?_ ?_ ?_
  · intro υ hkeep c hc
    rw [hchildren] at hc
    obtain ⟨x, hx, rfl⟩ := List.mem_map.mp hc
    exact (List.forall₂_same.mp hkeep x hx).2
  · intro υ new hnew hsame
    rw [← List.forall₂_eq_eq_eq]
    refine forall₂_imp_mem hnew fun x _ y hy hxy => Prod.ext hxy.1 (hsame x.2 y.2 ?_ hxy.2)
    rw [hchildren]
    exact List.mem_map_of_mem hy
  · exact fun υ new hway hnew _ hclear =>
      provides_paired hway.sound hslot hconforms hunion (hF υ.store new hnew) hclear

/-- **Every form** yields a node that serves for its node. -/
theorem clears_byForm (hfuel : base + (T.followed.kind n).refDepth + 2 < fuel) :
    T.Clears v G stack reached σ (Rebuild.byForm .plain (Variant.plain.visitor fuel) n)
      fun υ out => T.ClearCopy υ.store out n := by
  have hT := h.clearable.answered
  have hlevel : base < fuel := by omega
  have hvalid := h.clearable.valid n (hσ.leads_end hn hT)
  -- only a form with a slot is changed by following, so the others conform as they are
  have hconforms : (T.kind n).slot? = none → (T.kind n).Conforms := by
    intro hslot
    rw [kind_followed, Kind.mapSlot_of_slotless hslot] at hvalid
    exact (fault?_eq_none_iff.mp hvalid).2.1
  refine Rebuild.Yields.bind (Rebuild.yields_store hσ) fun τ u _ _ ⟨hτ, hu⟩ => ?_
  subst hτ hu
  rw [← hσ.kind_eq hn]
  rcases hk : T.kind n with ⟨value, ty⟩ | items | item | ⟨item, shape⟩ | ⟨tag, fields⟩ | members |
    options | slot | inner | reason | ty
  case scalar =>
    obtain ⟨fuel, rfl⟩ : ∃ k, fuel = k + 1 := ⟨fuel - 1, by omega⟩
    exact h.clears_scalar hσ hn hk (Nat.lt_of_succ_lt_succ hfuel)
  case function =>
    obtain ⟨fuel, rfl⟩ : ∃ k, fuel = k + 1 := ⟨fuel - 1, by omega⟩
    exact h.clears_function hσ hn hk (Nat.lt_of_succ_lt_succ hfuel)
  all_goals
    have hslot : (T.kind n).slot? = none := congrArg Kind.slot? hk
    have hconforms' := hconforms hslot
  case tuple =>
    refine h.clears_items hσ hn hslot (congrArg Kind.children hk) (fun s new hway hnew _ hclear =>
      provides_paired hway.sound hslot hconforms' (congrArg Kind.isUnion hk) ?_ hclear) hlevel
    rw [hk]
    exact hnew
  case list =>
    refine h.clears_single hσ hn (F := .list) hslot (congrArg Kind.isUnion hk) hconforms'
      (congrArg Kind.children hk) (fun s x hx => ?_) hlevel
    rw [hk]
    exact hx
  case array =>
    refine h.clears_single hσ hn (F := fun x => .array x shape) hslot (congrArg Kind.isUnion hk)
      hconforms' (congrArg Kind.children hk) (fun s x hx => ?_) hlevel
    rw [hk]
    exact ⟨rfl, hx⟩
  case record =>
    refine h.clears_fields hσ hn (F := .record tag) hslot (congrArg Kind.isUnion hk) hconforms'
      (congrArg Kind.children hk) (fun s new hnew => ?_) hlevel
    rw [hk]
    exact ⟨rfl, pairs_of_forall₂ hnew⟩
  case union =>
    refine h.clears_items hσ hn hslot (congrArg Kind.children hk) (fun s new hway hnew hne hclear =>
      provides_union hway.sound h.sound hway.later.keeps hk ?_ hnew hne hclear) hlevel
    rwa [kind_followed, Kind.mapSlot_of_slotless hslot] at hvalid
  case tagged =>
    refine h.clears_fields hσ hn (F := fun new => .tagged (stableSort (fun a b => a.1 ≤ b.1) new))
      hslot (congrArg Kind.isUnion hk) hconforms' (congrArg Kind.children hk)
      (fun s new hnew => ?_) hlevel
    rw [hk]
    exact (pairs_of_forall₂ hnew).of_perm (stableSort_perm _ new)
  case jtagged =>
    refine h.clears_single hσ hn (F := .jtagged) hslot (congrArg Kind.isUnion hk) hconforms'
      (congrArg Kind.children hk) (fun s x hx => ?_) hlevel
    rw [hk]
    exact hx
  all_goals
    have hkind := hσ.kind_eq hn
    refine Rebuild.yields_pure hσ (clearCopy_self (hσ.complete hn) hkind ?_ fun c hc => ?_)
    · rw [← hkind, hk]
      rfl
    · rw [← hkind, hk] at hc
      exact absurd hc List.not_mem_nil

end Clearing

end Store

end ValueInference
