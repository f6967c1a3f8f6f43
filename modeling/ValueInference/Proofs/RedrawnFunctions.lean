/-
What a walk that rewrites scalars makes of a function.

Every candidate of the function is rebuilt, and counts as changed if it does not equal what it was.
If none has changed, the function is given back: what equals a complete candidate is finished, so
the nodes in the candidate serve for themselves.  Otherwise the candidates are put together anew,
as the members of a union are, and the ones that are left out are finished.

* **`Store.Redrawing.runs_candidate`** — a rebuilt candidate is over nodes that serve;
* **`Store.Renewed`** — a set that was put together anew;
* **`Store.Redrawing.runs_options`** — the set stays, or is put together anew;
* **`Store.Redrawing.runs_function`** — a function gives a draft.
-/
import ValueInference.Proofs.Redrawn

namespace ValueInference

namespace Store

variable {s t : Store} {v x n m out : NodeId} {c d : Candidate} {cs ds as : List Candidate}
  {p q : Possibilities} {stack : List NodeId} {σ τ : Scene} {plan : Plan} {F : Scene → Prop}
  {base fuel : Nat} {V : Variant (Rebuild Unit Update)}

/-! ### Finished candidates -/

/-- What is in the candidate is known to the walk. -/
def KnownIn (plan : Plan) (σ : Scene) (c : Candidate) : Prop := ∀ n ∈ c.children, plan.Known σ n

/-- Finished candidates that differ do so from either side. -/
theorem Drafting.candidates_differ_symm (h : s.Drafting plan stack σ) (hs : s.Subject plan)
    (hd : KnownIn plan σ d) (hfinished : σ.store.FinishedIn c) (hfinished' : σ.store.FinishedIn d)
    (hdiffer : σ.store.equalCandidates c d = false) : σ.store.equalCandidates d c = false := by
  refine Bool.eq_false_iff.mpr fun hequal => ?_
  have hsound := h.reachable.sound
  have halike := (alike_of_finished hsound hfinished' hfinished hequal).flip
  refine Bool.eq_false_iff.mp hdiffer
    ((equalCandidates_iff_alike hsound hfinished.present hfinished'.present).mpr ?_)
  exact halike.imp fun m _ n hn hnm => (h.same_symm hs (hd n hn) hnm).equal

/-! ### Rebuilt candidates -/

/-- What becomes of a candidate: one over nodes that serve; and if it counts as unchanged, the
nodes in the candidate serve for themselves. -/
def CandidateRedrawn (s : Store) (plan : Plan) (σ : Scene) (r : Candidate × Bool)
    (c : Candidate) : Prop :=
  r.1.Alike (s.Serves plan σ) c ∧ (r.2 = false → ∀ n ∈ c.children, s.Serves plan σ n n)

theorem stays_candidateRedrawn (s : Store) (plan : Plan) (stack : List NodeId) :
    Rebuild.Stays (s.Drafting plan stack) Scene.Extends (s.CandidateRedrawn plan) := by
  intro σ τ r c hσ hτ hext hr
  have hserves := stays_serves s plan stack σ τ
  constructor
  · exact hr.1.imp fun a _ b _ => hserves a b hσ hτ hext
  · exact fun hsame n hn => hserves n n hσ hτ hext (hr.2 hsame n hn)

namespace Redrawing

section

variable (h : s.Redrawing plan v F V stack n base) (hσ : s.Drafting plan (n :: stack) σ)

include h hσ

omit hσ in
theorem knownIn_of_alike (hcd : c.Alike (s.Serves plan σ) d) : KnownIn plan σ c := by
  intro m hm
  obtain ⟨b, -, hmb⟩ := hcd.exists_child m hm
  exact hmb.known h.subject.reachable

/-- Equal candidates over nodes that serve are over equated nodes. -/
theorem alike_of_equalCandidates {c' d' : Candidate} (hc : c'.Alike (s.Serves plan σ) c)
    (hd : d'.Alike (s.Serves plan σ) d) (hequal : σ.store.equalCandidates c' d' = true) :
    c'.Alike σ.store.Equated d' := by
  have hpresent : ∀ {c c' : Candidate}, c'.Alike (s.Serves plan σ) c →
      ∀ m ∈ c'.children, m < σ.store.nodes.size := fun hc m hm =>
    hσ.present_of_known h.subject (h.knownIn_of_alike hc m hm)
  have halike :=
    (equalCandidates_iff_alike hσ.reachable.sound (hpresent hc) (hpresent hd)).mp hequal
  exact halike.imp fun a _ b _ => .rel a b

/-- **Where a candidate is unchanged**, the nodes in it serve for themselves. -/
theorem serves_of_unchanged (hd : ∀ m ∈ d.children, m ∈ (s.kind n).children)
    (hcd : c.Alike (s.Serves plan σ) d) (hequal : σ.store.equalCandidates c d = true) :
    ∀ m ∈ d.children, s.Serves plan σ m m := by
  have hs := h.subject
  have hsound := hσ.reachable.sound
  have hvalue : ∀ m ∈ d.children, plan.within m := fun m hm => hs.closed _ h.value _ (hd m hm)
  have hequals : c.Alike σ.store.EqualIn d :=
    (equalCandidates_iff_alike hsound
      (fun m hm => hσ.present_of_known hs (h.knownIn_of_alike hcd m hm))
      fun m hm => hσ.present_of_known hs (.inl (hvalue m hm))).mp hequal
  intro m hm
  obtain ⟨a, -, hserves, ham⟩ := (hcd.and hequals).flip.exists_child m hm
  have hfilled : σ.store.Filled m := hσ.grows.keeps.filled (hs.filled m (hvalue m hm))
  have hsame : σ.store.SameValue a m :=
    ⟨finished_of_equalIn hsound ham hfilled, hfilled.finished, ham⟩
  exact hσ.serves_of_same hs hserves hsame (.inl (hvalue m hm))

variable (hV : V.ref = Rebuild.ref)

include hV

/-- **A candidate** is rebuilt over nodes that serve for those in it. -/
theorem runs_candidate (hc : ∀ m ∈ c.children, m ∈ (s.kind n).children)
    (hfuel : ∀ f, c = .function f → base + f.depth + 1 < fuel) :
    s.Draws plan F (n :: stack) σ (Rebuild.visitCandidate (V.visitor fuel) c) fun τ r =>
      s.CandidateRedrawn plan τ r c := by
  refine (Rebuild.runs_candidate hV (stays_serves s plan _)
    (fun m hm => h.visits m (hc m hm)) hfuel hσ).imp fun τ r hτ ⟨halike, hsame, _⟩ => ?_
  exact ⟨halike, fun hr => h.serves_of_unchanged hτ hc halike (hsame hr)⟩

end

end Redrawing

/-! ### What is left of the candidates -/

/-- How two rebuilt candidates of a function stay apart: shapes tell apart what they are for, so
that they are not over equated nodes, or both are for candidates that do not lead back, and what is
in them is finished. -/
def CandidatesSetApart (s : Store) (plan : Plan) (σ : Scene) (f : NodeId) (c d : Candidate) :
    Prop :=
  (¬ c.Alike σ.store.Equated d ∧ s.CandidatesParted plan σ f c d) ∨
  (s.CandidateAside plan σ f c ∧ s.CandidateAside plan σ f d) ∧
    σ.store.FinishedIn c ∧ σ.store.FinishedIn d

theorem CandidatesSetApart.symm (h : s.CandidatesSetApart plan σ n c d) :
    s.CandidatesSetApart plan σ n d c := by
  refine h.imp (fun ⟨hnot, hparted⟩ => ?_) fun ⟨haside, hfinished⟩ => ?_
  · refine ⟨fun hdc => hnot ?_, hparted.symm⟩
    exact hdc.flip.imp fun x _ y _ hyx => .symm y x hyx
  · exact ⟨haside.symm, hfinished.symm⟩

instance : Std.Symm (s.CandidatesSetApart plan σ n) := ⟨fun _ _ => CandidatesSetApart.symm⟩

namespace Redrawing

section

variable (h : s.Redrawing plan v F V stack n base)
  (hk : s.kind n = .function (.possibilities p)) (hσ : s.Drafting plan (n :: stack) σ)
  (has : List.Forall₂ (Candidate.Alike (s.Serves plan σ)) as p.candidates)

include h hk hσ has

/-- **What candidates are rebuilt to** is set apart. -/
theorem pairwise_candidatesSetApart : as.Pairwise (s.CandidatesSetApart plan σ n) := by
  refine pairwise_of_forall₂ has (h.subject.candidates h.value hk)
    fun a a' c hc c' hc' hac hac' hapart => ?_
  have hfinished : ∀ {a c : Candidate}, a.Alike (s.Serves plan σ) c →
      (∀ m ∈ c.children, ¬ s.Leads m n) → σ.store.FinishedIn a := by
    intro a c hac hback m hm
    obtain ⟨b, hb, hmb⟩ := hac.exists_child m hm
    exact h.finished_of_serves hσ (hback b hb) hmb
  rcases hapart with hshapes | ⟨hback, -⟩
  · exact .inl ⟨h.not_alike hσ hac hac' hshapes, p, hk, c, hc, c', hc', hac, hac', hshapes⟩
  · have hback₁ : ∀ m ∈ c.children, ¬ s.Leads m n := fun m hm =>
      hback m (List.mem_append_left _ hm)
    have hback₂ : ∀ m ∈ c'.children, ¬ s.Leads m n := fun m hm =>
      hback m (List.mem_append_right _ hm)
    exact .inr ⟨⟨⟨p, hk, c, hc, hac, hback₁⟩, p, hk, c', hc', hac', hback₂⟩,
      hfinished hac hback₁, hfinished hac' hback₂⟩

/-- What is left out is over the same nodes as what it equals, so that serves in its place. -/
theorem alike_of_equal {a b : Candidate} (ha : a ∈ as) (hb : b ∈ as)
    (hab : a = b ∨ σ.store.equalCandidates a b = true) (hbc : b.Alike (s.Serves plan σ) c) :
    a.Alike (s.Serves plan σ) c := by
  by_cases hsame : a = b
  · exact hsame ▸ hbc
  have hequal := hab.resolve_left hsame
  obtain ⟨c', -, hac'⟩ := exists_of_forall₂ has a ha
  rcases (h.pairwise_candidatesSetApart hk hσ has).forall ha hb hsame with
    ⟨hnot, -⟩ | ⟨-, hfinished, hfinished'⟩
  · exact absurd (h.alike_of_equalCandidates hσ hac' hbc hequal) hnot
  · have hvalues := alike_of_finished hσ.reachable.sound hfinished hfinished' hequal
    refine (hvalues.comp hbc).imp fun x hx y _ ⟨z, hxz, hzy⟩ => ?_
    have hknown := h.knownIn_of_alike hac' x hx
    exact hσ.serves_of_same h.subject hzy (hσ.same_symm h.subject hknown hxz) hknown

end

end Redrawing

/-! ### Sets that are put together anew -/

/-- The second set was put together anew as the first one. -/
structure Renewed (s : Store) (plan : Plan) (σ : Scene) (n : NodeId) (q p : Possibilities) :
    Prop where
  fresh : q ≠ p
  admitted : σ.store.AdmitsSet q
  serves : Corresponds (Candidate.Alike (s.Serves plan σ)) q.candidates p.candidates
  apart : q.candidates.Pairwise fun c d =>
    s.CandidatesSetApart plan σ n c d ∧ σ.store.equalCandidates c d = false

/-- What becomes of a set: it stays, over nodes that serve for themselves, or it is put together
anew. -/
def OptionsRedrawn (s : Store) (plan : Plan) (σ : Scene) (n : NodeId) (new : Slot)
    (p : Possibilities) : Prop :=
  (new = .possibilities p ∧ ∀ c ∈ p.candidates, ∀ m ∈ c.children, s.Serves plan σ m m) ∨
    ∃ q, new = .possibilities q ∧ s.Renewed plan σ n q p

namespace Redrawing

section

variable (h : s.Redrawing plan v F V stack n base)
  (hk : s.kind n = .function (.possibilities p)) (hσ : s.Drafting plan (n :: stack) σ)

include h hk hσ

/-- **A set is put together anew** of the rebuilt candidates. -/
theorem runs_renewed (hsome : as ≠ [])
    (has : List.Forall₂ (Candidate.Alike (s.Serves plan σ)) as p.candidates) :
    s.Draws plan F (n :: stack) σ (Rebuild.infer (Infer.possibilitiesOf as)) fun τ q =>
      s.Renewed plan τ n q p := by
  have hleft := σ.store.thinned_addCandidates as
  have hgrows := σ.store.grows_token
  have hgoing := hσ.of_grows hgrows (.step .token hσ.reachable trivial) hσ.plain
  have hext : σ.Extends { σ with store := { σ.store with tokens := σ.store.tokens + 1 } } :=
    ⟨fun _ _ => id, hgrows.keeps⟩
  refine Rebuild.runs_infer (Infer.outcome_possibilitiesOf_thinned hsome) hgoing hext
    ⟨?_, ?_, ?_, ?_⟩
  · -- the token is a new one
    have hheld : s.HoldsSet p := .inl ⟨n, by rw [hk]; rfl⟩
    have hissued := (hσ.reachable.sound.sets p (hheld.of_grows hσ.grows)).issued
    rintro rfl
    exact Nat.lt_irrefl _ hissued
  · refine hσ.reachable.sound.admits_new (hleft.distinct.imp fun {c d} hcd => ?_)
    rintro rfl
    exact Bool.eq_false_iff.mp hcd (σ.store.equalCandidates_refl c)
  · have hcorresponds := corresponds_of_thinned hleft has fun a ha b hb hab c hbc =>
      h.alike_of_equal hk hσ has ha hb hab hbc
    refine hcorresponds.imp fun _ _ _ _ hcd => hcd.imp fun a _ b _ => ?_
    exact stays_serves s plan (n :: stack) _ _ a b hσ hgoing hext
  · have hsound := hσ.reachable.sound
    have hsound' := hgoing.reachable.sound
    refine (((h.pairwise_candidatesSetApart hk hσ has).sublist hleft.sublist).and
      hleft.distinct).imp ?_
    rintro c d ⟨⟨-, hparted⟩ | ⟨haside, hc, hd⟩, hdiffer⟩
    · obtain ⟨-, -, a, -, b, -, hca, hdb, hshapes⟩ := hparted.later hext hsound hsound'
      have hnot := h.not_alike hgoing hca hdb hshapes
      refine ⟨.inl ⟨hnot, hparted.later hext hsound hsound'⟩, Bool.eq_false_iff.mpr fun hequal => ?_⟩
      exact hnot (h.alike_of_equalCandidates hgoing hca hdb hequal)
    · refine ⟨.inr ⟨⟨haside.1.later hext hsound hsound', haside.2.later hext hsound hsound'⟩,
        hgrows.keeps.finishedIn hc, hgrows.keeps.finishedIn hd⟩, ?_⟩
      exact (hgrows.keeps.equalCandidates_eq hsound hsound' hc hd).trans hdiffer

variable (hV : V.ref = Rebuild.ref)

include hV

/-- **The options of a function** stay, or are put together anew. -/
theorem runs_options (hfuel : base + (s.kind n).refDepth + 1 < fuel) :
    s.Draws plan F (n :: stack) σ (Rebuild.slot (V.visitor fuel) (.possibilities p))
      fun τ new => s.OptionsRedrawn plan τ n new p := by
  refine Rebuild.Runs.bind (Rebuild.runs_settle hσ) fun τ settled _ _ ⟨hτ, hsettled⟩ => ?_
  subst hτ hsettled
  have hslot : (s.kind n).slot? = some (.possibilities p) := by
    rw [hk]
    rfl
  have hcandidates : ∀ c ∈ p.candidates, ∀ τ, s.Drafting plan (n :: stack) τ →
      s.Draws plan F (n :: stack) τ (Rebuild.visitCandidate (V.visitor fuel) c) fun υ r =>
        s.CandidateRedrawn plan υ r c := by
    intro c hc τ hτ
    refine h.runs_candidate hτ hV (fun m hm => ?_) fun f hf => ?_
    · rw [Kind.children_of_slot hslot]
      exact List.mem_flatMap_of_mem hc hm
    · have hdepth := Kind.depth_le_refDepth hslot (hf ▸ hc)
      omega
  refine (Rebuild.runs_mapM (stays_candidateRedrawn s plan _) hσ hcandidates).bind
    fun τ new hτ _ hnew => ?_
  by_cases hchanged : new.any Prod.snd = true
  · have halike : List.Forall₂ (Candidate.Alike (s.Serves plan τ)) (new.map Prod.fst) p.candidates := by
      rw [List.forall₂_map_left_iff]
      exact hnew.imp fun _ _ hr => hr.1
    have hsome : new.map Prod.fst ≠ [] := by
      obtain ⟨r, hr, -⟩ := List.any_eq_true.mp hchanged
      exact List.ne_nil_of_mem (List.mem_map_of_mem hr)
    simp only [hchanged, if_true]
    refine (h.runs_renewed hk hτ hsome halike).bind fun υ q hυ _ hq => ?_
    exact Rebuild.runs_pure hυ (.inr ⟨q, rfl, hq⟩)
  · simp only [hchanged]
    refine Rebuild.runs_pure hτ (.inl ⟨rfl, fun c hc => ?_⟩)
    obtain ⟨r, hr, hrc⟩ := exists_of_forall₂ hnew.flip c hc
    exact hrc.2 (Bool.eq_false_iff.mpr fun hr' => hchanged (List.any_eq_true.mpr ⟨r, hr, hr'⟩))

end

end Redrawing

/-! ### Drafts of functions -/

/-- A function of what serves for the candidates is a draft, if they are kept apart. -/
theorem drafted_of_function (hk : s.kind n = .function (.possibilities p))
    (hx : σ.store.isComplete x = true) (hform : σ.store.kind x = .function (.possibilities q))
    (hserves : Corresponds (Candidate.Alike (s.Serves plan σ)) q.candidates p.candidates)
    (hapart : q.candidates.Pairwise (s.CandidatesKeptApart plan σ x n)) :
    s.Drafted plan σ x n := by
  refine ⟨hx, ?_, ?_, fun ms hms => ?_, fun r hr => ?_⟩
  · rw [hform, hk]
    rfl
  · rw [hk]
    exact ⟨q, hform, hserves⟩
  · rw [hform] at hms
    exact nomatch hms
  · obtain rfl := Slot.possibilities.inj (Kind.function.inj (hform.symm.trans hr))
    exact hapart

/-- A node that was made of a set has the candidates of the set, in some order. -/
theorem Drawn.exists_candidates (h : s.Drawn t (.function (.possibilities q)) out) :
    ∃ r, t.kind out = .function (.possibilities r) ∧ r.candidates.Perm q.candidates := by
  obtain ⟨w, hform, hw⟩ := h.reordered.function_inv
  cases hw with
  | same => exact ⟨q, hform, .refl _⟩
  | possibilities hperm => exact ⟨_, hform, hperm⟩

namespace Redrawing

section

variable (h : s.Redrawing plan v F V stack n base) (hσ : s.Drafting plan (n :: stack) σ)

include h hσ

/-- **A function whose candidates stay** is a draft of itself. -/
theorem drafted_function (hk : s.kind n = .function (.possibilities p))
    (hsame : ∀ c ∈ p.candidates, ∀ m ∈ c.children, s.Serves plan σ m m) :
    s.Drafted plan σ n n := by
  have hs := h.subject
  have hkeeps := hσ.grows.keeps
  have hkind : σ.store.kind n = .function (.possibilities p) := by rw [hσ.kind_eq hs h.value, hk]
  have hserves : Corresponds (Candidate.Alike (s.Serves plan σ)) p.candidates p.candidates :=
    corresponds_of_forall₂ (List.forall₂_same.mpr fun c hc => .refl (hsame c hc))
  refine drafted_of_function hk (hkeeps.isComplete h.complete) hkind hserves ?_
  refine (hs.candidates h.value hk).imp_of_mem fun {c d} hc hd hcd => ?_
  have hvalue : ∀ {c}, c ∈ p.candidates → ∀ m ∈ c.children, plan.within m := by
    intro c hc m hm
    refine hs.closed _ h.value _ ?_
    rw [hk]
    exact List.mem_flatMap_of_mem hc hm
  have hfinished : ∀ {c}, c ∈ p.candidates → s.FinishedIn c := fun hc m hm =>
    hs.finished (hvalue hc m hm)
  rcases hcd with hshapes | ⟨hback, hdiffer⟩
  · exact .inl ⟨p, hk, c, hc, d, hd, .refl (hsame c hc), .refl (hsame d hd), hshapes⟩
  have hdiffer' : σ.store.equalCandidates c d = false := by
    rw [hkeeps.equalCandidates_eq hs.reachable.sound hσ.reachable.sound (hfinished hc)
      (hfinished hd), hdiffer]
  have haside : ∀ {c}, c ∈ p.candidates → (∀ m ∈ c.children, ¬ s.Leads m n) →
      s.CandidateAside plan σ n c := fun hc hback => ⟨p, hk, _, hc, .refl (hsame _ hc), hback⟩
  refine .inr ⟨⟨haside hc fun m hm => ?_, haside hd fun m hm => ?_⟩, fun m hm => ?_, hdiffer', ?_⟩
  · exact hback m (List.mem_append_left _ hm)
  · exact hback m (List.mem_append_right _ hm)
  · have hm' : s.Finished m := (List.mem_append.mp hm).elim (hfinished hc m) (hfinished hd m)
    exact ⟨hkeeps.finished hm', mt (hkeeps.leads_iff hm').mp (hback m hm)⟩
  · exact hσ.candidates_differ_symm hs (fun m hm => .inl (hvalue hd m hm))
      (hkeeps.finishedIn (hfinished hc)) (hkeeps.finishedIn (hfinished hd)) hdiffer'

/-- **A set that was put together anew** makes a draft of the function. -/
theorem exists_function (hk : s.kind n = .function (.possibilities p))
    (hq : s.Renewed plan σ n q p) :
    ∃ out t, (Infer.function (.possibilities q)).outcome σ.store = (.ok out, t) ∧
      s.Drafting plan (n :: stack) { σ with store := t } ∧ σ.Extends { σ with store := t } ∧
        s.Drafted plan { σ with store := t } out n := by
  have hs := h.subject
  have hknown : ∀ c ∈ q.candidates, KnownIn plan σ c := by
    intro c hc
    obtain ⟨d, -, hcd⟩ := hq.serves.1 c hc
    exact h.knownIn_of_alike hcd
  have hfault : σ.store.fault? (.function (.possibilities q)) = none := by
    refine fault?_eq_none (knows_iff.mpr ⟨fun m hm => ?_, fun _ hp => ?_⟩) trivial (fun c hc => ?_)
      (fun _ _ hscalar => nomatch hscalar) fun _ hunion => nomatch hunion
    · obtain ⟨c, hc, hm⟩ := List.mem_flatMap.mp hm
      exact hσ.present_of_known hs (hknown c hc m hm)
    · exact absurd hp List.not_mem_nil
    · have hformed := hs.reachable.formed n
      rw [hk] at hformed
      obtain ⟨d, hd, hcd⟩ := hq.serves.1 c hc
      have hfunction := hformed d hd
      cases c with
      | constant y =>
        cases d with
        | constant z => exact hfunction
        | function g => exact hcd.elim
      | function f => rfl
  obtain ⟨out, t, hout, hdrawn⟩ := exists_drawn hσ.reachable hσ.plain hfault
    (by
      rintro slot ⟨⟩ r ⟨⟩
      exact hq.admitted) fun _ hunion => nomatch hunion
  obtain ⟨hgoing, hext⟩ := hσ.of_drawn hdrawn
  refine ⟨out, t, hout, hgoing, hext, ?_⟩
  obtain ⟨r, hform, hperm⟩ := hdrawn.exists_candidates
  have hserves := hq.serves.imp fun _ _ _ _ hcd => hcd.imp fun a _ b _ =>
    stays_serves s plan (n :: stack) _ _ a b hσ hgoing hext
  refine drafted_of_function hk hdrawn.complete hform (hserves.of_perm hperm) ?_
  refine hperm.symm.pairwise ?_ CandidatesKeptApart.symm
  refine hq.apart.imp_of_mem fun {c d} hc hd hcd => ?_
  obtain ⟨hcd, hdiffer⟩ := hcd
  have hsound := hσ.reachable.sound
  have hsound' := hgoing.reachable.sound
  rcases hcd with ⟨-, hparted⟩ | ⟨haside, hfinished, hfinished'⟩
  · exact .inl (hparted.later hext hsound hsound')
  have hkeeps := fun {c d : Candidate} (hc : σ.store.FinishedIn c) (hd : σ.store.FinishedIn d) =>
    hext.keeps.equalCandidates_eq hsound hsound' hc hd
  refine .inr ⟨⟨haside.1.later hext hsound hsound', haside.2.later hext hsound hsound'⟩,
    fun m hm => ?_, (hkeeps hfinished hfinished').trans hdiffer,
    (hkeeps hfinished' hfinished).trans ?_⟩
  · rcases List.mem_append.mp hm with hm | hm
    · exact hdrawn.below m (List.mem_flatMap_of_mem hc hm) (hfinished m hm)
    · exact hdrawn.below m (List.mem_flatMap_of_mem hd hm) (hfinished' m hm)
  · exact hσ.candidates_differ_symm hs (hknown d hd) hfinished hfinished' hdiffer

omit h in
/-- Options that are no set stay as they are. -/
theorem runs_known {options : Slot} (hoptions : ∀ p, options ≠ .possibilities p) :
    s.Draws plan F (n :: stack) σ (Rebuild.slot (V.visitor fuel) options)
      fun _ new => new = options := by
  refine Rebuild.Runs.bind (Rebuild.runs_settle hσ) fun τ settled hτ _ ⟨_, hsettled⟩ => ?_
  subst hsettled
  cases settled with
  | possibilities p => exact absurd rfl (hoptions p)
  | _ => exact Rebuild.runs_pure hτ rfl

theorem drafted_known {options : Slot} (hk : s.kind n = .function options)
    (hoptions : ∀ p, options ≠ .possibilities p) : s.Drafted plan σ n n := by
  have hkind : σ.store.kind n = .function options := by rw [hσ.kind_eq h.subject h.value, hk]
  refine ⟨hσ.grows.keeps.isComplete h.complete, by rw [hkind, hk], ?_, fun ms hms => ?_,
    fun p hp => ?_⟩
  · rw [hk]
    cases options with
    | possibilities p => exact absurd rfl (hoptions p)
    | _ =>
      show (σ.store.kind n).Alike _ _
      rw [hkind]
      exact .refl fun _ hc => absurd hc List.not_mem_nil
  · rw [hkind] at hms
    exact nomatch hms
  · exact absurd (Kind.function.inj (hkind.symm.trans hp)) (hoptions p)

/-- **A function** gives a draft of it. -/
theorem runs_function {options : Slot} (hV : V.ref = Rebuild.ref)
    (hk : s.kind n = .function options) (hfuel : base + (s.kind n).refDepth + 1 < fuel) :
    s.Draws plan F (n :: stack) σ
      (Rebuild.slot (V.visitor fuel) options >>= fun new =>
        if new = options then return n else Rebuild.infer (Infer.function new))
      (s.Redrawn plan n) := by
  by_cases hset : ∃ p, options = .possibilities p
  · obtain ⟨p, rfl⟩ := hset
    refine (h.runs_options hk hσ hV hfuel).bind fun τ new hτ _ hnew => ?_
    rcases hnew with ⟨rfl, hsame⟩ | ⟨q, rfl, hq⟩
    · rw [if_pos rfl]
      exact Rebuild.runs_pure hτ (.inl (h.drafted_function hτ hk hsame))
    · obtain ⟨out, t, hout, hgoing, hext, hdraft⟩ := h.exists_function hτ hk hq
      rw [if_neg fun hsame => hq.fresh (Slot.possibilities.inj hsame)]
      exact Rebuild.runs_infer hout hgoing hext (.inl hdraft)
  · have hoptions : ∀ p, options ≠ .possibilities p := fun p hp => hset ⟨p, hp⟩
    refine (runs_known hσ hoptions).bind fun τ new hτ _ hnew => ?_
    rw [if_pos hnew]
    exact Rebuild.runs_pure hτ (.inl (h.drafted_known hτ hk hoptions))

end

end Redrawing

end Store

end ValueInference
