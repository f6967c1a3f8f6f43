/-
What serves for one node after a walk is equal.

A walk that finds results of earlier walks may answer a visit with other nodes than a walk that
remembers nothing.  All these nodes have the rewritten form of the visited one, and they are equal.
The members of a union are paired off by what they serve for.  A node serves for two members only if
shapes do not tell them apart, and then they do not lead back to the union; for such members the
result is there already, since they lead to fewer nodes.

* **`Corresponds.matches`** — what corresponds to the same things is paired off;
* **`Store.Drafting.told_members`**, **`Store.Drafting.told_candidates`** — two members or
  candidates show their difference, or do not lead back;
* **`Store.Drafting.alike_of_serves`** — nodes that serve for one node have alike forms;
* **`Store.Drafting.same_of_serves`** — nodes that serve for one node are equal.
-/
import ValueInference.Proofs.Rewritten

namespace ValueInference

section

variable {α : Type} {R S : α → α → Prop} {as bs cs : List α}

/-- **What corresponds to the same things** is paired off, if on neither side two things share
one. -/
theorem Corresponds.matches (h : Corresponds R as cs) (h' : Corresponds S bs cs)
    (hapart : ApartIn (fun a b => ∃ c ∈ cs, R a c ∧ S b c) as bs)
    (hapart' : ApartIn (fun b a => ∃ c ∈ cs, S b c ∧ R a c) bs as) :
    Matches (fun a b => ∃ c ∈ cs, R a c ∧ S b c) as bs := by
  have hleft : ∀ a ∈ as, ∃ b ∈ bs, ∃ c ∈ cs, R a c ∧ S b c := by
    intro a ha
    obtain ⟨c, hc, hac⟩ := h.1 a ha
    obtain ⟨b, hb, hbc⟩ := h'.2 c hc
    exact ⟨b, hb, c, hc, hac, hbc⟩
  have hright : ∀ b ∈ bs, ∃ a ∈ as, ∃ c ∈ cs, S b c ∧ R a c := by
    intro b hb
    obtain ⟨c, hc, hbc⟩ := h'.1 b hb
    obtain ⟨a, ha, hac⟩ := h.2 c hc
    exact ⟨a, ha, c, hc, hbc, hac⟩
  exact matches_of_apart hleft hright hapart hapart'

end

/-- Candidates that are alike to a third one are alike. -/
theorem Candidate.Alike.join {R S : NodeId → NodeId → Prop} {c d e : Candidate}
    (h : c.Alike R e) (h' : d.Alike S e) :
    c.Alike (fun a b => ∃ n ∈ e.children, R a n ∧ S b n) d := by
  have hbelow : c.Alike (fun a n => n ∈ e.children ∧ R a n) e := h.imp fun _ _ _ hn han => ⟨hn, han⟩
  refine (hbelow.comp h'.flip).imp ?_
  rintro a - b - ⟨n, ⟨hn, han⟩, hbn⟩
  exact ⟨n, hn, han, hbn⟩

/-- Forms that are alike to a third one are alike, if its parts have places. -/
theorem Kind.Alike.join {R S : NodeId → NodeId → Prop} {k k' k'' : Kind} (h : k.Alike R k'')
    (h' : k'.Alike S k'') (hk : k''.Placed) (hlabelled : k'.Labelled) :
    k.Alike (fun a b => ∃ c ∈ k''.children, R a c ∧ S b c) k' := by
  have hbelow : k.Alike (fun a c => c ∈ k''.children ∧ R a c) k'' :=
    h.imp fun _ _ _ hc hac => ⟨hc, hac⟩
  refine (hbelow.comp_of_placed (h'.flip_of_placed hlabelled hk) hk).imp ?_
  rintro a _ b _ ⟨c, ⟨hc, hac⟩, hbc⟩
  exact ⟨c, hc, hac, hbc⟩

namespace Store

variable {s : Store} {x y z m n a b : NodeId} {c d e : Candidate} {as ms : List NodeId}
  {p q : Possibilities} {plan : Plan} {σ : Scene}

/-- Two members of what passes for a union pass for different members of the union, or both pass for
members that do not lead back to it. -/
def Told (s : Store) (plan : Plan) (σ : Scene) (z a b : NodeId) : Prop :=
  ∃ c ∈ (s.kind z).children, ∃ d ∈ (s.kind z).children, plan.Passes σ a c ∧ plan.Passes σ b d ∧
    (c ≠ d ∨ ¬ s.Leads c z ∧ ¬ s.Leads d z)

/-- Two candidates of what passes for a function are over nodes that serve for different candidates,
or both for candidates that do not lead back to it. -/
def CandidatesTold (s : Store) (plan : Plan) (σ : Scene) (z : NodeId) (c d : Candidate) : Prop :=
  ∃ p, s.kind z = .function (.possibilities p) ∧ ∃ e ∈ p.candidates, ∃ f ∈ p.candidates,
    c.Alike (s.Serves plan σ) e ∧ d.Alike (s.Serves plan σ) f ∧
      (e ≠ f ∨ (∀ n ∈ e.children, ¬ s.Leads n z) ∧ ∀ n ∈ f.children, ¬ s.Leads n z)

/-- All that serves for a node is equal. -/
def Agrees (s : Store) (plan : Plan) (σ : Scene) (m : NodeId) : Prop :=
  ∀ a b, s.Serves plan σ a m → s.Serves plan σ b m → σ.store.SameValue a b

namespace Drafting

section

variable (hs : s.Subject plan) (h : s.Drafting plan [] σ)

include hs h

omit hs in
theorem within_of_serves (hxz : s.Serves plan σ x z) : plan.within z := by
  rcases hxz with ⟨-, w, hwz, -⟩ | ⟨hz, -⟩
  · exact (h.drafts w z hwz).1
  · exact hz

/-- What serves for two members of a union serves for members that do not lead back. -/
theorem not_leads_of_both (hz : plan.within z) (hk : s.kind z = .union ms) (hm : m ∈ ms)
    (hn : n ∈ ms) (ham : s.Serves plan σ a m) (han : s.Serves plan σ a n)
    (hmn : m ≠ n ∨ ¬ s.Leads n z) : ¬ s.Leads m z := by
  rcases eq_or_ne m n with rfl | hne
  · exact hmn.resolve_left (not_not_intro rfl)
  let D : NodeId → NodeId → Prop := fun m n =>
    s.ShapesApart z m n ∨ ¬ s.Leads m z ∧ ¬ s.Leads n z
  have hsymm : Std.Symm D := ⟨fun _ _ h => h.imp .symm And.symm⟩
  have hpairs : ms.Pairwise D := (hs.members hz hk).imp fun hshown => hshown.imp id fun h => ⟨h.1, h.2.1⟩
  rcases hpairs.forall hm hn hne with hshapes | ⟨hback, -⟩
  · have hshown : ∀ {m}, s.Serves plan σ a m → s.Shown σ.store _ a m := fun ham =>
      ham.shown σ.passed_finished (h.finished_of_serves hs ham)
    exact absurd (.refl a) ((h.portrays_finished z).not_equated h.reachable.sound hshapes
      (hshown ham) (hshown han))
  · exact hback

/-- A candidate that serves for two candidates serves for some that do not lead back. -/
theorem not_leads_of_both_candidates (hz : plan.within z)
    (hk : s.kind z = .function (.possibilities p)) (hd : d ∈ p.candidates) (he : e ∈ p.candidates)
    (hcd : c.Alike (s.Serves plan σ) d) (hce : c.Alike (s.Serves plan σ) e)
    (hde : d ≠ e ∨ ∀ n ∈ e.children, ¬ s.Leads n z) : ∀ n ∈ d.children, ¬ s.Leads n z := by
  rcases eq_or_ne d e with rfl | hne
  · exact hde.resolve_left (not_not_intro rfl)
  let D : Candidate → Candidate → Prop := fun d e =>
    s.CandidateShapesApart z d e ∨ ∀ n ∈ d.children ++ e.children, ¬ s.Leads n z
  have hsymm : Std.Symm D := ⟨fun _ _ h => h.imp CandidateShapesApart.symm fun hback n hn =>
    hback n (List.mem_append.mpr (List.mem_append.mp hn).symm)⟩
  have hpairs : p.candidates.Pairwise D :=
    (hs.candidates hz hk).imp fun hshown => hshown.imp id fun h => h.1
  rcases hpairs.forall hd he hne with hshapes | hback
  · have hshown : ∀ {e : Candidate}, c.Alike (s.Serves plan σ) e → c.Alike (s.Shown σ.store _) e :=
      fun hce => hce.imp fun _ _ _ _ hserves =>
        hserves.shown σ.passed_finished (h.finished_of_serves hs hserves)
    exact absurd (.refl fun a _ => .refl a) ((h.portrays_finished z).not_alike h.reachable.sound
      hshapes (hshown hcd) (hshown hce))
  · exact fun n hn => hback n (List.mem_append_left _ hn)

theorem same_trans (hx : plan.Known σ x) (hxy : σ.store.SameValue x y)
    (hyz : σ.store.SameValue y z) : σ.store.SameValue x z :=
  ⟨hxy.left, hyz.right, (h.balanced hs hx hxy.left).trans y z hxy.equal hyz.equal⟩

theorem known_members (hx : plan.Known σ x) (hk : σ.store.kind x = .union as) :
    ∀ a ∈ as, plan.Known σ a :=
  fun _ ha => h.known_leads hs hx (leads_child (by rwa [hk]))

theorem known_candidates (hx : plan.Known σ x)
    (hk : σ.store.kind x = .function (.possibilities p)) :
    ∀ c ∈ p.candidates, ∀ n ∈ c.children, plan.Known σ n := by
  intro c hc n hn
  refine h.known_leads hs hx (leads_child ?_)
  rw [hk]
  exact List.mem_flatMap_of_mem hc hn

/-- What serves for a union is a union, or passes for all its members. -/
theorem union_or_single (hxz : s.Serves plan σ x z) (hk : s.kind z = .union ms) :
    plan.Passes σ x z ∧ (∃ as, σ.store.kind x = .union as) ∧ 2 ≤ (σ.store.members x).length ∨
      (∀ m ∈ ms, plan.Passes σ x m) ∧ σ.store.members x = [x] := by
  rcases hxz with hpasses | ⟨hz, -, ms', hk', hms⟩
  · obtain ⟨as, hform⟩ := Kind.exists_union_of_shape (hk ▸ h.shape_of_passes hpasses
      (h.finished_of_serves hs (.inl hpasses)).complete)
    have hformed := h.reachable.formed x
    rw [hform] at hformed
    refine .inl ⟨hpasses, ⟨as, hform⟩, ?_⟩
    rw [members, hform]
    exact hformed
  · obtain rfl : ms = ms' := Kind.union.inj (hk.symm.trans hk')
    exact .inr ⟨hms, members_of_not_union (h.isUnion_of_members hs hz hk hms)⟩

/-! ### Members -/

omit hs in
/-- Two members of a draft are told apart. -/
theorem told_of_mirror (hxz : σ.mirrors x z) (hk : σ.store.kind x = .union as) (ha : a ∈ as)
    (hb : b ∈ as) (hne : a ≠ b) : s.Told plan σ z a b := by
  have hsymm : Std.Symm (s.KeptApart plan σ x z) := ⟨fun _ _ => KeptApart.symm⟩
  rcases ((h.drafted_of_mirror hxz).members as hk).forall ha hb hne with
    ⟨c, hc, d, hd, hac, hbd, hshapes⟩ | ⟨⟨⟨c, hc, hac, hback⟩, d, hd, hbd, hback'⟩, -⟩
  · exact ⟨c, hc, d, hd, hac, hbd, .inl hshapes.ne⟩
  · exact ⟨c, hc, d, hd, hac, hbd, .inr ⟨hback, hback'⟩⟩

/-- What equals two members that are told apart is told apart. -/
theorem told_of_same (hma : σ.store.SameValue m a) (hnb : σ.store.SameValue n b)
    (ha : plan.Known σ a) (hb : plan.Known σ b) (htold : s.Told plan σ z m n) :
    s.Told plan σ z a b := by
  obtain ⟨c, hc, d, hd, hmc, hnd, hapart⟩ := htold
  exact ⟨c, hc, d, hd, h.passes_of_same hs hmc hma ha, h.passes_of_same hs hnd hnb hb, hapart⟩

/-- **Two members** of what passes for a union are told apart. -/
theorem told_members (hxz : plan.Passes σ x z) (hk : σ.store.kind x = .union as) (ha : a ∈ as)
    (hb : b ∈ as) (hdiffer : ¬ σ.store.SameValue a b) : s.Told plan σ z a b := by
  have hne : a ≠ b := by
    rintro rfl
    have hfinished := (h.finished_of_serves hs (.inl hxz)).child (c := a) (by rwa [hk])
    exact hdiffer ⟨hfinished, hfinished, equalIn_refl hfinished.present⟩
  have hknown := h.known_members hs hxz.1 hk
  obtain ⟨-, w, hwz, rfl | hsame⟩ := hxz
  · exact h.told_of_mirror hwz hk ha hb hne
  -- the members equal members of a draft
  obtain ⟨ws, hws⟩ := Kind.exists_union_of_shape (hk ▸
    Kind.shape_of_head (head_of_equals hsame.equal.2.2))
  have hdrafted := h.known_members hs (.inr ⟨z, hwz⟩) hws
  have halike := hsame.child h.reachable.sound
  have hflip := halike.flip (h.apart_of_same hs (.inr ⟨z, hwz⟩) hsame)
  rw [hws, hk] at halike hflip
  have hcorresponds := corresponds_of_alike halike hflip
  obtain ⟨m, hm, hma⟩ := hcorresponds.1 a ha
  obtain ⟨n, hn, hnb⟩ := hcorresponds.1 b hb
  have hmn : m ≠ n := by
    rintro rfl
    exact hdiffer (h.same_trans hs (hknown a ha) (h.same_symm hs (hdrafted m hm) hma) hnb)
  exact h.told_of_same hs hma hnb (hknown a ha) (hknown b hb)
    (h.told_of_mirror hwz hws hm hn hmn)

/-! ### Candidates -/

omit hs in
/-- Two candidates of a draft are told apart. -/
theorem candidatesTold_of_mirror (hxz : σ.mirrors x z)
    (hk : σ.store.kind x = .function (.possibilities p)) (hc : c ∈ p.candidates)
    (hd : d ∈ p.candidates) (hne : c ≠ d) : s.CandidatesTold plan σ z c d := by
  have hsymm : Std.Symm (s.CandidatesKeptApart plan σ x z) :=
    ⟨fun _ _ => CandidatesKeptApart.symm⟩
  rcases ((h.drafted_of_mirror hxz).candidates p hk).forall hc hd hne with
    ⟨q, hq, e, he, f, hf, hce, hdf, hshapes⟩ | ⟨⟨⟨q, hq, e, he, hce, hback⟩, hother⟩, -⟩
  · exact ⟨q, hq, e, he, f, hf, hce, hdf, .inl hshapes.ne⟩
  · obtain ⟨q', hq', f, hf, hdf, hback'⟩ := hother
    obtain rfl : q = q' := by simpa using hq.symm.trans hq'
    exact ⟨q, hq, e, he, f, hf, hce, hdf, .inr ⟨hback, hback'⟩⟩

/-- What equals two candidates that are told apart is told apart. -/
theorem candidatesTold_of_alike {c' d' : Candidate} (hcc' : c.Alike σ.store.SameValue c')
    (hdd' : d.Alike σ.store.SameValue d') (hc' : ∀ n ∈ c'.children, plan.Known σ n)
    (hd' : ∀ n ∈ d'.children, plan.Known σ n) (htold : s.CandidatesTold plan σ z c d) :
    s.CandidatesTold plan σ z c' d' := by
  obtain ⟨q, hq, e, he, f, hf, hce, hdf, hapart⟩ := htold
  have hmoved : ∀ {c c' e : Candidate}, c.Alike σ.store.SameValue c' →
      (∀ n ∈ c'.children, plan.Known σ n) → c.Alike (s.Serves plan σ) e →
        c'.Alike (s.Serves plan σ) e := by
    intro c c' e hcc' hc' hce
    refine (hcc'.flip.comp hce).imp fun n hn m _ hnm => ?_
    obtain ⟨l, hln, hlm⟩ := hnm
    exact h.serves_of_same hs hlm hln (hc' n hn)
  exact ⟨q, hq, e, he, f, hf, hmoved hcc' hc' hce, hmoved hdd' hd' hdf, hapart⟩

/-- Candidates that equal a common one are equal. -/
theorem alike_of_same (hc : ∀ n ∈ c.children, plan.Known σ n)
    (hd : ∀ n ∈ d.children, plan.Known σ n) (hce : c.Alike σ.store.SameValue e)
    (hde : d.Alike σ.store.SameValue e) : c.Alike σ.store.SameValue d := by
  refine (hce.join hde).imp fun n hn m hm ⟨l, _, hnl, hml⟩ => ?_
  exact h.same_trans hs (hc n hn) hnl (h.same_symm hs (hd m hm) hml)

/-- **Two candidates** of what passes for a function are told apart. -/
theorem told_candidates (hxz : plan.Passes σ x z)
    (hk : σ.store.kind x = .function (.possibilities p)) (hc : c ∈ p.candidates)
    (hd : d ∈ p.candidates) (hdiffer : ¬ c.Alike σ.store.SameValue d) :
    s.CandidatesTold plan σ z c d := by
  have hself : ∀ a ∈ (σ.store.kind x).children, σ.store.SameValue a a := fun a ha =>
    have hfinished := (h.finished_of_serves hs (.inl hxz)).child ha
    ⟨hfinished, hfinished, equalIn_refl hfinished.present⟩
  rw [hk] at hself
  have hne : c ≠ d := by
    rintro rfl
    exact hdiffer (.refl fun a ha => hself a (List.mem_flatMap_of_mem hc ha))
  have hknown := h.known_candidates hs hxz.1 hk
  obtain ⟨-, w, hwz, rfl | hsame⟩ := hxz
  · exact h.candidatesTold_of_mirror hwz hk hc hd hne
  -- the candidates equal candidates of a draft
  have halike := hsame.child h.reachable.sound
  have hflip := halike.flip (h.apart_of_same hs (.inr ⟨z, hwz⟩) hsame)
  have hcoherent := h.reachable.sound.coherent x w
  rw [hk] at halike hflip hcoherent
  obtain ⟨q, hq, hqp⟩ := candidates_of_alike (R := fun a b => σ.store.SameValue b a) hself
    hcoherent hflip halike
  have hdrafted := h.known_candidates hs (.inr ⟨z, hwz⟩) hq
  obtain ⟨c', hc', hcc'⟩ := hqp.2 c hc
  obtain ⟨d', hd', hdd'⟩ := hqp.2 d hd
  have hcd' : c' ≠ d' := by
    rintro rfl
    have hback : ∀ {e : Candidate}, c'.Alike σ.store.SameValue e →
        e.Alike σ.store.SameValue c' := fun he =>
      he.flip.imp fun _ _ l hl hln => h.same_symm hs (hdrafted c' hc' l hl) hln
    exact hdiffer (h.alike_of_same hs (hknown c hc) (hknown d hd) (hback hcc') (hback hdd'))
  exact h.candidatesTold_of_alike hs hcc' hdd' (hknown c hc) (hknown d hd)
    (h.candidatesTold_of_mirror hwz hq hc' hd' hcd')

/-! ### What serves for nodes below -/

section

variable (hbelow : ∀ m, s.Leads z m → ¬ s.Leads m z → s.Agrees plan σ m)

include hbelow

omit hbelow in
/-- Members that are told apart serve for one member only if it does not lead back. -/
theorem not_leads_of_told (hz : plan.within z) (hk : s.kind z = .union ms) (hm : m ∈ ms)
    (htold : s.Told plan σ z a b) (ha : s.Serves plan σ a m) (hb : s.Serves plan σ b m) :
    ¬ s.Leads m z := by
  obtain ⟨c, hc, d, hd, hac, hbd, hapart⟩ := htold
  rw [hk] at hc hd
  by_cases hmc : m = c
  · refine h.not_leads_of_both hs hz hk hm hd hb (.inl hbd) ?_
    exact hapart.imp (fun hne => hmc ▸ hne) fun hback => hback.2
  · exact h.not_leads_of_both hs hz hk hm hc ha (.inl hac) (.inl hmc)

/-- **No two members** of what passes for a union serve for the same as one member of another. -/
theorem apart_members (hxz : plan.Passes σ x z) (hk : s.kind z = .union ms)
    (hform : σ.store.kind x = .union as) (bs : List NodeId) :
    ApartIn (fun a b => ∃ m ∈ ms, s.Serves plan σ a m ∧ s.Serves plan σ b m) as bs := by
  have hserves : s.Serves plan σ x z := .inl hxz
  have hz := h.within_of_serves hserves
  have hknown := h.known_members hs hxz.1 hform
  refine ((h.rewriting hs).members x z as hserves hform).imp_of_mem ?_
  rintro a a' ha ha' hdiffer b - ⟨m, hm, ham, hbm⟩ ⟨n, hn, han, hbn⟩
  have hdistinct : ¬ σ.store.SameValue a a' := fun hsame =>
    Bool.eq_false_iff.mp hdiffer hsame.equal.2.2
  have htold := h.told_members hs hxz hform ha ha' hdistinct
  -- both serve for one member, or one member of the other node serves for two
  have hback : ¬ s.Leads m z ∧ ¬ s.Leads n z := by
    rcases eq_or_ne m n with rfl | hne
    · have hback := h.not_leads_of_told hs hz hk hm htold ham han
      exact ⟨hback, hback⟩
    · exact ⟨h.not_leads_of_both hs hz hk hm hn hbm hbn (.inl hne),
        h.not_leads_of_both hs hz hk hn hm hbn hbm (.inl hne.symm)⟩
  have hchild : ∀ {m}, m ∈ ms → s.Leads z m := fun hm => leads_child (by rwa [hk])
  have hab := hbelow m (hchild hm) hback.1 a b ham hbm
  have hab' := hbelow n (hchild hn) hback.2 a' b han hbn
  exact hdistinct (h.same_trans hs (hknown a ha) hab (h.same_symm hs (hknown a' ha') hab'))

omit hbelow in
/-- Candidates that are told apart serve for one candidate only if it does not lead back. -/
theorem not_leads_of_candidatesTold (hz : plan.within z)
    (hk : s.kind z = .function (.possibilities p)) (he : e ∈ p.candidates)
    (htold : s.CandidatesTold plan σ z c d) (hc : c.Alike (s.Serves plan σ) e)
    (hd : d.Alike (s.Serves plan σ) e) : ∀ n ∈ e.children, ¬ s.Leads n z := by
  obtain ⟨q, hq, f, hf, g, hg, hcf, hdg, hapart⟩ := htold
  obtain rfl : p = q := by simpa using hk.symm.trans hq
  by_cases hef : e = f
  · refine h.not_leads_of_both_candidates hs hz hk he hg hd hdg ?_
    exact hapart.imp (fun hne => hef ▸ hne) fun hback => hback.2
  · exact h.not_leads_of_both_candidates hs hz hk he hf hc hcf (.inl hef)

omit hs h in
/-- Candidates that serve for one that does not lead back are alike. -/
theorem alike_of_candidate (hk : s.kind z = .function (.possibilities p)) (he : e ∈ p.candidates)
    (hback : ∀ n ∈ e.children, ¬ s.Leads n z) (hc : c.Alike (s.Serves plan σ) e)
    (hd : d.Alike (s.Serves plan σ) e) : c.Alike σ.store.SameValue d := by
  refine (hc.join hd).imp fun a _ b _ ⟨m, hm, ham, hbm⟩ => ?_
  refine hbelow m (leads_child ?_) (hback m hm) a b ham hbm
  rw [hk]
  exact List.mem_flatMap_of_mem he hm

/-- **No two candidates** of what passes for a function serve for the same as one candidate of
another. -/
theorem apart_candidates (hxz : plan.Passes σ x z) (hk : s.kind z = .function (.possibilities p))
    (hform : σ.store.kind x = .function (.possibilities q)) (ds : List Candidate) :
    ApartIn (fun c d => ∃ e ∈ p.candidates, c.Alike (s.Serves plan σ) e ∧
      d.Alike (s.Serves plan σ) e) q.candidates ds := by
  have hserves : s.Serves plan σ x z := .inl hxz
  have hz := h.within_of_serves hserves
  have hsound := h.reachable.sound
  have hchild : ∀ {c : Candidate} {n}, c ∈ q.candidates → n ∈ c.children →
      n ∈ (σ.store.kind x).children := by
    intro c n hc hn
    rw [hform]
    exact List.mem_flatMap_of_mem hc hn
  have hknown := h.known_candidates hs hxz.1 hform
  refine ((h.rewriting hs).candidates x z q hserves hform).imp_of_mem ?_
  rintro c c' hc hc' hdiffer d - ⟨e, he, hce, hde⟩ ⟨e', he', hce', hde'⟩
  have hdistinct : ¬ c.Alike σ.store.SameValue c' := by
    intro halike
    refine Bool.eq_false_iff.mp hdiffer ((equalCandidates_iff_alike hsound ?_ ?_).mpr ?_)
    · exact fun n hn => hsound.child_lt (hchild hc hn)
    · exact fun n hn => hsound.child_lt (hchild hc' hn)
    · exact halike.imp fun _ _ _ _ hab => hab.equal
  have htold := h.told_candidates hs hxz hform hc hc' hdistinct
  have hback : (∀ n ∈ e.children, ¬ s.Leads n z) ∧ ∀ n ∈ e'.children, ¬ s.Leads n z := by
    rcases eq_or_ne e e' with rfl | hne
    · have hback := h.not_leads_of_candidatesTold hs hz hk he htold hce hce'
      exact ⟨hback, hback⟩
    · exact ⟨h.not_leads_of_both_candidates hs hz hk he he' hde hde' (.inl hne),
        h.not_leads_of_both_candidates hs hz hk he' he hde' hde (.inl hne.symm)⟩
  have hcd := alike_of_candidate hbelow hk he hback.1 hce hde
  have hcd' := alike_of_candidate hbelow hk he' hback.2 hce' hde'
  exact hdistinct (h.alike_of_same hs (hknown c hc) (hknown c' hc') hcd hcd')

/-- **What serves for a union** has members that serve for the same, as many on either side. -/
theorem matches_members (hxz : s.Serves plan σ x z) (hyz : s.Serves plan σ y z)
    (hk : s.kind z = .union ms) :
    Matches (fun a b => ∃ m ∈ ms, s.Serves plan σ a m ∧ s.Serves plan σ b m)
      (σ.store.members x) (σ.store.members y) := by
  have hforms : ∀ {x}, s.Serves plan σ x z →
      Corresponds (s.Serves plan σ) (σ.store.members x) ms := by
    intro x hxz
    have hform := (h.rewriting hs).forms x z hxz
    rwa [hk] at hform
  -- what passes for all members of the union has itself as its only member
  have hapart : ∀ {x bs}, s.Serves plan σ x z →
      ApartIn (fun a b => ∃ m ∈ ms, s.Serves plan σ a m ∧ s.Serves plan σ b m)
        (σ.store.members x) bs := by
    intro x bs hxz
    rcases h.union_or_single hs hxz hk with ⟨hpasses, ⟨as, hform⟩, -⟩ | ⟨-, hsingle⟩
    · rw [members, hform]
      exact h.apart_members hs hbelow hpasses hk hform bs
    · rw [hsingle]
      exact List.pairwise_singleton _ _
  refine (hforms hxz).matches (hforms hyz) (hapart hxz) ((hapart hyz).anti ?_)
  rintro a - b - ⟨m, hm, hbm, ham⟩
  exact ⟨m, hm, hbm, ham⟩

/-- Sets of candidates that serve for the same are alike. -/
theorem matches_candidates (hxz : plan.Passes σ x z) (hyz : plan.Passes σ y z)
    (hk : s.kind z = .function (.possibilities p)) :
    ∃ q r, σ.store.kind x = .function (.possibilities q) ∧
      σ.store.kind y = .function (.possibilities r) ∧
        Matches (fun c d => ∃ e ∈ p.candidates, c.Alike (s.Serves plan σ) e ∧
          d.Alike (s.Serves plan σ) e) q.candidates r.candidates := by
  have hforms := (h.rewriting hs).forms
  obtain ⟨q, hq, hqp⟩ : σ.store.RewriteOf plan.form (s.Serves plan σ) x
    (.function (.possibilities p)) := hk ▸ hforms x z (.inl hxz)
  obtain ⟨r, hr, hrp⟩ : σ.store.RewriteOf plan.form (s.Serves plan σ) y
    (.function (.possibilities p)) := hk ▸ hforms y z (.inl hyz)
  have hapart := h.apart_candidates hs hbelow hyz hk hr q.candidates
  refine ⟨q, r, hq, hr, hqp.matches hrp (h.apart_candidates hs hbelow hxz hk hq _) ?_⟩
  refine hapart.anti ?_
  rintro d - c - ⟨e, he, hde, hce⟩
  exact ⟨e, he, hde, hce⟩

end

/-- **Nodes that pass for a scalar** have alike forms. -/
theorem alike_of_scalar {R : NodeId → NodeId → Prop} {value : Slot} {ty : Ty}
    (hxz : plan.Passes σ x z) (hyz : plan.Passes σ y z) (hk : s.kind z = .scalar value ty) :
    (σ.store.kind x).Alike R (σ.store.kind y) := by
  have hslot := h.admits_form hs (h.within_of_serves (.inl hxz)) hk
  have hforms : ∀ {x}, plan.Passes σ x z → (∃ w u, σ.store.kind x = .scalar w u) ∧
      (σ.store.kind x).Alike (· = ·)
        (.scalar (plan.form value ty).1 (plan.form value ty).2) := by
    intro x hxz
    have hform := (h.rewriting hs).forms x z (.inl hxz)
    have hshape := h.shape_of_passes hxz (h.finished_of_serves hs (.inl hxz)).complete
    rw [hk] at hform hshape
    exact ⟨Kind.exists_scalar_of_shape hshape, hform⟩
  obtain ⟨⟨w, u, hx⟩, halike⟩ := hforms hxz
  obtain ⟨⟨w', u', hy⟩, halike'⟩ := hforms hyz
  have hapart := h.reachable.sound.apart (n := y) hslot fun ms hms => nomatch hy.symm.trans hms
  have hflip := (halike'.flip hapart).imp fun _ _ _ _ => Eq.symm
  refine (halike.comp (sets_coherent hslot x) (sets_coherent hslot y).symm (fun _ _ => rfl)
    (fun _ _ => rfl) hflip).imp fun a ha => ?_
  rw [h.reachable.children_of_scalar hx] at ha
  exact absurd ha List.not_mem_nil

section

variable (hbelow : ∀ m, s.Leads z m → ¬ s.Leads m z → s.Agrees plan σ m)

include hbelow

/-- **Nodes that pass for a node** have alike forms. -/
theorem alike_of_passes (hxz : plan.Passes σ x z) (hyz : plan.Passes σ y z)
    (hflat : (s.kind z).isUnion = false) :
    (σ.store.kind x).Alike
      (fun a b => ∃ m ∈ (s.kind z).children, s.Serves plan σ a m ∧ s.Serves plan σ b m)
      (σ.store.kind y) := by
  have hlabelled := h.reachable.sound.labelled y
  have hjoin : ∀ {k : Kind}, s.kind z = k → (∀ p, k.slot? ≠ some (.possibilities p)) →
      (σ.store.kind x).Alike (s.Serves plan σ) k → (σ.store.kind y).Alike (s.Serves plan σ) k →
        (σ.store.kind x).Alike
          (fun a b => ∃ m ∈ (s.kind z).children, s.Serves plan σ a m ∧ s.Serves plan σ b m)
          (σ.store.kind y) := by
    rintro k rfl hslots hx hy
    exact hx.join hy ⟨hflat, hslots⟩ hlabelled
  have hx := (h.rewriting hs).forms x z (.inl hxz)
  have hy := (h.rewriting hs).forms y z (.inl hyz)
  rcases hk : s.kind z with ⟨value, ty⟩ | items | item | ⟨item, shape⟩ | ⟨tag, fields⟩ | ms |
    options | options | inner | reason | ty
  all_goals rw [hk] at hx hy
  case scalar => exact h.alike_of_scalar hs hxz hyz hk
  case union =>
    rw [hk] at hflat
    exact nomatch hflat
  case function =>
    by_cases hset : ∃ p, options = .possibilities p
    · obtain ⟨p, rfl⟩ := hset
      obtain ⟨q, r, hq, hr, hmatches⟩ := h.matches_candidates hs hbelow hxz hyz hk
      rw [hq, hr]
      refine .inr (hmatches.imp fun c _ d _ ⟨e, he, hce, hde⟩ => ?_)
      refine (hce.join hde).imp fun a _ b _ ⟨n, hn, han, hbn⟩ => ⟨n, ?_, han, hbn⟩
      exact List.mem_flatMap_of_mem he hn
    · have hoptions : ∀ p, (Kind.function options).slot? ≠ some (.possibilities p) := fun p hp =>
        hset ⟨p, Option.some.inj hp⟩
      cases options with
      | possibilities p => exact absurd rfl (hoptions p)
      | _ => exact hk ▸ hjoin hk hoptions hx hy
  all_goals exact hk ▸ hjoin hk (fun _ hslot => nomatch hslot) hx hy

/-- **Nodes that serve for a node** have alike forms, over nodes that serve for the same. -/
theorem alike_of_serves (hxz : s.Serves plan σ x z) (hyz : s.Serves plan σ y z) :
    (σ.store.kind x).Alike
      (fun a b => ∃ m, s.Leads z m ∧ s.Serves plan σ a m ∧ s.Serves plan σ b m)
      (σ.store.kind y) := by
  rcases (s.kind z).isUnion_cases.symm with hflat | ⟨ms, hk⟩
  · refine (h.alike_of_passes hs hbelow (hxz.passes hflat) (hyz.passes hflat) hflat).imp ?_
    rintro a - b - ⟨m, hm, ham, hbm⟩
    exact ⟨m, leads_child hm, ham, hbm⟩
  have hmatches := h.matches_members hs hbelow hxz hyz hk
  rcases h.union_or_single hs hxz hk with ⟨-, ⟨as, hform⟩, hmany⟩ | ⟨hx, hsingle⟩
  · rcases h.union_or_single hs hyz hk with ⟨-, ⟨bs, hform'⟩, -⟩ | ⟨-, hsingle'⟩
    · rw [members, members, hform, hform'] at hmatches
      rw [hform, hform']
      refine hmatches.imp ?_
      rintro a - b - ⟨m, hm, ham, hbm⟩
      refine ⟨m, leads_child ?_, ham, hbm⟩
      rwa [hk]
    · rw [hsingle'] at hmatches
      exact absurd hmatches.1 (Nat.ne_of_gt hmany)
  rcases h.union_or_single hs hyz hk with ⟨-, -, hmany⟩ | ⟨hy, -⟩
  · rw [hsingle] at hmatches
    exact absurd hmatches.1.symm (Nat.ne_of_gt hmany)
  -- both pass for all members, as for one of them
  obtain ⟨m, hm⟩ := hs.reachable.exists_member hk
  have hflat' := hs.flat (h.within_of_serves hxz) hk m hm
  have hzm : s.Leads z m := leads_child (by rwa [hk])
  have hbelow' : ∀ n, s.Leads m n → ¬ s.Leads n m → s.Agrees plan σ n := fun n hn hback =>
    hbelow n (hzm.trans hn) fun hnz => hback (hnz.trans hzm)
  refine (h.alike_of_passes hs hbelow' (hx m hm) (hy m hm) hflat').imp ?_
  rintro a - b - ⟨n, hn, han, hbn⟩
  exact ⟨n, hzm.trans (leads_child hn), han, hbn⟩

end

/-- On finished nodes of the walk, a relation between nodes with alike forms is a bisimulation:
where the forms end, the short cuts of equality follow them. -/
theorem bisimulation_of_alike {R : NodeId → NodeId → Prop}
    (hknown : ∀ a b, R a b → plan.Known σ a ∧ σ.store.Finished a ∧ σ.store.Finished b)
    (halike : ∀ a b, R a b → (σ.store.kind a).Alike R (σ.store.kind b)) :
    σ.store.Bisimulation R := by
  have hfounded : ∀ a, σ.store.Founded a → ∀ b, R a b → σ.store.EqualIn a b := by
    intro a ha
    refine ha.induct (motive := fun a => ∀ b, R a b → σ.store.EqualIn a b)
      fun a ha ih b hab => ?_
    obtain ⟨hmine, hleft, hright⟩ := hknown a b hab
    have hbalanced : σ.store.BalancedBelow a := fun n hn _ =>
      h.balanced hs (h.known_leads hs hmine hn) (hleft.leads hn)
    refine (h.discernible hs hmine hleft).equalIn_of_founded h.reachable.sound
      (h.reachable.formed _) hbalanced ha
      hright.present ((halike a b hab).imp ?_)
    exact fun c hc d _ hcd => ih c hc d hcd
  intro a b hab
  by_cases ha : σ.store.Founded a
  · refine (bisimulation_equals h.reachable.sound a b (hfounded a ha b hab)).imp id ?_
    exact fun hequal => ⟨hequal.1, halike a b hab⟩
  · exact .inr ⟨mayEqual_of_endless h.reachable ha b, halike a b hab⟩

/-- **Nodes that serve for one node** are equal. -/
theorem same_of_serves (hxz : s.Serves plan σ x z) (hyz : s.Serves plan σ y z) :
    σ.store.SameValue x y := by
  -- induction on how many nodes `z` leads to: only those below its own cycle come first
  induction hcard : {n | s.Leads z n}.ncard using Nat.strong_induction_on generalizing x y z with
  | _ card ih =>
    have hz := h.within_of_serves hxz
    have hfinite : {n | s.Leads z n}.Finite := (Set.finite_Iio s.nodes.size).subset fun n hn =>
      present_of_leads hs.reachable.sound (hs.finished hz).present hn
    have hbelow : ∀ m, s.Leads z m → ∀ n, s.Leads m n → ¬ s.Leads n m → s.Agrees plan σ n := by
      intro m hm n hn hback a b ha hb
      have hpresent := (hs.finished (hs.leads hz hm)).present
      have hless := ncard_leads_lt hs.reachable.sound hpresent hn hback
      have hle : {n | s.Leads m n}.ncard ≤ {n | s.Leads z n}.ncard :=
        Set.ncard_le_ncard (fun l hl => hm.trans hl) hfinite
      exact ih _ (hcard ▸ Nat.lt_of_lt_of_le hless hle) ha hb rfl
    let R : NodeId → NodeId → Prop := fun a b =>
      ∃ m, s.Leads z m ∧ s.Serves plan σ a m ∧ s.Serves plan σ b m
    have hR : σ.store.Bisimulation R := by
      refine h.bisimulation_of_alike hs (fun a b ⟨m, _, ha, hb⟩ => ?_) fun a b ⟨m, hm, ha, hb⟩ => ?_
      · exact ⟨ha.known hs.reachable, h.finished_of_serves hs ha, h.finished_of_serves hs hb⟩
      · refine (h.alike_of_serves hs (hbelow m hm) ha hb).imp ?_
        exact fun c _ d _ ⟨n, hn, hc, hd⟩ => ⟨n, hm.trans hn, hc, hd⟩
    have hx := h.finished_of_serves hs hxz
    have hy := h.finished_of_serves hs hyz
    exact ⟨hx, hy, hx.present, hy.present,
      equal_of_bisimulation h.reachable.sound hR hx.present hy.present ⟨z, .refl, hxz, hyz⟩⟩

end

end Drafting

end Store

end ValueInference
