/-
What holds in the middle of a walk that rewrites scalars.

Such a walk over a store `s` makes *drafts* of the nodes of `s`: nodes with rewritten forms, or
placeholders for nodes that the walk is inside of.  A node *serves* for another one if it is a
draft of it, or a finished node that equals a finished draft, or if the other is a union and it
serves for all members of it.  The walk answers a visit with a node that serves.  It has no such
answer for a node that it is to refuse, or for one that leads to such a node.

* **`Plan`** — what a walk is to rewrite and to refuse;
* **`Store.Serves`** — the node can take the place of the rewritten one;
* **`Store.Drafted`** — a draft that has its form;
* **`Store.Drafting`** — the invariant of a walk;
* **`Store.Drafting.finished_of_free`** — what serves for a node that does not lead back into the
  walk is finished;
* **`Store.Drafting.balanced`** — equality of finished nodes of the walk can be turned round and
  composed;
* **`Store.Drafting.of_grows`**, **`Store.Drafting.enter`**, **`Store.Drafting.expect`**,
  **`Store.Drafting.finish`** — steps of a walk keep the invariant.
-/
import ValueInference.Proofs.Copies
import ValueInference.Proofs.Rewriting

namespace ValueInference

/-- The second scene is a later one: more nodes are drafted, and no form is lost. -/
structure Scene.Extends (σ τ : Scene) : Prop where
  more : ∀ x y, σ.mirrors x y → τ.mirrors x y
  keeps : σ.store.Keeps τ.store

theorem Scene.Extends.refl (σ : Scene) : σ.Extends σ := ⟨fun _ _ => id, .refl _⟩

theorem Scene.Extends.trans {σ τ υ : Scene} (h : σ.Extends τ) (h' : τ.Extends υ) : σ.Extends υ :=
  ⟨fun x y hxy => h'.more x y (h.more x y hxy), h.keeps.trans h'.keeps⟩

instance : Std.Refl Scene.Extends := ⟨Scene.Extends.refl⟩

instance : IsTrans Scene Scene.Extends := ⟨fun _ _ _ => Scene.Extends.trans⟩

/-- What is asked of a node is asked of what it equals, where both are finished. -/
def Scene.Passed (σ : Scene) (F : NodeId → Prop) : Prop :=
  ∀ z x, F x → σ.store.SameValue z x → F z

theorem Scene.passed_finished (σ : Scene) : σ.Passed σ.store.Finished :=
  fun _ _ _ hsame => hsame.left

theorem Scene.passed_true (σ : Scene) : σ.Passed fun _ => True := fun _ _ _ _ => trivial

/-- What a walk is to do: the nodes of the values that it rewrites, those that it refuses, and the
form that a scalar gets. -/
structure Plan where
  within : NodeId → Prop
  refused : NodeId → Prop
  form : Slot → Ty → Slot × Ty

namespace Plan

variable {plan : Plan} {σ τ : Scene} {x y : NodeId}

/-- A node of the values, or a draft. -/
def Known (plan : Plan) (σ : Scene) (x : NodeId) : Prop :=
  plan.within x ∨ ∃ y, σ.mirrors x y

/-- A draft of the node, or a finished node that equals a finished draft of it. -/
def Passes (plan : Plan) (σ : Scene) (x y : NodeId) : Prop :=
  plan.Known σ x ∧ ∃ z, σ.mirrors z y ∧ (x = z ∨ σ.store.SameValue z x)

theorem Known.later (h : plan.Known σ x) (hext : σ.Extends τ) : plan.Known τ x :=
  h.imp id fun ⟨y, hxy⟩ => ⟨y, hext.more x y hxy⟩

theorem Passes.later (h : plan.Passes σ x y) (hext : σ.Extends τ) (hσ : σ.store.Sound)
    (hτ : τ.store.Sound) : plan.Passes τ x y := by
  obtain ⟨hknown, z, hzy, hz⟩ := h
  exact ⟨hknown.later hext, z, hext.more z y hzy, hz.imp id (hext.keeps.sameValue hσ hτ)⟩

end Plan

namespace Store

variable {s t : Store} {x x' y z m n c : NodeId} {plan : Plan} {stack : List NodeId}
  {σ τ : Scene}

/-! ### Drafts -/

/-- The node can take the place of the rewritten one; it takes that of a union if the union has
no other members. -/
def Serves (s : Store) (plan : Plan) (σ : Scene) (x y : NodeId) : Prop :=
  plan.Passes σ x y ∨
    plan.within y ∧ ¬ plan.refused y ∧
      ∃ ms, s.kind y = .union ms ∧ ∀ m ∈ ms, plan.Passes σ x m

/-- The second node is finished and does not lead to the first one. -/
def FinishedBelow (s : Store) (x n : NodeId) : Prop := s.Finished n ∧ ¬ s.Leads n x

/-- The node passes for one that is below the second one and does not lead back to it. -/
def Aside (s : Store) (plan : Plan) (σ : Scene) (y m : NodeId) : Prop :=
  ∃ c ∈ (s.kind y).children, plan.Passes σ m c ∧ ¬ s.Leads c y

/-- The candidate is over nodes that serve for those in a candidate of the node, and none of these
leads back to it. -/
def CandidateAside (s : Store) (plan : Plan) (σ : Scene) (y : NodeId) (c : Candidate) : Prop :=
  ∃ p, s.kind y = .function (.possibilities p) ∧
    ∃ e ∈ p.candidates, c.Alike (s.Serves plan σ) e ∧ ∀ n ∈ e.children, ¬ s.Leads n y

/-- The nodes pass for nodes below `y` that shapes tell apart. -/
def Parted (s : Store) (plan : Plan) (σ : Scene) (y m n : NodeId) : Prop :=
  ∃ c ∈ (s.kind y).children, ∃ d ∈ (s.kind y).children,
    plan.Passes σ m c ∧ plan.Passes σ n d ∧ s.ShapesApart y c d

/-- The candidates are over nodes that serve for those in candidates of the node that shapes tell
apart. -/
def CandidatesParted (s : Store) (plan : Plan) (σ : Scene) (y : NodeId) (c d : Candidate) : Prop :=
  ∃ p, s.kind y = .function (.possibilities p) ∧ ∃ a ∈ p.candidates, ∃ b ∈ p.candidates,
    c.Alike (s.Serves plan σ) a ∧ d.Alike (s.Serves plan σ) b ∧ s.CandidateShapesApart y a b

/-- Two members of a draft `x` of `y` are different, whatever the placeholders in them will be. -/
def KeptApart (s : Store) (plan : Plan) (σ : Scene) (x y m n : NodeId) : Prop :=
  s.Parted plan σ y m n ∨
    (s.Aside plan σ y m ∧ s.Aside plan σ y n) ∧
      (σ.store.FinishedBelow x m ∧ σ.store.FinishedBelow x n) ∧
        σ.store.equal m n = false ∧ σ.store.equal n m = false

/-- Two candidates of a draft `x` of `y` are different, whatever the placeholders in them will
be. -/
def CandidatesKeptApart (s : Store) (plan : Plan) (σ : Scene) (x y : NodeId) (c d : Candidate) :
    Prop :=
  s.CandidatesParted plan σ y c d ∨
    (s.CandidateAside plan σ y c ∧ s.CandidateAside plan σ y d) ∧
      (∀ n ∈ c.children ++ d.children, σ.store.FinishedBelow x n) ∧
        σ.store.equalCandidates c d = false ∧ σ.store.equalCandidates d c = false

theorem Parted.symm (h : s.Parted plan σ y m n) : s.Parted plan σ y n m := by
  obtain ⟨c, hc, d, hd, hmc, hnd, hshapes⟩ := h
  exact ⟨d, hd, c, hc, hnd, hmc, .symm hshapes⟩

theorem CandidatesParted.symm {c d : Candidate} (h : s.CandidatesParted plan σ y c d) :
    s.CandidatesParted plan σ y d c := by
  obtain ⟨p, hk, a, ha, b, hb, hca, hdb, hshapes⟩ := h
  exact ⟨p, hk, b, hb, a, ha, hdb, hca, hshapes.symm⟩

theorem KeptApart.symm (h : s.KeptApart plan σ x y m n) : s.KeptApart plan σ x y n m := by
  rcases h with hparted | ⟨haside, hbelow, hmn, hnm⟩
  · exact .inl hparted.symm
  · exact .inr ⟨haside.symm, hbelow.symm, hnm, hmn⟩

theorem CandidatesKeptApart.symm {c d : Candidate} (h : s.CandidatesKeptApart plan σ x y c d) :
    s.CandidatesKeptApart plan σ x y d c := by
  rcases h with hparted | ⟨haside, hbelow, hcd, hdc⟩
  · exact .inl hparted.symm
  · refine .inr ⟨haside.symm, fun n hn => hbelow n ?_, hdc, hcd⟩
    exact List.mem_append.mpr (List.mem_append.mp hn).symm

/-- A draft that has the rewritten form of its node, over nodes that serve for those below. -/
structure Drafted (s : Store) (plan : Plan) (σ : Scene) (x y : NodeId) : Prop where
  complete : σ.store.isComplete x = true
  shape : (σ.store.kind x).shape = (s.kind y).shape
  rewrite : σ.store.RewriteOf plan.form (s.Serves plan σ) x (s.kind y)
  members : ∀ ms, σ.store.kind x = .union ms → ms.Pairwise (s.KeptApart plan σ x y)
  candidates : ∀ p, σ.store.kind x = .function (.possibilities p) →
    p.candidates.Pairwise (s.CandidatesKeptApart plan σ x y)

/-- A draft without a form is the placeholder of a node that the walk is inside of. -/
def Awaits (σ : Scene) (x y : NodeId) : Prop :=
  σ.store.isComplete x = false ∧ σ.memo.inProgress.lookup y = some (some x)

/-- What a walk over a store starts with. -/
structure Subject (s : Store) (plan : Plan) : Prop where
  reachable : s.Reachable
  closed : ∀ n, plan.within n → ∀ c ∈ (s.kind n).children, plan.within c
  filled : ∀ n, plan.within n → s.Filled n
  rewritable : ∀ n, plan.within n → s.Rewritable n
  fits : ∀ n value ty, plan.within n → s.kind n = .scalar value ty →
    s.fault? (.scalar (plan.form value ty).1 (plan.form value ty).2) = none
  sets : ∀ n value ty p, plan.within n → s.kind n = .scalar value ty →
    (plan.form value ty).1 = .possibilities p → s.HoldsSet p

/-- The invariant of a walk that is inside of the nodes on the stack. -/
structure Drafting (s : Store) (plan : Plan) (stack : List NodeId) (σ : Scene) : Prop where
  reachable : σ.store.Reachable
  grows : s.Grows σ.store
  plain : σ.store.InternsPlain
  inside : σ.memo.inside = stack
  drafts : ∀ x y, σ.mirrors x y →
    plan.within y ∧ x < σ.store.nodes.size ∧ (s.Drafted plan σ x y ∨ Awaits σ x y)
  /-- Nodes that the walk refuses have no drafts but placeholders. -/
  kept : ∀ x y, σ.mirrors x y → σ.store.isComplete x = true → ¬ plan.refused y
  results : ∀ n out, σ.memo.done.lookup n = some out → s.Serves plan σ out n
  expected : ∀ n ph, σ.memo.inProgress.lookup n = some (some ph) → s.StandsFor σ ph n
  distinct : ∀ m n ph, σ.memo.inProgress.lookup m = some (some ph) →
    σ.memo.inProgress.lookup n = some (some ph) → m = n

namespace Subject

variable (h : s.Subject plan)

include h

theorem leads (hx : plan.within x) (hy : s.Leads x y) : plan.within y := by
  induction hy with
  | refl => exact hx
  | tail _ hc ih => exact h.closed _ ih _ hc

theorem finished (hx : plan.within x) : s.Finished x := (h.filled x hx).finished

theorem flat {ms : List NodeId} (hx : plan.within x) (hk : s.kind x = .union ms) :
    ∀ m ∈ ms, (s.kind m).isUnion = false :=
  (h.rewritable x hx).flat x ms .refl hk

theorem members {ms : List NodeId} (hx : plan.within x) (hk : s.kind x = .union ms) :
    ms.Pairwise (s.ShownApart x) :=
  (h.rewritable x hx).members x ms .refl hk

theorem candidates {p : Possibilities} (hx : plan.within x)
    (hk : s.kind x = .function (.possibilities p)) :
    p.candidates.Pairwise (s.CandidatesShownApart x) :=
  (h.rewritable x hx).candidates x p .refl hk

end Subject

/-! ### Later scenes -/

section

variable (hext : σ.Extends τ) (hσ : σ.store.Sound) (hτ : τ.store.Sound)

include hext hσ hτ

theorem Serves.later (h : s.Serves plan σ x y) : s.Serves plan τ x y := by
  refine h.imp (fun hpass => hpass.later hext hσ hτ) fun ⟨hy, hkept, ms, hk, hms⟩ => ?_
  exact ⟨hy, hkept, ms, hk, fun m hm => (hms m hm).later hext hσ hτ⟩

theorem Aside.later (h : s.Aside plan σ y m) : s.Aside plan τ y m := by
  obtain ⟨c, hc, hmc, hback⟩ := h
  exact ⟨c, hc, hmc.later hext hσ hτ, hback⟩

theorem CandidateAside.later {c : Candidate} (h : s.CandidateAside plan σ y c) :
    s.CandidateAside plan τ y c := by
  obtain ⟨p, hk, e, he, halike, hback⟩ := h
  exact ⟨p, hk, e, he, halike.imp fun _ _ _ _ hab => hab.later hext hσ hτ, hback⟩

theorem Parted.later (h : s.Parted plan σ y m n) : s.Parted plan τ y m n := by
  obtain ⟨c, hc, d, hd, hmc, hnd, hshapes⟩ := h
  exact ⟨c, hc, d, hd, hmc.later hext hσ hτ, hnd.later hext hσ hτ, hshapes⟩

theorem CandidatesParted.later {c d : Candidate} (h : s.CandidatesParted plan σ y c d) :
    s.CandidatesParted plan τ y c d := by
  obtain ⟨p, hk, a, ha, b, hb, hca, hdb, hshapes⟩ := h
  exact ⟨p, hk, a, ha, b, hb, hca.imp fun _ _ _ _ hserves => hserves.later hext hσ hτ,
    hdb.imp fun _ _ _ _ hserves => hserves.later hext hσ hτ, hshapes⟩

omit hσ hτ in
/-- A finished node leads to no node that was a placeholder. -/
theorem FinishedBelow.later (hx : x' = x ∨ σ.store.isComplete x' = false)
    (h : σ.store.FinishedBelow x n) : τ.store.FinishedBelow x' n := by
  refine ⟨hext.keeps.finished h.1, fun hlead => ?_⟩
  rw [hext.keeps.leads_iff h.1] at hlead
  rcases hx with rfl | hblank
  · exact h.2 hlead
  · exact h.1.not_leads hblank hlead

theorem KeptApart.later (hx : x' = x ∨ σ.store.isComplete x' = false)
    (h : s.KeptApart plan σ x y m n) : s.KeptApart plan τ x' y m n := by
  rcases h with hparted | ⟨haside, ⟨hm, hn⟩, hmn, hnm⟩
  · exact .inl (hparted.later hext hσ hτ)
  · refine .inr ⟨⟨haside.1.later hext hσ hτ, haside.2.later hext hσ hτ⟩,
      ⟨hm.later hext hx, hn.later hext hx⟩, ?_, ?_⟩
    · rw [hext.keeps.equal_eq hσ hτ hm.1 hn.1, hmn]
    · rw [hext.keeps.equal_eq hσ hτ hn.1 hm.1, hnm]

theorem CandidatesKeptApart.later {c d : Candidate}
    (hx : x' = x ∨ σ.store.isComplete x' = false) (h : s.CandidatesKeptApart plan σ x y c d) :
    s.CandidatesKeptApart plan τ x' y c d := by
  rcases h with hparted | ⟨haside, hbelow, hcd, hdc⟩
  · exact .inl (hparted.later hext hσ hτ)
  have hc : ∀ n ∈ c.children, σ.store.Finished n := fun n hn =>
    (hbelow n (List.mem_append_left _ hn)).1
  have hd : ∀ n ∈ d.children, σ.store.Finished n := fun n hn =>
    (hbelow n (List.mem_append_right _ hn)).1
  refine .inr ⟨⟨haside.1.later hext hσ hτ, haside.2.later hext hσ hτ⟩,
    fun n hn => (hbelow n hn).later hext hx, ?_, ?_⟩
  · rw [hext.keeps.equalCandidates_eq hσ hτ hc hd, hcd]
  · rw [hext.keeps.equalCandidates_eq hσ hτ hd hc, hdc]

/-- **A draft stays one**, and its form may go over to a placeholder. -/
theorem Drafted.later (h : s.Drafted plan σ x y) (hx : x' = x ∨ σ.store.isComplete x' = false)
    (hcomplete : τ.store.isComplete x' = true) (hk : τ.store.kind x' = σ.store.kind x) :
    s.Drafted plan τ x' y where
  complete := hcomplete
  shape := by rw [hk, h.shape]
  rewrite := (h.rewrite.of_kind_eq h.shape hk).imp (by rw [hk, h.shape])
    fun _ _ _ hab => hab.later hext hσ hτ
  members ms hms := by
    rw [hk] at hms
    exact (h.members ms hms).imp fun hmn => hmn.later hext hσ hτ hx
  candidates p hp := by
    rw [hk] at hp
    exact (h.candidates p hp).imp fun hcd => hcd.later hext hσ hτ hx

end

/-! ### What serves -/

/-- A node with something below it has a form. -/
theorem isComplete_of_child (hc : c ∈ (s.kind n).children) : s.isComplete n = true := by
  by_contra hblank
  rw [kind_of_incomplete (Bool.eq_false_iff.mpr hblank)] at hc
  exact absurd hc List.not_mem_nil

/-- What serves for a node passes for something that the node leads to. -/
theorem Serves.exists_passes (hs : s.Reachable) (h : s.Serves plan σ x y) :
    ∃ z, s.Leads y z ∧ plan.Passes σ x z := by
  rcases h with hpass | ⟨-, -, ms, hk, hms⟩
  · exact ⟨y, .refl, hpass⟩
  · obtain ⟨m, hm⟩ := hs.exists_member hk
    refine ⟨m, leads_child ?_, hms m hm⟩
    rwa [hk]

theorem Serves.known (hs : s.Reachable) (h : s.Serves plan σ x y) : plan.Known σ x := by
  obtain ⟨z, -, hpass⟩ := h.exists_passes hs
  exact hpass.1

/-- A node that is no union is served for by what passes for it. -/
theorem Serves.passes (h : s.Serves plan σ x y) (hflat : (s.kind y).isUnion = false) :
    plan.Passes σ x y := by
  refine h.resolve_right ?_
  rintro ⟨-, -, ms, hk, -⟩
  rw [hk] at hflat
  exact nomatch hflat

/-- What serves for a node shows it, by the draft that it is or equals. -/
theorem Serves.shown {F : NodeId → Prop} (hF : σ.Passed F) (h : s.Serves plan σ x y) (hx : F x) :
    s.Shown σ.store (fun x y => σ.mirrors x y ∧ F x) x y := by
  intro hflat
  obtain ⟨-, z, hzy, rfl | hsame⟩ := h.passes hflat
  · exact ⟨x, .refl x, hzy, hx⟩
  · exact ⟨z, .symm z x (.rel z x hsame.equal), hzy, hF z x hx hsame⟩

namespace Drafting

variable (hs : s.Subject plan) (h : s.Drafting plan stack σ)

include hs h

theorem kind_eq (hx : plan.within x) : σ.store.kind x = s.kind x :=
  h.grows.kind_eq (hs.finished hx).present

omit hs in
/-- What is below a draft serves for something below its node. -/
theorem exists_below (hxy : σ.mirrors x y) (hc : c ∈ (σ.store.kind x).children) :
    ∃ d ∈ (s.kind y).children, s.Serves plan σ c d := by
  obtain ⟨-, -, hdraft | hawaits⟩ := h.drafts x y hxy
  · exact hdraft.rewrite.exists_child hdraft.shape (h.reachable.formed x) c hc
  · have hcomplete := isComplete_of_child hc
    rw [hawaits.1] at hcomplete
    exact nomatch hcomplete

/-- What a known node leads to is known. -/
theorem known_leads (hx : plan.Known σ x) (hlead : σ.store.Leads x y) : plan.Known σ y := by
  induction hlead with
  | refl => exact hx
  | tail _ hc ih =>
    rcases ih with hvalue | ⟨z, hxz⟩
    · rw [h.kind_eq hs hvalue] at hc
      exact .inl (hs.closed _ hvalue _ hc)
    · obtain ⟨d, -, hcd⟩ := h.exists_below hxz hc
      exact hcd.known hs.reachable

/-- What serves for a node is finished if no placeholder is waited for below the node. -/
theorem finished_of_quiet (hxy : s.Serves plan σ x y)
    (hquiet : ∀ w z, Awaits σ w z → ¬ s.Leads y z) : σ.store.Finished x := by
  have hserves : ∀ {n z : NodeId}, s.Leads y z → s.Serves plan σ n z →
      σ.store.Finished n ∨ ∃ z, s.Leads y z ∧ σ.mirrors n z := by
    intro n z hz hnz
    obtain ⟨z', hzz', -, w, hwz', rfl | hsame⟩ := hnz.exists_passes hs.reachable
    · exact .inr ⟨z', hz.trans hzz', hwz'⟩
    · exact .inl hsame.right
  -- the way down from `x` is one of drafts, as long as it is not finished
  have hway : ∀ {n}, σ.store.Leads x n →
      σ.store.Finished n ∨ ∃ z, s.Leads y z ∧ σ.mirrors n z := by
    intro n hn
    induction hn with
    | refl => exact hserves .refl hxy
    | tail _ hc ih =>
      rcases ih with hfinished | ⟨z, hz, hnz⟩
      · exact .inl (hfinished.child hc)
      · obtain ⟨d, hd, hcd⟩ := h.exists_below hnz hc
        exact hserves (hz.tail hd) hcd
  intro n hn
  rcases hway hn with hfinished | ⟨z, hz, hnz⟩
  · exact hfinished.complete
  · obtain ⟨-, -, hdraft | hawaits⟩ := h.drafts n z hnz
    · exact hdraft.complete
    · exact absurd hz (hquiet n z hawaits)

/-- **What serves for a node that does not lead back into the walk** is finished. -/
theorem finished_of_free (hxy : s.Serves plan σ x y) (hfree : ∀ m ∈ stack, ¬ s.Leads y m) :
    σ.store.Finished x :=
  h.finished_of_quiet hs hxy fun _ z hawaits =>
    hfree z (h.inside ▸ mem_keys_of_lookup hawaits.2)

omit hs in
/-- What passes for a node has its shape, or has no form yet. -/
theorem shape_of_passes (hxy : plan.Passes σ x y) (hx : σ.store.isComplete x = true) :
    (σ.store.kind x).shape = (s.kind y).shape := by
  have hdraft : ∀ {z : NodeId}, σ.mirrors z y → σ.store.isComplete z = true →
      (σ.store.kind z).shape = (s.kind y).shape := by
    intro z hzy hz
    obtain ⟨-, -, hdraft | hawaits⟩ := h.drafts z y hzy
    · exact hdraft.shape
    · rw [hawaits.1] at hz
      exact nomatch hz
  obtain ⟨-, z, hzy, rfl | hsame⟩ := hxy
  · exact hdraft hzy hx
  · rw [← hdraft hzy hsame.left.complete]
    exact (Kind.shape_of_head (head_of_equals hsame.equal.2.2)).symm

/-! ### What drafts show -/

omit hs in
/-- **Drafts portray their nodes**, if of two that the walk is inside of one at most one has its
form; what is asked of drafts is to hold of what they are over. -/
theorem portrays {F : NodeId → Prop} {u : NodeId} (hF : σ.Passed F)
    (hchild : ∀ x a, F x → a ∈ (σ.store.kind x).children → F a)
    (hone : ∀ x y m n, F x → F y → σ.mirrors x m → σ.mirrors y n → s.OneOpen u m n → m ≠ n →
      σ.store.isComplete x = true ∨ σ.store.isComplete y = true) :
    s.Portrays σ.store u fun x y => σ.mirrors x y ∧ F x := by
  have hdraft : ∀ {x y}, σ.mirrors x y → σ.store.isComplete x = true → s.Drafted plan σ x y := by
    intro x y hxy hx
    obtain ⟨-, -, hdraft | hawaits⟩ := h.drafts x y hxy
    · exact hdraft
    · exact absurd hx (Bool.eq_false_iff.mp hawaits.1)
  refine ⟨fun x y hxy hx => (hdraft hxy.1 hx).shape, fun x y hxy hx hrigid => ?_,
    fun x y m n hx hy => hone x y m n hx.2 hy.2 hx.1 hy.1⟩
  exact ((hdraft hxy.1 hx).rewrite.alike_of_rigid hrigid).imp fun a ha b _ hab =>
    hab.shown hF (hchild x a hxy.2 ha)

omit hs in
/-- Finished drafts portray their nodes. -/
theorem portrays_finished (u : NodeId) :
    s.Portrays σ.store u fun x y => σ.mirrors x y ∧ σ.store.Finished x :=
  h.portrays σ.passed_finished (fun _ _ hx ha => hx.child ha)
    fun _ _ _ _ hx _ _ _ _ _ => .inl hx.complete

/-! ### Finished nodes -/

omit hs in
theorem discerned_of_kept (hm : σ.store.Finished m) (hn : σ.store.Finished n)
    (hmn : s.KeptApart plan σ x y m n) : σ.store.Discerned x m n := by
  rcases hmn with ⟨c, -, d, -, hmc, hnd, hshapes⟩ | ⟨-, ⟨hmx, hnx⟩, hdiffer, -⟩
  · refine .inl (no_common_equal ((h.portrays_finished y).not_equated h.reachable.sound hshapes ?_ ?_))
    · exact Serves.shown σ.passed_finished (.inl hmc) hm
    · exact Serves.shown σ.passed_finished (.inl hnd) hn
  · exact .inr ⟨hmx.2, hnx.2, hdiffer⟩

omit hs in
theorem candidates_discerned_of_kept {c d : Candidate} (hc : ∀ n ∈ c.children, σ.store.Finished n)
    (hd : ∀ n ∈ d.children, σ.store.Finished n) (hcd : s.CandidatesKeptApart plan σ x y c d) :
    σ.store.CandidatesDiscerned x c d := by
  rcases hcd with ⟨-, -, a, -, b, -, hca, hdb, hshapes⟩ | ⟨-, hbelow, hdiffer, -⟩
  · refine .inl (no_common_alike ((h.portrays_finished y).not_alike h.reachable.sound hshapes ?_ ?_))
    · exact hca.imp fun m hm _ _ hserves => hserves.shown σ.passed_finished (hc m hm)
    · exact hdb.imp fun m hm _ _ hserves => hserves.shown σ.passed_finished (hd m hm)
  · exact .inr ⟨fun n hn => (hbelow n hn).2, hdiffer⟩

/-- A finished node is a node of the value, or a draft that has its form. -/
theorem drafted_of_finished (hx : plan.Known σ x) (hfinished : σ.store.Finished x) :
    plan.within x ∧ σ.store.kind x = s.kind x ∨ ∃ y, plan.within y ∧ s.Drafted plan σ x y := by
  rcases hx with hvalue | ⟨y, hxy⟩
  · exact .inl ⟨hvalue, h.kind_eq hs hvalue⟩
  · obtain ⟨hy, -, hdraft | hawaits⟩ := h.drafts x y hxy
    · exact .inr ⟨y, hy, hdraft⟩
    · have hcomplete := hfinished.complete
      rw [hawaits.1] at hcomplete
      exact nomatch hcomplete

/-- **Finished nodes of a walk can be discerned.** -/
theorem discernible (hx : plan.Known σ x) (hfinished : σ.store.Finished x) :
    σ.store.Discernible x where
  members u ms hu hk := by
    have hbelow : ∀ m ∈ ms, σ.store.Finished m := fun m hm =>
      (hfinished.leads hu).child (by rwa [hk])
    rcases h.drafted_of_finished hs (h.known_leads hs hx hu) (hfinished.leads hu) with
      ⟨hvalue, hkind⟩ | ⟨y, -, hdraft⟩
    · rw [hkind] at hk
      have hvalues : ∀ m ∈ ms, s.Finished m := fun m hm =>
        (hs.finished hvalue).child (by rwa [hk])
      refine (hs.members hvalue hk).imp_of_mem fun {m n} hm hn hmn => ?_
      exact hmn.discerned h.grows.keeps hs.reachable.sound h.reachable.sound (hvalues m hm)
        (hvalues n hn)
    · exact (hdraft.members ms hk).imp_of_mem fun {m n} hm hn hmn =>
        h.discerned_of_kept (hbelow m hm) (hbelow n hn) hmn
  candidates f p hf hk := by
    rcases h.drafted_of_finished hs (h.known_leads hs hx hf) (hfinished.leads hf) with
      ⟨hvalue, hkind⟩ | ⟨y, -, hdraft⟩
    · rw [hkind] at hk
      have hvalues : ∀ c ∈ p.candidates, ∀ n ∈ c.children, s.Finished n := by
        intro c hc n hn
        refine (hs.finished hvalue).child ?_
        rw [hk]
        exact List.mem_flatMap_of_mem hc hn
      refine (hs.candidates hvalue hk).imp_of_mem fun {c d} hc hd hcd => ?_
      exact hcd.discerned h.grows.keeps hs.reachable.sound h.reachable.sound (hvalues c hc)
        (hvalues d hd)
    · have hbelow : ∀ c ∈ p.candidates, ∀ n ∈ c.children, σ.store.Finished n := by
        intro c hc n hn
        refine (hfinished.leads hf).child ?_
        rw [hk]
        exact List.mem_flatMap_of_mem hc hn
      exact (hdraft.candidates p hk).imp_of_mem fun {c d} hc hd hcd =>
        h.candidates_discerned_of_kept (hbelow c hc) (hbelow d hd) hcd

/-- **Equality of finished nodes of a walk** can be turned round and composed. -/
theorem balanced (hx : plan.Known σ x) (hfinished : σ.store.Finished x) : σ.store.Balanced x :=
  (h.discernible hs hx hfinished).balanced h.reachable hfinished.present

theorem same_symm (hx : plan.Known σ x) (hxy : σ.store.SameValue x y) : σ.store.SameValue y x :=
  ⟨hxy.right, hxy.left, (h.balanced hs hx hxy.left).symm y hxy.equal⟩

theorem passes_of_same (hxy : plan.Passes σ x y) (hxz : σ.store.SameValue x z)
    (hz : plan.Known σ z) : plan.Passes σ z y := by
  obtain ⟨-, w, hwy, rfl | hwx⟩ := hxy
  · exact ⟨hz, x, hwy, .inr hxz⟩
  · have hbalanced := h.balanced hs (.inr ⟨y, hwy⟩) hwx.left
    exact ⟨hz, w, hwy, .inr ⟨hwx.left, hxz.right, hbalanced.trans x z hwx.equal hxz.equal⟩⟩

/-- **What equals a finished node that serves** serves as well. -/
theorem serves_of_same (hxy : s.Serves plan σ x y) (hxz : σ.store.SameValue x z)
    (hz : plan.Known σ z) : s.Serves plan σ z y := by
  refine hxy.imp (fun hpass => h.passes_of_same hs hpass hxz hz) fun ⟨hy, hkept, ms, hk, hms⟩ => ?_
  exact ⟨hy, hkept, ms, hk, fun m hm => h.passes_of_same hs (hms m hm) hxz hz⟩

end Drafting

/-! ### Steps of a walk -/

namespace Drafting

/-- Drafts stay drafts, as far as their placeholders are still waited for or have got a form. -/
theorem drafts_later (h : s.Drafting plan stack σ) (hext : σ.Extends τ) (hτ : τ.store.Sound)
    (hopen : ∀ x y, σ.mirrors x y → Awaits σ x y → s.Drafted plan τ x y ∨ Awaits τ x y) :
    ∀ x y, σ.mirrors x y →
      plan.within y ∧ x < τ.store.nodes.size ∧ (s.Drafted plan τ x y ∨ Awaits τ x y) := by
  intro x y hxy
  obtain ⟨hy, hx, hdraft | hawaits⟩ := h.drafts x y hxy
  · refine ⟨hy, Nat.lt_of_lt_of_le hx hext.keeps.size_le, .inl ?_⟩
    exact hdraft.later hext h.reachable.sound hτ (.inl rfl) (hext.keeps.isComplete hdraft.complete)
      (hext.keeps.kind_eq hdraft.complete)
  · exact ⟨hy, Nat.lt_of_lt_of_le hx hext.keeps.size_le, hopen x y hxy hawaits⟩

/-- **A store that grows** keeps the invariant. -/
theorem of_grows (h : s.Drafting plan stack σ) (hgrows : σ.store.Grows t) (ht : t.Reachable)
    (hplain : t.InternsPlain) : s.Drafting plan stack { σ with store := t } := by
  let τ : Scene := { σ with store := t }
  have hext : σ.Extends τ := ⟨fun _ _ => id, hgrows.keeps⟩
  have hblank : ∀ {x}, x < σ.store.nodes.size → t.isComplete x = σ.store.isComplete x := by
    intro x hx
    rw [isComplete, hgrows.nodes x hx, isComplete]
  refine ⟨ht, h.grows.trans hgrows, hplain, h.inside, ?_, fun x y hxy hx => ?_, fun n out hn => ?_,
    fun n ph hn => ?_, h.distinct⟩
  · refine h.drafts_later hext ht.sound fun x y hxy hawaits => .inr ⟨?_, hawaits.2⟩
    exact (hblank (h.drafts x y hxy).2.1).trans hawaits.1
  · exact h.kept x y hxy ((hblank (h.drafts x y hxy).2.1).symm.trans hx)
  · exact (h.results n out hn).later hext h.reachable.sound ht.sound
  · have hph := h.expected n ph hn
    exact { hph with
      present := Nat.lt_of_lt_of_le hph.present hgrows.size_le
      blank := (hblank hph.present).trans hph.blank }

/-- **Entering a node** keeps the invariant. -/
theorem enter (h : s.Drafting plan stack σ) (hfresh : n ∉ stack) :
    s.Drafting plan (n :: stack) { σ with memo := σ.memo.enter n } := by
  have hinside : n ∉ σ.memo.inside := by rwa [h.inside]
  have hopen : ∀ {m ph : NodeId}, (σ.memo.enter n).inProgress.lookup m = some (some ph) ↔
      σ.memo.inProgress.lookup m = some (some ph) := Memo.lookup_enter_eq_some hinside
  refine ⟨h.reachable, h.grows, h.plain, ?_, ?_, h.kept, h.results, fun m ph hm => ?_,
    fun m m' ph hm hm' => h.distinct m m' ph (hopen.mp hm) (hopen.mp hm')⟩
  · exact (Memo.inside_enter hinside).trans (congrArg (n :: ·) h.inside)
  · exact h.drafts_later ⟨fun _ _ => id, .refl _⟩ h.reachable.sound fun x y _ hawaits =>
      .inr ⟨hawaits.1, hopen.mpr hawaits.2⟩
  · exact { h.expected m ph (hopen.mp hm) with }

/-- **A placeholder is handed out** for a node that the walk is inside of. -/
theorem expect (h : s.Drafting plan stack σ) (hn : plan.within n) (hcycle : s.Below n n)
    (hlookup : σ.memo.inProgress.lookup n = some none) :
    let ph := σ.store.nodes.size
    let τ : Scene := ⟨fun x y => σ.mirrors x y ∨ x = ph ∧ y = n, σ.memo.expect n ph,
      σ.store.placeholder.2⟩
    s.Drafting plan stack τ ∧ σ.Extends τ := by
  intro ph τ
  have hgrows : σ.store.Grows τ.store := by
    refine ⟨fun m hm => ?_, rfl, Nat.le_refl _⟩
    show (σ.store.nodes.push _)[m]? = _
    rw [Array.getElem?_push, if_neg (Nat.ne_of_lt hm)]
  have hsame := σ.store.sameNodes_placeholder
  have hplain : τ.store.InternsPlain := by
    intro m ms hm hk
    rw [hsame.interned] at hm
    rw [hsame.kind] at hk
    exact h.plain m ms hm hk
  have hgoing := h.of_grows hgrows (.step .placeholder h.reachable trivial) hplain
  have hext : σ.Extends τ := ⟨fun _ _ => .inl, hgrows.keeps⟩
  have hsize : ph < τ.store.nodes.size := by simp [placeholder, ph, τ]
  have hblank : τ.store.isComplete ph = false := by
    rw [hsame.complete]
    exact isComplete_of_absent (Nat.le_refl _)
  have hopen : ∀ {m x : NodeId}, τ.memo.inProgress.lookup m = some (some x) ↔
      m = n ∧ x = ph ∨ σ.memo.inProgress.lookup m = some (some x) :=
    Memo.lookup_expect_eq_some hlookup
  -- every other placeholder is older
  have holder : ∀ {m}, σ.memo.inProgress.lookup m ≠ some (some ph) :=
    fun hm => Nat.lt_irrefl _ (h.expected _ ph hm).present
  refine ⟨⟨hgoing.reachable, hgoing.grows, hplain, ?_, ?_, ?_, fun m out hm => ?_,
    fun m x hm => ?_, fun m m' x hm hm' => ?_⟩, hext⟩
  · exact (Memo.inside_expect n ph).trans h.inside
  · rintro x y (hxy | ⟨rfl, rfl⟩)
    · refine h.drafts_later hext hgoing.reachable.sound (fun x y hxy hawaits => .inr ?_) x y hxy
      exact ⟨by rw [hsame.complete, hawaits.1], hopen.mpr (.inr hawaits.2)⟩
    · exact ⟨hn, hsize, .inr ⟨hblank, hopen.mpr (.inl ⟨rfl, rfl⟩)⟩⟩
  · rintro x y (hxy | ⟨rfl, rfl⟩) hx
    · exact hgoing.kept x y hxy hx
    · exact absurd hx (Bool.eq_false_iff.mp hblank)
  · exact (h.results m out hm).later hext h.reachable.sound hgoing.reachable.sound
  · rcases hopen.mp hm with ⟨rfl, rfl⟩ | hm
    · exact ⟨.inr ⟨rfl, rfl⟩, hcycle, h.grows.size_le, hsize, hblank⟩
    · have hx := hgoing.expected m x hm
      exact { hx with mirrors := .inl hx.mirrors }
  · rcases hopen.mp hm with ⟨rfl, rfl⟩ | hm
    · rcases hopen.mp hm' with ⟨rfl, -⟩ | hm'
      · rfl
      · exact absurd hm' holder
    · rcases hopen.mp hm' with ⟨-, rfl⟩ | hm'
      · exact absurd hm holder
      · exact h.distinct m m' x hm hm'

/-- **The end of the work on a node** keeps the invariant: its placeholder has got its form, and
perhaps the node has got a draft. -/
theorem finish {result : NodeId} (h : s.Drafting plan (n :: stack) σ) (hn : n ∉ stack)
    (hext : σ.Extends τ) (hmemo : τ.memo = (σ.memo.leave n).publish n result)
    (hτ : τ.store.Reachable) (hgrows : s.Grows τ.store) (hplain : τ.store.InternsPlain)
    (hkept : ¬ plan.refused n) (hvalue : plan.within n)
    (hnew : ∀ x y, τ.mirrors x y → σ.mirrors x y ∨ y = n ∧ s.Drafted plan τ x y)
    (hfilled : ∀ ph, σ.memo.inProgress.lookup n = some (some ph) → s.Drafted plan τ ph n)
    (hothers : ∀ m ph, m ≠ n → σ.memo.inProgress.lookup m = some (some ph) →
      τ.store.isComplete ph = false)
    (hresult : s.Serves plan τ result n) : s.Drafting plan stack τ := by
  -- no other node loses its placeholder
  have hopen : ∀ {m ph : NodeId}, τ.memo.inProgress.lookup m = some (some ph) ↔
      m ≠ n ∧ σ.memo.inProgress.lookup m = some (some ph) := by
    rw [hmemo]
    exact Memo.lookup_leave_eq_some h.inside hn
  refine ⟨hτ, hgrows, hplain, ?_, fun x y hxy => ?_, fun x y hxy hx => ?_, fun m out hm => ?_,
    fun m ph hm => ?_,
    fun m m' ph hm hm' => h.distinct m m' ph (hopen.mp hm).2 (hopen.mp hm').2⟩
  · rw [hmemo]
    exact Memo.inside_leave h.inside hn
  · rcases hnew x y hxy with hold | ⟨rfl, hdraft⟩
    · refine h.drafts_later hext hτ.sound (fun x y _ hawaits => ?_) x y hold
      by_cases hyn : y = n
      · subst hyn
        exact .inl (hfilled x hawaits.2)
      · exact .inr ⟨hothers y x hyn hawaits.2, hopen.mpr ⟨hyn, hawaits.2⟩⟩
    · exact ⟨hvalue, present_of_isComplete hdraft.complete, .inl hdraft⟩
  · rcases hnew x y hxy with hold | ⟨rfl, -⟩
    · obtain ⟨-, -, hdraft | hawaits⟩ := h.drafts x y hold
      · exact h.kept x y hold hdraft.complete
      · by_cases hyn : y = n
        · exact hyn ▸ hkept
        · rw [hothers y x hyn hawaits.2] at hx
          exact nomatch hx
    · exact hkept
  · by_cases hmn : m = n
    · subst hmn
      rw [hmemo, Memo.lookup_publish_self] at hm
      exact Option.some.inj hm ▸ hresult
    · rw [hmemo, Memo.lookup_publish hmn] at hm
      exact (h.results m out hm).later hext h.reachable.sound hτ.sound
  · obtain ⟨hmn, hm⟩ := hopen.mp hm
    have hph := h.expected m ph hm
    exact {
      mirrors := hext.more ph m hph.mirrors
      cycle := hph.cycle
      new := hph.new
      present := Nat.lt_of_lt_of_le hph.present hext.keeps.size_le
      blank := hothers m ph hmn hm }

end Drafting

end Store

end ValueInference
