/-
Computations of a walk that keep an invariant.

A computation *runs* in a scene if it succeeds there and leaves a scene in which an invariant still
holds, and which is later than the first one in some order; or if it fails there and leaves a scene
of which something else is known.  The rules here are for any invariant and any order, and for any
variant that goes into function references by default.  A walk takes some of its levels for each
node that it enters, and there are enough of them for all nodes, so every visit in a walk runs if
the work on a node does whenever the visits below it do.

* **`Rebuild.Runs`** — success of a computation that keeps an invariant, or failure;
* **`Rebuild.Runs.bind`**, **`Rebuild.composes_runs`** — sequences, and what is put together of
  them;
* **`Store.spare`** — the levels that are left for the nodes that a walk is not inside of;
* **`Rebuild.WalkRules.visits`** — every visit in a walk runs.
-/
import ValueInference.Proofs.Composing
import ValueInference.Proofs.Scenes
import ValueInference.Proofs.Walks
import Mathlib.Algebra.Order.BigOperators.Group.Finset

namespace ValueInference

namespace Rebuild

variable {α β : Type} {I : Scene → Prop} {L : Scene → Scene → Prop} {F : Scene → Prop}
  {σ τ : Scene} {t : Store} {x : Rebuild Unit Update α} {P P' : Scene → α → Prop}
  {Q : Scene → β → Prop}

/-- The computation succeeds, keeps the invariant, and ends later and as claimed; or it fails and
leaves what it may leave. -/
def Runs (I : Scene → Prop) (L : Scene → Scene → Prop) (F : Scene → Prop) (σ : Scene)
    (x : Rebuild Unit Update α) (P : Scene → α → Prop) : Prop :=
  (∃ a τ, Gives x σ.memo σ.store a τ.memo τ.store ∧ I τ ∧ L σ τ ∧ P τ a) ∨
    ∃ e τ, Fails x σ.memo σ.store e (Scene.memo τ) τ.store ∧ F τ

/-- What may leave nothing behind when it fails succeeds. -/
theorem Runs.gives (h : Runs I L (fun _ => False) σ x P) :
    ∃ a τ, Gives x σ.memo σ.store a (Scene.memo τ) τ.store ∧ I τ ∧ L σ τ ∧ P τ a :=
  h.resolve_right fun ⟨_, _, _, hnever⟩ => hnever

theorem runs_pure [Std.Refl L] {a : α} (h : I σ) (hP : P σ a) : Runs I L F σ (pure a) P :=
  .inl ⟨a, σ, gives_pure _ _ _, h, refl_of L σ, hP⟩

/-- **A sequence** runs if its parts do, one after the other. -/
theorem Runs.bind [IsTrans Scene L] {f : α → Rebuild Unit Update β} (hx : Runs I L F σ x P)
    (hf : ∀ τ a, I τ → L σ τ → P τ a → Runs I L F τ (f a) Q) : Runs I L F σ (x >>= f) Q := by
  rcases hx with ⟨a, τ, hgives, hI, hlater, hP⟩ | ⟨e, τ, hfails, hF⟩
  · rcases hf τ a hI hlater hP with ⟨b, υ, hgives', hI', hlater', hQ⟩ | ⟨e, υ, hfails, hF⟩
    · exact .inl ⟨b, υ, hgives.bind hgives', hI', trans_of L hlater hlater', hQ⟩
    · exact .inr ⟨e, υ, hgives.bind_fails hfails, hF⟩
  · exact .inr ⟨e, τ, hfails.bind f, hF⟩

theorem Runs.imp (h : Runs I L F σ x P) (hP : ∀ τ a, I τ → P τ a → P' τ a) :
    Runs I L F σ x P' :=
  Or.imp_left (fun ⟨a, τ, hgives, hI, hlater, ha⟩ => ⟨a, τ, hgives, hI, hlater, hP τ a hI ha⟩) h

theorem Runs.mono {L' : Scene → Scene → Prop} (h : Runs I L F σ x P)
    (hL : ∀ τ, L σ τ → L' σ τ) : Runs I L' F σ x P :=
  Or.imp_left (fun ⟨a, τ, hgives, hI, hlater, ha⟩ => ⟨a, τ, hgives, hI, hL τ hlater, ha⟩) h

/-- A computation on the store runs if it succeeds and its store keeps the invariant. -/
theorem runs_infer {y : Infer α} {a : α} (hy : y.outcome σ.store = (.ok a, t))
    (hI : I { σ with store := t }) (hL : L σ { σ with store := t })
    (hP : P { σ with store := t } a) : Runs I L F σ (infer y) P :=
  .inl ⟨a, { σ with store := t }, gives_infer hy _, hI, hL, hP⟩

theorem runs_store [Std.Refl L] (h : I σ) :
    Runs I L F σ (infer Infer.store) fun τ u => τ = σ ∧ u = σ.store :=
  runs_infer rfl h (refl_of L σ) ⟨rfl, rfl⟩

/-- Updates leave slots that wait as they are. -/
theorem runs_settle [Std.Refl L] {slot : Slot} (h : I σ) :
    Runs I L F σ (settle slot) fun τ w => τ = σ ∧ w = slot :=
  .inl ⟨slot, σ, rfl, h, refl_of L σ, rfl, rfl⟩

/-- Statements about runs are put together from those about the parts. -/
theorem composes_runs [Std.Refl L] [IsTrans Scene L] :
    Composes I L Scene.store fun σ x P => Runs I L F σ x P where
  pure := runs_pure
  bind := Runs.bind
  imp := Runs.imp
  store := runs_store

/-- What holds in one scene holds in later ones, while the invariant is kept. -/
def Stays (I : Scene → Prop) (L : Scene → Scene → Prop) (A : Scene → α → β → Prop) : Prop :=
  ∀ σ τ a b, I σ → I τ → L σ τ → A σ a b → A τ a b

/-- Visits of the node are answered while there are more than `base` levels left. -/
def Visits (V : Variant (Rebuild Unit Update)) (I : Scene → Prop) (L : Scene → Scene → Prop)
    (F : Scene → Prop) (A : Scene → NodeId → NodeId → Prop) (base : Nat) (c : NodeId) : Prop :=
  ∀ fuel, base < fuel → ∀ σ, I σ → Runs I L F σ ((V.visitor fuel).visit c) fun τ out => A τ out c

section

variable {V : Variant (Rebuild Unit Update)} {A : Scene → NodeId → NodeId → Prop} {base fuel : Nat}
  [Std.Refl L] [IsTrans Scene L]

/-- **A list of computations** runs if each of them runs in whatever scene it starts. -/
theorem runs_mapM {f : α → Rebuild Unit Update β} {R : Scene → β → α → Prop} (hR : Stays I L R)
    {as : List α} {σ : Scene} (hσ : I σ)
    (hf : ∀ a ∈ as, ∀ τ, I τ → Runs I L F τ (f a) fun υ b => R υ b a) :
    Runs I L F σ (as.mapM f) fun τ bs => List.Forall₂ (R τ) bs as :=
  composes_runs.mapM hR hσ hf

theorem runs_visits (hA : Stays I L A) {items : List NodeId}
    (hitems : ∀ c ∈ items, Visits V I L F A base c) (hfuel : base < fuel) (hσ : I σ) :
    Runs I L F σ (items.mapM (V.visitor fuel).visit) fun τ new => List.Forall₂ (A τ) new items :=
  composes_runs.visits hA hitems hfuel hσ

theorem runs_fields {δ : Type} (hA : Stays I L A) {fields : List (δ × NodeId)}
    (hfields : ∀ x ∈ fields, Visits V I L F A base x.2) (hfuel : base < fuel) (hσ : I σ) :
    Runs I L F σ
      (fields.mapM fun (label, field) => return (label, ← (V.visitor fuel).visit field))
      fun τ new => List.Forall₂ (SameLabel (A τ)) new fields :=
  composes_runs.fields hA hfields hfuel hσ

/-- **A candidate** has answers for the nodes in it, and counts as changed if it has become
unequal to itself. -/
theorem runs_candidate (hV : V.ref = Rebuild.ref) (hA : Stays I L A) {c : Candidate}
    (hvisits : ∀ a ∈ c.children, Visits V I L F A base a)
    (hfuel : ∀ f, c = .function f → base + f.depth + 1 < fuel) (hσ : I σ) :
    Runs I L F σ (visitCandidate (V.visitor fuel) c) fun τ r =>
      r.1.Alike (A τ) c ∧ (r.2 = false → τ.store.equalCandidates r.1 c = true) ∧
        (r.2 = true → τ.store.equalCandidates r.1 c = false) :=
  composes_runs.candidate hV hA hvisits hfuel hσ

end

end Rebuild

/-! ### Levels -/

theorem le_foldl_max {α : Type} {g : α → Nat} : ∀ {as : List α} {d : Nat},
    d ≤ as.foldl (fun d a => max d (g a)) d ∧
      ∀ a ∈ as, g a ≤ as.foldl (fun d a => max d (g a)) d := by
  intro as
  induction as with
  | nil => exact ⟨Nat.le_refl _, fun _ ha => absurd ha List.not_mem_nil⟩
  | cons b as ih =>
    intro d
    obtain ⟨hstart, hrest⟩ := ih (d := max d (g b))
    refine ⟨(Nat.le_max_left d (g b)).trans hstart, fun a ha => ?_⟩
    rcases List.mem_cons.mp ha with rfl | ha
    · exact (Nat.le_max_right d (g a)).trans hstart
    · exact hrest a ha

/-- No candidate of a form is nested deeper than the form says. -/
theorem Kind.depth_le_refDepth {k : Kind} {p : Possibilities} {f : FunctionRef}
    (h : k.slot? = some (.possibilities p)) (hf : .function f ∈ p.candidates) :
    f.depth ≤ k.refDepth := by
  rw [refDepth, h]
  exact (le_foldl_max (g := fun c => (c.function?.map FunctionRef.depth).getD 0)).2 _ hf

namespace Store

variable {s t : Store} {v n : NodeId} {stack : List NodeId}

/-- How many levels the work on a node may take. -/
def cost (s : Store) (n : NodeId) : Nat := 3 + (s.kind n).refDepth

/-- The levels for all nodes that a walk is not inside of. -/
def spare (s : Store) (stack : List NodeId) : Nat :=
  ∑ m ∈ Finset.range s.nodes.size \ stack.toFinset, s.cost m

theorem spare_cons (hn : n < s.nodes.size) (hfresh : n ∉ stack) :
    s.cost n + s.spare (n :: stack) = s.spare stack := by
  have hmem : n ∈ Finset.range s.nodes.size \ stack.toFinset :=
    Finset.mem_sdiff.mpr ⟨Finset.mem_range.mpr hn, fun h => hfresh (List.mem_toFinset.mp h)⟩
  rw [spare, spare, List.toFinset_cons, Finset.sdiff_insert]
  exact Finset.add_sum_erase _ _ hmem

/-- A store that has grown has no fewer levels. -/
theorem Grows.spare_le (h : s.Grows t) : s.spare [] ≤ t.spare [] := by
  have hcost : ∀ m ∈ Finset.range s.nodes.size, s.cost m = t.cost m := by
    intro m hm
    rw [cost, cost, h.kind_eq (Finset.mem_range.mp hm)]
  rw [spare, spare, List.toFinset_nil, Finset.sdiff_empty, Finset.sdiff_empty,
    Finset.sum_congr rfl hcost]
  exact Finset.sum_le_sum_of_subset (Finset.range_subset_range.mpr h.size_le)

/-- The depth of a walk is enough for all nodes. -/
theorem spare_lt_walkDepth (s : Store) : s.spare [] < s.walkDepth := by
  have hfold : ∀ (nodes : List Node) (d : Nat),
      nodes.foldl (fun d node => d + 3 + (node.kind.map Kind.refDepth).getD 0) d =
        d + ∑ m ∈ Finset.range nodes.length,
          (3 + (((nodes[m]?.bind Node.kind).getD (.error .incomplete)).refDepth)) := by
    intro nodes
    induction nodes with
    | nil => simp
    | cons node nodes ih =>
      intro d
      rw [List.foldl_cons, ih, List.length_cons, Finset.sum_range_succ']
      have hkind : (node.kind.map Kind.refDepth).getD 0 =
          (node.kind.getD (.error .incomplete)).refDepth := by
        cases node.kind <;> rfl
      simp only [List.getElem?_cons_succ, List.getElem?_cons_zero, Option.bind_some, hkind]
      omega
  have hsum := hfold s.nodes.toList 1
  rw [Array.foldl_toList] at hsum
  have hspare : s.spare [] = ∑ m ∈ Finset.range s.nodes.size, s.cost m := by
    rw [spare, List.toFinset_nil, Finset.sdiff_empty]
  have hall : s.walkDepth = 1 + ∑ m ∈ Finset.range s.nodes.size, s.cost m := by
    rw [walkDepth, hsum, Array.length_toList]
    simp only [Array.getElem?_toList]
    rfl
  omega

end Store

/-! ### Walks -/

namespace Rebuild

variable {s : Store} {v n : NodeId} {V : Variant (Rebuild Unit Update)}
  {I : List NodeId → Scene → Prop} {L : NodeId → Scene → Scene → Prop}
  {F : List NodeId → Scene → Prop} {A : List NodeId → Scene → NodeId → NodeId → Prop}
  {stack : List NodeId} {σ : Scene}

/-- What a walk over `s` from `v` has to keep: the invariant `I` while it is inside of some nodes,
the order `L` of the scenes before and after a visit, what `F` it may leave when it fails, and what
it answers. -/
structure WalkRules (s : Store) (v : NodeId) (V : Variant (Rebuild Unit Update))
    (I : List NodeId → Scene → Prop) (L : NodeId → Scene → Scene → Prop)
    (F : List NodeId → Scene → Prop) (A : List NodeId → Scene → NodeId → NodeId → Prop) : Prop where
  refl : ∀ n σ, L n σ σ
  inside : ∀ {stack σ}, I stack σ → σ.memo.inside = stack
  done : ∀ {stack σ n out}, I stack σ → σ.memo.done.lookup n = some out → A stack σ out n
  /-- A node that the walk is inside of is answered with its placeholder. -/
  expected : ∀ {stack σ n ph}, n ∈ stack → I stack σ →
    σ.memo.inProgress.lookup n = some (some ph) → A stack σ ph n
  /-- A placeholder is handed out. -/
  expect : ∀ {stack σ n}, s.Trail v stack → s.Next v stack n → n ∈ stack → I stack σ →
    σ.memo.inProgress.lookup n = some none → ∃ mirrors,
      let τ : Scene := ⟨mirrors, σ.memo.expect n σ.store.nodes.size, σ.store.placeholder.2⟩
      I stack τ ∧ L n σ τ ∧ A stack τ σ.store.nodes.size n
  /-- The work on a node, if all visits below it run. -/
  work : ∀ {stack σ n base fuel}, s.Trail v (n :: stack) → I stack σ →
    σ.memo.done.lookup n = none →
    (∀ c ∈ (s.kind n).children,
      Visits V (I (n :: stack)) (L c) (F (n :: stack)) (A (n :: stack)) base c) →
      base + (s.kind n).refDepth + 2 < fuel →
        (∃ out τ result υ,
          Gives (byForm V (V.visitor fuel) n) (σ.memo.enter n) σ.store out (Scene.memo τ) τ.store ∧
          Gives (conclude n (.ok out)) τ.memo τ.store result (Scene.memo υ) υ.store ∧
            I stack υ ∧ L n σ υ ∧ A stack υ result n) ∨
        ∃ e τ, Fails (byForm V (V.visitor fuel) n) (σ.memo.enter n) σ.store e (Scene.memo τ)
          τ.store ∧ F stack { τ with memo := τ.memo.leave n }

/-- **Every visit in a walk** runs. -/
theorem WalkRules.visits (h : WalkRules s v V I L F A) (hs : s.Sound) (hv : v < s.nodes.size) :
    ∀ {stack : List NodeId} {n : NodeId}, s.Trail v stack → s.Next v stack n →
      Visits V (I stack) (L n) (F stack) (A stack) (s.spare stack) n := by
  -- the levels that are left become fewer with every node that is entered
  suffices hlevels : ∀ levels, ∀ {stack : List NodeId} {n : NodeId}, s.spare stack = levels →
      s.Trail v stack → s.Next v stack n →
        Visits V (I stack) (L n) (F stack) (A stack) (s.spare stack) n from
    fun {_ _} htrail => hlevels _ rfl htrail
  intro levels
  induction levels using Nat.strongRecOn with
  | ind levels ih =>
    intro stack n hlevels htrail hnext fuel hfuel σ hσ
    obtain ⟨fuel, rfl⟩ : ∃ k, fuel = k + 1 := ⟨fuel - 1, by omega⟩
    show Runs (I stack) (L n) (F stack) σ (visit V (V.visitor fuel) n) _
    rcases hdone : σ.memo.done.lookup n with _ | out
    · by_cases hmem : n ∈ stack
      · have hinside : n ∈ σ.memo.inside := by rwa [h.inside hσ]
        obtain ⟨entry, hopen⟩ := exists_lookup_of_mem_keys hinside
        cases entry with
        | none =>
          obtain ⟨mirrors, hτ, hlater, hanswer⟩ := h.expect htrail hnext hmem hσ hopen
          exact .inl ⟨_, ⟨mirrors, _, _⟩, (gives_placeholder hdone hopen).bind (gives_pure _ _ _),
            hτ, hlater, hanswer⟩
        | some ph =>
          exact .inl ⟨ph, σ, (gives_known_of_expected hdone hopen).bind (gives_pure _ _ _), hσ,
            h.refl n σ, h.expected hmem hσ hopen⟩
      · have hspare := Store.spare_cons (Store.present_of_leads hs hv (htrail.leads_root hnext)) hmem
        have hinside : n ∉ σ.memo.inside := by rwa [h.inside hσ]
        rw [Store.cost] at hspare
        have hlevels' : s.spare (n :: stack) + (s.kind n).refDepth + 2 < fuel := by omega
        have hbelow : ∀ c ∈ (s.kind n).children, Visits V (I (n :: stack)) (L c) (F (n :: stack))
            (A (n :: stack)) (s.spare (n :: stack)) c := fun c hc =>
          ih _ (by omega) rfl (htrail.cons hnext hmem) hc
        have hfresh := gives_known_of_fresh (s := σ.store) hdone
          (lookup_eq_none_of_not_mem hinside)
        rcases h.work (htrail.cons hnext hmem) hσ hdone hbelow hlevels' with
          ⟨out, τ, result, υ, hgives, hgives', hυ, hlater, hanswer⟩ | ⟨e, τ, hfails, hleft⟩
        · refine .inl ⟨result, υ, hfresh.bind ?_, hυ, hlater, hanswer⟩
          exact (gives_modify _ _ _).bind (hgives.lift.bind hgives')
        · refine .inr ⟨e, _, hfresh.bind_fails ?_, hleft⟩
          exact (gives_modify _ _ _).bind_fails (hfails.lift.bind_fails (fails_conclude n e _ _))
    · exact .inl ⟨out, σ, (gives_known_of_done hdone).bind (gives_pure _ _ _), hσ, h.refl n σ,
        h.done hσ hdone⟩

end Rebuild

end ValueInference
