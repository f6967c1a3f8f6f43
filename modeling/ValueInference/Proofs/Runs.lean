/-
Computations of a walk without changes.

A computation *runs* in a scene if it succeeds there and leaves a later scene in which the
invariant still holds.  Below a node that the walk is inside of, every visit is answered by a
mirror; from this the slots, candidates and function references below the node get mirrors too.

* **`Store.Runs`** — success of a computation that keeps the invariant;
* **`Store.Inside`** — the walk is inside of a node, below which it succeeds;
* **`Store.Inside.runs_candidate`**, **`Store.Inside.runs_slot`** — what becomes of candidates and
  slots.
-/
import ValueInference.Proofs.Copies
import ValueInference.Proofs.Running

namespace ValueInference

namespace Store

variable {α β : Type} {s t : Store} {v n c top out : NodeId} {stack : List NodeId} {base : Nat}
  {σ τ : Scene}

/-- A computation of a walk succeeds, keeps the invariant, and ends as claimed. -/
def Runs (s : Store) (v : NodeId) (stack : List NodeId) (top : NodeId) (σ : Scene)
    (x : Rebuild Unit Update α) (P : Scene → α → Prop) : Prop :=
  Rebuild.Runs (s.Going v stack) (s.Later top) (fun _ => False) σ x P

section

variable {x : Rebuild Unit Update α} {P P' : Scene → α → Prop} {Q : Scene → β → Prop}

theorem runs_pure {a : α} (h : s.Going v stack σ) (hP : P σ a) :
    s.Runs v stack top σ (pure a) P :=
  Rebuild.runs_pure h hP

/-- **A sequence** runs if its parts do, one after the other. -/
theorem Runs.bind {f : α → Rebuild Unit Update β} (hx : s.Runs v stack top σ x P)
    (hf : ∀ τ a, s.Going v stack τ → s.Later top σ τ → P τ a → s.Runs v stack top τ (f a) Q) :
    s.Runs v stack top σ (x >>= f) Q :=
  Rebuild.Runs.bind hx hf

theorem Runs.imp (h : s.Runs v stack top σ x P)
    (hP : ∀ τ a, s.Going v stack τ → P τ a → P' τ a) : s.Runs v stack top σ x P' :=
  Rebuild.Runs.imp h hP

/-- A computation on the store runs if it succeeds and changes no form. -/
theorem runs_infer {y : Infer α} {a : α} (h : s.Going v stack σ)
    (hy : y.outcome σ.store = (.ok a, t)) (hgrows : σ.store.Grows t) (ht : t.Reachable)
    (hP : P { σ with store := t } a) : s.Runs v stack top σ (Rebuild.infer y) P :=
  Rebuild.runs_infer hy (h.of_grows hgrows ht)
    ⟨fun _ _ => id, fun _ _ => id, fun _ _ => id, fun _ _ => .inl⟩ hP

theorem runs_store (h : s.Going v stack σ) :
    s.Runs v stack top σ (Rebuild.infer Infer.store) fun τ u => τ = σ ∧ u = σ.store :=
  Rebuild.runs_store h

/-- **A list of computations** runs if each of them runs in whatever scene it starts. -/
theorem runs_mapM {f : α → Rebuild Unit Update β} {R : Scene → β → α → Prop}
    (hR : ∀ {σ τ : Scene} {a b}, s.Later top σ τ → R σ b a → R τ b a) {as : List α}
    (h : s.Going v stack σ)
    (hf : ∀ a ∈ as, ∀ τ, s.Going v stack τ → s.Runs v stack top τ (f a) fun υ b => R υ b a) :
    s.Runs v stack top σ (as.mapM f) fun τ bs => List.Forall₂ (R τ) bs as :=
  Rebuild.runs_mapM (R := R) (fun _ _ _ _ _ _ hlater hb => hR hlater hb) h hf

end

/-! ### Below a node -/

/-- The answer to a visit of a node. -/
def Answers (s : Store) (v : NodeId) (stack : List NodeId) (σ : Scene) (out c : NodeId) : Prop :=
  s.Follows v stack σ out c ∧ σ.memo.Met c

theorem Answers.later (h : s.Answers v stack σ out c) (hlater : s.Later top σ τ) :
    s.Answers v stack τ out c :=
  ⟨hlater.follows h.1, hlater.met h.2⟩

theorem stays_answers (s : Store) (v top : NodeId) (stack : List NodeId) :
    Rebuild.Stays (s.Going v stack) (s.Later top) (s.Answers v stack) :=
  fun _ _ _ _ _ _ hlater hout => hout.later hlater

/-- Visits of the node are answered while there are more than `base` levels left. -/
def Visited (s : Store) (v : NodeId) (stack : List NodeId) (base : Nat) (c : NodeId) : Prop :=
  ∀ fuel, base < fuel → ∀ σ, s.Going v stack σ →
    s.Runs v stack c σ ((Variant.plain.visitor fuel).visit c) fun τ out =>
      s.Answers v stack τ out c

/-- What becomes of a candidate, and whether it counts as changed. -/
def CandidateAnswers (s : Store) (n : NodeId) (σ : Scene) (r : Candidate × Bool) (c : Candidate) :
    Prop :=
  r.1.Alike σ.mirrors c ∧ (r.2 = true → s.Below n n) ∧ ∀ a ∈ c.children, σ.memo.Met a

/-- What becomes of a slot: on a cycle, a set may be made anew. -/
def SlotAnswers (s : Store) (n : NodeId) (σ : Scene) (new slot : Slot) : Prop :=
  new = slot ∨ s.Below n n ∧ ∃ p q, slot = .possibilities p ∧ new = .possibilities q ∧
    Matches (Candidate.Alike σ.mirrors) q.candidates p.candidates ∧ σ.store.AdmitsSet q

/-- A walk is inside of a node, below which all visits are answered. -/
structure Inside (s : Store) (v : NodeId) (stack : List NodeId) (n : NodeId) (base : Nat) :
    Prop where
  reachable : s.Reachable
  steady : s.Steady v
  trail : s.Trail v (n :: stack)
  visited : ∀ c ∈ (s.kind n).children, s.Visited v (n :: stack) base c

namespace Inside

theorem leads (h : s.Inside v stack n base) : s.Leads v n :=
  h.trail.leads_mem List.mem_cons_self

/-- Below a node on no cycle, nothing leads back into the walk. -/
theorem free (h : s.Inside v stack n base) (hn : ¬ s.Below n n) (hc : c ∈ (s.kind n).children) :
    ∀ m ∈ n :: stack, ¬ s.Leads c m := by
  intro m hm hcm
  exact hn (below_of_child_leads hc (hcm.trans (h.trail.leads_top hm)))

/-- What is not changed below a node leaves it on no cycle: only on a cycle does it change. -/
theorem below_of_changed (h : s.Inside v stack n base) (hc : c ∈ (s.kind n).children)
    (hfunction : ∀ slot, s.kind n ≠ .function slot)
    (hout : s.Answers v (n :: stack) σ out c) (hne : out ≠ c) : s.Below n n := by
  by_contra hcycle
  rcases hout.1.2 with hsame | ⟨m, hm, hcm⟩ | hentered
  · exact hne hsame
  · exact h.free hcycle hc m hm hcm
  · exact hentered (.inr ⟨n, h.leads, ⟨hcycle, hfunction⟩, hc⟩)

/-- Visits below the node are answered. -/
theorem visits (h : s.Inside v stack n base) (hc : c ∈ (s.kind n).children) :
    Rebuild.Visits .plain (s.Going v (n :: stack)) (s.Later n) (fun _ => False)
      (s.Answers v (n :: stack)) base c :=
  fun fuel hfuel σ hσ => Rebuild.Runs.mono (h.visited c hc fuel hfuel σ hσ) fun _ hlater =>
    hlater.of_leads (leads_child hc)

theorem runs_visit {fuel : Nat} (h : s.Inside v stack n base) (hc : c ∈ (s.kind n).children)
    (hfuel : base < fuel) (hσ : s.Going v (n :: stack) σ) :
    s.Runs v (n :: stack) n σ ((Variant.plain.visitor fuel).visit c) fun τ out =>
      s.Answers v (n :: stack) τ out c :=
  h.visits hc fuel hfuel σ hσ

theorem runs_visits {fuel : Nat} {items : List NodeId} (h : s.Inside v stack n base)
    (hitems : ∀ c ∈ items, c ∈ (s.kind n).children) (hfuel : base < fuel)
    (hσ : s.Going v (n :: stack) σ) :
    s.Runs v (n :: stack) n σ (items.mapM (Variant.plain.visitor fuel).visit) fun τ new =>
      List.Forall₂ (s.Answers v (n :: stack) τ) new items :=
  Rebuild.runs_visits (stays_answers s v n _) (fun c hc => h.visits (hitems c hc)) hfuel hσ

/-! ### Function references -/

/-- Where nothing below leads back into the walk, a candidate over mirrors equals the candidate. -/
theorem equalCandidates_of_alike {c d : Candidate} (h : s.Inside v stack n base)
    (hcycle : ¬ s.Below n n) (hchildren : ∀ a ∈ c.children, a ∈ (s.kind n).children)
    (hσ : s.Going v (n :: stack) σ) (halike : d.Alike σ.mirrors c) :
    σ.store.equalCandidates d c = true := by
  have hs := h.reachable.sound
  have hc : ∀ a ∈ c.children, a < σ.store.nodes.size := fun a ha =>
    Nat.lt_of_lt_of_le (hs.child_lt (hchildren a ha)) hσ.grows.size_le
  refine equalCandidates_of_bisimulation hσ.reachable.sound (hσ.bisimulation h.reachable)
    (fun a ha => ?_) hc ?_
  · obtain ⟨b, hb, hab⟩ := halike.exists_child a ha
    rcases hσ.mirrored a b hab with rfl | ⟨-, hlt, -⟩
    · exact hc a hb
    · exact hlt
  · exact halike.imp fun a _ b hb hab => ⟨hab, h.free hcycle (hchildren b hb)⟩

/-! ### Slots -/

/-- **A candidate** counts as changed only on a cycle. -/
theorem runs_candidate {fuel : Nat} {c : Candidate} (h : s.Inside v stack n base)
    (hchildren : ∀ a ∈ c.children, a ∈ (s.kind n).children)
    (hfuel : ∀ f, c = .function f → base + f.depth + 1 < fuel) (hσ : s.Going v (n :: stack) σ) :
    s.Runs v (n :: stack) n σ (Rebuild.visitCandidate (Variant.plain.visitor fuel) c) fun τ r =>
      s.CandidateAnswers n τ r c := by
  refine Runs.imp (Rebuild.runs_candidate rfl (stays_answers s v n _)
    (fun a ha => h.visits (hchildren a ha)) hfuel hσ) fun τ r hτ hr => ?_
  obtain ⟨hanswers, -, hchanged⟩ := hr
  have halike : r.1.Alike τ.mirrors c := hanswers.imp fun a _ b _ hab => hab.1.1
  refine ⟨halike, fun hr => ?_, fun a ha => ?_⟩
  · by_contra hcycle
    have hequal := h.equalCandidates_of_alike hcycle hchildren hτ halike
    rw [hchanged hr] at hequal
    exact absurd hequal (by simp)
  · obtain ⟨b, -, hab⟩ := hanswers.flip.exists_child a ha
    exact hab.2

/-- **A slot** is made anew only on a cycle, with mirrors for the nodes in it. -/
theorem runs_slot {fuel : Nat} {slot : Slot} (h : s.Inside v stack n base)
    (hslot : (s.kind n).slot? = some slot) (hfuel : base + (s.kind n).refDepth + 1 < fuel)
    (hσ : s.Going v (n :: stack) σ) :
    s.Runs v (n :: stack) n σ (Rebuild.slot (Variant.plain.visitor fuel) slot) fun τ new =>
      s.SlotAnswers n τ new slot ∧ ∀ c ∈ slot.children, τ.memo.Met c := by
  refine Runs.bind (Rebuild.runs_settle hσ) fun τ settled _ _ ⟨hτ, hsettled⟩ => ?_
  subst hτ hsettled
  cases settled with
  | possibilities p =>
    have hbelow : ∀ c ∈ p.candidates, ∀ a ∈ c.children, a ∈ (s.kind n).children := by
      intro c hc a ha
      rw [Kind.children_of_slot hslot]
      exact List.mem_flatMap_of_mem hc ha
    refine (runs_mapM (R := s.CandidateAnswers n) ?_ hσ fun c hc τ hτ =>
      h.runs_candidate (hbelow c hc) ?_ hτ).bind fun τ new hτ _ hnew => ?_
    · exact fun hlater ha => ⟨ha.1.imp fun x _ y _ => hlater.more x y, ha.2.1, fun x hx =>
        hlater.met (ha.2.2 x hx)⟩
    · rintro f rfl
      have hdepth := Kind.depth_le_refDepth hslot hc
      omega
    have hmet : ∀ a ∈ (Slot.possibilities p).children, τ.memo.Met a := by
      intro a ha
      obtain ⟨c, hc, hac⟩ := List.mem_flatMap.mp ha
      obtain ⟨r, -, hr⟩ := exists_of_forall₂ hnew.flip c hc
      exact hr.2.2 a hac
    by_cases hchanged : new.any Prod.snd = true
    · -- the set is made anew, and has as many candidates as before
      obtain ⟨r, hr, hrc⟩ := List.any_eq_true.mp hchanged
      obtain ⟨c, -, hc⟩ := exists_of_forall₂ hnew r hr
      have hcycle := hc.2.1 hrc
      have hkind : s.kind n = .function (.possibilities p) := by
        rcases hform : s.kind n with ⟨w, ty⟩ | _ | _ | _ | _ | _ | _ | w | _ | _ | _
        case scalar => exact absurd hform (not_scalar_of_cycle h.reachable hcycle w ty)
        all_goals rw [hform] at hslot
        case function => exact congrArg Kind.function (Option.some.inj hslot)
        all_goals exact absurd hslot (by simp [Kind.slot?])
      have halike : List.Forall₂ (Candidate.Alike τ.mirrors) (new.map Prod.fst) p.candidates := by
        rw [List.forall₂_map_left_iff]
        exact hnew.imp fun _ _ ha => ha.1
      have hpresent : ∀ c ∈ p.candidates, ∀ a ∈ c.children, a < s.nodes.size := fun c hc a ha =>
        h.reachable.sound.child_lt (n := n) (by
          rw [hkind]
          exact List.mem_flatMap_of_mem hc ha)
      have hapart := hτ.candidates_apart h.trail h.reachable.sound hpresent
        (h.steady.candidates n p h.leads hcycle hkind) halike
      have hsome : new.map Prod.fst ≠ [] := List.ne_nil_of_mem (List.mem_map_of_mem hr)
      have hnodup : (new.map Prod.fst).Nodup := by
        refine hapart.imp fun {c d} hcd => ?_
        rintro rfl
        rw [τ.store.equalCandidates_refl] at hcd
        exact absurd hcd (by simp)
      have hrun : s.Runs v (n :: stack) n τ
          (Rebuild.infer (Infer.possibilitiesOf (new.map Prod.fst))) fun υ q =>
            s.SlotAnswers n υ (.possibilities q) (.possibilities p) ∧
              ∀ c ∈ (Slot.possibilities p).children, υ.memo.Met c := by
        refine runs_infer hτ (Infer.outcome_possibilitiesOf hsome hapart) τ.store.grows_token
          (.step .token hτ.reachable trivial) ⟨.inr ⟨hcycle, p, _, rfl, rfl, ?_, ?_⟩, hmet⟩
        · exact ⟨halike.length_eq, exists_of_forall₂ halike⟩
        · exact hτ.reachable.sound.admits_new hnodup
      simp only [hchanged, if_true]
      exact hrun.bind fun υ q hυ _ hq => runs_pure hυ hq
    · simp only [hchanged]
      exact runs_pure hτ ⟨.inl rfl, hmet⟩
  | _ => exact runs_pure hσ ⟨.inl rfl, fun _ hc => absurd hc List.not_mem_nil⟩

end Inside

end Store

end ValueInference
