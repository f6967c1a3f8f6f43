/-
Computations that repeat themselves.

A computation on the store is run, and later one like it is run again: the second one has got
replicas of what the first one has got.  It *repeats* the first one if it fails with the same error,
or gives a result that is like the first one: a replica, or a slot over replicas.  What a client
computes from nodes alone does so, whatever the numbers of the nodes are.

* **`Likeness`** — what is known of a result, and what a later result is to be like;
* **`Infer.RepeatsIf`** — the second computation repeats the first one, under a condition on the
  second one;
* **`Infer.RepeatsIf.bind`**, **`Infer.RepeatsIf.make`**, **`Infer.RepeatsIf.union`**,
  **`Infer.RepeatsIf.possibilitiesOf`** — computations that do;
* **`Handler.Repeats`**, **`Handlers.Pure`** — handlers that do, given results that are alike.
-/
import ValueInference.Proofs.InStep
import ValueInference.Proofs.Remade
import ValueInference.Proofs.Widening

namespace ValueInference

variable {α β : Type} {P : Prop} {recent made : NodeId → Prop} {s s' t t' u u' v v' : Store}

open Store (Stage InHand Replay Replicas Grows)

/-! ### Results that are alike -/

/-- How the results of a run are compared with those of a later one.  Both runs begin in a first
store and have come to a second one; `made` are the nodes that count as made. -/
structure Likeness (α : Type) where
  /-- What is known of a result. -/
  known : Store → Store → α → Prop
  /-- The result of the later run is like the other one. -/
  same : (NodeId → Prop) → Store → Store → α → α → Prop
  refl {s t : Store} {a : α} (made : NodeId → Prop) : known s t a → same made s t a a
  known_later {s t t' : Store} {a : α} : known s t a → t.Stage t' → known s t' a
  same_later {made : NodeId → Prop} {v u u' : Store} {a b : α} :
    same made v u a b → v.Stage u → u.Stage u' → same made v u' a b
  known_within {s s' t : Store} {a : α} : known s' t a → s.Stage s' → known s t a
  same_within {made : NodeId → Prop} {v v' u : Store} {a b : α} :
    same made v' u a b → v.Stage v' → same made v u a b

namespace Likeness

/-- Nodes that are there; replicas. -/
def node : Likeness NodeId where
  known _ t a := a < t.nodes.size
  same made _ u a b := u.Replicas made a b
  refl _ ha := .refl ha
  known_later ha ht := ha.trans_le ht.grows.size_le
  same_later hab hu hu' := hu'.grows.replicas hu.sound hab
  known_within ha _ := ha
  same_within hab _ := hab

/-- References to nodes that are there; the same reference to replicas. -/
def ref : Likeness FunctionRef where
  known _ t f := ∀ n ∈ f.children, n < t.nodes.size
  same made _ u f g := f.Alike (u.Replicas made) g
  refl _ hf := .refl fun n hn => .refl (hf n hn)
  known_later hf ht n hn := (hf n hn).trans_le ht.grows.size_le
  same_later hfg hu hu' := hfg.imp fun _ _ _ _ => hu'.grows.replicas hu.sound
  known_within hf _ := hf
  same_within hfg _ := hfg

/-- Candidates over nodes that are there, and whether they changed; the same candidates over
replicas, which changed if the others did. -/
def candidate : Likeness (Candidate × Bool) where
  known _ t c := ∀ n ∈ c.1.children, n < t.nodes.size
  same made _ u c d := c.1.Alike (u.Replicas made) d.1 ∧ c.2 = d.2
  refl _ hc := ⟨.refl fun n hn => .refl (hc n hn), rfl⟩
  known_later hc ht n hn := (hc n hn).trans_le ht.grows.size_le
  same_later hcd hu hu' := ⟨hcd.1.imp fun _ _ _ _ => hu'.grows.replicas hu.sound, hcd.2⟩
  known_within hc _ := hc
  same_within hcd _ := hcd

/-- Slots in hand, of nodes that are there; the same slot over replicas, where one is the old slot
if the other is. -/
def slot (old : Slot) : Likeness Slot where
  known s t x := (∀ n ∈ x.children, n < t.nodes.size) ∧ s.InHand t x
  same made v u x y := x.InOrder (u.Replicas made) y ∧ (x = old ↔ y = old) ∧ v.InHand u y
  refl _ hx := ⟨.refl fun n hn => .refl (hx.1 n hn), Iff.rfl, hx.2⟩
  known_later hx ht := ⟨fun n hn => (hx.1 n hn).trans_le ht.grows.size_le, hx.2.later ht⟩
  same_later hxy hu hu' := ⟨hxy.1.imp fun _ _ _ _ => hu'.grows.replicas hu.sound, hxy.2.1,
    hxy.2.2.later hu'⟩
  known_within hx hs := ⟨hx.1, hx.2.within hs⟩
  same_within hxy hv := ⟨hxy.1, hxy.2.1, hxy.2.2.within hv⟩

/-- Lists of results that are alike one by one. -/
def list (Q : Likeness α) : Likeness (List α) where
  known s t as := ∀ a ∈ as, Q.known s t a
  same made v u := List.Forall₂ (Q.same made v u)
  refl made h := List.forall₂_same.mpr fun a ha => Q.refl made (h a ha)
  known_later h ht a ha := Q.known_later (h a ha) ht
  same_later h hu hu' := h.imp fun _ _ hab => Q.same_later hab hu hu'
  known_within h hs a ha := Q.known_within (h a ha) hs
  same_within h hv := h.imp fun _ _ hab => Q.same_within hab hv

/-- Results next to labels, which are the same. -/
def labelled {δ : Type} (Q : Likeness α) : Likeness (δ × α) where
  known s t x := Q.known s t x.2
  same made v u := SameLabel (Q.same made v u)
  refl made h := ⟨rfl, Q.refl made h⟩
  known_later h ht := Q.known_later h ht
  same_later h hu hu' := ⟨h.1, Q.same_later h.2 hu hu'⟩
  known_within h hs := Q.known_within h hs
  same_within h hv := ⟨h.1, Q.same_within h.2 hv⟩

/-- Results of a map, compared as what they come from. -/
def comap (Q : Likeness β) (f : α → β) : Likeness α where
  known s t a := Q.known s t (f a)
  same made v u a b := Q.same made v u (f a) (f b)
  refl made h := Q.refl made h
  known_later h ht := Q.known_later h ht
  same_later h hu hu' := Q.same_later h hu hu'
  known_within h hs := Q.known_within h hs
  same_within h hv := Q.same_within h hv

/-- Outcomes: the same error, or results that are alike. -/
def outcome (Q : Likeness α) : Likeness (Except InferError α) where
  known s t r := ∀ a, r = .ok a → Q.known s t a
  same made v u
    | .ok a, .ok b => Q.same made v u a b
    | .error e, .error e' => e = e'
    | _, _ => False
  refl {_ _ r} made h := by
    cases r with
    | error e => rfl
    | ok a => exact Q.refl made (h a rfl)
  known_later h ht a ha := Q.known_later (h a ha) ht
  same_later {_ _ _ _ r r'} h hu hu' := by
    cases r <;> cases r'
    case ok.ok => exact Q.same_later h hu hu'
    all_goals exact h
  known_within h hs a ha := Q.known_within (h a ha) hs
  same_within {_ _ _ _ r r'} h hv := by
    cases r <;> cases r'
    case ok.ok => exact Q.same_within h hv
    all_goals exact h

end Likeness

/-! ### Computations on the store -/

namespace Infer

/-- From the store `t` the first computation comes to a store where its result is known.  If `P`
holds, and the second one is run later, from `u`, it gives what is like that.  The computations are
part of those that began in `s` and in `v`. -/
structure RepeatsIf (P : Prop) (recent made : NodeId → Prop) (s t v u : Store) (x y : Infer α)
    (Q : Likeness α) : Prop where
  stage : s.Stage (x.outcome t).2
  grows : t.Grows (x.outcome t).2
  known : Q.outcome.known s (x.outcome t).2 (x.outcome t).1
  again : P → Replay recent made (x.outcome t).2 u → v.Stage (y.outcome u).2 ∧
    u.Grows (y.outcome u).2 ∧
      Q.outcome.same made v (y.outcome u).2 (x.outcome t).1 (y.outcome u).1

namespace RepeatsIf

variable {Q : Likeness α} {Q' : Likeness β} {x y : Infer α}

theorem pure {a b : α} (hs : s.Stage t) (hv : P → v.Stage u) (ha : Q.known s t a)
    (hab : P → Replay recent made t u → Q.same made v u a b) :
    RepeatsIf P recent made s t v u (Pure.pure a) (Pure.pure b) Q where
  stage := hs
  grows := .refl t
  known _ h := Except.ok.inj h ▸ ha
  again hP h := ⟨hv hP, .refl u, hab hP h⟩

theorem throw (e : InferError) (hs : s.Stage t) (hv : P → v.Stage u) :
    RepeatsIf P recent made s t v u (throw e) (throw e) Q where
  stage := hs
  grows := .refl t
  known _ h := nomatch h
  again hP _ := ⟨hv hP, .refl u, rfl⟩

theorem imp {P' : Prop} (h : RepeatsIf P recent made s t v u x y Q) (hP : P' → P) :
    RepeatsIf P' recent made s t v u x y Q :=
  ⟨h.stage, h.grows, h.known, fun hP' => h.again (hP hP')⟩

/-- It is enough to know the second run where there is one. -/
theorem intro {P' : Prop} {v' u' : Store} {z : Infer α}
    (h : RepeatsIf P' recent made s t v' u' x z Q)
    (hboth : P → t.Grows u → RepeatsIf P recent made s t v u x y Q) :
    RepeatsIf P recent made s t v u x y Q :=
  ⟨h.stage, h.grows, h.known, fun hP h' => (hboth hP (h.grows.trans h'.grows)).again hP h'⟩

/-- **A sequence** repeats another one if its parts do. -/
theorem bind {f g : α → Infer β} (h : RepeatsIf P recent made s t v u x y Q)
    (hnext : ∀ (P' : Prop) a b t' u', s.Stage t' → t.Grows t' → Q.known s t' a →
      (P' → P ∧ v.Stage u' ∧ u.Grows u' ∧ Q.same made v u' a b) →
        RepeatsIf P' recent made s t' v u' (f a) (g b) Q') :
    RepeatsIf P recent made s t v u (x >>= f) (y >>= g) Q' := by
  obtain ⟨hstage, hgrows, hknown, hagain⟩ := h
  rcases hx : x.outcome t with ⟨e | a, t'⟩
  · -- the first part fails in both
    rw [hx] at hstage hgrows hagain
    refine ⟨?_, ?_, ?_, fun hP h => ?_⟩
    all_goals rw [outcome_bind_of_error hx]
    · exact hstage
    · exact hgrows
    · exact nofun
    · rw [outcome_bind_of_error hx] at h
      obtain ⟨hv, hu, hsame⟩ := hagain hP h
      rcases hy : y.outcome u with ⟨e' | b, u'⟩
      · rw [hy] at hv hu hsame
        rw [outcome_bind_of_error hy]
        exact ⟨hv, hu, hsame⟩
      · rw [hy] at hsame
        exact hsame.elim
  · rw [hx] at hstage hgrows hknown hagain
    -- what the rest does first does not depend on the second run
    obtain ⟨hstage', hgrows', hknown', -⟩ := hnext False a a t' t' hstage hgrows (hknown a rfl)
      False.elim
    refine ⟨?_, ?_, ?_, fun hP h => ?_⟩
    all_goals rw [outcome_bind_of_ok hx]
    · exact hstage'
    · exact hgrows.trans hgrows'
    · exact hknown'
    · rw [outcome_bind_of_ok hx] at h
      obtain ⟨hv, hu, hsame⟩ := hagain hP (h.earlier hgrows')
      rcases hy : y.outcome u with ⟨e' | b, u'⟩
      · rw [hy] at hsame
        exact hsame.elim
      · rw [hy] at hv hu hsame
        rw [outcome_bind_of_ok hy]
        obtain ⟨hv', hu', hsame'⟩ := (hnext True a b t' u' hstage hgrows (hknown a rfl)
          fun _ => ⟨hP, hv, hu, hsame⟩).again trivial (h.later hu)
        exact ⟨hv', hu.trans hu', hsame'⟩

/-- Computations that look at the store. -/
theorem store {f g : Store → Infer β} (h : RepeatsIf P recent made s t v u (f t) (g u) Q') :
    RepeatsIf P recent made s t v u (Infer.store >>= f) (Infer.store >>= g) Q' :=
  ⟨h.stage, h.grows, h.known, h.again⟩

theorem ite {p p' : Prop} [Decidable p] [Decidable p'] {x' y' : Infer α} (hpp : P → (p ↔ p'))
    (h : p → RepeatsIf P recent made s t v u x y Q)
    (h' : ¬ p → RepeatsIf P recent made s t v u x' y' Q) :
    RepeatsIf P recent made s t v u (if p then x else x') (if p' then y else y') Q := by
  by_cases hp : p
  · obtain ⟨hstage, hgrows, hknown, hagain⟩ := h hp
    rw [if_pos hp]
    exact ⟨hstage, hgrows, hknown, fun hP => by rw [if_pos ((hpp hP).mp hp)]; exact hagain hP⟩
  · obtain ⟨hstage, hgrows, hknown, hagain⟩ := h' hp
    rw [if_neg hp]
    exact ⟨hstage, hgrows, hknown, fun hP => by
      rw [if_neg fun hp' => hp ((hpp hP).mpr hp')]; exact hagain hP⟩

section

variable {k k' : Kind} (hs : s.Stage t) (hv : P → v.Stage u)

include hs hv

/-- **Making a node** of replicas. -/
theorem make (hrecent : ∀ n, s.nodes.size ≤ n → recent n) (hk : ∀ c ∈ k.children, c < t.nodes.size)
    (hslot : ∀ slot, k.slot? = some slot → s.InHand t slot)
    (hslot' : P → ∀ slot, k'.slot? = some slot → v.InHand u slot)
    (hform : P → k.InOrder (u.Replicas made) k') :
    RepeatsIf P recent made s t v u (make k) (make k') .node := by
  obtain ⟨hstage, hgrows⟩ := hs.build hslot
  refine ⟨hstage, hgrows, fun n hn => ?_, fun hP h => ?_⟩
  · exact (Store.make_spec hs.sound (fun slot hkslot => (hslot slot hkslot).admits)
      (Prod.ext hn rfl)).present
  · obtain ⟨hstage', hgrows'⟩ := (hv hP).build (hslot' hP)
    refine ⟨hstage', hgrows', ?_⟩
    rw [outcome_make, outcome_make]
    rcases h.build hs (hv hP) hk hslot (hslot' hP) hrecent (hform hP) with
      ⟨fault, hfirst, hsecond⟩ | ⟨n, n', hfirst, hsecond, hsame⟩
    · rw [hfirst, hsecond]
      rfl
    · rw [hfirst, hsecond]
      exact hsame

/-- Making a node of a form without a slot. -/
theorem make_of_nodes (hrecent : ∀ n, s.nodes.size ≤ n → recent n)
    (hk : ∀ c ∈ k.children, c < t.nodes.size) (hslot : k.slot? = none) (hslot' : k'.slot? = none)
    (hform : P → k.InOrder (u.Replicas made) k') :
    RepeatsIf P recent made s t v u (Infer.make k) (Infer.make k') .node :=
  .make hs hv hrecent hk (fun _ h => nomatch hslot.symm.trans h)
    (fun _ _ h => nomatch hslot'.symm.trans h) hform

end

end RepeatsIf

end Infer

/-! ### Sets and unions -/

/-- Sorting related things by keys that compare alike. -/
theorem forall₂_stableSort {R : α → β → Prop} {le : α → α → Bool} {le' : β → β → Bool}
    (hle : ∀ a b a' b', R a b → R a' b' → le a a' = le' b b') {as : List α} {bs : List β}
    (h : List.Forall₂ R as bs) : List.Forall₂ R (stableSort le as) (stableSort le' bs) := by
  have hinsert : ∀ {a b as bs}, R a b → List.Forall₂ R as bs →
      List.Forall₂ R (insertBefore le a as) (insertBefore le' b bs) := by
    intro a b as bs hab h
    induction h with
    | nil => exact .cons hab .nil
    | @cons a' b' as bs hab' h ih =>
      rw [insertBefore, insertBefore, hle a b a' b' hab hab']
      split
      · exact .cons hab (.cons hab' h)
      · exact .cons hab' ih
  induction h with
  | nil => exact .nil
  | cons hab _ ih => exact hinsert hab ih

namespace Store

theorem distinctMembers_eq_addNew (s : Store) (ns : List NodeId) :
    s.distinctMembers ns = addNew (fun m n => s.equal m n = true) [] (ns.flatMap s.members) :=
  foldl_eq_addNew (fun _ _ => rfl) _ _

section

variable (hgrows : t.Grows u) (ht : t.Sound) (hu : u.Sound)

include hgrows ht hu

/-- The distinct ones among some candidates over replicas. -/
theorem addCandidates_again {cs cs' : List Candidate}
    (hcs : ∀ c ∈ cs, ∀ n ∈ c.children, n < t.nodes.size)
    (h : List.Forall₂ (Candidate.Alike (u.Replicas made)) cs cs') :
    List.Forall₂ (Candidate.Alike (u.Replicas made)) (t.addCandidates [] cs)
      (u.addCandidates [] cs') := by
  have hpresent : List.Forall₂ (fun c c' => (∀ n ∈ c.children, n < t.nodes.size) ∧
      c.Alike (u.Replicas made) c') cs cs' := forall₂_imp_mem h fun c hc _ _ hcc => ⟨hcs c hc, hcc⟩
  rw [addCandidates_eq_addNew, addCandidates_eq_addNew]
  refine (addNew_forall₂ (fun c c' d d' hc hd => ?_) hpresent .nil).imp fun _ _ => And.right
  rw [equalCandidates_of_replicas hgrows ht hu hc.1 hd.1 hc.2 hd.2]

/-- The distinct members of a union of replicas. -/
theorem distinctMembers_again {ns ns' : List NodeId} (hns : ∀ n ∈ ns, n < t.nodes.size)
    (h : List.Forall₂ (u.Replicas made) ns ns') :
    List.Forall₂ (fun a b => a < t.nodes.size ∧ u.Replicas made a b) (t.distinctMembers ns)
      (u.distinctMembers ns') := by
  have hmembers : List.Forall₂ (fun a b => a < t.nodes.size ∧ u.Replicas made a b)
      (ns.flatMap t.members) (ns'.flatMap u.members) := by
    refine List.rel_flatMap (forall₂_imp_mem h fun n hn _ _ hnn => (⟨hns n hn, hnn⟩ :
      n < t.nodes.size ∧ u.Replicas made n _)) fun a b ⟨ha, hab⟩ => ?_
    have hform := hab.kind hu
    have hbelow : ∀ c ∈ (t.kind a).children, c < t.nodes.size := fun c hc => ht.child_lt hc
    rw [hgrows.kind_eq ha] at hform
    rw [members, members]
    generalize t.kind a = k, u.kind b = k' at hform hbelow
    cases hform with
    | union h => exact forall₂_imp_mem h fun m hm _ _ hmm => ⟨hbelow m hm, hmm⟩
    | _ => exact .cons ⟨ha, hab⟩ .nil
  rw [distinctMembers_eq_addNew, distinctMembers_eq_addNew]
  refine addNew_forall₂ (fun a a' b b' ha hb => ?_) hmembers .nil
  rw [equal_of_replicas hgrows ht hu ha.1 hb.1 ha.2 hb.2]

end

/-- Members in the order of their texts. -/
theorem sortMembers_again (hgrows : t.Grows u) (ht : t.Reachable) (hu : u.Sound)
    {ms ms' : List NodeId}
    (h : List.Forall₂ (fun a b => a < t.nodes.size ∧ u.Replicas made a b) ms ms') :
    List.Forall₂ (u.Replicas made) (t.sortMembers ms) (u.sortMembers ms') := by
  have hkeyed : List.Forall₂ (fun x y => x.1 = y.1 ∧ u.Replicas made x.2 y.2)
      (ms.map fun m => (t.render m, m)) (ms'.map fun m => (u.render m, m)) := by
    refine List.rel_map (fun a b ⟨ha, hab⟩ => ?_) h
    exact ⟨render_of_replicas hgrows ht hu ha hab, hab⟩
  rw [sortMembers, sortMembers]
  refine List.forall₂_map_left_iff.mpr (List.forall₂_map_right_iff.mpr ?_)
  refine (forall₂_stableSort (fun x y x' y' hxy hxy' => ?_) hkeyed).imp fun _ _ => And.right
  rw [hxy.1, hxy'.1]

theorem Stage.token (hs : s.Stage t) : s.Stage { t with tokens := t.tokens + 1 } where
  grows := hs.grows.trans (grows_token t)
  reachable := .step .token hs.reachable trivial
  sets := hs.sets

end Store

namespace Infer.RepeatsIf

/-- **Making a set** of candidates over replicas; it is not the old set, whose token is older. -/
theorem possibilitiesOf {old : Slot} {cs cs' : List Candidate} (hs : s.Stage t)
    (hv : P → v.Stage u) (hold : t.AdmitsSlot old)
    (hcs : ∀ c ∈ cs, ∀ n ∈ c.children, n < t.nodes.size)
    (hform : P → List.Forall₂ (Candidate.Alike (u.Replicas made)) cs cs') :
    RepeatsIf P recent made s t v u (possibilitiesOf cs) (possibilitiesOf cs')
      ((Likeness.slot old).comap .possibilities) := by
  by_cases hempty : cs = []
  · subst hempty
    refine ⟨hs, .refl t, nofun, fun hP _ => ?_⟩
    cases hform hP
    exact ⟨hv hP, .refl u, rfl⟩
  -- a set that is made has a new token, and different candidates
  have hmade : ∀ {s t : Store} {cs : List Candidate}, s.Stage t →
      s.InHand { t with tokens := t.tokens + 1 }
        (.possibilities ⟨t.tokens, t.addCandidates [] cs⟩) := by
    rintro s t cs hs p ⟨⟩
    exact ⟨hs.sound.admits_new (Store.nodup_addCandidates .nil), .inr hs.grows.tokens⟩
  have hother : ∀ {u : Store} {cs}, t.tokens ≤ u.tokens →
      ¬ Slot.possibilities ⟨u.tokens, cs⟩ = old := by
    rintro u cs htokens rfl
    exact absurd (hold _ rfl).issued (Nat.not_lt.mpr htokens)
  have hkept : ∀ c ∈ t.addCandidates [] cs, c ∈ cs := fun c hc =>
    (t.thinned_addCandidates cs).sublist.subset hc
  refine ⟨?_, ?_, ?_, fun hP h => ?_⟩
  all_goals rw [outcome_possibilitiesOf_thinned hempty]
  · exact hs.token
  · exact t.grows_token
  · rintro _ ⟨⟩
    refine ⟨fun n hn => ?_, hmade hs⟩
    obtain ⟨c, hc, hcn⟩ := List.mem_flatMap.mp hn
    exact hcs c (hkept c hc) n hcn
  · rw [outcome_possibilitiesOf_thinned hempty] at h
    have hgrows : t.Grows u := t.grows_token.trans h.grows
    have hempty' : cs' ≠ [] := fun hnil => hempty (List.forall₂_nil_right_iff.mp (hnil ▸ hform hP))
    rw [outcome_possibilitiesOf_thinned hempty']
    refine ⟨(hv hP).token, u.grows_token, .possibilities ?_, ?_, hmade (hv hP)⟩
    · refine (Store.addCandidates_again hgrows hs.sound (hv hP).sound hcs (hform hP)).imp ?_
      exact fun _ _ hcd => hcd.imp fun _ _ _ _ => u.grows_token.replicas (hv hP).sound
    · exact iff_of_false (hother le_rfl) (hother hgrows.tokens)

/-- **The union of replicas.** -/
theorem union {ns ns' : List NodeId} (hs : s.Stage t) (hv : P → v.Stage u)
    (hrecent : ∀ n, s.nodes.size ≤ n → recent n) (hns : ∀ n ∈ ns, n < t.nodes.size)
    (hform : P → List.Forall₂ (u.Replicas made) ns ns') :
    RepeatsIf P recent made s t v u (union ns) (union ns') .node := by
  suffices hboth : ∀ {v u : Store} {ns' : List NodeId}, v.Stage u → t.Grows u →
      List.Forall₂ (u.Replicas made) ns ns' →
        RepeatsIf True recent made s t v u (Infer.union ns) (Infer.union ns') .node by
    have hself : List.Forall₂ (t.Replicas made) ns ns :=
      List.forall₂_same.mpr fun n hn => .refl (hns n hn)
    exact .intro (hboth hs (.refl t) hself) fun hP hgrows =>
      (hboth (hv hP) hgrows (hform hP)).imp fun _ => trivial
  intro v u ns' hv hgrows hform
  have hmembers := Store.distinctMembers_again hgrows hs.sound hv.sound hns hform
  refine .store ?_
  generalize t.distinctMembers ns = ds, u.distinctMembers ns' = ds' at hmembers
  rcases hmembers with _ | ⟨ha, _ | ⟨hb, hrest⟩⟩
  · exact .throw _ hs fun _ => hv
  · exact .pure hs (fun _ => hv) ha.1 fun _ _ => ha.2
  · have hseveral : List.Forall₂ (fun a b => a < t.nodes.size ∧ u.Replicas made a b) _ _ :=
      .cons ha (.cons hb hrest)
    have hsorted := Store.sortMembers_again hgrows hs.reachable hv.sound hseveral
    refine .make hs (fun _ => hv) hrecent (fun c hc => ?_) nofun (fun _ => nofun) fun _ =>
      .union hsorted
    obtain ⟨d, -, hcd, -⟩ := exists_of_forall₂ hseveral c ((t.sortMembers_perm _).mem_iff.mp hc)
    exact hcd

end Infer.RepeatsIf

/-! ### Handlers -/

/-- The second handler repeats the first one: they ask for the same, and if they are told outcomes
that are alike they go on so, until what they compute is alike.  The handlers are part of
computations that began in `s` and in `v`. -/
inductive Handler.Repeats {nodes : List NodeId} {slots : List Slot} {refs : List FunctionRef}
    (recent made : NodeId → Prop) (s v : Store) (Q : Likeness α) :
    Store → Store → Handler nodes slots refs α → Handler nodes slots refs α → Prop
  | result {t u : Store} {x y : Infer α} {hx : x.Leaves} {hy : y.Leaves} :
      Infer.RepeatsIf True recent made s t v u x y Q →
        Repeats recent made s v Q t u (.result x hx) (.result y hy)
  | visit {t u : Store} {n : NodeId} {hn : n ∈ nodes}
      {next next' : Except InferError NodeId → Handler nodes slots refs α} :
      (∀ t' u' r r', t.Stage t' → u.Stage u' → Likeness.node.outcome.known s t' r →
        Likeness.node.outcome.same made v u' r r' →
          Repeats recent made s v Q t' u' (next r) (next' r')) →
        Repeats recent made s v Q t u (.visit n hn next) (.visit n hn next')
  | slot {t u : Store} {w : Slot} {hw : w ∈ slots}
      {next next' : Except InferError Slot → Handler nodes slots refs α} :
      (∀ t' u' r r', t.Stage t' → u.Stage u' → (Likeness.slot w).outcome.known s t' r →
        (Likeness.slot w).outcome.same made v u' r r' →
          Repeats recent made s v Q t' u' (next r) (next' r')) →
        Repeats recent made s v Q t u (.slot w hw next) (.slot w hw next')
  | ref {t u : Store} {f : FunctionRef} {hf : f ∈ refs}
      {next next' : Except InferError FunctionRef → Handler nodes slots refs α} :
      (∀ t' u' r r', t.Stage t' → u.Stage u' → Likeness.ref.outcome.known s t' r →
        Likeness.ref.outcome.same made v u' r r' →
          Repeats recent made s v Q t' u' (next r) (next' r')) →
        Repeats recent made s v Q t u (.ref f hf next) (.ref f hf next')

/-- Pure handlers depend on nothing but what they handle and the results below it: run again in a
later store, on replicas of these results, they repeat themselves.  What they handle is not made by
the computations itself. -/
structure Handlers.Pure (h : Handlers) : Prop where
  node {k : Kind} {n : NodeId} {handler : Handler k.children k.slot?.toList k.refs NodeId}
    {recent made : NodeId → Prop} {t u : Store} : h.node k n = some handler → t.Reachable →
      u.Reachable → t.Grows u → n < t.nodes.size → t.kind n = k → ¬ made n →
      (∀ c ∈ k.children, ¬ made c) → (∀ m, t.nodes.size ≤ m → recent m) →
        handler.Repeats recent made t u .node t u handler
  slot {w : Slot} {handler : Handler w.children [] w.refs Slot} {recent made : NodeId → Prop}
    {t u : Store} : h.slot w = some handler → t.Reachable → u.Reachable → t.Grows u →
      (∀ c ∈ w.children, c < t.nodes.size ∧ ¬ made c) → t.InHand t w → u.InHand u w →
      (∀ m, t.nodes.size ≤ m → recent m) → handler.Repeats recent made t u (.slot w) t u handler
  ref {f : FunctionRef} {handler : Handler f.children [] f.applied FunctionRef}
    {recent made : NodeId → Prop} {t u : Store} : h.ref f = some handler → t.Reachable →
      u.Reachable → t.Grows u → (∀ c ∈ f.children, c < t.nodes.size ∧ ¬ made c) →
      (∀ m, t.nodes.size ≤ m → recent m) → handler.Repeats recent made t u .ref t u handler

end ValueInference
