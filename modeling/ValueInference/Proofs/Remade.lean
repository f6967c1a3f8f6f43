/-
Forms that are placed again.

A computation that is run again, in a later store, comes to forms over replicas of the nodes that it
had the first time.  Such a form has the same faults and the same number.  If all nodes in it are
interned the node that it got is found again, and otherwise it gets a new node, which is a replica
of the one that it got.

* **`Store.Stage`** — a store that comes up in a computation;
* **`Store.InHand`** — a slot that a computation may bring in;
* **`Store.Replay`** — a later store, where what was done is done again;
* **`Store.fault?_eq`** — a form has the same faults again;
* **`Store.Replay.build`** — it is built again, into a replica.
-/
import ValueInference.Proofs.Canonical
import ValueInference.Proofs.Replicas

namespace ValueInference

section

variable {R : NodeId → NodeId → Prop}

theorem Slot.InOrder.pendings {v w : Slot} (h : v.InOrder R w) : w.pendings = v.pendings := by
  cases h <;> rfl

theorem Kind.InOrder.pendings {k k' : Kind} (h : k.InOrder R k') : k'.pendings = k.pendings := by
  cases h with
  | scalar ty h => exact h.pendings
  | function h => exact h.pendings
  | _ => rfl

theorem Kind.InOrder.isUnion {k k' : Kind} (h : k.InOrder R k') : k'.isUnion = k.isUnion := by
  cases h <;> rfl

theorem Candidate.Alike.isFunction {c d : Candidate} (h : c.Alike R d) :
    c.function?.isSome = d.function?.isSome := by
  cases c with
  | constant x => cases d with
    | constant y => rfl
    | function g => exact h.elim
  | function f => cases d with
    | constant y => exact h.elim
    | function g => rfl

/-- In the same form over the same nodes there are the same candidates. -/
theorem Kind.InOrder.coherent {k k' : Kind} (h : k.InOrder (· = ·) k') : k.Coherent k' := by
  have hslot : ∀ {v w : Slot}, v.InOrder (· = ·) w → v.Coherent w := by
    rintro v w h p q rfl rfl -
    cases h with
    | possibilities h =>
      exact List.forall₂_eq_eq_eq ▸ h.imp fun _ _ => Candidate.alike_eq.mp
  intro v w hv hw
  cases h with
  | scalar ty h => cases hv; cases hw; exact hslot h
  | function h => cases hv; cases hw; exact hslot h
  | _ => exact nomatch hv

/-- What holds of the things in one list holds of the related things in the other one. -/
theorem forall_mem_iff_of_forall₂ {α β : Type} {S : α → β → Prop} {P : α → Prop} {Q : β → Prop}
    {as : List α} {bs : List β} (h : List.Forall₂ S as bs) (hPQ : ∀ a b, S a b → (P a ↔ Q b)) :
    (∀ a ∈ as, P a) ↔ ∀ b ∈ bs, Q b := by
  constructor
  · intro has b hb
    obtain ⟨a, ha, hab⟩ := exists_of_forall₂ h.flip b hb
    exact (hPQ a b hab).mp (has a ha)
  · intro hbs a ha
    obtain ⟨b, hb, hab⟩ := exists_of_forall₂ h a ha
    exact (hPQ a b hab).mpr (hbs b hb)

/-- Fields with the same labels. -/
theorem labels_eq {β : Type} {xs ys : List (β × NodeId)} (h : List.Forall₂ (SameLabel R) xs ys) :
    ys.map Prod.fst = xs.map Prod.fst :=
  (map_eq_of_forall₂ (fun _ _ hxy => hxy.1) h).symm

end

namespace Store

variable {s s' t t' u u' v : Store} {made recent : NodeId → Prop} {k k' : Kind} {slot : Slot}
  {a b m n : NodeId}

/-! ### Stages of a computation -/

/-- The second store comes up in a computation that began in the first one: there are more nodes,
and the sets in them were there or have been made since. -/
structure Stage (s t : Store) : Prop where
  grows : s.Grows t
  reachable : t.Reachable
  sets : ∀ p, t.HoldsSet p → s.HoldsSet p ∨ s.tokens ≤ p.token

namespace Stage

theorem refl (hs : s.Reachable) : s.Stage s := ⟨.refl s, hs, fun _ => .inl⟩

theorem sound (h : s.Stage t) : t.Sound := h.reachable.sound

theorem trans (h : s.Stage t) (h' : t.Stage u) : s.Stage u where
  grows := h.grows.trans h'.grows
  reachable := h'.reachable
  sets p hp := (h'.sets p hp).elim (h.sets p) fun hnew => .inr (h.grows.tokens.trans hnew)

end Stage

/-- A slot that a computation from the first store has got in the second one: its set may be brought
in, and it was there or has been made since. -/
def InHand (s t : Store) (slot : Slot) : Prop :=
  ∀ p, slot = .possibilities p → t.AdmitsSet p ∧ (s.HoldsSet p ∨ s.tokens ≤ p.token)

namespace InHand

theorem admits (h : s.InHand t slot) : t.AdmitsSlot slot := fun p hp => (h p hp).1

/-- What goes on meanwhile brings in sets of its own only. -/
theorem later (h : s.InHand t slot) (ht : t.Stage t') : s.InHand t' slot := fun p hp => by
  obtain ⟨hadmits, hset⟩ := h p hp
  refine ⟨⟨hadmits.issued.trans_le ht.grows.tokens, hadmits.distinct, fun q hq htoken => ?_⟩, hset⟩
  rcases ht.sets q hq with hold | hnew
  · exact hadmits.coherent q hold htoken
  · exact absurd hadmits.issued (Nat.not_lt.mpr (htoken ▸ hnew))

/-- What a part of a computation has got, the whole computation has. -/
theorem within (h : s'.InHand t slot) (hs : s.Stage s') : s.InHand t slot := fun p hp =>
  ⟨(h p hp).1, (h p hp).2.elim (hs.sets p) fun hnew => .inr (hs.grows.tokens.trans hnew)⟩

/-- A slot in a node. -/
theorem of_held (hs : s.Sound) (h : (s.kind n).slot? = some slot) : s.InHand s slot := by
  rintro p rfl
  exact ⟨hs.sets p (.inl ⟨n, h⟩), .inl (.inl ⟨n, h⟩)⟩

end InHand

theorem Filed.holdsSet {d : Option Nat} {i : Bool} {p : Possibilities} (h : s.Filed n k d i t)
    (hp : t.HoldsSet p) : s.HoldsSet p ∨ k.slot? = some (.possibilities p) := by
  rcases hp with ⟨m, hm⟩ | ⟨q, hq⟩
  · by_cases hmn : m = n
    · rw [hmn, h.kind_eq] at hm
      exact .inr hm
    · rw [h.kind_of_ne hmn] at hm
      exact .inl (.inl ⟨m, hm⟩)
  · rw [result?, pendingStatus, h.pendings] at hq
    exact .inl (.inr ⟨q, hq⟩)

/-- **A node is built** of what the computation has. -/
theorem Stage.build (h : s.Stage t) (hk : ∀ slot, k.slot? = some slot → s.InHand t slot) :
    s.Stage (t.build k).2 ∧ t.Grows (t.build k).2 := by
  have hreachable : (t.build k).2.Reachable :=
    .step (.build k) h.reachable fun slot hslot => (hk slot hslot).admits
  revert hreachable
  rw [Store.build]
  split
  · exact fun _ => ⟨h, .refl t⟩
  rcases hplace : t.place k with ⟨n, t'⟩
  intro hreachable
  rcases place_cases h.sound.interned hplace with ⟨rfl, -⟩ | ⟨rfl, d, i, hfiled⟩
  · exact ⟨h, .refl t'⟩
  · have hgrows := hfiled.grows rfl
    refine ⟨⟨h.grows.trans hgrows, hreachable, fun p hp => ?_⟩, hgrows⟩
    exact (hfiled.holdsSet hp).elim (h.sets p) fun hslot => (hk _ hslot p rfl).2

/-! ### Later stores -/

/-- The second store comes after the first one, and what was done may be done again in it: what was
made of late, and all that is yet to be made, is counted among what was made. -/
structure Replay (recent made : NodeId → Prop) (t u : Store) : Prop where
  grows : t.Grows u
  before : ∀ n < t.nodes.size, recent n → made n
  after : ∀ n, u.nodes.size ≤ n → made n

namespace Replay

theorem earlier (h : Replay recent made t' u) (ht : t.Grows t') : Replay recent made t u where
  grows := ht.trans h.grows
  before n hn := h.before n (hn.trans_le ht.size_le)
  after := h.after

theorem later (h : Replay recent made t u) (hu : u.Grows u') : Replay recent made t u' where
  grows := h.grows.trans hu
  before := h.before
  after n hn := h.after n (hu.size_le.trans hn)

end Replay

/-! ### Faults -/

section

variable (hgrows : t.Grows u) (ht : t.Reachable) (hu : u.Sound)

include hgrows ht hu

/-- Replicas have the text that the first ones have had. -/
theorem render_of_replicas (ha : a < t.nodes.size) (hab : u.Replicas made a b) :
    t.render a = u.render b := by
  rw [← hgrows.render_eq ht.capped ha, hab.render_eq hu]

/-- The texts of candidates, again. -/
theorem render_candidate {c d : Candidate} (hc : ∀ n ∈ c.children, n < t.nodes.size)
    (h : c.Alike (u.Replicas made) d) : c.render t.render = d.render u.render := by
  have hnow : c.Alike (fun x y => u.Replicas made x y ∧ x < t.nodes.size) d :=
    h.imp fun x hx y _ hxy => ⟨hxy, hc x hx⟩
  exact hnow.render fun x y hxy => render_of_replicas hgrows ht hu hxy.2 hxy.1

variable {v w : Slot}

/-- What is wrong with one candidate of a scalar. -/
def candidateFault? (s : Store) (ty : Ty) : Candidate → Option Fault
  | .constant c => if c.fits ty then none else some (.candidateMisfit c.render ty)
  | .function f => some (.candidateMisfit (s.renderFunctionRef f) ty)

theorem valueFault?_eq {ty : Ty} (hv : ∀ n ∈ v.children, n < t.nodes.size)
    (h : v.InOrder (u.Replicas made) w) : u.valueFault? w ty = t.valueFault? v ty := by
  cases h with
  | @possibilities p q h =>
    -- each candidate is checked by itself
    have hcheck : p.candidates.map (t.candidateFault? ty) =
        q.candidates.map (u.candidateFault? ty) := by
      refine map_eq_of_forall₂ (fun c d hcd => ?_) (forall₂_imp_mem h fun c hc d _ hcd =>
        (⟨fun n hn => hv n (List.mem_flatMap_of_mem hc hn), hcd⟩ :
          (∀ n ∈ c.children, n < t.nodes.size) ∧ c.Alike (u.Replicas made) d))
      have htext := render_candidate hgrows ht hu hcd.1 hcd.2
      cases c with
      | constant x => cases d with
        | constant y => obtain rfl : x = y := hcd.2; rfl
        | function g => exact hcd.2.elim
      | function f => cases d with
        | constant y => exact hcd.2.elim
        | function g => exact congrArg (fun text => some (Fault.candidateMisfit text ty)) htext
    show q.candidates.findSome? (id ∘ u.candidateFault? ty) =
      p.candidates.findSome? (id ∘ t.candidateFault? ty)
    rw [← List.findSome?_map, ← List.findSome?_map, hcheck]
  | _ => rfl

theorem optionsFault?_eq (hv : ∀ n ∈ v.children, n < t.nodes.size)
    (h : v.InOrder (u.Replicas made) w) : u.optionsFault? w = t.optionsFault? v := by
  cases h with
  | @possibilities p q h =>
    have htext : t.renderPossibilities p = u.renderPossibilities q := by
      refine render_possibilities (R := fun x y => u.Replicas made x y ∧ x < t.nodes.size)
        (fun x y hxy => render_of_replicas hgrows ht hu hxy.2 hxy.1)
        (forall₂_imp_mem h fun c hc d _ hcd => hcd.imp fun x hx y _ hxy => ⟨hxy, hv x ?_⟩)
      exact List.mem_flatMap_of_mem hc hx
    have hfunctions : (q.candidates.all fun c => c.function?.isSome) =
        p.candidates.all fun c => c.function?.isSome := by
      show q.candidates.all (id ∘ fun c => c.function?.isSome) =
        p.candidates.all (id ∘ fun c => c.function?.isSome)
      rw [← List.all_map, ← List.all_map,
        map_eq_of_forall₂ (R := Candidate.Alike _) (fun _ _ => Candidate.Alike.isFunction) h]
    rw [optionsFault?, optionsFault?, hfunctions, htext]
  | _ => rfl

/-- **A form over replicas has the same faults.** -/
theorem fault?_eq (hk : ∀ n ∈ k.children, n < t.nodes.size) (h : k.InOrder (u.Replicas made) k') :
    u.fault? k' = t.fault? k := by
  have hknows : u.knows k' = t.knows k := by
    rw [Bool.eq_iff_iff, knows_iff, knows_iff, h.pendings, hgrows.pendings]
    refine and_congr_left fun _ => iff_of_true (fun n hn => ?_) hk
    obtain ⟨m, -, hmn⟩ := exists_of_forall₂ h.children.flip n hn
    exact hmn.right_lt
  have hunion : ∀ {a b : NodeId}, a < t.nodes.size → u.Replicas made a b →
      (t.kind a).isUnion = (u.kind b).isUnion := by
    intro a b ha hab
    rw [(hab.kind hu).isUnion, hgrows.kind_eq ha]
  unfold fault?
  rw [hknows]
  split
  · rfl
  cases h with
  | scalar ty h => exact valueFault?_eq hgrows ht hu hk h
  | record tag h =>
    dsimp only
    rw [labels_eq h]
  | @union as bs h =>
    have hmembers : as.map (fun n => (t.kind n).isUnion) = bs.map fun n => (u.kind n).isUnion :=
      map_eq_of_forall₂ (R := fun a b => a < t.nodes.size ∧ u.Replicas made a b)
        (fun a b hab => hunion hab.1 hab.2) (forall₂_imp_mem h fun a ha b _ hab => ⟨hk a ha, hab⟩)
    have hany : (bs.any fun n => (u.kind n).isUnion) = as.any fun n => (t.kind n).isUnion := by
      show bs.any (id ∘ fun n => (u.kind n).isUnion) = as.any (id ∘ fun n => (t.kind n).isUnion)
      rw [← List.any_map, ← List.any_map, hmembers]
    dsimp only
    rw [h.length_eq, hany]
  | @tagged xs ys h =>
    dsimp only
    rw [labels_eq h]
    cases h <;> rfl
  | function h => exact optionsFault?_eq hgrows ht hu hk h
  | _ => rfl

end

/-! ### Numbers -/

theorem Grows.content_eq (h : t.Grows u) (hk : ∀ n ∈ k.children, n < t.nodes.size) :
    u.content k = t.content k :=
  content_congr (fun n hn => h.digest_eq (hk n hn)) fun p _ => by
    rw [pendingNumber, h.pendings, pendingNumber]

theorem content_of_inOrder (hu : u.Sound) (h : k.InOrder (u.Replicas made) k') :
    u.content k' = u.content k := by
  rw [Store.content_eq, Store.content_eq]
  refine (h.relabel (fun a b hab => ?_) u.pendingNumber).symm
  rw [hab.digest_eq hu]

/-- A form whose number a node has, has that number later. -/
theorem digestOf_again {d : Nat} (hgrows : t.Grows u) (ht : t.Sound) (hu : u.Sound)
    (hn : t.digest n = some d) (hk : ∀ n ∈ k.children, n < t.nodes.size)
    (hd : (t.digestOf k).1 = d) : (u.digestOf k).1 = d := by
  have hpresent : n < t.nodes.size := by
    by_contra habsent
    rw [digest, Array.getElem?_eq_none (Nat.not_lt.mp habsent)] at hn
    cases hn
  have hnow := (ht.numbered n d hn).1
  have hlater := (hu.numbered n d ((hgrows.digest_eq hpresent).trans hn)).1
  rw [hgrows.kind_eq hpresent, digestOf, hgrows.content_eq fun c hc => ht.child_lt hc] at hlater
  rw [digestOf, hgrows.content_eq hk]
  have hcontents := Contents.number_congr (Contents.reordered_of_number hnow hd) u.contents
  rw [← hcontents, hlater]

/-! ### Places -/

section

variable (hgrows : t.Grows u) (ht : t.Sound)
  (hadmits : ∀ slot, k.slot? = some slot → t.AdmitsSlot slot)
  (hadmits' : ∀ slot, k'.slot? = some slot → u.AdmitsSlot slot)
  (hk : ∀ c ∈ k.children, t.isInterned c = true) (h : k.InOrder (· = ·) k')

include hgrows ht hadmits hadmits' hk h

/-- Comparing an interned node with the same form over interned nodes gives the same again. -/
theorem equalKinds_again (hm : t.isInterned m = true) :
    u.equalKinds (u.kind m) k' = t.equalKinds (t.kind m) k := by
  have hkept : ∀ {c}, t.isInterned c = true → u.isInterned c = true := fun hc => by
    rwa [hgrows.isInterned_eq (lt_of_isInterned hc)]
  have hchildren : k.children = k'.children := List.forall₂_eq_eq_eq ▸ h.children
  have hform := hgrows.kind_eq (lt_of_isInterned hm)
  have hbelow := (ht.interned m hm).2
  rw [Bool.eq_iff_iff, equalKinds_interned (hform ▸ fun c hc => hkept (hbelow c hc))
    (hchildren ▸ fun c hc => hkept (hk c hc)), equalKinds_interned hbelow hk, hform]
  have hcomp : ∀ {j₁ j₂ j₃ : Kind}, j₁.Coherent j₂ → j₂.Coherent j₃ → j₁.Alike (· = ·) j₂ →
      j₂.Alike (· = ·) j₃ → j₁.Alike (· = ·) j₃ := fun h₁ h₂ h h' =>
    (h.comp h₁ h₂ (fun _ _ => rfl) (fun _ _ => rfl) h').imp fun _ _ _ _ ⟨_, hab, hbc⟩ => hab.trans hbc
  have hback : k'.InOrder (· = ·) k := h.symm.imp fun _ _ _ _ => Eq.symm
  constructor
  · exact fun halike => hcomp (hform ▸ sets_coherent hadmits' m) hback.coherent halike hback.alike
  · exact fun halike => hcomp (sets_coherent hadmits m) h.coherent halike h.alike

/-- The node that has a form is found for it again. -/
theorem interned?_again {d : Nat} (hn : t.interned? d k = some n) : u.interned? d k' = some n := by
  obtain ⟨hfound, hrange, hbefore⟩ := List.find?_range_eq_some.mp hn
  have hsame : ∀ m, m < t.nodes.size →
      (u.isInterned m && u.digest m == some d && u.equalKinds (u.kind m) k') =
        (t.isInterned m && t.digest m == some d && t.equalKinds (t.kind m) k) := by
    intro m hm
    rw [hgrows.isInterned_eq hm, hgrows.digest_eq hm]
    cases hshared : t.isInterned m with
    | false => rw [Bool.false_and, Bool.false_and, Bool.false_and]
    | true => rw [equalKinds_again hgrows ht hadmits hadmits' hk h hshared]
  have hlt := List.mem_range.mp hrange
  refine List.find?_range_eq_some.mpr ⟨(hsame n hlt).trans hfound, ?_, fun m hm => ?_⟩
  · exact List.mem_range.mpr (hlt.trans_le hgrows.size_le)
  · rw [hsame m (hm.trans hlt)]
    exact hbefore m hm

end

/-- **A form over interned nodes** has a node that is found for it. -/
theorem place_shared (hs : s.Sound) (hk : ∀ c ∈ k.children, s.isInterned c = true)
    (h : s.place k = (n, t)) :
    t.interned? (t.digestOf k).1 k = some n ∧ t.digest n = some (t.digestOf k).1 := by
  rw [place, if_pos (List.all_eq_true.mpr hk)] at h
  rcases hnum : s.digestOf k with ⟨d, contents⟩
  simp only [hnum] at h
  split at h
  · next m hm =>
    cases h
    rw [hnum]
    have hfound := List.find?_some hm
    simp only [Bool.and_eq_true, beq_iff_eq] at hfound
    exact ⟨hm, hfound.1.2⟩
  next hnone =>
  cases h
  have hfiled : s.Filed s.nodes.size k (some d) true
      { s with contents, nodes := s.nodes.push ⟨some k, some d, true⟩ } := by
    refine .push (fun x hx => ?_) (by simp) fun _ => ⟨hk, d, rfl, hnone⟩
    cases hx
    exact ⟨hnum, fun c hc => (hs.interned c (hk c hc)).1⟩
  generalize ({ s with contents, nodes := s.nodes.push ⟨some k, some d, true⟩ } : Store) = t at hfiled
  have hgrows := hfiled.grows rfl
  have hkept : ∀ {c}, s.isInterned c = true → t.isInterned c = true := fun hc => by
    rwa [hgrows.isInterned_eq (lt_of_isInterned hc)]
  have hd : (t.digestOf k).1 = d := by
    rw [digestOf, hgrows.content_eq fun c hc => lt_of_isInterned (hk c hc),
      Contents.number_again (hfiled.numbered d rfl).1]
  rw [hd]
  refine ⟨List.find?_range_eq_some.mpr ⟨?_, ?_, fun m hm => ?_⟩, hfiled.digest_eq⟩
  · rw [hfiled.isInterned_eq, hfiled.digest_eq, hfiled.kind_eq,
      (equalKinds_interned (fun c hc => hkept (hk c hc)) fun c hc => hkept (hk c hc)).mpr
        (.refl fun _ _ => rfl)]
    simp
  · exact List.mem_range.mpr (present_of_isComplete hfiled.isComplete_eq)
  · -- the nodes that were there are no such nodes
    have hbefore := List.find?_eq_none.mp hnone m (List.mem_range.mpr hm)
    rw [hgrows.isInterned_eq hm, hgrows.digest_eq hm, hgrows.kind_eq hm]
    cases hshared : s.isInterned m with
    | false => rfl
    | true =>
      have hbelow := (hs.interned m hshared).2
      rw [hshared] at hbefore
      have hsame : t.equalKinds (s.kind m) k = s.equalKinds (s.kind m) k := by
        rw [Bool.eq_iff_iff, equalKinds_interned hbelow hk,
          equalKinds_interned (fun c hc => hkept (hbelow c hc)) fun c hc => hkept (hk c hc)]
      rw [hsame]
      simpa [imp_iff_not_or] using hbefore

theorem place_of_interned? (hk : ∀ c ∈ k.children, s.isInterned c = true)
    (h : s.interned? (s.digestOf k).1 k = some n) : s.place k = (n, s) := by
  rw [place, if_pos (List.all_eq_true.mpr hk)]
  rcases hnum : s.digestOf k with ⟨d, contents⟩
  rw [hnum] at h
  simp only [h]

/-- **Any other form** gets a new node, with a number if the nodes in it have numbers. -/
theorem place_unshared (hk : ¬ ∀ c ∈ k.children, s.isInterned c = true) :
    ∃ d t, s.place k = (s.nodes.size, t) ∧ s.Filed s.nodes.size k d false t ∧
      ∀ x, d = some x ↔ (∀ c ∈ k.children, (s.digest c).isSome) ∧ (s.digestOf k).1 = x := by
  rw [place, if_neg fun hall => hk (List.all_eq_true.mp hall)]
  split
  · next hall =>
    have hall := List.all_eq_true.mp hall
    rcases hnum : s.digestOf k with ⟨d, contents⟩
    refine ⟨some d, _, rfl, .push (fun x hx => ?_) (by simp) (by simp), fun x => ?_⟩
    · cases hx
      exact ⟨hnum, hall⟩
    · exact ⟨fun hx => ⟨hall, Option.some.inj hx⟩, fun hx => congrArg some hx.2⟩
  · next hall =>
    refine ⟨none, _, rfl, .push (by simp) (fun _ => rfl) (by simp), fun x => ?_⟩
    exact iff_of_false (by simp) fun hx => hall (List.all_eq_true.mpr hx.1)

/-! ### Building again -/

/-- A node that a computation has just placed for itself. -/
theorem Filed.own {d : Option Nat} (hs : s.Reachable) (h : s.Filed s.nodes.size k d false t)
    (hk : ∀ c ∈ k.children, c < s.nodes.size) (hmade : made s.nodes.size) :
    t.Own made s.nodes.size where
  toCapped := (h.grows rfl).capped hs.capped le_rfl
  above := by
    rw [h.kind_eq]
    exact hk
  isMade := hmade
  unshared := h.isInterned_eq

section

variable (ht : t.Reachable) (ht' : t'.Reachable) (hu : u.Reachable) (hmore : t.Grows t')
  (hform : k.InOrder (u.Replicas made) k') (hplace : t.place k = (n, t'))

include ht ht' hu hmore hform hplace

/-- The node of a form over interned nodes is found again. -/
theorem place_shared_again (hgrows : t'.Grows u)
    (hadmits : ∀ slot, k.slot? = some slot → t.AdmitsSlot slot)
    (hadmits' : ∀ slot, k'.slot? = some slot → u.AdmitsSlot slot)
    (hshared : ∀ c ∈ k.children, t.isInterned c = true) :
    n < t'.nodes.size ∧ u.place k' = (n, u) := by
  have hkept : ∀ {c}, t.isInterned c = true → t'.isInterned c = true := fun hc => by
    rwa [hmore.isInterned_eq (lt_of_isInterned hc)]
  have hshared' : ∀ c ∈ k.children, t'.isInterned c = true := fun c hc => hkept (hshared c hc)
  have hsame : k.InOrder (· = ·) k' := hform.imp fun a ha b _ hab => by
    refine hab.eq_of_isInterned hu.sound ?_
    rw [hgrows.isInterned_eq (lt_of_isInterned (hshared' a ha))]
    exact hshared' a ha
  have hchildren : k.children = k'.children := List.forall₂_eq_eq_eq ▸ hsame.children
  have hadmits : ∀ slot, k.slot? = some slot → t'.AdmitsSlot slot := by
    intro slot hslot
    rcases place_cases ht.sound.interned hplace with ⟨rfl, -⟩ | ⟨rfl, d, i, hfiled⟩
    · exact hadmits slot hslot
    · rintro p rfl
      exact ht'.sound.sets p (.inl ⟨_, by rw [hfiled.kind_eq, hslot]⟩)
  obtain ⟨hfound, hdigest⟩ := place_shared ht.sound hshared hplace
  have hagain := interned?_again hgrows ht'.sound hadmits hadmits' hshared' hsame hfound
  have hnumber : (u.digestOf k').1 = (t'.digestOf k).1 := by
    rw [digestOf, content_of_inOrder hu.sound hform, ← digestOf]
    exact digestOf_again hgrows ht'.sound hu.sound hdigest
      (fun c hc => lt_of_isInterned (hshared' c hc)) rfl
  refine ⟨List.mem_range.mp (List.mem_of_find?_eq_some hfound), ?_⟩
  refine place_of_interned? (fun c hc => ?_) (hnumber ▸ hagain)
  rw [← hchildren] at hc
  rw [hgrows.isInterned_eq (lt_of_isInterned (hshared' c hc))]
  exact hshared' c hc

/-- Any other form gets a new node again, which is a replica of the one that it got. -/
theorem place_unshared_again {n' : NodeId} {u' : Store} (hu' : u'.Reachable)
    (hmore' : u.Grows u') (hk : ∀ c ∈ k.children, c < t.nodes.size)
    (hrecent : ∀ n, t.nodes.size ≤ n → recent n) (h : Replay recent made t' u)
    (hshared : ¬ ∀ c ∈ k.children, t.isInterned c = true) (hplace' : u.place k' = (n', u')) :
    u'.Replicas made n n' := by
  have hgrows : t.Grows u := hmore.trans h.grows
  have hchildren : List.Forall₂ (fun a b => t.isInterned a = u.isInterned b ∧
      t.digest a = u.digest b) k.children k'.children := by
    refine forall₂_imp_mem hform.children fun a ha b _ hab => ?_
    rw [← hgrows.isInterned_eq (hk a ha), ← hgrows.digest_eq (hk a ha)]
    exact ⟨hab.isInterned_eq hu.sound, hab.digest_eq hu.sound⟩
  have hshared' : ¬ ∀ c ∈ k'.children, u.isInterned c = true :=
    fun hall => hshared <| (forall_mem_iff_of_forall₂ hchildren fun a b hab =>
      (by rw [hab.1] : t.isInterned a = true ↔ u.isInterned b = true)).mpr hall
  have hnumbered : (∀ c ∈ k.children, (t.digest c).isSome) ↔
      ∀ c ∈ k'.children, (u.digest c).isSome :=
    forall_mem_iff_of_forall₂ hchildren fun a b hab => by rw [hab.2]
  obtain ⟨d, t₁, hplaced, hfiled, hd⟩ := place_unshared hshared
  cases hplaced.symm.trans hplace
  obtain ⟨d', u₁, hplaced', hfiled', hd'⟩ := place_unshared hshared'
  cases hplaced'.symm.trans hplace'
  have hnew := present_of_isComplete hfiled.isComplete_eq
  have hlater : t'.Grows u' := h.grows.trans hmore'
  -- both runs give a number if all children have one, and then the same number
  have hdigest : d = d' := by
    refine Option.ext fun x => (hd x).trans (Iff.trans ?_ (hd' x).symm)
    rw [← hnumbered]
    refine and_congr_right fun hall => ?_
    have hnode := hfiled.digest_eq.trans ((hd (t.digestOf k).1).mpr ⟨hall, rfl⟩)
    have hfirst : (t'.digestOf k).1 = (t.digestOf k).1 := by
      have hnow := (ht'.sound.numbered _ _ hnode).1
      rw [hfiled.kind_eq] at hnow
      rw [hnow]
    have hagain := digestOf_again h.grows ht'.sound hu.sound hnode
      (fun c hc => (hk c hc).trans_le hmore.size_le) hfirst
    rw [show (u.digestOf k').1 = (u.digestOf k).1 by
      rw [digestOf, content_of_inOrder hu.sound hform, ← digestOf], hagain]
  refine .of_made hu'.sound (hnew.trans_le hlater.size_le) (present_of_isComplete
    hfiled'.isComplete_eq) ?_ ?_ ?_ ?_
  · exact (hfiled.own ht hk (h.before _ hnew (hrecent _ le_rfl))).grows hlater hnew
  · refine hfiled'.own hu (fun c hc => ?_) (h.after _ le_rfl)
    obtain ⟨a, -, hac⟩ := exists_of_forall₂ hform.children.flip c hc
    exact hac.right_lt
  · rw [hlater.digest_eq hnew, hfiled.digest_eq, hfiled'.digest_eq, hdigest]
  · rw [hlater.kind_eq hnew, hfiled.kind_eq, hfiled'.kind_eq]
    exact hform.imp fun _ _ _ _ hab => hmore'.replicas hu.sound hab

end

/-- **A form over replicas is built again:** it has the same fault, or the node that it gets is a
replica of the one that it got. -/
theorem Replay.build (hs : s.Stage t) (hv : v.Stage u)
    (hk : ∀ c ∈ k.children, c < t.nodes.size)
    (hslot : ∀ slot, k.slot? = some slot → s.InHand t slot)
    (hslot' : ∀ slot, k'.slot? = some slot → v.InHand u slot)
    (hrecent : ∀ n, s.nodes.size ≤ n → recent n)
    (h : Replay recent made (t.build k).2 u) (hform : k.InOrder (u.Replicas made) k') :
    (∃ fault, (t.build k).1 = .error fault ∧ (u.build k').1 = .error fault) ∨
      ∃ n n', (t.build k).1 = .ok n ∧ (u.build k').1 = .ok n' ∧
        (u.build k').2.Replicas made n n' := by
  obtain ⟨hstage, hmore⟩ := hs.build hslot
  obtain ⟨hstage', hmore'⟩ := hv.build hslot'
  have hfault := fault?_eq (hmore.trans h.grows) hs.reachable hv.sound hk hform
  revert h hstage hmore hstage' hmore'
  rw [Store.build, Store.build, hfault]
  split
  · next fault hfault => exact fun _ _ _ _ _ => .inl ⟨fault, rfl, rfl⟩
  next hnone =>
  rcases hplace : t.place k with ⟨n, t'⟩
  rcases hplace' : u.place k' with ⟨n', u'⟩
  intro h hstage hmore hstage' hmore'
  refine .inr ⟨n, n', rfl, rfl, ?_⟩
  by_cases hshared : ∀ c ∈ k.children, t.isInterned c = true
  · obtain ⟨hn, hfound⟩ := place_shared_again hs.reachable hstage.reachable hv.reachable hmore hform
      hplace h.grows (fun slot hkslot => (hslot slot hkslot).admits)
      (fun slot hkslot => (hslot' slot hkslot).admits) hshared
    cases hplace'.symm.trans hfound
    exact .refl (hn.trans_le h.grows.size_le)
  · exact place_unshared_again hs.reachable hstage.reachable hv.reachable hmore hform hplace
      hstage'.reachable hmore' hk (fun n hn => hrecent n (hs.grows.size_le.trans hn)) h hshared
      hplace'

end Store

end ValueInference
