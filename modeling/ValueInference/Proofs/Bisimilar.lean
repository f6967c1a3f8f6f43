/-
Structural equality of values that may contain themselves.

A comparison assumes the pairs that it is inside of to be equal.  So nodes are equal as soon as
they are paired by a relation under which paired nodes have alike forms: the comparison can only
fail at a pair with unlike forms, and it meets fewer different pairs than it may go deep.

* **`Store.Bisimulation`** — paired nodes are the same, or may be equal and have alike forms;
* **`Store.equal_of_bisimulation`** — nodes that a bisimulation pairs are equal;
* **`Kind.head`** — what a form shows without a look at the nodes in it;
* **`Store.head_of_equals`** — equal nodes have the same head.
-/
import ValueInference.Proofs.Equal
import ValueInference.Proofs.Sound
import Mathlib.Data.Finset.Prod

namespace ValueInference

namespace Store

variable {s : Store} {a b : NodeId} {R : NodeId → NodeId → Prop}

/-! ### Comparisons that stay within the store -/

/-- The assumed pairs are different pairs of nodes of the store, and with `fuel` more of them there
would be more than there are. -/
structure Room (s : Store) (fuel : Nat) (seen : Assumed) : Prop where
  distinct : seen.Nodup
  present : ∀ p ∈ seen, p.1 < s.nodes.size ∧ p.2 < s.nodes.size
  ample : s.nodes.size * s.nodes.size < fuel + seen.length

namespace Room

theorem not_zero {seen : Assumed} (h : s.Room 0 seen) : False := by
  have hsub : seen.toFinset ⊆ Finset.range s.nodes.size ×ˢ Finset.range s.nodes.size := by
    intro p hp
    obtain ⟨h₁, h₂⟩ := h.present p (List.mem_toFinset.mp hp)
    exact Finset.mem_product.mpr ⟨Finset.mem_range.mpr h₁, Finset.mem_range.mpr h₂⟩
  have hcard := Finset.card_le_card hsub
  rw [List.toFinset_card_of_nodup h.distinct, Finset.card_product, Finset.card_range] at hcard
  have := h.ample
  omega

theorem push {fuel : Nat} {seen : Assumed} (h : s.Room (fuel + 1) seen) (ha : a < s.nodes.size)
    (hb : b < s.nodes.size) (hfresh : (a, b) ∉ seen) : s.Room fuel ((a, b) :: seen) where
  distinct := List.nodup_cons.mpr ⟨hfresh, h.distinct⟩
  present := List.forall_mem_cons.mpr ⟨⟨ha, hb⟩, h.present⟩
  ample := by
    have := h.ample
    rw [List.length_cons]
    omega

theorem weaken {fuel : Nat} {seen : Assumed} (h : s.Room fuel seen) : s.Room (fuel + 1) seen :=
  ⟨h.distinct, h.present, by have := h.ample; omega⟩

theorem start (s : Store) : s.Room s.compareDepth [] :=
  ⟨List.nodup_nil, fun _ hp => absurd hp List.not_mem_nil, Nat.lt_succ_self _⟩

end Room

/-- Paired nodes are the same, or neither digests nor instances tell them apart and their forms are
alike, with paired nodes below. -/
def Bisimulation (s : Store) (R : NodeId → NodeId → Prop) : Prop :=
  ∀ a b, R a b → a = b ∨ s.MayEqual a b ∧ (s.kind a).Alike R (s.kind b)

/-- A comparison of nodes of the store succeeds on what a bisimulation pairs. -/
theorem Bisimulation.agree_between (hR : s.Bisimulation R) (hs : s.Sound) (fuel : Nat) :
    ∀ {a b : NodeId}, a < s.nodes.size → b < s.nodes.size →
      Between (s.Room fuel) (s.agree fuel a b) (R a b) True := by
  induction fuel with
  | zero =>
    intro a b _ _
    exact ⟨fun seen h => h.not_zero.elim, fun _ _ _ _ => trivial, fun _ _ h => h.not_zero.elim⟩
  | succ fuel ih =>
    intro a b ha hb
    have hforms : Between (s.Room fuel) (Kind.agree (s.agree fuel) (s.kind a) (s.kind b))
        ((s.kind a).Alike R (s.kind b)) ((s.kind a).Alike (fun _ _ => True) (s.kind b)) :=
      Kind.agree_between fun c hc d hd => ih (hs.child_lt hc) (hs.child_lt hd)
    refine ⟨fun seen hroom hab => ?_, fun _ _ _ _ => trivial, fun seen seen' hroom h => ?_⟩
    · rw [agree]
      split
      · rfl
      next hne =>
      obtain ⟨⟨hdigest, hinterned⟩, halike⟩ := (hR a b hab).resolve_left hne
      split
      · next hd =>
        simp only [Bool.and_eq_true, bne_iff_ne, Option.isSome_iff_exists] at hd
        obtain ⟨⟨⟨d, hda⟩, ⟨e, heb⟩⟩, hde⟩ := hd
        exact absurd (by rw [hda, heb, hdigest d e hda heb]) hde
      split
      · next hi => exact absurd (by simpa using hi) hinterned
      split
      · rfl
      next hfresh => exact hforms.succeeds _ (hroom.push ha hb hfresh) halike
    · rw [agree] at h
      split at h
      · exact Option.some.inj h ▸ hroom
      split at h
      · exact absurd h (by simp)
      split at h
      · exact absurd h (by simp)
      split at h
      · exact Option.some.inj h ▸ hroom
      next hfresh => exact (hforms.keeps _ seen' (hroom.push ha hb hfresh) h).weaken

/-- **Nodes that a bisimulation pairs are equal.** -/
theorem equal_of_bisimulation (hs : s.Sound) (hR : s.Bisimulation R) (ha : a < s.nodes.size)
    (hb : b < s.nodes.size) (hab : R a b) : s.Equals a b :=
  (hR.agree_between hs s.compareDepth ha hb).succeeds [] (.start s) hab

/-- Candidates are equal if a bisimulation pairs the nodes in them. -/
theorem equalCandidates_of_bisimulation {c d : Candidate} (hs : s.Sound) (hR : s.Bisimulation R)
    (hc : ∀ a ∈ c.children, a < s.nodes.size) (hd : ∀ b ∈ d.children, b < s.nodes.size)
    (h : c.Alike R d) : s.equalCandidates c d = true :=
  (Candidate.agree_between fun a ha b hb =>
    hR.agree_between hs s.compareDepth (hc a ha) (hd b hb)).succeeds [] (.start s) h

/-- A candidate equals itself, also if it is over nodes that contain themselves. -/
theorem equalCandidates_refl (s : Store) (c : Candidate) : s.equalCandidates c c = true := by
  obtain ⟨depth, hdepth⟩ : ∃ depth, s.compareDepth = depth + 1 := ⟨_, rfl⟩
  have hnodes : ∀ a b : NodeId,
      Between (fun _ => True) (s.agree s.compareDepth a b) (a = b) True := by
    refine fun a b => ⟨fun seen _ hab => ?_, fun _ _ _ _ => trivial, fun _ _ _ _ => trivial⟩
    rw [hdepth, agree, if_pos hab]
    rfl
  exact (Candidate.agree_between fun a _ b _ => hnodes a b).succeeds [] trivial
    (.refl fun _ _ => rfl)

end Store

/-! ### Heads -/

/-- What a form shows without a look at the nodes in it. -/
def Kind.head : Kind → Kind
  | .scalar _ t => .scalar .anything t
  | .tuple items => .tuple (items.map fun _ => 0)
  | .list _ => .list 0
  | .array _ shape => .array 0 shape
  | .record tag _ => .record tag []
  | .union _ => .union []
  | .tagged _ => .tagged []
  | .function _ => .function .anything
  | .jtagged _ => .jtagged 0
  | .error r => .error r
  | .type t => .type t

theorem Kind.isUnion_head (k : Kind) : k.head.isUnion = k.isUnion := by
  cases k <;> rfl

theorem Kind.eq_error_of_head {k : Kind} {r : ErrorReason} (h : k.head = .error r) :
    k = .error r := by
  cases k with
  | error r' => exact h
  | _ => exact absurd h (by simp [head])

/-- What a candidate shows without a look at the nodes in it. -/
def Candidate.head (c : Candidate) : Candidate := c.relabel fun _ => 0

theorem Candidate.Alike.head_eq {R : NodeId → NodeId → Prop} {c d : Candidate}
    (h : c.Alike R d) : c.head = d.head :=
  h.relabel fun _ _ _ => rfl

/-- **Forms that are alike have the same head.** -/
theorem Kind.Alike.head_eq {R : NodeId → NodeId → Prop} {k k' : Kind} (h : k.Alike R k') :
    k.head = k'.head := by
  cases h.sameForm with
  | scalar v w t u => rw [head, head, h.1]
  | tuple as bs => rw [head, head, map_eq_of_forall₂ (fun _ _ _ => rfl) h]
  | array a b shape shape' => rw [head, head, h.1]
  | record tag tag' fs gs => rw [head, head, h.1]
  | error r r' => exact congrArg Kind.error h
  | type t u => exact congrArg Kind.type h
  | _ => rfl

namespace Store

variable {s : Store} {a b : NodeId}

/-- Any comparison lies between what never holds and what always does. -/
theorem between_any (step : Assumed → Option Assumed) :
    Between (fun _ => True) step False True :=
  ⟨fun _ _ h => h.elim, fun _ _ _ _ => trivial, fun _ _ _ _ => trivial⟩

/-- **Equal nodes have the same head.** -/
theorem head_of_equals (h : s.Equals a b) : (s.kind a).head = (s.kind b).head := by
  obtain ⟨depth, hdepth⟩ : ∃ depth, s.compareDepth = depth + 1 := ⟨_, rfl⟩
  rw [Equals, equal, hdepth, agree] at h
  split at h
  · next hab => rw [hab]
  split at h
  · exact absurd h (by simp)
  split at h
  · exact absurd h (by simp)
  split at h
  · next hmem => exact absurd hmem List.not_mem_nil
  obtain ⟨seen, hseen⟩ := Option.isSome_iff_exists.mp h
  exact ((Kind.agree_between fun c _ d _ => between_any _).shows _ seen trivial hseen).head_eq

theorem head_of_equalCandidates {c d : Candidate} (h : s.equalCandidates c d = true) :
    c.head = d.head := by
  obtain ⟨seen, hseen⟩ := Option.isSome_iff_exists.mp h
  exact ((Candidate.agree_between fun a _ b _ => between_any _).shows _ seen trivial hseen).head_eq

end Store

end ValueInference
