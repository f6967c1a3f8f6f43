/-
Merges of known slots, with whatever values in their candidates.

Equality need be neither symmetric nor transitive on candidates that contain themselves.  What
follows uses no more than that a candidate equals itself.

* **`Store.isSubset_of_addCandidates`** — a set that takes in all that was added took in everything
  before;
* **`Store.SlotMerged`** — what a merge of known slots gives: a slot that covers both, and that is
  covered by one of them only if this one covers both;
* **`Infer.KnownMerge`**, **`Infer.mergeSlots_known`** — what the merge comes to;
* **`Infer.mergeSlots_merged`** — what it gives is such a slot;
* **`Infer.mergeSlots_congr`** — what it gives depends on the nodes, the pendings and the next
  token.
-/
import ValueInference.Proofs.Bisimilar
import ValueInference.Proofs.Forced

namespace ValueInference

namespace Store

variable {s t : Store} {c d : Candidate} {cs ds : List Candidate} {u v w : Slot}

/-! ### Adding candidates -/

theorem hasCandidate_of_mem (hc : c ∈ cs) : s.hasCandidate cs c = true :=
  List.any_eq_true.mpr ⟨c, hc, s.equalCandidates_refl c⟩

theorem hasCandidate_mono (hsub : cs ⊆ ds) (h : s.hasCandidate cs c = true) :
    s.hasCandidate ds c = true := by
  obtain ⟨d, hd, hdc⟩ := List.any_eq_true.mp h
  exact List.any_eq_true.mpr ⟨d, hsub hd, hdc⟩

theorem isSubset_iff_forall : s.isSubset cs ds = true ↔ ∀ c ∈ cs, s.hasCandidate ds c = true :=
  List.all_eq_true

theorem isSubset_self (s : Store) (cs : List Candidate) : s.isSubset cs cs = true :=
  isSubset_iff_forall.mpr fun _ => hasCandidate_of_mem

theorem subset_addCandidates : ∀ {ds cs : List Candidate}, cs ⊆ s.addCandidates cs ds := by
  intro ds
  induction ds with
  | nil => exact fun {cs} => List.Subset.refl cs
  | cons d ds ih =>
    intro cs
    rw [addCandidates_cons]
    split
    · exact ih
    · exact List.Subset.trans (List.subset_append_left cs [d]) ih

/-- Each candidate that is added is in the result, or equals one that is. -/
theorem hasCandidate_addCandidates : ∀ {ds cs : List Candidate}, ∀ d ∈ ds,
    s.hasCandidate (s.addCandidates cs ds) d = true := by
  intro ds
  induction ds with
  | nil => exact fun _ hd => absurd hd List.not_mem_nil
  | cons e ds ih =>
    intro cs d hd
    rw [addCandidates_cons]
    rcases List.mem_cons.mp hd with rfl | hd
    · split
      · next hhas => exact hasCandidate_mono subset_addCandidates hhas
      · exact hasCandidate_of_mem (subset_addCandidates (List.mem_append_right cs (by simp)))
    · exact ih d hd

/-- **A set that takes in the result of adding to it** took in all that was to be added: the first
candidate that it did not take in would have been added. -/
theorem isSubset_of_addCandidates : ∀ {ds cs : List Candidate},
    s.isSubset (s.addCandidates cs ds) cs = true → s.isSubset ds cs = true := by
  intro ds
  induction ds with
  | nil => exact fun _ => rfl
  | cons d ds ih =>
    intro cs h
    rw [addCandidates_cons] at h
    split at h
    · next hhas => exact isSubset_iff_forall.mpr (List.forall_mem_cons.mpr
        ⟨hhas, isSubset_iff_forall.mp (ih h)⟩)
    · next hhas =>
      have hadded : d ∈ s.addCandidates (cs ++ [d]) ds :=
        subset_addCandidates (List.mem_append_right cs (by simp))
      exact absurd (isSubset_iff_forall.mp h d hadded) hhas

theorem isSubset_of_subset_left (hsub : cs ⊆ ds) {es : List Candidate}
    (h : s.isSubset ds es = true) : s.isSubset cs es = true :=
  isSubset_iff_forall.mpr fun c hc => isSubset_iff_forall.mp h c (hsub hc)

/-! ### Coverage of known slots -/

/-- A known slot covers itself. -/
theorem slotCovers_self (s : Store) (v : Slot) : s.SlotCovers v v := by
  by_cases h : s.resolve v = .anything
  · exact .inl h
  · exact .inr ⟨h, s.isSubset_self _⟩

/-- What the merge of two known slots gives. -/
structure SlotMerged (s t : Store) (v w x : Slot) : Prop where
  nodes : t.nodes = s.nodes
  pendings : t.pendings = s.pendings
  known : x.pendings = []
  left : s.SlotCovers x v
  right : s.SlotCovers x w
  /-- An operand covers the result only if it covers the other operand. -/
  covered : ∀ e, e = v ∨ e = w → s.SlotCovers e x → s.SlotCovers e v ∧ s.SlotCovers e w

namespace SlotMerged

/-- One operand, that covers the other one. -/
theorem operand (hnodes : t.nodes = s.nodes) (hpendings : t.pendings = s.pendings)
    (hknown : u.pendings = []) (hu : u = v ∨ u = w) (hleft : s.SlotCovers u v)
    (hright : s.SlotCovers u w) : s.SlotMerged t v w u where
  nodes := hnodes
  pendings := hpendings
  known := hknown
  left := hleft
  right := hright
  covered e he hcovers := by
    rcases he with rfl | rfl <;> rcases hu with rfl | rfl
    · exact ⟨hleft, hright⟩
    · exact ⟨s.slotCovers_self e, hcovers⟩
    · exact ⟨hcovers, s.slotCovers_self e⟩
    · exact ⟨hleft, hright⟩

theorem anything (hnodes : t.nodes = s.nodes) (hpendings : t.pendings = s.pendings) :
    s.SlotMerged t v w .anything where
  nodes := hnodes
  pendings := hpendings
  known := rfl
  left := .inl (resolve_self s _ rfl)
  right := .inl (resolve_self s _ rfl)
  covered e _ hcovers := by
    have he : s.resolve e = .anything :=
      hcovers.resolve_right fun h => h.1 (resolve_self s _ rfl)
    exact ⟨.inl he, .inl he⟩

/-- The candidates of both. -/
theorem union {p : Possibilities} (hnodes : t.nodes = s.nodes)
    (hpendings : t.pendings = s.pendings) (hv : s.resolve v ≠ .anything)
    (hw : s.resolve w ≠ .anything)
    (hp : p.candidates = s.addCandidates (Infer.candidatesOf (s.resolve v))
      (Infer.candidatesOf (s.resolve w))) : s.SlotMerged t v w (.possibilities p) := by
  have hself : s.resolve (.possibilities p) = .possibilities p := resolve_self s _ rfl
  have hleft : Infer.candidatesOf (s.resolve v) ⊆ p.candidates := hp ▸ subset_addCandidates
  have hright : s.isSubset (Infer.candidatesOf (s.resolve w)) p.candidates = true :=
    isSubset_iff_forall.mpr fun d hd => hp ▸ hasCandidate_addCandidates d hd
  refine ⟨hnodes, hpendings, rfl, .inr ⟨hv, ?_⟩, .inr ⟨hw, ?_⟩, fun e he hcovers => ?_⟩
  · rw [hself]
    exact isSubset_iff_forall.mpr fun c hc => hasCandidate_of_mem (hleft hc)
  · rwa [hself]
  rw [SlotCovers, hself] at hcovers
  rcases hcovers with hany | ⟨-, hsub⟩
  · exact ⟨.inl hany, .inl hany⟩
  have hsub' : s.isSubset p.candidates (Infer.candidatesOf (s.resolve e)) = true := hsub
  rcases he with rfl | rfl
  · rw [hp] at hsub'
    exact ⟨s.slotCovers_self e, .inr ⟨hw, isSubset_of_addCandidates hsub'⟩⟩
  · exact ⟨.inr ⟨hv, isSubset_of_subset_left hleft hsub'⟩, s.slotCovers_self e⟩

end SlotMerged

/-! ### What comparisons depend on -/

/-- A comparison depends on the nodes alone. -/
theorem agree_congr (h : t.nodes = s.nodes) :
    t.agree t.compareDepth = s.agree s.compareDepth := by
  have hkind : t.kind = s.kind := by funext n; rw [kind, kind, h]
  have hdigest : t.digest = s.digest := by funext n; rw [digest, digest, h]
  have hinterned : t.isInterned = s.isInterned := by funext n; rw [isInterned, isInterned, h]
  have hagree : ∀ fuel, t.agree fuel = s.agree fuel := by
    intro fuel
    induction fuel with
    | zero => rfl
    | succ fuel ih =>
      funext a b seen
      rw [agree, agree, hkind, hdigest, hinterned, ih]
  rw [compareDepth, compareDepth, h, hagree]

theorem equalCandidates_congr (h : t.nodes = s.nodes) :
    t.equalCandidates = s.equalCandidates := by
  funext c d
  rw [equalCandidates, equalCandidates, agree_congr h]

theorem equalPossibilities_congr (h : t.nodes = s.nodes) :
    t.equalPossibilities = s.equalPossibilities := by
  funext p q
  rw [equalPossibilities, equalPossibilities, agree_congr h]

theorem hasCandidate_congr (h : t.nodes = s.nodes) : t.hasCandidate = s.hasCandidate := by
  funext cs c
  rw [hasCandidate, hasCandidate, equalCandidates_congr h]

theorem isSubset_congr (h : t.nodes = s.nodes) : t.isSubset = s.isSubset := by
  funext cs ds
  rw [isSubset, isSubset, hasCandidate_congr h]

theorem addCandidates_congr (h : t.nodes = s.nodes) : t.addCandidates = s.addCandidates := by
  funext cs ds
  rw [addCandidates, addCandidates, hasCandidate_congr h]

/-- Coverage of known slots depends on the nodes alone. -/
theorem slotCovers_congr (h : t.nodes = s.nodes) (hv : v.pendings = []) (hw : w.pendings = []) :
    t.SlotCovers v w ↔ s.SlotCovers v w := by
  rw [SlotCovers, SlotCovers, resolve_self s v hv, resolve_self s w hw, resolve_self t v hv,
    resolve_self t w hw, isSubset_congr h]

end Store

namespace Infer

variable {s t : Store} {scope : MergeScope} {forced : Bool} {v w x : Slot}

theorem not_pending_of_known (hv : v.pendings = []) (p : PendingId) : s.resolve v ≠ .pending p := by
  rw [Store.resolve_self s v hv]
  rintro rfl
  exact nomatch hv

/-- What a merge of known slots comes to: an error; one of them, which covers the other; no bound,
maybe with a diagnostic; or the candidates of both, as a set with a new token. -/
inductive KnownMerge (s : Store) (v w : Slot) : Except InferError Slot × Store → Prop where
  | error (e : InferError) : KnownMerge s v w (.error e, s)
  | left (covers : s.SlotCovers v w) : KnownMerge s v w (.ok v, s)
  | right (covers : s.SlotCovers w v) : KnownMerge s v w (.ok w, s)
  | anything : KnownMerge s v w (.ok .anything, s)
  | widened (d : Diagnostic) : KnownMerge s v w (.ok .anything, s.record d)
  | union (left : v ≠ .anything) (right : w ≠ .anything) :
      KnownMerge s v w
        (.ok (.possibilities ⟨s.tokens, s.addCandidates (candidatesOf v) (candidatesOf w)⟩),
          { s with tokens := s.tokens + 1 })

theorem mergeCandidates_known (hv : v.pendings = []) (hw : w.pendings = [])
    (hva : v ≠ .anything) (hwa : w ≠ .anything) :
    KnownMerge s v w ((mergeCandidates scope forced v w v w).outcome s) := by
  have hrv := Store.resolve_self s v hv
  have hrw := Store.resolve_self s w hw
  rw [mergeCandidates, outcome_store_bind]
  dsimp only
  split
  · next hsub => exact .left (.inr (by rw [hrv, hrw]; exact ⟨hwa, hsub⟩))
  split
  · exact .error _
  split
  · next hsub => exact .right (.inr (by rw [hrv, hrw]; exact ⟨hva, hsub⟩))
  split
  · exact .widened _
  · exact .union hva hwa

/-- **A merge of known slots** comes to one of these. -/
theorem mergeSlots_known (scope : MergeScope) (forced : Bool) (hv : v.pendings = [])
    (hw : w.pendings = []) : KnownMerge s v w ((mergeSlots scope forced v w).outcome s) := by
  have hrv := Store.resolve_self s v hv
  have hrw := Store.resolve_self s w hw
  rw [mergeSlots, outcome_store_bind]
  simp only [hrv, hrw]
  cases v with
  | anything => exact .left (.inl hrv)
  | pending p => cases hv
  | constant c =>
    cases w with
    | anything =>
      dsimp only
      split
      · exact .error _
      · exact .anything
    | pending q => cases hw
    | constant d =>
      dsimp only
      split
      · next hcd =>
        subst hcd
        exact .left (s.slotCovers_self _)
      split
      · exact .error _
      split
      · exact .widened _
      · exact .error _
    | possibilities q => exact mergeCandidates_known hv hw nofun nofun
  | possibilities p =>
    cases w with
    | anything =>
      dsimp only
      split
      · exact .error _
      · exact .anything
    | pending q => cases hw
    | constant d => exact mergeCandidates_known hv hw nofun nofun
    | possibilities q => exact mergeCandidates_known hv hw nofun nofun

/-- **A merge of known slots** gives a slot that covers both, and that one of them covers only if
it covers both. -/
theorem mergeSlots_merged (hv : v.pendings = []) (hw : w.pendings = [])
    (h : (mergeSlots scope forced v w).outcome s = (.ok x, t)) : s.SlotMerged t v w x := by
  have hknown := mergeSlots_known (s := s) scope forced hv hw
  rw [h] at hknown
  cases hknown with
  | left hcovers => exact .operand rfl rfl hv (.inl rfl) (s.slotCovers_self v) hcovers
  | right hcovers => exact .operand rfl rfl hw (.inr rfl) hcovers (s.slotCovers_self w)
  | anything => exact .anything rfl rfl
  | widened d => exact .anything rfl rfl
  | union hva hwa =>
    have hrv := Store.resolve_self s v hv
    have hrw := Store.resolve_self s w hw
    refine .union rfl rfl ?_ ?_ ?_
    · rwa [hrv]
    · rwa [hrw]
    · rw [hrv, hrw]

/-- **What a merge of known slots gives** depends on the nodes and the next token. -/
theorem mergeSlots_congr (hnodes : t.nodes = s.nodes) (htokens : t.tokens = s.tokens)
    (hv : v.pendings = []) (hw : w.pendings = []) :
    ((mergeSlots scope forced v w).outcome t).1 = ((mergeSlots scope forced v w).outcome s).1 := by
  have hcandidates : ((mergeCandidates scope forced v w v w).outcome t).1 =
      ((mergeCandidates scope forced v w v w).outcome s).1 := by
    rw [mergeCandidates, outcome_store_bind, outcome_store_bind]
    dsimp only
    rw [Store.isSubset_congr hnodes, Store.addCandidates_congr hnodes]
    repeat' split
    all_goals first | rfl | exact congrArg (fun n => Except.ok (Slot.possibilities ⟨n, _⟩)) htokens
  rw [mergeSlots, outcome_store_bind, outcome_store_bind]
  simp only [Store.resolve_self s v hv, Store.resolve_self s w hw, Store.resolve_self t v hv,
    Store.resolve_self t w hw]
  cases v with
  | anything => rfl
  | pending p => exact nomatch hv
  | constant c =>
    cases w with
    | anything =>
      dsimp only
      split <;> rfl
    | pending q => exact nomatch hw
    | constant d =>
      dsimp only
      repeat' split
      all_goals rfl
    | possibilities q => exact hcandidates
  | possibilities p =>
    cases w with
    | anything =>
      dsimp only
      split <;> rfl
    | pending q => exact nomatch hw
    | constant d => exact hcandidates
    | possibilities q => exact hcandidates

end Infer

end ValueInference
