/-
Relaxed merges of slots.

* **`Store.SlotWidened`** — what a relaxed merge of two slots gives: a slot that covers both, and
  that is the left one only if this one covers the right one already;
* **`Infer.mergeSlots_widened`** — the merge gives such a slot.
-/
import ValueInference.Proofs.Forced

namespace ValueInference

namespace Store

variable {s t : Store}

/-! ### Adding candidates -/

/-- Candidates are added behind those that are there, and each one added is in the result as
itself or as an equal. -/
structure Extended (s : Store) (cs ds es : List Candidate) : Prop where
  prefixed : cs <+: es
  from_both : ∀ e ∈ es, e ∈ cs ∨ e ∈ ds
  covers : ∀ d ∈ ds, ∃ e ∈ es, e.Alike s.Equals d
  distinct : cs.Nodup → es.Nodup
  longer : s.isSubset ds cs = false → cs.length < es.length

theorem addCandidates_extended : ∀ {ds cs : List Candidate}, (∀ c ∈ cs, s.FoundedIn c) →
    (∀ d ∈ ds, s.FoundedIn d) → s.Extended cs ds (s.addCandidates cs ds) := by
  intro ds
  induction ds with
  | nil =>
    intro cs _ _
    exact ⟨List.prefix_rfl, fun _ => .inl, by simp, id, fun h => absurd h (by simp [isSubset])⟩
  | cons d ds ih =>
    intro cs hcs hds
    have hd := hds d List.mem_cons_self
    have hds' : ∀ x ∈ ds, s.FoundedIn x := fun x hx => hds x (List.mem_cons_of_mem d hx)
    have hcons : s.addCandidates cs (d :: ds) =
        s.addCandidates (if s.hasCandidate cs d then cs else cs ++ [d]) ds := rfl
    rw [hcons]
    by_cases hhas : s.hasCandidate cs d = true
    · rw [if_pos hhas]
      obtain ⟨hpre, hfrom, hcov, hdist, hlong⟩ := ih hcs hds'
      refine ⟨hpre, fun e he => (hfrom e he).imp id (List.mem_cons_of_mem d), ?_, hdist, ?_⟩
      · rintro x (_ | ⟨_, hx⟩)
        · obtain ⟨c, hc, hcd⟩ := (hasCandidate_iff hcs).mp hhas
          exact ⟨c, hpre.subset hc, hcd⟩
        · exact hcov x hx
      · intro hsub
        refine hlong ?_
        simpa [isSubset, hhas] using hsub
    · rw [if_neg hhas]
      have hcs' : ∀ x ∈ cs ++ [d], s.FoundedIn x := by
        intro x hx
        rcases List.mem_append.mp hx with hx | hx
        · exact hcs x hx
        · rwa [List.mem_singleton.mp hx]
      -- a candidate that is new makes the list longer, whatever comes after it
      obtain ⟨hpre, hfrom, hcov, hdist, -⟩ := ih hcs' hds'
      refine ⟨(List.prefix_append cs [d]).trans hpre, fun e he => ?_, ?_, fun hnodup => ?_, fun _ => ?_⟩
      · rcases hfrom e he with he | he
        · rcases List.mem_append.mp he with he | he
          · exact .inl he
          · exact .inr (List.mem_singleton.mp he ▸ List.mem_cons_self)
        · exact .inr (List.mem_cons_of_mem d he)
      · rintro x (_ | ⟨_, hx⟩)
        · exact ⟨d, hpre.subset (by simp), s.alike_refl d⟩
        · exact hcov x hx
      · refine hdist (List.nodup_append.mpr ⟨hnodup, by simp, ?_⟩)
        rintro x hx y hy rfl
        obtain rfl := List.mem_singleton.mp hy
        exact hhas ((hasCandidate_iff hcs).mpr ⟨x, hx, s.alike_refl x⟩)
      · have := hpre.length_le
        simp only [List.length_append, List.length_singleton] at this
        omega

/-! ### Slots -/

/-- What a relaxed merge of two slots gives. -/
structure SlotWidened (s t : Store) (v w x : Slot) : Prop where
  grows : s.Grows t
  sound : t.Sound
  admitted : t.AdmitsSlot x
  settled : t.Settled x
  same : v.Alike (· = ·) x → s.SlotCovers v w
  upper : t.SlotCovers x v ∧ t.SlotCovers x w

/-- A slot that has the same candidates covers the same slots. -/
theorem SlotCovers.of_reordered {x x' w : Slot} (h : s.SlotCovers x w) (hx : x'.Reordered x)
    (hsettled : s.Settled x) : s.SlotCovers x' w := by
  cases hx with
  | same => exact h
  | @possibilities p q hperm =>
    have hp := foundedIn_candidatesOf hsettled
    rw [SlotCovers, resolve_self _ (.possibilities _) rfl] at h ⊢
    rw [resolve_self _ (.possibilities _) rfl] at hp
    refine h.imp (fun h => by simp at h) fun h => ⟨h.1, ?_⟩
    have hsub := h.2
    rw [isSubset_iff hp] at hsub
    refine (isSubset_iff fun d hd => hp d (hperm.mem_iff.mp hd)).mpr fun c hc => ?_
    obtain ⟨d, hd, hdc⟩ := hsub c hc
    exact ⟨d, hperm.mem_iff.mpr hd, hdc⟩

/-- A slot that is no set, or one that the store holds. -/
def HoldsSlot (s : Store) (v : Slot) : Prop := ∀ p, v = .possibilities p → s.HoldsSet p

theorem holdsSlot_of_kind {n : NodeId} {v : Slot} (h : (s.kind n).slot? = some v) :
    s.HoldsSlot v := by
  rintro p rfl
  exact .inl ⟨n, h⟩

theorem Grows.holdsSlot {v : Slot} (h : s.Grows t) (hv : s.HoldsSlot v) : t.HoldsSlot v := by
  intro p hp
  rcases hv p hp with ⟨n, hn⟩ | ⟨q, hq⟩
  · refine .inl ⟨n, ?_⟩
    by_cases hlt : n < s.nodes.size
    · rwa [h.kind_eq hlt]
    · rw [kind_of_absent (Nat.not_lt.mp hlt)] at hn
      exact absurd hn (by simp [Kind.slot?])
  · refine .inr ⟨q, ?_⟩
    rwa [result?, pendingStatus, h.pendings]

/-- The set that a slot stands for is held by the store, if the slot is. -/
theorem HoldsSlot.resolved {v : Slot} {p : Possibilities} (hv : s.HoldsSlot v)
    (h : s.resolve v = .possibilities p) : s.HoldsSet p := by
  have hfollow : ∀ fuel v, s.HoldsSlot v → s.follow fuel v = .possibilities p → s.HoldsSet p := by
    intro fuel
    induction fuel with
    | zero =>
      intro v hv hfollow
      cases v <;> exact hv p hfollow
    | succ fuel ih =>
      intro v hv hfollow
      cases v with
      | pending q =>
        rw [follow] at hfollow
        split at hfollow
        · next slot hslot =>
          refine ih slot ?_ hfollow
          rintro p rfl
          exact .inr ⟨q, hslot⟩
        · exact absurd hfollow (by simp)
      | _ => exact hv p hfollow
  exact hfollow _ v hv h

theorem slotCovers_of_alike {v w : Slot} (hs : s.Sound) (hv : s.HoldsSlot v) (hw : s.HoldsSlot w)
    (hwsettled : s.Settled w) (h : v.Alike (· = ·) w) : s.SlotCovers v w := by
  have hapart : v.Apart (· = ·) w := by
    cases v with
    | possibilities p =>
      cases w with
      | possibilities q =>
        have hp := hs.sets p (hv p rfl)
        refine ⟨fun htoken => ?_, (apartIn_eq hp.distinct).anti fun _ _ _ _ => Candidate.alike_eq.mp⟩
        exact (hp.coherent q (hw q rfl) htoken.symm).symm
      | _ => trivial
    | _ => trivial
  exact (slotCovers_refl hwsettled).of_reordered (h.reordered hapart) hwsettled

namespace SlotWidened

variable {v w : Slot}

theorem left (hs : s.Sound) (hv : s.HoldsSlot v) (hsettled : s.Settled v)
    (h : s.SlotCovers v w) : s.SlotWidened s v w v where
  grows := .refl s
  sound := hs
  admitted p hp := hs.sets p (hv p hp)
  settled := hsettled
  same _ := h
  upper := ⟨slotCovers_refl hsettled, h⟩

theorem right (hs : s.Sound) (hv : s.HoldsSlot v) (hw : s.HoldsSlot w) (hsettled : s.Settled w)
    (h : s.SlotCovers w v) : s.SlotWidened s v w w where
  grows := .refl s
  sound := hs
  admitted p hp := hs.sets p (hw p hp)
  settled := hsettled
  same := slotCovers_of_alike hs hv hw hsettled
  upper := ⟨h, slotCovers_refl hsettled⟩

theorem anything (hgrows : s.Grows t) (hsound : t.Sound) : s.SlotWidened t v w .anything where
  grows := hgrows
  sound := hsound
  admitted p hp := absurd hp (by simp)
  settled := ⟨by rw [waitsOn, resolve_self _ .anything rfl], fun c hc => by
    rw [resolve_self _ .anything rfl] at hc
    exact absurd hc List.not_mem_nil⟩
  same h := by
    cases v with
    | anything => exact .inl (s.resolve_self .anything rfl)
    | _ => exact h.elim
  upper := ⟨.inl (t.resolve_self .anything rfl), .inl (t.resolve_self .anything rfl)⟩

/-- What the result has in it covers both slots later on, too, in whatever order. -/
theorem covers {u : Store} {x x' : Slot} (h : s.SlotWidened t v w x) (hv : s.Settled v)
    (hw : s.Settled w) (hgrows : t.Grows u) (hx : x'.Reordered x) :
    u.SlotCovers x' v ∧ u.SlotCovers x' w := by
  have hsettled := hgrows.settled h.settled
  refine ⟨SlotCovers.of_reordered ?_ hx hsettled, SlotCovers.of_reordered ?_ hx hsettled⟩
  · exact (hgrows.slotCovers_iff h.settled (h.grows.settled hv)).mpr h.upper.1
  · exact (hgrows.slotCovers_iff h.settled (h.grows.settled hw)).mpr h.upper.2

end SlotWidened

theorem Settled.closed_children {v : Slot} (h : s.Settled v) : ∀ c ∈ v.children, s.Closed c := by
  intro c hc
  cases v with
  | possibilities p =>
    refine h.closed c ?_
    rwa [Store.resolve_self _ (.possibilities _) rfl]
  | _ => exact absurd hc List.not_mem_nil

theorem grows_record (s : Store) (d : Diagnostic) : s.Grows (s.record d) :=
  ⟨fun _ _ => rfl, rfl, Nat.le_refl _⟩

theorem Sound.record (hs : s.Sound) (d : Diagnostic) : (s.record d).Sound :=
  hs.change (.record d) trivial

end Store

/-! ### The merge of slots -/

namespace Infer

variable {s t : Store} {v w x : Slot}

/-- A new set of the candidates of two slots. -/
theorem slotWidened_extended (hs : s.Sound) (hv : s.HoldsSlot v)
    (hvs : s.Settled v) (hws : s.Settled w) (hva : s.resolve v ≠ .anything)
    (hwa : s.resolve w ≠ .anything) {union : List Candidate}
    (hext : s.Extended (candidatesOf (s.resolve v)) (candidatesOf (s.resolve w)) union)
    (hsub : s.isSubset (candidatesOf (s.resolve w)) (candidatesOf (s.resolve v)) = false) :
    s.SlotWidened { s with tokens := s.tokens + 1 } v w (.possibilities ⟨s.tokens, union⟩) := by
  have hgrows := s.grows_token
  have hfv := Store.foundedIn_candidatesOf hvs
  have hfw := Store.foundedIn_candidatesOf hws
  have hfounded : ∀ e ∈ union, s.FoundedIn e := fun e he =>
    (hext.from_both e he).elim (hfv e) (hfw e)
  have hdistinct : (candidatesOf (s.resolve v)).Nodup := by
    rcases hr : s.resolve v with c | _ | p | q
    · exact List.nodup_singleton _
    · exact List.nodup_nil
    · exact (hs.sets p (hv.resolved hr)).distinct
    · exact List.nodup_nil
  have hcovers : ∀ slot, s.resolve slot ≠ .anything → s.Settled slot →
      (∀ c ∈ candidatesOf (s.resolve slot), ∃ e ∈ union, e.Alike s.Equals c) →
        s.SlotCovers (.possibilities ⟨s.tokens, union⟩) slot := by
    intro slot hslot hsettled h
    refine .inr ⟨hslot, ?_⟩
    rw [Store.resolve_self _ (.possibilities _) rfl]
    exact (Store.isSubset_iff hfounded).mpr h
  have hxsettled : s.Settled (.possibilities ⟨s.tokens, union⟩) := by
    refine ⟨by rw [Store.waitsOn, Store.resolve_self _ (.possibilities _) rfl], fun c hc => ?_⟩
    rw [Store.resolve_self _ (.possibilities _) rfl] at hc
    obtain ⟨e, he, hce⟩ := List.mem_flatMap.mp hc
    rcases hext.from_both e he with he | he
    · exact hvs.closed_of_candidate he hce
    · exact hws.closed_of_candidate he hce
  refine ⟨hgrows, hs.change .token trivial, ?_, hgrows.settled hxsettled, fun halike => ?_, ?_⟩
  · rintro p ⟨⟩
    exact hs.admits_new (hext.distinct hdistinct)
  · cases v with
    | possibilities p =>
      -- the new set is not alike to the old one: its token is fresh, and it is longer
      exfalso
      rw [Store.resolve_self _ (.possibilities _) rfl] at hext hsub
      rcases halike with htoken | hmatch
      · exact absurd htoken (Nat.ne_of_lt (hs.sets p (hv p rfl)).issued)
      · exact absurd hmatch.1 (Nat.ne_of_lt (hext.longer hsub))
    | _ => exact halike.elim
  · rw [hgrows.slotCovers_iff hxsettled hvs, hgrows.slotCovers_iff hxsettled hws]
    exact ⟨hcovers v hva hvs fun c hc => ⟨c, hext.prefixed.subset hc, s.alike_refl c⟩,
      hcovers w hwa hws hext.covers⟩

theorem mergeCandidates_widened {scope : MergeScope} (hs : s.Sound) (hv : s.HoldsSlot v)
    (hw : s.HoldsSlot w) (hvs : s.Settled v) (hws : s.Settled w)
    (hva : s.resolve v ≠ .anything) (hwa : s.resolve w ≠ .anything)
    (h : (mergeCandidates scope false v w (s.resolve v) (s.resolve w)).outcome s = (.ok x, t)) :
    s.SlotWidened t v w x := by
  rw [mergeCandidates, outcome_store_bind] at h
  dsimp only at h
  by_cases hleft : s.isSubset (candidatesOf (s.resolve w)) (candidatesOf (s.resolve v)) = true
  · rw [if_pos hleft] at h
    cases h
    exact .left hs hv hvs (.inr ⟨hwa, hleft⟩)
  rw [if_neg hleft, if_neg (by simp)] at h
  by_cases hright : s.isSubset (candidatesOf (s.resolve v)) (candidatesOf (s.resolve w)) = true
  · rw [if_pos hright] at h
    cases h
    exact .right hs hv hw hws (.inr ⟨hva, hright⟩)
  rw [if_neg hright] at h
  split at h
  · cases h
    exact .anything (s.grows_record _) (hs.record _)
  · cases h
    refine slotWidened_extended hs hv hvs hws hva hwa ?_ (by simpa using hleft)
    exact Store.addCandidates_extended (Store.foundedIn_candidatesOf hvs)
      (Store.foundedIn_candidatesOf hws)

/-- **A relaxed merge of slots** gives a slot that covers both. -/
theorem mergeSlots_widened {scope : MergeScope} (hs : s.Sound) (hv : s.HoldsSlot v)
    (hw : s.HoldsSlot w) (hvs : s.Settled v) (hws : s.Settled w)
    (h : (mergeSlots scope false v w).outcome s = (.ok x, t)) : s.SlotWidened t v w x := by
  have hcandidates : s.resolve v ≠ .anything → s.resolve w ≠ .anything →
      (mergeCandidates scope false v w (s.resolve v) (s.resolve w)).outcome s = (.ok x, t) →
        s.SlotWidened t v w x := fun hva hwa => mergeCandidates_widened hs hv hw hvs hws hva hwa
  rw [mergeSlots, outcome_store_bind] at h
  dsimp only at h
  rcases hrv : s.resolve v with c | _ | p | p
  · rcases hrw : s.resolve w with d | _ | q | q
    · rw [hrv, hrw] at h
      dsimp only at h
      by_cases hcd : c = d
      · rw [if_pos hcd] at h
        cases h
        refine .left hs hv hvs (.inr ⟨by simp [hrw], ?_⟩)
        rw [hrv, hrw]
        exact isSubset_constant c d |>.mpr hcd
      rw [if_neg hcd, if_neg (by simp)] at h
      split at h
      · cases h
        exact .anything (s.grows_record _) (hs.record _)
      · exact absurd h (by simp [slotMismatch])
    · rw [hrv, hrw] at h
      cases h
      exact .anything (.refl s) hs
    · rw [hrv, hrw] at h hcandidates
      exact hcandidates (by simp) (by simp) h
    · exact absurd hrw (resolve_ne_pending hws q)
  · rw [hrv] at h
    cases h
    exact .left hs hv hvs (.inl hrv)
  · rcases hrw : s.resolve w with d | _ | q | q
    · rw [hrv, hrw] at h hcandidates
      exact hcandidates (by simp) (by simp) h
    · rw [hrv, hrw] at h
      cases h
      exact .anything (.refl s) hs
    · rw [hrv, hrw] at h hcandidates
      exact hcandidates (by simp) (by simp) h
    · exact absurd hrw (resolve_ne_pending hws q)
  · exact absurd hrv (resolve_ne_pending hvs p)

end Infer

end ValueInference
