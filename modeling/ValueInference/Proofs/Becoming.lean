/-
What slots become along a run.

A slot that is resolved has become its result, from then on.  The result of a pending may be taken
away by a late failure, so the relation below says nothing about what is behind a failed pending;
in return no step takes any of it back.

* **`Store.Becomes`** — a slot was resolved to another one, as far as its pendings have not failed;
* **`Store.Persists`** — results stay or fail, and failures stay;
* **`Store.Becomes.resolve_or_failed`** — a slot that has become something known is resolved to it;
* **`Store.Becomes.eq_of_known`** — a slot becomes one known slot at most;
* **`Machine.Move.persists`** — results and failures persist along every step.
-/
import ValueInference.Proofs.Ground
import ValueInference.Proofs.Lasting
import Mathlib.Data.Fintype.Card

namespace ValueInference

theorem Slot.pendings_eq_nil {v : Slot} (h : ∀ p, v ≠ .pending p) : v.pendings = [] := by
  cases v with
  | pending p => exact absurd rfl (h p)
  | _ => rfl

namespace Store

variable {s t u : Store} {p q : PendingId} {v w x : Slot}

/-- The first slot is a pending that was resolved to the second one, or that has failed. -/
def Links (s : Store) (v w : Slot) : Prop :=
  ∃ p, v = .pending p ∧ (s.result? p = some w ∨ (s.error? p).isSome = true)

/-- The first slot was resolved to the second one, through pendings, unless one has failed. -/
def Becomes (s : Store) : Slot → Slot → Prop := Relation.ReflTransGen s.Links

/-- Results stay or fail, and failures stay. -/
def Persists (s t : Store) : Prop :=
  ∀ p, (∀ w, s.result? p = some w → t.result? p = some w ∨ (t.error? p).isSome = true) ∧
    ((s.error? p).isSome = true → (t.error? p).isSome = true)

theorem Persists.refl (s : Store) : s.Persists s := fun _ => ⟨fun _ => .inl, id⟩

theorem Persists.trans (h : s.Persists t) (h' : t.Persists u) : s.Persists u := by
  refine fun p => ⟨fun w hw => ?_, fun he => (h' p).2 ((h p).2 he)⟩
  rcases (h p).1 w hw with hw | he
  · exact (h' p).1 w hw
  · exact .inr ((h' p).2 he)

theorem error?_isSome_iff :
    (s.error? p).isSome = true ↔ ∃ e, s.pendingStatus p = .failed e := by
  rw [error?]
  cases s.pendingStatus p <;> simp

theorem result?_of_status (h : t.pendingStatus p = s.pendingStatus p) :
    t.result? p = s.result? p := by
  rw [result?, h, result?]

theorem error?_of_status (h : t.pendingStatus p = s.pendingStatus p) :
    t.error? p = s.error? p := by
  rw [error?, h, error?]

theorem isOpen_eq_false_iff : s.isOpen p = false ↔
    (∃ w, s.result? p = some w) ∨ (s.error? p).isSome = true := by
  rw [isOpen, result?, error?]
  cases s.pendingStatus p <;> simp

/-- A pending that is closed stays closed. -/
theorem Persists.closed (h : s.Persists t) (hp : s.isOpen p = false) : t.isOpen p = false := by
  rw [isOpen_eq_false_iff] at hp ⊢
  rcases hp with ⟨w, hw⟩ | he
  · exact ((h p).1 w hw).imp (fun hw => ⟨w, hw⟩) id
  · exact .inr ((h p).2 he)

theorem persists_of_status (h : ∀ p, s.isOpen p = true ∨ t.pendingStatus p = s.pendingStatus p) :
    s.Persists t := by
  intro p
  rcases h p with hopen | hsame
  · have hclosed : s.isOpen p = false → False := fun hp => by simp [hopen] at hp
    refine ⟨fun w hw => ?_, fun he => ?_⟩
    · exact (hclosed (isOpen_eq_false_iff.mpr (.inl ⟨w, hw⟩))).elim
    · exact (hclosed (isOpen_eq_false_iff.mpr (.inr he))).elim
  · rw [result?_of_status hsame, error?_of_status hsame]
    exact ⟨fun w hw => .inl hw, id⟩

theorem PendingMove.open_or_same (h : s.PendingMove t p) :
    s.isOpen p = true ∨ t.pendingStatus p = s.pendingStatus p := by
  cases h with
  | same status _ => exact .inr status
  | opened fresh _ => exact .inl (isOpen_iff.mpr (.inl (pendingStatus_of_absent fresh)))
  | resolved _ before _ _ => exact .inl before

theorem QuietStep.persists (h : s.QuietStep t) : s.Persists t :=
  persists_of_status fun p => (h.pending p).open_or_same

theorem Quiet.persists (h : s.Quiet t) : s.Persists t := by
  induction h with
  | refl => exact .refl s
  | tail _ hlast ih => exact ih.trans hlast.persists

theorem persists_of_pendings (h : t.pendings = s.pendings) : s.Persists t :=
  persists_of_status fun _ => .inr (pendingStatus_of_pendings h)

theorem Idle.persists_beginResolving {res : Resolver} (hs : s.Idle)
    (h : s.beginResolving p = (some res, t)) : s.Persists t := by
  obtain ⟨hres, rfl⟩ := beginResolving_eq h
  refine persists_of_status fun q => ?_
  by_cases hpq : p = q
  · subst hpq
    exact .inl (isOpen_iff.mpr (.inl (hs p (by rw [hres]; exact nofun))))
  · rw [pendingStatus, pending_of_ne hpq]
    exact .inr rfl

/-- A failure takes a result away, and all that is known behind it. -/
theorem persists_fail (s : Store) (p : PendingId) (e : InferError) : s.Persists (s.fail p e) := by
  intro q
  by_cases hpq : p = q
  · subst hpq
    have hfailed : ∀ {w}, s.result? p = some w ∨ (s.error? p).isSome = true →
        ((s.fail p e).error? p).isSome = true := by
      intro w h
      have hlt : p < s.pendings.size := by
        by_contra hge
        have hstatus := pendingStatus_of_absent (s := s) (Nat.not_lt.mp hge)
        rw [result?, error?, hstatus] at h
        simp at h
      exact error?_isSome_iff.mpr ⟨e, pendingStatus_close hlt⟩
    exact ⟨fun w hw => .inr (hfailed (.inl hw)), fun he => hfailed (w := .anything) (.inr he)⟩
  · have hsame : (s.fail p e).pendingStatus q = s.pendingStatus q := by
      rw [pendingStatus, fail, pending_close_of_ne hpq, ← pendingStatus]
    rw [result?_of_status hsame, error?_of_status hsame]
    exact ⟨fun w hw => .inl hw, id⟩

/-! ### Following -/

theorem follow_zero (s : Store) (v : Slot) : s.follow 0 v = v := by
  cases v <;> rfl

/-- Nothing is left to follow from a slot. -/
def Final (s : Store) (v : Slot) : Prop := ∀ p, v = .pending p → s.result? p = none

theorem Final.follow (h : s.Final v) (fuel : Nat) : s.follow fuel v = v := by
  cases fuel with
  | zero => exact follow_zero s v
  | succ fuel =>
    cases v with
    | pending p => rw [Store.follow, h p rfl]
    | _ => rfl

theorem exists_of_not_final (h : ¬ s.Final v) :
    ∃ p w, v = .pending p ∧ s.result? p = some w := by
  simp only [Final, not_forall] at h
  obtain ⟨p, hp, hresult⟩ := h
  obtain ⟨w, hw⟩ := Option.ne_none_iff_exists'.mp hresult
  exact ⟨p, w, hp, hw⟩

theorem follow_add (s : Store) (i k : Nat) : ∀ v, s.follow (i + k) v = s.follow k (s.follow i v) := by
  induction i with
  | zero =>
    intro v
    rw [follow_zero, Nat.zero_add]
  | succ i ih =>
    intro v
    by_cases hfinal : s.Final v
    · rw [hfinal.follow, hfinal.follow, hfinal.follow]
    · obtain ⟨p, w, rfl, hw⟩ := exists_of_not_final hfinal
      rw [Nat.succ_add, Store.follow, Store.follow, hw]
      exact ih w

/-- **What is final after any number of pendings** is what the slot is resolved to: on the way
there no pending is met twice. -/
theorem resolve_of_final {fuel : Nat} (h : s.Final (s.follow fuel v)) :
    s.resolve v = s.follow fuel v := by
  classical
  have hex : ∃ k, s.Final (s.follow k v) := ⟨fuel, h⟩
  obtain ⟨k, hk, hleast⟩ : ∃ k, s.Final (s.follow k v) ∧ ∀ i < k, ¬ s.Final (s.follow i v) :=
    ⟨Nat.find hex, Nat.find_spec hex, fun _ => Nat.find_min hex⟩
  have hlater : ∀ j, k ≤ j → s.follow j v = s.follow k v := by
    intro j hj
    rw [show j = k + (j - k) by omega, follow_add, hk.follow]
  have hmet : ∀ i : Fin k, ∃ p, s.follow i v = .pending p ∧ p < s.pendings.size := by
    intro i
    obtain ⟨p, w, hp, hw⟩ := exists_of_not_final (hleast i i.isLt)
    exact ⟨p, hp, lt_of_result? hw⟩
  choose met hfollow hlt using hmet
  -- a pending that is met again would leave less to follow
  have hapart : ∀ i j : Fin k, i < j → met i ≠ met j := by
    intro i j hij heq
    refine hleast (i + (k - j)) (by omega) ?_
    rw [follow_add, hfollow, heq, ← hfollow, ← follow_add]
    rwa [show (j : Nat) + (k - j) = k by omega]
  have hcard : k ≤ s.pendings.size := by
    have hinj : Function.Injective fun i : Fin k => (⟨met i, hlt i⟩ : Fin s.pendings.size) := by
      intro i j hij
      have heq : met i = met j := congrArg Fin.val hij
      rcases lt_trichotomy i j with hlt | heq' | hgt
      · exact absurd heq (hapart i j hlt)
      · exact heq'
      · exact absurd heq.symm (hapart j i hgt)
    simpa using Fintype.card_le_of_injective _ hinj
  have hfuel : k ≤ fuel := Nat.le_of_not_lt fun hlt => hleast fuel hlt h
  rw [resolve, hlater _ hcard, hlater _ hfuel]

/-! ### Becoming -/

namespace Becomes

theorem refl (s : Store) (v : Slot) : s.Becomes v v := Relation.ReflTransGen.refl

theorem trans (h : s.Becomes v w) (h' : s.Becomes w x) : s.Becomes v x :=
  Relation.ReflTransGen.trans h h'

theorem follow (fuel : Nat) : ∀ v, s.Becomes v (s.follow fuel v) := by
  induction fuel with
  | zero => intro v; cases v <;> exact refl s _
  | succ fuel ih =>
    intro v
    cases v with
    | pending p =>
      rw [Store.follow]
      split
      · next w hw => exact .head ⟨p, rfl, .inl hw⟩ (ih w)
      · exact refl s _
    | _ => exact refl s _

/-- A slot becomes what it is resolved to. -/
theorem resolve (s : Store) (v : Slot) : s.Becomes v (s.resolve v) := follow _ v

theorem later (h : s.Becomes v w) (hst : s.Persists t) : t.Becomes v w := by
  refine Relation.ReflTransGen.mono (fun v w hvw => ?_) _ _ h
  obtain ⟨p, rfl, hw | he⟩ := hvw
  · exact ⟨p, rfl, (hst p).1 w hw⟩
  · exact ⟨p, rfl, .inr ((hst p).2 he)⟩

/-- **A slot that has become something known** is resolved to that, unless a pending on the way has
failed. -/
theorem resolve_or_failed (h : s.Becomes v w) (hw : w.pendings = []) :
    s.resolve v = w ∨ ∃ p, s.resolve v = .pending p ∧ (s.error? p).isSome = true := by
  have hreached : ∃ fuel, s.follow fuel v = w ∨
      ∃ p, s.follow fuel v = .pending p ∧ (s.error? p).isSome = true := by
    induction h using Relation.ReflTransGen.head_induction_on with
    | refl => exact ⟨0, .inl (follow_zero s w)⟩
    | @head v x hstep _ ih =>
      obtain ⟨p, rfl, hlink | he⟩ := hstep
      · obtain ⟨fuel, hfuel⟩ := ih
        refine ⟨fuel + 1, ?_⟩
        rwa [Store.follow, hlink]
      · exact ⟨0, .inr ⟨p, rfl, he⟩⟩
  obtain ⟨fuel, hfuel⟩ := hreached
  have hfinal : s.Final (s.follow fuel v) := by
    intro p hp
    rcases hfuel with hw' | ⟨q, hq, he⟩
    · rw [← hw', hp] at hw
      cases hw
    · obtain ⟨e, he⟩ := error?_isSome_iff.mp he
      cases hp.symm.trans hq
      rw [result?, he]
  rwa [resolve_of_final hfinal]

theorem failed_of_pending (h : s.Becomes v w) (hw : w.pendings = [])
    (hp : s.resolve v = .pending p) : (s.error? p).isSome = true := by
  rcases h.resolve_or_failed hw with hvw | ⟨q, hq, hfailed⟩
  · rw [← hvw, hp] at hw
    exact nomatch hw
  · cases hp.symm.trans hq
    exact hfailed

theorem resolve_eq (h : s.Becomes v w) (hw : w.pendings = [])
    (hv : ∀ p, s.resolve v ≠ .pending p) : s.resolve v = w :=
  (h.resolve_or_failed hw).resolve_right fun ⟨p, hp, _⟩ => hv p hp

/-- **A slot that is resolved to something known** becomes nothing else that is known. -/
theorem eq_of_known (h : s.Becomes v w) (hx : x.pendings = []) (hw : w.pendings = [])
    (hresolve : s.resolve v = x) : w = x := by
  refine (h.resolve_eq hw fun p hp => ?_).symm.trans hresolve
  rw [← hresolve, hp] at hx
  exact nomatch hx

end Becomes

end Store

/-! ### Machines -/

namespace Machine

variable {σ : Type} {m m' : Machine σ}

/-- **Results and failures persist along every step.** -/
theorem Move.persists (h : m.Move m') (hm : m.store.Idle) : m.store.Persists m'.store := by
  refine h.store_induction (motive := m.store.Persists) (.refl _) ?_ ?_ ?_ ?_
  · exact fun hs _ hpendings => hs.trans (Store.persists_of_pendings hpendings)
  · exact fun hs hquiet => hs.trans hquiet.persists
  · exact fun hquiet hs hbegin => hs.trans ((hm.quiet hquiet).persists_beginResolving hbegin)
  · exact fun p e _ => m.store.persists_fail p e

end Machine

end ValueInference
