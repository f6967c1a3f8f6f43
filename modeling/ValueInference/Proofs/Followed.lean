/-
Values with their slots followed.

A slot that waits stands for what its pending is resolved to, through any chain of pendings.  With
every slot replaced by what it stands for, a store shows what a value leads to through pendings as
well.  On the way to a later store, where all pendings that the value leads to are resolved, a slot
stands for what it stands for in the end, or for an open pending that will stand for it; so a value
leads to more and more, and in the end to all of it.

* **`Store.followed`** — the store with every slot replaced by what it stands for;
* **`Store.poll_towards`** — what a slot is found to stand for on the way;
* **`Store.Towards`** — a store on the way to another one;
* **`Store.Towards.leads`** — what a value led to before, it leads to in every later store.
-/
import ValueInference.Proofs.Continuing
import ValueInference.Proofs.Histories

namespace ValueInference

/-- The form with its slot changed. -/
def Kind.mapSlot (f : Slot → Slot) : Kind → Kind
  | .scalar value ty => .scalar (f value) ty
  | .function options => .function (f options)
  | k => k

namespace Kind

variable {k : Kind} {f g : Slot → Slot}

theorem slot?_mapSlot (f : Slot → Slot) (k : Kind) : (k.mapSlot f).slot? = k.slot?.map f := by
  cases k <;> rfl

theorem mapSlot_congr (h : ∀ v, k.slot? = some v → f v = g v) : k.mapSlot f = k.mapSlot g := by
  cases k with
  | scalar v t => rw [mapSlot, mapSlot, h v rfl]
  | function v => rw [mapSlot, mapSlot, h v rfl]
  | _ => rfl

theorem mapSlot_id (h : ∀ v, k.slot? = some v → f v = v) : k.mapSlot f = k := by
  cases k with
  | scalar v t => rw [mapSlot, h v rfl]
  | function v => rw [mapSlot, h v rfl]
  | _ => rfl

theorem mapSlot_of_slotless (h : k.slot? = none) : k.mapSlot f = k :=
  mapSlot_id fun _ hv => nomatch h.symm.trans hv

end Kind

namespace Store

variable {s t T : Store} {v n c : NodeId} {w x : Slot} {p q : PendingId}

/-! ### What slots stand for -/

theorem resolve_of_failed (h : (s.error? p).isSome = true) :
    s.resolve (.pending p) = .pending p := by
  have hfinal : s.Final (.pending p) := by
    rintro q ⟨⟩
    obtain ⟨e, he⟩ := error?_isSome_iff.mp h
    rw [result?, he]
  exact hfinal.follow _

/-- What a slot was resolved to on the way stands for the same as the slot. -/
theorem Becomes.resolve_congr (h : s.Becomes w x) (hw : (s.resolve w).pendings = []) :
    s.resolve x = s.resolve w := by
  induction h using Relation.ReflTransGen.head_induction_on with
  | refl => rfl
  | @head w y hstep _ ih =>
    obtain ⟨p, rfl, hlink | hfailed⟩ := hstep
    · -- the first pending of the chain is followed once
      obtain ⟨size, hsize⟩ : ∃ size, s.pendings.size = size + 1 :=
        Nat.exists_eq_add_one_of_ne_zero (Nat.ne_zero_of_lt (lt_of_result? hlink))
      have hfollow : s.resolve (.pending p) = s.follow size y := by
        rw [Store.resolve, hsize, Store.follow, hlink]
      have hfinal : s.Final (s.follow size y) := by
        intro q hq
        rw [hfollow, hq] at hw
        cases hw
      have hsame : s.resolve y = s.resolve (.pending p) :=
        (resolve_of_final hfinal).trans hfollow.symm
      rw [ih (hsame ▸ hw), hsame]
    · rw [resolve_of_failed hfailed] at hw
      cases hw

/-- Whatever a slot comes to stand for, there is nothing left to follow from what it stands for on
the way. -/
theorem Persists.final (h : s.Persists T) (hw : (T.resolve w).pendings = []) :
    s.Final (s.resolve w) := by
  have hreached : ∀ (fuel : Nat) (w : Slot), (T.follow fuel w).pendings = [] →
      ∃ fuel', s.Final (s.follow fuel' w) := by
    intro fuel
    induction fuel with
    | zero =>
      intro w hw
      rw [follow_zero] at hw
      refine ⟨0, fun q hq => ?_⟩
      rw [follow_zero] at hq
      rw [hq] at hw
      cases hw
    | succ fuel ih =>
      intro w hw
      by_cases hfinal : s.Final w
      · exact ⟨0, (follow_zero s w).symm ▸ hfinal⟩
      obtain ⟨p, x, rfl, hx⟩ := exists_of_not_final hfinal
      rcases (h p).1 x hx with hx' | hfailed
      · rw [follow, hx'] at hw
        obtain ⟨fuel', hfuel'⟩ := ih x hw
        refine ⟨fuel' + 1, ?_⟩
        rwa [follow, hx]
      · obtain ⟨e, he⟩ := error?_isSome_iff.mp hfailed
        rw [follow, result?, he] at hw
        cases hw
  obtain ⟨fuel, hfuel⟩ := hreached _ w hw
  rwa [resolve_of_final hfuel]

/-- What a slot is found to stand for on the way it stands for in the end. -/
theorem Persists.resolve_eq (h : s.Persists T) (hw : (T.resolve w).pendings = [])
    (hs : (s.resolve w).pendings = []) : s.resolve w = T.resolve w :=
  ((Becomes.resolve s w).later h).eq_of_known hw hs rfl

/-- Where a slot comes to stand for something known, it is resolved to what it has become. -/
theorem Becomes.resolve_known (h : s.Becomes w x) (hT : s.Persists T)
    (hw : (T.resolve w).pendings = []) (hx : x.pendings = []) : s.resolve w = x := by
  rcases h.resolve_or_failed hx with hsame | ⟨p, hp, hfailed⟩
  · exact hsame
  · have hstuck := ((Becomes.resolve s w).later hT).resolve_congr hw
    rw [hp, resolve_of_failed ((hT p).2 hfailed)] at hstuck
    rw [← hstuck] at hw
    exact nomatch hw

/-- What a slot stood for before it stands for still. -/
theorem Before.resolve_stays (h : s.Before t) (ht : t.Persists T) (hw : (T.resolve w).pendings = [])
    (hs : (s.resolve w).pendings = []) : t.resolve w = T.resolve w := by
  rw [((Becomes.resolve s w).later h.persists).resolve_known ht hw hs,
    (h.persists.trans ht).resolve_eq hw hs]

theorem Informed.knowsSlot_resolve (hs : s.Informed) (hw : s.knowsSlot w = true) :
    s.knowsSlot (s.resolve w) = true := by
  suffices hfollow : ∀ (fuel : Nat) (w : Slot), s.knowsSlot w = true →
      s.knowsSlot (s.follow fuel w) = true from hfollow _ w hw
  intro fuel
  induction fuel with
  | zero => exact fun w hw => (follow_zero s w).symm ▸ hw
  | succ fuel ih =>
    intro w hw
    cases w with
    | pending p =>
      rw [follow]
      split
      · next x hx => exact ih x (hs p x hx)
      · exact hw
    | _ => exact hw

/-- **A slot that is polled on the way** stands for what it stands for in the end, or for an open
pending that will stand for it. -/
theorem poll_towards (hs : s.Informed) (h : s.Persists T) (hw : (T.resolve w).pendings = [])
    (hknown : ∀ p ∈ w.pendings, p < s.pendings.size) :
    (s.poll w = .inr (.ok (T.resolve w)) ∧ s.resolve w = T.resolve w) ∨
      ∃ p, s.poll w = .inl p ∧ s.resolve w = .pending p ∧ T.resolve (.pending p) = T.resolve w := by
  rcases hresolve : s.resolve w with x | _ | x | p
  case pending =>
    right
    have hbecomes : T.Becomes w (.pending p) := hresolve ▸ (Becomes.resolve s w).later h
    have hend := hbecomes.resolve_congr hw
    have hnofail : s.error? p = none := by
      by_contra hfails
      have hfailed := (h p).2 (Option.isSome_iff_ne_none.mpr hfails)
      rw [← hend, resolve_of_failed hfailed] at hw
      exact nomatch hw
    have hfinal := h.final hw
    rw [hresolve] at hfinal
    have hwait : s.canWait p = true := by
      refine canWait_iff.mpr ⟨?_, ?_⟩
      · -- the slot is not a set, so the pendings in it are all that has to exist
        have hslot : s.knowsSlot w = true := by
          cases w with
          | pending q => exact knowsSlot_iff.mpr ⟨nofun, hknown⟩
          | _ => exact nomatch hresolve.symm.trans (s.resolve_self _ rfl)
        have hp := hs.knowsSlot_resolve hslot
        rw [hresolve] at hp
        exact (knowsSlot_iff.mp hp).2 p List.mem_cons_self
      · by_contra hclosed
        rcases isOpen_eq_false_iff.mp (Bool.eq_false_iff.mpr hclosed) with ⟨x, hx⟩ | hfailed
        · rw [hfinal p rfl] at hx
          exact nomatch hx
        · rw [hnofail] at hfailed
          exact nomatch hfailed
    refine ⟨p, ?_, rfl, hend⟩
    rw [poll, hresolve]
    simp only [hnofail, hwait, if_true]
  all_goals
    left
    have hsame := h.resolve_eq hw (by rw [hresolve]; rfl)
    rw [← hsame, hresolve, poll, hresolve]
    exact ⟨rfl, rfl⟩

/-! ### Followed stores -/

/-- The store with every slot replaced by what it stands for. -/
def followed (s : Store) : Store :=
  { s with nodes := s.nodes.map fun node =>
      { node with kind := node.kind.map (Kind.mapSlot s.resolve) } }

theorem kind_followed (s : Store) (n : NodeId) :
    s.followed.kind n = (s.kind n).mapSlot s.resolve := by
  rw [kind, kind, followed, Array.getElem?_map]
  cases s.nodes[n]? with
  | none => rfl
  | some node => cases hk : node.kind <;> simp [hk, Kind.mapSlot]

theorem isComplete_followed (s : Store) (n : NodeId) :
    s.followed.isComplete n = s.isComplete n := by
  rw [isComplete, isComplete, followed, Array.getElem?_map]
  cases s.nodes[n]? with
  | none => rfl
  | some node => cases hk : node.kind <;> simp [hk]

theorem size_followed (s : Store) : s.followed.nodes.size = s.nodes.size := Array.size_map

/-- A form without a slot, or with one that stands for itself, is the same when it is followed. -/
theorem kind_followed_eq (h : ∀ w, (s.kind n).slot? = some w → s.resolve w = w) :
    s.followed.kind n = s.kind n := by
  rw [kind_followed, Kind.mapSlot_id h]

/-- What is below a form stays there, where its slot goes on to stand for what it stands for. -/
theorem children_followed (hkind : t.kind n = s.kind n)
    (hslot : ∀ w, (s.kind n).slot? = some w → (s.resolve w).pendings = [] →
      t.resolve w = s.resolve w) :
    ∀ c ∈ (s.followed.kind n).children, c ∈ (t.followed.kind n).children := by
  intro c hc
  rw [kind_followed] at hc ⊢
  rw [hkind]
  rcases hw : (s.kind n).slot? with _ | w
  · rwa [Kind.mapSlot_of_slotless hw] at hc ⊢
  · rw [Kind.children_of_slot (by rw [Kind.slot?_mapSlot, hw]; rfl)] at hc ⊢
    rw [hslot w hw ?_]
    · exact hc
    · -- a slot that waits has nothing below it
      cases hresolve : s.resolve w with
      | pending p =>
        rw [hresolve] at hc
        exact absurd hc List.not_mem_nil
      | _ => rfl

/-- All pendings that the value leads to are resolved. -/
def Answered (T : Store) (v : NodeId) : Prop :=
  ∀ n, T.followed.Leads v n → (T.followed.kind n).pendings = []

theorem Answered.slot (h : T.Answered v) (hn : T.followed.Leads v n)
    (hw : (T.kind n).slot? = some w) : (T.resolve w).pendings = [] := by
  have hnone := h n hn
  rwa [kind_followed, Kind.pendings, Kind.slot?_mapSlot, hw] at hnone

/-! ### On the way -/

/-- The store is on the way to another one, and whatever the value leads to in it is complete. -/
structure Towards (s T : Store) (v : NodeId) : Prop where
  sound : s.Sound
  informed : s.Informed
  conforms : ∀ n, (s.kind n).Conforms
  later : s.Before T
  finished : s.followed.Finished v

namespace Towards

variable (h : s.Towards T v)

include h

theorem complete (hn : s.followed.Leads v n) : s.isComplete n = true :=
  (s.isComplete_followed n).symm.trans (h.finished n hn)

theorem kind_eq (hn : s.followed.Leads v n) : T.kind n = s.kind n :=
  h.later.keeps.kind_eq (h.complete hn)

variable (hT : T.Answered v)

include hT

/-- What the value leads to on the way, it leads to in the end. -/
theorem leads_end (hn : s.followed.Leads v n) : T.followed.Leads v n := by
  induction hn with
  | refl => exact .refl
  | @tail m c hm hc ih =>
    have hkind := h.kind_eq hm
    refine ih.tail (children_followed hkind (fun w hw hsettled => ?_) c hc)
    exact (h.later.persists.resolve_eq (hT.slot ih (hkind ▸ hw)) hsettled).symm

/-- What a slot of the value stands for in the end. -/
theorem slot (hn : s.followed.Leads v n) (hw : (s.kind n).slot? = some w) :
    (T.resolve w).pendings = [] :=
  hT.slot (h.leads_end hT hn) (h.kind_eq hn ▸ hw)

/-- **What the value led to before**, it leads to in a later store. -/
theorem leads (ht : t.Towards T v) (hst : s.Before t) (hn : s.followed.Leads v n) :
    t.followed.Leads v n := by
  induction hn with
  | refl => exact .refl
  | @tail m c hm hc ih =>
    have hkind := hst.keeps.kind_eq (h.complete hm)
    refine ih.tail (children_followed hkind (fun w hw hsettled => ?_) c hc)
    have hw' := h.slot hT hm hw
    rw [hst.resolve_stays ht.later.persists hw' hsettled, h.later.persists.resolve_eq hw' hsettled]

omit hT in
/-- Where the slot of a form stands for what it stands for in the end, so does the form. -/
theorem followed_eq (hn : s.followed.Leads v n)
    (hslot : ∀ w, (s.kind n).slot? = some w → s.resolve w = T.resolve w) :
    s.followed.kind n = T.followed.kind n := by
  rw [kind_followed, kind_followed, h.kind_eq hn]
  exact Kind.mapSlot_congr hslot

end Towards

end Store

end ValueInference
