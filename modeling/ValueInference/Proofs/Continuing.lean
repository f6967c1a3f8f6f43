/-
What goes on from one store of a run to a later one.

A node keeps its form and whatever is noted about it, a pending keeps its result unless it fails,
and nothing that exists is forgotten.  So what was found out about finished nodes, and what slots
have become, can be used at any later point of a run.

* **`Store.Before`** — the second store may come after the first one in a run;
* **`Store.Informed`** — the results of pendings mention nodes and pendings that exist;
* **`Machine.Move.continues`** — each step leads to a later store;
* **`Machine.Reachable.later`** — stores get later along every run;
* **`Machine.Reachable.informed`** — along every run the results of pendings mention what exists.
-/
import ValueInference.Proofs.Becoming
import ValueInference.Proofs.Finished

namespace ValueInference

namespace Store

variable {s t u : Store} {p : PendingId} {slot : Slot}

/-! ### Nodes -/

theorem Keeps.of_nodes (h : t.nodes = s.nodes) : s.Keeps t :=
  ⟨fun _ _ => by rw [h], Nat.le_of_eq (congrArg Array.size h.symm)⟩

theorem Keeps.of_push {node : Node} (h : t.nodes = s.nodes.push node) : s.Keeps t := by
  refine ⟨fun n hn => ?_, by rw [h, Array.size_push]; exact Nat.le_succ _⟩
  have hlt := present_of_isComplete hn
  rw [h, Array.getElem?_push_lt hlt, Array.getElem?_eq_getElem hlt]

theorem keeps_change (s : Store) (c : Change) : s.Keeps (c.apply s) := by
  cases c with
  | build k =>
    show s.Keeps (s.build k).2
    obtain h | ⟨contents, node, h⟩ := s.build_eq k
    · rw [h]
      exact .refl s
    · rw [h]
      exact .of_push rfl
  | placeholder => exact .of_push rfl
  | complete n k =>
    show s.Keeps (s.complete n k).2
    rcases hok : (s.complete n k).1 with fault | u
    · rw [complete_of_error hok]
      exact .refl s
    · obtain ⟨d, hfiled⟩ := complete_filed hok
      exact hfiled.keeps
  | openPending l resolver priority =>
    refine .of_nodes ?_
    show (s.openPending l resolver priority).2.nodes = s.nodes
    rw [openPending]
    repeat' split
    all_goals rfl
  | spawn l d => exact .of_nodes (nodes_spawn s l (.merge d))
  | setResult q slot => exact .of_nodes (s.nodes_setResult q slot)
  | _ => exact .of_nodes rfl

theorem QuietStep.keepsNodes (h : s.QuietStep t) : s.Keeps t := by
  cases h with
  | change c => exact keeps_change s c
  | register w q _ => exact .of_nodes rfl
  | note l f _ _ _ _ => exact .of_nodes rfl

/-! ### Before stores -/

/-- The second store may come after the first one in a run. -/
structure Before (s t : Store) : Prop where
  keeps : s.Keeps t
  persists : s.Persists t
  size_le : s.pendings.size ≤ t.pendings.size

namespace Before

theorem refl (s : Store) : s.Before s := ⟨.refl s, .refl s, Nat.le_refl _⟩

theorem trans (h : s.Before t) (h' : t.Before u) : s.Before u :=
  ⟨h.keeps.trans h'.keeps, h.persists.trans h'.persists, h.size_le.trans h'.size_le⟩

theorem of_pendings (h : s.Keeps t) (hpendings : t.pendings = s.pendings) : s.Before t :=
  ⟨h, persists_of_pendings hpendings, Nat.le_of_eq (congrArg Array.size hpendings.symm)⟩

theorem of_eq (hnodes : t.nodes = s.nodes) (hpendings : t.pendings = s.pendings) : s.Before t :=
  of_pendings (.of_nodes hnodes) hpendings

end Before

theorem Grows.later (h : s.Grows t) : s.Before t := .of_pendings h.keeps h.pendings

theorem Quiet.later (h : s.Quiet t) : s.Before t :=
  h.keeps (P := fun t => s.Before t) (.refl s) fun hstep hlater => hlater.trans
    ⟨hstep.keepsNodes, hstep.persists, (hstep.lasts (P := fun _ => True)).pendings⟩

theorem Idle.later_beginResolving {res : Resolver} (hs : s.Idle)
    (h : s.beginResolving p = (some res, t)) : s.Before t := by
  obtain ⟨-, hstore⟩ := beginResolving_eq h
  refine ⟨.of_nodes (by rw [hstore]; rfl), hs.persists_beginResolving h, ?_⟩
  rw [hstore]
  exact Nat.le_of_eq Array.size_modify.symm

theorem later_fail (s : Store) (p : PendingId) (e : InferError) : s.Before (s.fail p e) :=
  ⟨.of_nodes (nodes_close _), s.persists_fail p e, Nat.le_of_eq (size_close _).symm⟩

/-! ### Results that mention what exists -/

/-- The results of pendings mention nodes and pendings that exist. -/
def Informed (s : Store) : Prop := ∀ p slot, s.result? p = some slot → s.knowsSlot slot = true

theorem knowsSlot_iff : s.knowsSlot slot = true ↔
    (∀ n ∈ slot.children, n < s.nodes.size) ∧ ∀ p ∈ slot.pendings, p < s.pendings.size := by
  simp [knowsSlot]

theorem Before.knowsSlot (h : s.Before t) (hslot : s.knowsSlot slot = true) :
    t.knowsSlot slot = true := by
  obtain ⟨hchildren, hpendings⟩ := knowsSlot_iff.mp hslot
  exact knowsSlot_iff.mpr ⟨fun n hn => (hchildren n hn).trans_le h.keeps.size_le,
    fun p hp => (hpendings p hp).trans_le h.size_le⟩

/-- Results are checked when they are set. -/
theorem result?_change {c : Change} (h : (c.apply s).result? p = some slot) :
    s.result? p = some slot ∨ s.knowsSlot slot = true := by
  have hsame : ∀ {t : Store}, t.pendings = s.pendings → t.result? p = some slot →
      s.result? p = some slot := fun hpendings h => by
    rwa [result?_of_status (pendingStatus_of_pendings hpendings)] at h
  cases c with
  | build k =>
    refine .inl (hsame ?_ h)
    show (s.build k).2.pendings = s.pendings
    obtain h | ⟨contents, node, h⟩ := s.build_eq k
    all_goals rw [h]
  | complete n k =>
    refine .inl (hsame ?_ h)
    show (s.complete n k).2.pendings = s.pendings
    rw [complete]
    repeat' split
    all_goals rfl
  | openPending l resolver priority =>
    change (s.openPending l resolver priority).2.result? p = some slot at h
    rw [openPending] at h
    split at h
    · exact .inl h
    split at h
    · exact .inl h
    -- the new pending has no result yet
    left
    rw [result?_eq_some, pendingStatus, Array.getElem?_push] at h
    split at h
    · cases h
    · exact result?_eq_some.mpr h
  | spawn l d => exact .inl (hsame (pendings_spawn s l (.merge d)) h)
  | setResult q w =>
    change (s.setResult q w).2.result? p = some slot at h
    rw [setResult] at h
    split at h
    · exact .inl h
    split at h
    · exact .inl h
    split at h
    · exact .inl h
    next hchecked =>
    simp only [Bool.not_eq_true, Bool.not_eq_false', Bool.and_eq_true, decide_eq_true_eq]
      at hchecked
    by_cases hqp : q = p
    · subst hqp
      rw [result?_eq_some, pendingStatus_close hchecked.2] at h
      cases h
      exact .inr hchecked.1
    · left
      rwa [result?, pendingStatus, pending_close_of_ne hqp, ← pendingStatus, ← result?] at h
  | _ => exact .inl h

/-- Where a result was there before, it mentions what exists. -/
theorem Informed.later (hs : s.Informed) (h : s.Before t)
    (hresult : ∀ p slot, t.result? p = some slot → s.result? p = some slot) : t.Informed :=
  fun p slot hp => h.knowsSlot (hs p slot (hresult p slot hp))

theorem Informed.of_eq (hs : s.Informed) (hnodes : t.nodes = s.nodes)
    (hpendings : t.pendings = s.pendings) : t.Informed :=
  hs.later (.of_eq hnodes hpendings) fun _ _ hp =>
    (result?_of_status (pendingStatus_of_pendings hpendings)).symm.trans hp

theorem Informed.step (hs : s.Informed) (h : s.QuietStep t) : t.Informed := by
  have hlater : s.Before t := Quiet.later (.single h)
  cases h with
  | change c =>
    intro p slot hp
    exact hlater.knowsSlot ((result?_change hp).elim (hs p slot) id)
  | register w q _ =>
    exact hs.later hlater fun p slot hp => result?_of_status (pendingStatus_register s w q p) ▸ hp
  | note l f _ _ _ _ => exact hs.of_eq rfl rfl

theorem Informed.quiet (hs : s.Informed) (h : s.Quiet t) : t.Informed :=
  h.keeps hs fun hstep hs => hs.step hstep

theorem Informed.beginResolving {res : Resolver} (hs : s.Informed) (hidle : s.Idle)
    (h : s.beginResolving p = (some res, t)) : t.Informed := by
  refine hs.later (hidle.later_beginResolving h) fun q slot hq => ?_
  obtain ⟨-, rfl⟩ := beginResolving_eq h
  by_cases hpq : p = q
  · subst hpq
    have hlt := lt_of_result? hq
    rw [modifyPending, Array.size_modify] at hlt
    rw [result?_eq_some, pendingStatus, pending_modify_self, Array.getElem?_eq_getElem hlt] at hq
    cases hq
  · rwa [result?, pendingStatus, pending_of_ne hpq, ← pendingStatus, ← result?] at hq

theorem Informed.fail (hs : s.Informed) (p : PendingId) (e : InferError) :
    (s.fail p e).Informed := by
  refine hs.later (s.later_fail p e) fun q slot hq => ?_
  by_cases hpq : p = q
  · subst hpq
    have hlt : p < s.pendings.size := size_close (s := s) (p := p) (.failed e) ▸ lt_of_result? hq
    rw [result?_eq_some, Store.fail, pendingStatus_close hlt] at hq
    cases hq
  · rwa [result?, pendingStatus, Store.fail, pending_close_of_ne hpq, ← pendingStatus,
      ← result?] at hq

end Store

/-! ### Machines -/

namespace Machine

variable {σ : Type} {m m' : Machine σ}

/-- **Every step** leads to a later store, where the results mention what exists. -/
theorem Move.continues (h : m.Move m') (hidle : m.store.Idle) (hm : m.store.Informed) :
    m.store.Before m'.store ∧ m'.store.Informed := by
  refine h.store_induction (motive := fun s => m.store.Before s ∧ s.Informed) ⟨.refl _, hm⟩
    ?_ ?_ ?_ ?_
  · exact fun hs hnodes hpendings =>
      ⟨hs.1.trans (.of_eq hnodes hpendings), hs.2.of_eq hnodes hpendings⟩
  · exact fun hs hquiet => ⟨hs.1.trans hquiet.later, hs.2.quiet hquiet⟩
  · intro s t p res hquiet hs hbegin
    have hidle' := hidle.quiet hquiet
    exact ⟨hs.1.trans (hidle'.later_beginResolving hbegin), hs.2.beginResolving hidle' hbegin⟩
  · exact fun p e _ => ⟨m.store.later_fail p e, hm.fail p e⟩

/-- Along every run the results of pendings mention what exists. -/
theorem Reachable.informed (h : m.Reachable) : m.store.Informed := by
  induction h with
  | start client code =>
    intro p slot hp
    rw [Store.result?_eq_some, Store.pendingStatus_of_absent (Nat.zero_le p)] at hp
    exact nomatch hp
  | step h hstep ih => exact ((moves hstep).continues h.idle ih).2

/-- **Along every run** stores get later. -/
theorem Reachable.later (h : m.Reachable) (fuel : Nat) : m.store.Before (m.run fuel).store := by
  refine run_keeps (P := fun m' => m.store.Before m'.store) fuel (.refl _) ?_
  intro i _ hlater m' hstep
  have hm := h.run i
  exact hlater.trans ((moves hstep).continues hm.idle hm.informed).1

end Machine

end ValueInference
