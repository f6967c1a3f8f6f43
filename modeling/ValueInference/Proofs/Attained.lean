/-
Stores with pendings in whatever state.

Besides what clients change, pendings have a life of their own: their resolvers are started, and
some of them fail.  A store is *attained* if it comes about by changes with such things going on in
between.  None of this touches a node, so what holds of the nodes of reachable stores holds of those
of attained ones.

* **`Store.Whole`** — what is asked of a store wherever only its nodes matter, and
  **`Store.Whole.evolves`**: computations do not take it away;
* **`Store.Stalls`** — the second store is the first one, where pendings may have lost results;
* **`Store.Attained`** — the stores that changes lead to, whatever becomes of the pendings;
* **`Store.stalls_modifyPending`**, **`Store.stalls_fail`** — what becomes of a pending that is not
  resolved;
* **`Store.Attained.whole`** — what is known of attained stores.
-/
import ValueInference.Schedule.Loop
import ValueInference.Proofs.Discernible
import ValueInference.Proofs.Histories
import ValueInference.Proofs.Pendings

namespace ValueInference

/-- Scalars have constants that fit, so none of them is a function; unions are large enough. -/
theorem Kind.Conforms.formed {k : Kind} (h : k.Conforms) : k.Formed := by
  cases k with
  | scalar v ty =>
    cases v with
    | possibilities p =>
      intro c hc
      have hfits := h c hc
      cases c with
      | constant x => rfl
      | function f => exact hfits.elim
    | _ => trivial
  | function v =>
    cases v with
    | possibilities p => exact h
    | constant c => exact nomatch h _ List.mem_cons_self
    | _ => trivial
  | union ms => exact h
  | tagged os => exact h.1
  | _ => trivial

namespace Store

variable {s t : Store} {n : NodeId} {p : PendingId}

/-! ### Whole stores -/

/-- What is known of all nodes of a store, in whatever state its pendings are. -/
structure Whole (s : Store) : Prop where
  sound : s.Sound
  conforms : ∀ n, (s.kind n).Conforms

namespace Whole

theorem formed (h : s.Whole) (n : NodeId) : (s.kind n).Formed := (h.conforms n).formed

/-- **Whatever is computed on a whole store** leaves a whole one, if it leaves a sound one. -/
theorem evolves (h : s.Whole) (hevolves : Evolves s t) (ht : t.Sound) : t.Whole := by
  refine ⟨ht, ?_⟩
  clear ht
  induction hevolves with
  | refl => exact h.conforms
  | step c _ ih => exact conforms_change ih c

/-- Equality of discernible nodes on no cycle can be turned round and composed. -/
theorem balanced (h : s.Whole) (hn : s.Founded n) (hdiscernible : s.Discernible n) :
    s.Balanced n :=
  hdiscernible.balanced_of_founded h.sound h.formed hn

end Whole

/-! ### Attained stores -/

/-- The second store has the nodes, the sets and the pendings of the first one; a pending may have
another state, but no result that it did not have. -/
structure Stalls (s t : Store) : Prop where
  nodes : t.nodes = s.nodes
  contents : t.contents = s.contents
  tokens : t.tokens = s.tokens
  size : t.pendings.size = s.pendings.size
  number : t.pendingNumber = s.pendingNumber
  result : ∀ q v, t.result? q = some v → s.result? q = some v

theorem Stalls.sound (h : s.Stalls t) (hs : s.Sound) : t.Sound :=
  hs.of_sameNodes none (sameNodes_of_eq h.nodes h.contents) (Nat.le_of_eq h.tokens.symm)
    (Nat.le_of_eq h.size.symm) (fun q _ => congrFun h.number q)
    (fun q v hv => .inl (h.result q v hv)) nofun

/-- A pending gets a state that is no result. -/
theorem stalls_modifyPending {f : Pending → Pending} (hnumber : ∀ c, (f c).number = c.number)
    (hstatus : ∀ c v, (f c).status = .resolved v → c.status = .resolved v) :
    s.Stalls (s.modifyPending p f) where
  nodes := rfl
  contents := rfl
  tokens := rfl
  size := Array.size_modify
  number := by
    funext q
    rw [pendingNumber, pendingNumber, modifyPending, Array.getElem?_modify]
    split
    · cases s.pendings[q]? with
      | none => rfl
      | some c => exact hnumber c
    · rfl
  result q v hv := by
    rw [result?_eq_some, pendingStatus] at hv ⊢
    by_cases hpq : p = q
    · subst hpq
      rw [pending_modify_self] at hv
      cases hc : s.pendings[p]? with
      | none =>
        rw [hc] at hv
        cases hv
      | some c =>
        rw [hc] at hv
        exact hstatus c v hv
    · rwa [pending_of_ne hpq] at hv

/-- A pending fails. -/
theorem stalls_fail (e : InferError) : s.Stalls (s.fail p e) := by
  obtain ⟨loops, hclose⟩ := s.close_eq p (.failed e)
  rw [fail, hclose]
  have h : s.Stalls (s.modifyPending p fun c =>
      { c with status := .failed e, resolver := none, waiters := [] }) :=
    stalls_modifyPending (fun _ => rfl) fun _ _ hv => nomatch hv
  exact ⟨h.nodes, h.contents, h.tokens, h.size, h.number, h.result⟩

/-- The stores that changes lead to, from the empty one, whatever becomes of pendings that no change
resolves. -/
inductive Attained : Store → Prop where
  | start : Attained {}
  | step {s : Store} (c : Change) : Attained s → s.Admits c → Attained (c.apply s)
  | stall {s t : Store} : Attained s → s.Stalls t → Attained t

theorem Reachable.attained (h : s.Reachable) : s.Attained := by
  induction h with
  | start => exact .start
  | step c _ hc ih => exact .step c ih hc

theorem Attained.whole (h : s.Attained) : s.Whole := by
  induction h with
  | start => exact ⟨sound_empty, conforms_empty⟩
  | step c _ hc ih => exact ⟨ih.sound.change c hc, conforms_change ih.conforms c⟩
  | stall _ hstall ih =>
    refine ⟨hstall.sound ih.sound, fun n => ?_⟩
    rw [(sameNodes_of_eq hstall.nodes hstall.contents).kind]
    exact ih.conforms n

end Store

end ValueInference
