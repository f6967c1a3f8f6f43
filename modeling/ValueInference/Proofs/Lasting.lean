/-
What lasts along a run: forms, results of pendings, and the values read through them.

Code can resolve an open pending only, and a resolver starts only on a pending that nothing has
happened to.  There is one exception: a resolver that fails closes its pending whether or not it
was resolved in the meantime.

* **`Store.QuietStep.pending`** — what a quiet change may do to a pending;
* **`Store.Lasts`**, **`Store.Lasts.value`** — what lasts, and that readings of values do;
* **`Machine.lateFailure?`** — the failure of a resolver whose pending is closed already;
* **`Machine.resolved_stable`** — along every run without it, results and values last.
-/
import ValueInference.Store.Concrete
import ValueInference.Proofs.Moves

namespace ValueInference

namespace Store

variable {s t u : Store} {p q : PendingId}

/-- **A quiet step** leaves a pending as it was, opens it, or resolves it while it is open. -/
theorem QuietStep.pending (h : s.QuietStep t) (p : PendingId) : s.PendingMove t p := by
  cases h with
  | change c => exact (change_cell c).pendingMove
  | register w q _ => exact register_pending w q
  | note l f _ _ _ _ => exact .of_pendings rfl

/-! ### Resolvers -/

/-- Only pendings that nothing has happened to have resolvers. -/
def Idle (s : Store) : Prop := ∀ p, s.resolver? p ≠ none → s.pendingStatus p = .unresolved

theorem Idle.of_pendings (h : t.pendings = s.pendings) (hs : s.Idle) : t.Idle := by
  intro p hp
  rw [resolver?_of_pendings h] at hp
  rw [pendingStatus_of_pendings h]
  exact hs p hp

theorem Idle.step (hs : s.Idle) (h : s.QuietStep t) : t.Idle := by
  intro p hp
  cases h.pending p with
  | same status resolver =>
    rw [status]
    exact hs p (resolver ▸ hp)
  | opened _ status => exact status
  | resolved _ _ _ resolver => exact absurd resolver hp

theorem Idle.quiet (hs : s.Idle) (h : s.Quiet t) : t.Idle :=
  h.keeps hs fun hstep hs => hs.step hstep

/-- A resolver that starts is the pending's own, which is gone from then on. -/
theorem beginResolving_eq {res : Resolver} (h : s.beginResolving p = (some res, t)) :
    s.resolver? p = some res ∧
      t = s.modifyPending p fun c => { c with resolver := none, status := .resolving } := by
  rw [beginResolving] at h
  rw [resolver?]
  split at h
  · cases h
  · next hres =>
    cases h
    exact ⟨hres, rfl⟩

theorem Idle.beginResolving {res : Resolver} (hs : s.Idle)
    (h : s.beginResolving p = (some res, t)) : t.Idle := by
  obtain ⟨-, rfl⟩ := beginResolving_eq h
  intro q hq
  by_cases hpq : p = q
  · subst hpq
    refine absurd ?_ hq
    rw [resolver?, pending_modify_self]
    cases s.pendings[p]? <;> rfl
  · rw [resolver?, pending_of_ne hpq] at hq
    rw [pendingStatus, pending_of_ne hpq]
    exact hs q hq

theorem Idle.close {status : PendingStatus} (hs : s.Idle) : (s.close p status).Idle := by
  intro q hq
  by_cases hpq : p = q
  · subst hpq
    exact absurd resolver?_close hq
  · rw [resolver?, pending_close_of_ne hpq] at hq
    rw [pendingStatus, pending_close_of_ne hpq]
    exact hs q hq

/-! ### What lasts -/

/-- Nodes keep their forms, and some pendings keep their results. -/
structure Lasts (P : PendingId → Prop) (s t : Store) : Prop where
  nodes : s.nodes.size ≤ t.nodes.size
  pendings : s.pendings.size ≤ t.pendings.size
  kind : ∀ n, s.isComplete n = true → t.isComplete n = true ∧ t.kind n = s.kind n
  result : ∀ p, P p → ∀ slot, s.result? p = some slot → t.result? p = some slot

section

variable {P : PendingId → Prop}

namespace Lasts

theorem refl (s : Store) : Lasts P s s :=
  ⟨Nat.le_refl _, Nat.le_refl _, fun _ h => ⟨h, rfl⟩, fun _ _ _ h => h⟩

theorem trans (h : Lasts P s t) (h' : Lasts P t u) : Lasts P s u where
  nodes := Nat.le_trans h.nodes h'.nodes
  pendings := Nat.le_trans h.pendings h'.pendings
  kind n hn := by
    obtain ⟨hcomplete, hkind⟩ := h.kind n hn
    obtain ⟨hcomplete', hkind'⟩ := h'.kind n hcomplete
    exact ⟨hcomplete', hkind'.trans hkind⟩
  result p hp slot hslot := h'.result p hp slot (h.result p hp slot hslot)

/-- Pendings may change where the nodes stay. -/
theorem of_nodes (hnodes : t.nodes = s.nodes) (hpendings : s.pendings.size ≤ t.pendings.size)
    (hresult : ∀ p, P p → ∀ slot, s.result? p = some slot → t.result? p = some slot) :
    Lasts P s t where
  nodes := Nat.le_of_eq (congrArg Array.size hnodes.symm)
  pendings := hpendings
  kind n hn := by
    rw [isComplete, Store.kind, hnodes]
    exact ⟨hn, rfl⟩
  result := hresult

/-- Nodes may be added or get a form where the pendings stay. -/
theorem of_pendings (hnodes : s.nodes.size ≤ t.nodes.size) (hpendings : t.pendings = s.pendings)
    (hkind : ∀ n, s.isComplete n = true → t.isComplete n = true ∧ t.kind n = s.kind n) :
    Lasts P s t where
  nodes := hnodes
  pendings := Nat.le_of_eq (congrArg Array.size hpendings.symm)
  kind := hkind
  result p _ slot hp := by
    rw [result?_eq_some] at hp ⊢
    rw [pendingStatus_of_pendings hpendings, hp]

theorem of_eq (hnodes : t.nodes = s.nodes) (hpendings : t.pendings = s.pendings) :
    Lasts P s t := by
  refine of_pendings (Nat.le_of_eq (congrArg Array.size hnodes.symm)) hpendings fun n hn => ?_
  rw [isComplete, Store.kind, hnodes]
  exact ⟨hn, rfl⟩

theorem of_push {node : Node} (hnodes : t.nodes = s.nodes.push node)
    (hpendings : t.pendings = s.pendings) : Lasts P s t := by
  refine of_pendings (by rw [hnodes, Array.size_push]; exact Nat.le_succ _) hpendings fun n hn => ?_
  have hlt : n < s.nodes.size := by
    by_contra hge
    rw [isComplete_of_absent (Nat.not_lt.mp hge)] at hn
    exact nomatch hn
  have hnode : t.nodes[n]? = s.nodes[n]? := by
    rw [hnodes, Array.getElem?_push_lt hlt, Array.getElem?_eq_getElem hlt]
  rw [isComplete, Store.kind, hnode]
  exact ⟨hn, rfl⟩

theorem of_filed {n : NodeId} {k : Kind} {d : Option Nat} {i : Bool} (h : s.Filed n k d i t) :
    Lasts P s t := by
  refine of_pendings h.size_le h.pendings fun m hm => ?_
  have hmn : m ≠ n := by
    rintro rfl
    rw [h.blank] at hm
    exact nomatch hm
  rw [h.isComplete_of_ne hmn, h.kind_of_ne hmn]
  exact ⟨hm, rfl⟩

end Lasts

theorem PendingMove.result {slot : Slot} (h : s.PendingMove t p) (hp : s.result? p = some slot) :
    t.result? p = some slot := by
  cases h with
  | same status _ =>
    rw [result?_eq_some] at hp ⊢
    rw [status, hp]
  | opened fresh _ => exact absurd (lt_of_result? hp) (Nat.not_lt.mpr fresh)
  | resolved _ before _ _ =>
    rw [result?_of_isOpen before] at hp
    exact nomatch hp

theorem lasts_change (c : Change) : Lasts P s (c.apply s) := by
  cases c with
  | build k =>
    show Lasts P s (s.build k).2
    obtain h | ⟨contents, node, h⟩ := s.build_eq k
    · rw [h]
      exact .refl s
    · rw [h]
      exact .of_push rfl rfl
  | placeholder => exact .of_push rfl rfl
  | complete n k =>
    show Lasts P s (s.complete n k).2
    rcases hok : (s.complete n k).1 with fault | u
    · rw [complete_of_error hok]
      exact .refl s
    · obtain ⟨d, hfiled⟩ := complete_filed hok
      exact .of_filed hfiled
  | openPending l resolver priority =>
    refine .of_nodes ?_ ?_ fun p _ _ => (openPending_cell l resolver priority).pendingMove.result
    · show (s.openPending l resolver priority).2.nodes = s.nodes
      rw [openPending]
      repeat' split
      all_goals rfl
    · show s.pendings.size ≤ (s.openPending l resolver priority).2.pendings.size
      rw [openPending]
      repeat' split
      all_goals simp
  | spawn l d => exact .of_eq (nodes_spawn s l (.merge d)) (pendings_spawn s l (.merge d))
  | setResult q slot =>
    refine .of_nodes ?_ ?_ fun p _ _ => (setResult_cell q slot).pendingMove.result
    · exact s.nodes_setResult q slot
    · show s.pendings.size ≤ (s.setResult q slot).2.pendings.size
      rw [setResult]
      repeat' split
      all_goals simp [size_close]
  | _ => exact .of_eq rfl rfl

theorem QuietStep.lasts (h : s.QuietStep t) : Lasts P s t := by
  cases h with
  | change c => exact lasts_change c
  | register w q _ =>
    refine .of_nodes rfl (Nat.le_of_eq Array.size_modify.symm) fun p _ _ => ?_
    exact (register_pending w q).result
  | note l f _ _ _ _ => exact .of_eq rfl rfl

theorem Quiet.lasts (h : s.Quiet t) : Lasts P s t := by
  induction h with
  | refl => exact .refl s
  | tail _ hlast ih => exact ih.trans hlast.lasts

theorem Quiet.size_le (h : s.Quiet t) : s.pendings.size ≤ t.pendings.size :=
  (h.lasts (P := fun _ => True)).pendings

/-- A resolver starts on a pending that has no result. -/
theorem Idle.lasts_beginResolving {res : Resolver} (hs : s.Idle)
    (h : s.beginResolving p = (some res, t)) : Lasts P s t := by
  obtain ⟨hres, rfl⟩ := beginResolving_eq h
  refine .of_nodes rfl (Nat.le_of_eq Array.size_modify.symm) fun q _ slot hq => ?_
  have hpq : p ≠ q := by
    rintro rfl
    have hfresh := hs p (by rw [hres]; exact nofun)
    rw [result?_eq_some, hfresh] at hq
    exact nomatch hq
  rw [result?_eq_some] at hq ⊢
  rwa [pendingStatus, pending_of_ne hpq, ← pendingStatus]

/-- Closing a pending leaves the results of the others. -/
theorem lasts_close {status : PendingStatus} (h : P p → s.result? p = none) :
    Lasts P s (s.close p status) := by
  refine .of_nodes (nodes_close status) (Nat.le_of_eq (size_close status).symm)
    fun q hP slot hq => ?_
  have hpq : p ≠ q := by
    rintro rfl
    rw [h hP] at hq
    exact nomatch hq
  rw [result?_eq_some] at hq ⊢
  rwa [pendingStatus, pending_close_of_ne hpq, ← pendingStatus]

end

/-! ### Values -/

/-- A slot that stands for something known stands for it as long as the results last. -/
theorem follow_lasts (hresult : ∀ p slot, s.result? p = some slot → t.result? p = some slot)
    {c : Constant} : ∀ {fuel fuel' : Nat} {slot : Slot}, fuel ≤ fuel' →
      s.follow fuel slot = .constant c → t.follow fuel' slot = .constant c := by
  intro fuel
  induction fuel with
  | zero =>
    intro fuel' slot _ h
    cases slot with
    | constant x =>
      cases fuel' <;> exact h
    | _ => exact nomatch h
  | succ fuel ih =>
    intro fuel' slot hle h
    obtain ⟨fuel', rfl⟩ : ∃ k, fuel' = k + 1 := ⟨fuel' - 1, by omega⟩
    cases slot with
    | pending p =>
      rw [follow] at h ⊢
      split at h
      · next slot hslot =>
        rw [hresult p slot hslot]
        exact ih (Nat.le_of_succ_le_succ hle) h
      · exact nomatch h
    | constant x => exact h
    | _ => exact nomatch h

theorem bind_eq_ok {α β : Type} {x : Reading α} {f : α → Reading β} {b : β} :
    x >>= f = .ok b ↔ ∃ a, x = .ok a ∧ f a = .ok b := by
  cases x with
  | error e => exact ⟨nofun, fun ⟨a, ha, _⟩ => nomatch ha⟩
  | ok a => exact ⟨fun h => ⟨a, rfl, h⟩, fun ⟨a', ha, h⟩ => by cases ha; exact h⟩

/-- Answers that are there once are there on a list. -/
theorem mapM_lasts {α β : Type} {f g : α → Reading β} (as : List α)
    (h : ∀ a ∈ as, ∀ b, f a = .ok b → g a = .ok b) :
    ∀ bs, as.mapM f = .ok bs → as.mapM g = .ok bs := by
  induction as with
  | nil => exact fun bs hbs => hbs
  | cons a as ih =>
    intro bs hbs
    rw [List.mapM_cons, bind_eq_ok] at hbs
    obtain ⟨b, hfa, hbs⟩ := hbs
    obtain ⟨bs', hfas, hbs⟩ := bind_eq_ok.mp hbs
    rw [List.mapM_cons, h a List.mem_cons_self b hfa,
      ih (fun x hx => h x (List.mem_cons_of_mem a hx)) bs' hfas]
    exact hbs

theorem valueOfKind_lasts (hsize : s.pendings.size ≤ t.pendings.size)
    (hresult : ∀ p slot, s.result? p = some slot → t.result? p = some slot)
    {sub sub' : NodeId → Reading Constant} (hsub : ∀ n c, sub n = .ok c → sub' n = .ok c)
    {n : NodeId} {k : Kind} {c : Constant} (h : s.valueOfKind sub n k = .ok c) :
    t.valueOfKind sub' n k = .ok c := by
  cases k with
  | scalar value ty =>
    rw [valueOfKind] at h ⊢
    split at h
    · next x hx => rwa [resolve, follow_lasts hresult hsize hx]
    · cases h
  | tuple items =>
    rw [valueOfKind, bind_eq_ok] at h
    obtain ⟨cs, hitems, h⟩ := h
    rw [valueOfKind, mapM_lasts items (fun a _ => hsub a) cs hitems]
    exact h
  | record tag fields =>
    rw [valueOfKind, bind_eq_ok] at h
    obtain ⟨cs, hfields, h⟩ := h
    rw [valueOfKind, mapM_lasts fields ?_ cs hfields]
    · exact h
    rintro ⟨name, x⟩ - b hb
    obtain ⟨y, hx, hb⟩ := bind_eq_ok.mp hb
    exact bind_eq_ok.mpr ⟨y, hsub x y hx, hb⟩
  | type ty => exact h
  | _ => cases h

/-- **A value that was read once** is read again as long as the results last. -/
theorem Lasts.value {P : PendingId → Prop} (h : Lasts P s t)
    (hP : ∀ p slot, s.result? p = some slot → P p) {n : NodeId} {c : Constant}
    (hc : s.value n = .ok c) : t.value n = .ok c := by
  have hresult : ∀ p slot, s.result? p = some slot → t.result? p = some slot :=
    fun p slot hp => h.result p (hP p slot hp) slot hp
  have hbelow : ∀ fuel fuel' path n c, fuel ≤ fuel' → s.valueBelow fuel path n = .ok c →
      t.valueBelow fuel' path n = .ok c := by
    intro fuel
    induction fuel with
    | zero => exact fun _ _ _ _ _ h => nomatch h
    | succ fuel ih =>
      intro fuel' path n c hle hc
      obtain ⟨fuel', rfl⟩ : ∃ k, fuel' = k + 1 := ⟨fuel' - 1, by omega⟩
      rw [valueBelow] at hc ⊢
      split at hc
      · exact nomatch hc
      next hpath =>
      rw [if_neg hpath]
      have hkind : t.kind n = s.kind n := by
        by_cases hn : s.isComplete n = true
        · exact (h.kind n hn).2
        · -- a node without a form has no value
          rw [kind_of_incomplete (Bool.eq_false_iff.mpr hn)] at hc
          exact nomatch hc
      rw [hkind]
      exact valueOfKind_lasts h.pendings hresult
        (fun m d => ih fuel' _ m d (Nat.le_of_succ_le_succ hle)) hc
  exact hbelow _ _ _ _ _ (Nat.succ_le_succ h.nodes) hc

end Store

/-! ### Machines -/

namespace Machine

variable {σ : Type} {m m' : Machine σ} {P : PendingId → Prop}

/-- The pending, closed already, whose resolver is about to fail. -/
def lateFailure? (m : Machine σ) : Option PendingId :=
  match m.stack, m.control with
  | .resolving p :: _, .answer (.error _) => if m.store.isOpen p then none else some p
  | _, _ => none

/-- **What a step does to nodes and pendings:** they change quietly, apart from a resolver that
starts and one that fails.  So what all this keeps, a step keeps. -/
theorem Move.store_induction {motive : Store → Prop} (h : m.Move m') (start : motive m.store)
    (same : ∀ {s t : Store}, motive s → t.nodes = s.nodes → t.pendings = s.pendings → motive t)
    (quiet : ∀ {s t : Store}, motive s → s.Quiet t → motive t)
    (begins : ∀ {s t : Store} {p : PendingId} {res : Resolver}, m.store.Quiet s → motive s →
      s.beginResolving p = (some res, t) → motive t)
    (fails : ∀ (p : PendingId) (e : InferError),
      (m.lateFailure? ≠ some p → m.store.isOpen p = true) → motive (m.store.fail p e)) :
    motive m'.store := by
  cases h with
  | calm h => exact quiet start h.store
  | spawned _ h =>
    exact quiet (same start (Store.nodes_spawn _ _ _) (Store.pendings_spawn _ _ _)) h.store
  | resolving h hbegin _ _ _ => exact begins h.store (quiet start h.store) hbegin
  | @resolved p r rest hstack hcontrol =>
    obtain h | ⟨e, rfl, h⟩ := resolved_store { m with stack := rest } p r
    · exact quiet start h
    · rw [h]
      refine fails p e fun hlate => ?_
      -- the resolver of a closed pending fails late
      by_contra hclosed
      refine hlate ?_
      rw [lateFailure?, hstack, hcontrol]
      exact if_neg hclosed
  | skipped _ _ _ => exact same start rfl rfl
  | @polled l _ t _ body s _ _ hqueue _ =>
    have hs : motive (s.dropTask l t) := same start (hqueue ▸ rfl) (hqueue ▸ rfl)
    rcases pollTask_cases { m with store := s.dropTask l t } l t body with
      ⟨s', body', hquiet, h, -⟩ | ⟨hquiet, -⟩
    · rw [h]
      exact same (quiet hs hquiet) rfl rfl
    · exact quiet hs hquiet
  | turned h _ hstore _ _ _ => exact hstore ▸ quiet start h.calm.store
  | suspended h _ hstore _ _ _ =>
    rw [hstore]
    exact same (quiet start h.calm.store) rfl rfl

/-- Only pendings that nothing has happened to have resolvers, along every run. -/
theorem Move.idle (h : m.Move m') (hm : m.store.Idle) : m'.store.Idle := by
  refine h.store_induction (motive := Store.Idle) hm ?_ ?_ ?_ ?_
  · exact fun hs _ hpendings => hs.of_pendings hpendings
  · exact fun hs hquiet => hs.quiet hquiet
  · exact fun _ hs hbegin => hs.beginResolving hbegin
  · exact fun p e _ => hm.close

theorem Reachable.idle (h : m.Reachable) : m.store.Idle := by
  induction h with
  | start client code => exact fun p hp => absurd rfl hp
  | step _ hstep ih => exact (moves hstep).idle ih

/-- **A step** keeps forms and results, except that of a pending whose resolver fails late. -/
theorem Move.lasts (h : m.Move m') (hm : m.store.Idle)
    (hlate : ∀ p, P p → m.lateFailure? ≠ some p) : Store.Lasts P m.store m'.store := by
  refine h.store_induction (motive := fun s => Store.Lasts P m.store s) (.refl _) ?_ ?_ ?_ ?_
  · exact fun hs hnodes hpendings => hs.trans (.of_eq hnodes hpendings)
  · exact fun hs hquiet => hs.trans hquiet.lasts
  · exact fun hquiet hs hbegin => hs.trans ((hm.quiet hquiet).lasts_beginResolving hbegin)
  · exact fun p e hopen =>
      Store.lasts_close fun hp => Store.result?_of_isOpen (hopen (hlate p hp))

/-- A run keeps forms, and the results of the pendings whose resolvers do not fail late. -/
theorem Reachable.lasts (h : m.Reachable) (fuel : Nat)
    (hlate : ∀ p, P p → ∀ i < fuel, (m.run i).lateFailure? ≠ some p) :
    Store.Lasts P m.store (m.run fuel).store := by
  refine run_keeps (P := fun m' => Store.Lasts P m.store m'.store) fuel (.refl _) ?_
  intro i hi hlasts m' hstep
  exact hlasts.trans ((moves hstep).lasts (h.run i).idle fun p hp => hlate p hp i hi)

/-- **A result is stable:** whatever a run goes on to do, a pending that is resolved keeps its
result, unless its own resolver fails after it was resolved.  So a value that was read through
such pendings is read again. -/
theorem resolved_stable (h : m.Reachable) (fuel : Nat) :
    (∀ p slot, m.store.result? p = some slot → (∀ i < fuel, (m.run i).lateFailure? ≠ some p) →
      (m.run fuel).store.result? p = some slot) ∧
    ((∀ i < fuel, ∀ p, (m.run i).lateFailure? = some p → m.store.result? p = none) →
      ∀ n c, m.store.value n = .ok c → (m.run fuel).store.value n = .ok c) := by
  refine ⟨fun p slot hp hlate => ?_, fun hlate n c hc => ?_⟩
  · have hlasts := h.lasts (P := (· = p)) fuel fun q hq => hq ▸ hlate
    exact hlasts.result p rfl slot hp
  · have hlasts := h.lasts (P := fun p => m.store.result? p ≠ none) fuel
      fun p hp i hi hfails => hp (hlate i hi p hfails)
    exact hlasts.value (fun p slot hp => by rw [hp]; exact nofun) hc

/-- Code that forces a pending.  The resolver sets the pending, and then forces it itself. -/
def forcedSetting : Program Unit :=
  let resolver := .update (Infer.setResult 0 (.constant (.int 1))).run fun _ =>
    .force 0 0 fun r => .done r
  .update (Infer.openLoop {}).run fun _ =>
    .pending 0 resolver (.ranked none) fun _ =>
      .update (Infer.scalar (.pending 0) (.int 64)).run fun _ => .force 0 0 .done

/-- The result that a resolver sets while it runs is stable. -/
theorem resolved_stable_forcedSetting :
    let m := (start () forcedSetting).run 5
    m.Reachable ∧ m.store.result? 0 = some (.constant (.int 1)) ∧
      (∀ i < 9, (m.run i).lateFailure? = none) ∧ m.store.value 0 = .ok (.int 1) ∧
      (m.run 9).store.result? 0 = some (.constant (.int 1)) ∧
      (m.run 9).store.value 0 = .ok (.int 1) := by
  intro m
  have hm : m.Reachable := (Reachable.start () forcedSetting).run 5
  have hlate : ∀ i < 9, (m.run i).lateFailure? = none := by decide
  have hresult : m.store.result? 0 = some (.constant (.int 1)) := by decide
  have hvalue : m.store.value 0 = .ok (.int 1) := by rfl
  obtain ⟨hkept, hread⟩ := resolved_stable hm 9
  refine ⟨hm, hresult, hlate, hvalue, hkept 0 _ hresult fun i hi => ?_, hread ?_ 0 _ hvalue⟩
  · rw [hlate i hi]
    exact nofun
  · intro i hi p hp
    rw [hlate i hi] at hp
    exact nomatch hp

end Machine

end ValueInference
