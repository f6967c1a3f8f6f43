/-
What is put off to a loop.

Slots that wait for a pending are merged later: the merge is put off to a loop, as a new pending
for its result and a task of the loop.  It is put off as a whole or not at all, and leaves all that
was there as it is.

* **`Store.PutsOff`** — some merges are put off to a loop, and nothing else happens but that nodes
  are added; **`LoopState.foldl_putOff`** — what that adds to the loop;
* **`Store.Precedes`** — nodes are kept and no pending is resolved, which is all that slots need to
  stay **`Store.Ready`** to be merged;
* **`Infer.Leaves`** — computations that put nothing off;
* **`Infer.outcome_mergeSlots`** — a merge of slots puts off nothing, or, if they are not ready, one
  merge as a whole.
-/
import ValueInference.Proofs.Becoming
import ValueInference.Proofs.Histories
import ValueInference.Proofs.Tables

namespace ValueInference

/-- A loop after a merge was put off to it. -/
def LoopState.putOff (loop : LoopState) (d : Deferral) : LoopState :=
  LoopState.schedule
    { loop with
      pendings := loop.pendings ++ [d.out]
      spawned := loop.spawned + 1
      tasks := loop.tasks ++ [(loop.spawned, .merge d)] } loop.spawned

/-- What merges that are put off add to a loop: their pendings, and tasks that are numbered and
queued in their order. -/
theorem LoopState.foldl_putOff (ds : List Deferral) (loop : LoopState) :
    ∃ ready, loop.ready <+: ready ∧ ds.foldl putOff loop = { loop with
      ready
      tasks := loop.tasks ++ ds.mapIdx fun i d => (loop.spawned + i, .merge d)
      pendings := loop.pendings ++ ds.map Deferral.out
      spawned := loop.spawned + ds.length } := by
  induction ds generalizing loop with
  | nil => exact ⟨loop.ready, List.prefix_rfl, by simp⟩
  | cons d ds ih =>
    obtain ⟨first, hfirst, hput⟩ : ∃ first, loop.ready <+: first ∧ loop.putOff d = { loop with
        ready := first
        tasks := loop.tasks ++ [(loop.spawned, .merge d)]
        pendings := loop.pendings ++ [d.out]
        spawned := loop.spawned + 1 } := by
      rw [putOff, schedule]
      split
      · exact ⟨_, List.prefix_rfl, rfl⟩
      · exact ⟨_, List.prefix_append _ _, rfl⟩
    obtain ⟨ready, hready, hrest⟩ := ih (loop.putOff d)
    rw [hput] at hready hrest
    refine ⟨ready, hfirst.trans hready, ?_⟩
    rw [List.foldl_cons, hput, hrest]
    simp [List.mapIdx_cons, Nat.add_assoc, Nat.add_comm 1]

/-- The pending that stands for the result of a merge that a loop has put off. -/
structure Pending.StandsFor (l : Option LoopId) (d : Deferral) (c : Pending) : Prop where
  loop : l = some c.loop
  status : c.status = .unresolved
  resolver : c.resolver = some (.operands d.left d.right)
  waiters : c.waiters = []

namespace Store

variable {s t u : Store} {l : Option LoopId} {ds es : List Deferral} {a b : NodeId} {v w : Slot}

/-- Some merges are put off to a loop, each with a pending for its result.  All that was there
stays as it is, but for new nodes. -/
structure PutsOff (s : Store) (l : Option LoopId) (ds : List Deferral) (t : Store) : Prop where
  nodes : ∀ n < s.nodes.size, t.nodes[n]? = s.nodes[n]?
  pendings : ∃ cells, t.pendings = s.pendings ++ cells.toArray ∧
    List.Forall₂ (Pending.StandsFor l) ds cells
  outs : ds.map Deferral.out = List.range' s.pendings.size ds.length
  loops : ∀ i, t.loops[i]? = s.loops[i]?.map fun loop =>
    if l = some i then ds.foldl LoopState.putOff loop else loop

/-- No pending is new, and no loop has changed. -/
structure Untouched (s t : Store) : Prop where
  pendings : t.pendings = s.pendings
  loops : t.loops = s.loops

/-- What a store has is there later on, and no pending has a new result. -/
structure Precedes (s t : Store) : Prop where
  nodes : ∀ n < s.nodes.size, t.nodes[n]? = s.nodes[n]?
  results : ∀ p, t.result? p = s.result? p

namespace Untouched

theorem refl (s : Store) : s.Untouched s := ⟨rfl, rfl⟩

theorem trans (h : s.Untouched t) (h' : t.Untouched u) : s.Untouched u :=
  ⟨h'.pendings.trans h.pendings, h'.loops.trans h.loops⟩

end Untouched

namespace PutsOff

theorem size (h : s.PutsOff l ds t) : t.pendings.size = s.pendings.size + ds.length := by
  obtain ⟨cells, hpendings, hcells⟩ := h.pendings
  simp [hpendings, hcells.length_eq]

/-- Nothing is put off where nodes are added alone. -/
theorem of_untouched (hnodes : ∀ n < s.nodes.size, t.nodes[n]? = s.nodes[n]?)
    (h : s.Untouched t) : s.PutsOff l [] t where
  nodes := hnodes
  pendings := ⟨[], by simp [h.pendings], .nil⟩
  outs := rfl
  loops i := by simp [h.loops]

theorem refl (s : Store) : s.PutsOff l [] s := of_untouched (fun _ _ => rfl) (.refl s)

theorem nodes_le (h : s.PutsOff l ds t) : s.nodes.size ≤ t.nodes.size :=
  size_le_of_nodes h.nodes

theorem trans (h : s.PutsOff l ds t) (h' : t.PutsOff l es u) : s.PutsOff l (ds ++ es) u where
  nodes n hn := (h'.nodes n (Nat.lt_of_lt_of_le hn h.nodes_le)).trans (h.nodes n hn)
  pendings := by
    obtain ⟨cells, hpendings, hcells⟩ := h.pendings
    obtain ⟨cells', hpendings', hcells'⟩ := h'.pendings
    refine ⟨cells ++ cells', ?_, List.rel_append hcells hcells'⟩
    rw [hpendings', hpendings]
    simp
  outs := by
    rw [List.map_append, h.outs, h'.outs, h.size, List.length_append]
    exact List.range'_append_1
  loops i := by
    rw [h'.loops, h.loops, Option.map_map]
    congr 1
    funext loop
    simp only [Function.comp_apply]
    split
    · rw [List.foldl_append]
    · rfl

theorem pending_eq {p : PendingId} (h : s.PutsOff l ds t) (hp : p < s.pendings.size) :
    t.pendings[p]? = s.pendings[p]? := by
  obtain ⟨cells, hpendings, -⟩ := h.pendings
  rw [hpendings, Array.getElem?_append_left hp]

/-- A loop keeps what it has, and the merges that are put off to it are added. -/
theorem loop_eq {i : LoopId} {loop : LoopState} (h : s.PutsOff l ds t)
    (hloop : s.loops[i]? = some loop) :
    ∃ ready, loop.ready <+: ready ∧ t.loops[i]? = some (if l = some i then { loop with
      ready
      tasks := loop.tasks ++ ds.mapIdx fun i d => (loop.spawned + i, .merge d)
      pendings := loop.pendings ++ ds.map Deferral.out
      spawned := loop.spawned + ds.length } else loop) := by
  obtain ⟨ready, hready, hput⟩ := LoopState.foldl_putOff ds loop
  refine ⟨ready, hready, ?_⟩
  rw [h.loops, hloop, Option.map_some, hput]

/-- Where nothing is put off, nothing is touched. -/
theorem untouched (h : s.PutsOff l [] t) : s.Untouched t where
  pendings := by
    obtain ⟨cells, hpendings, hcells⟩ := h.pendings
    cases hcells
    simpa using hpendings
  loops := by
    refine Array.ext_getElem? fun i => ?_
    rw [h.loops]
    simp

/-- Without a loop nothing is put off. -/
theorem nil_of_none (h : s.PutsOff none ds t) : ds = [] := by
  obtain ⟨cells, -, hcells⟩ := h.pendings
  cases hcells with
  | nil => rfl
  | cons hd _ => exact nomatch hd.loop

theorem of_none (h : s.PutsOff none ds t) (l : Option LoopId) : s.PutsOff l [] t := by
  obtain rfl := h.nil_of_none
  exact of_untouched h.nodes h.untouched

theorem precedes (h : s.PutsOff l ds t) : s.Precedes t := by
  refine ⟨h.nodes, fun p => ?_⟩
  obtain ⟨cells, hpendings, hcells⟩ := h.pendings
  by_cases hp : p < s.pendings.size
  · rw [result?, result?, pendingStatus, pendingStatus, hpendings, Array.getElem?_append_left hp]
  · rw [result?, result?, pendingStatus, pendingStatus_of_absent (Nat.not_lt.mp hp), hpendings,
      Array.getElem?_append_right (Nat.not_lt.mp hp)]
    cases hc : cells.toArray[p - s.pendings.size]? with
    | none => rfl
    | some c =>
      obtain ⟨d, -, hd⟩ := exists_of_forall₂ hcells.flip c (by
        rw [List.getElem?_toArray] at hc
        exact List.mem_of_getElem? hc)
      simp [hd.status]

end PutsOff

namespace Precedes

theorem refl (s : Store) : s.Precedes s := ⟨fun _ _ => rfl, fun _ => rfl⟩

theorem nodes_le (h : s.Precedes t) : s.nodes.size ≤ t.nodes.size :=
  size_le_of_nodes h.nodes

theorem trans (h : s.Precedes t) (h' : t.Precedes u) : s.Precedes u where
  nodes n hn := (h'.nodes n (Nat.lt_of_lt_of_le hn h.nodes_le)).trans (h.nodes n hn)
  results p := (h'.results p).trans (h.results p)

theorem kind_eq (h : s.Precedes t) (ha : a < s.nodes.size) : t.kind a = s.kind a := by
  rw [kind, h.nodes a ha, kind]

/-- What a slot is followed to the end stays what it stands for. -/
theorem resolve_eq (h : s.Precedes t) (hv : s.Final (s.resolve v)) : t.resolve v = s.resolve v := by
  rw [resolve] at hv
  have hfinal : t.Final (t.follow s.pendings.size v) := by
    intro p hp
    rw [h.results]
    exact hv p (by rwa [follow_congr h.results] at hp)
  rw [resolve_of_final hfinal, follow_congr h.results, resolve]

end Precedes

/-- A form that is placed has a node of the store. -/
theorem lt_place (s : Store) (k : Kind) : (s.place k).1 < (s.place k).2.nodes.size := by
  rw [place]
  split
  · dsimp only
    split
    · next n hn => exact List.mem_range.mp (List.mem_of_find?_eq_some hn)
    · simp
  split <;> simp

/-- A merge of the slots need not be put off: the left one stands for anything, both are known, or
both wait for one pending. -/
def Ready (s : Store) (v w : Slot) : Prop :=
  s.resolve v = .anything ∨ (s.resolve v).pendings = [] ∧ (s.resolve w).pendings = [] ∨
    ∃ p, s.resolve v = .pending p ∧ s.resolve w = .pending p ∧ s.result? p = none

end Store

namespace Infer

open Store

variable {α β : Type} {s t u : Store} {x : Infer α} {f : α → Infer β} {l : Option LoopId}

/-! ### Computations that put nothing off -/

/-- A computation that adds nodes alone, and leaves pendings and loops. -/
def Leaves (x : Infer α) : Prop := ∀ u : Store, u.PutsOff none [] (x.outcome u).2

namespace Leaves

theorem pure (a : α) : Leaves (Pure.pure a : Infer α) := fun u => .refl u

theorem throw (e : InferError) : Leaves (MonadExcept.throw e : Infer α) := fun u => .refl u

theorem bind (hx : Leaves x) (hf : ∀ a, Leaves (f a)) : Leaves (x >>= f) := by
  intro u
  have hfirst := hx u
  rcases hout : x.outcome u with ⟨e | a, t⟩
  · rw [hout] at hfirst
    rwa [outcome_bind_of_error hout]
  · rw [hout] at hfirst
    rw [outcome_bind_of_ok hout]
    exact hfirst.trans (hf a t)

theorem store {f : Store → Infer α} (hf : ∀ u, Leaves (f u)) : Leaves (Infer.store >>= f) :=
  fun u => hf u u

theorem ite {c : Prop} [Decidable c] {y : Infer α} (hx : Leaves x) (hy : Leaves y) :
    Leaves (if c then x else y) := by
  split
  · exact hx
  · exact hy

theorem report (d : Diagnostic) : Leaves (Infer.report d) :=
  fun _ => .of_untouched (fun _ _ => rfl) ⟨rfl, rfl⟩

theorem possibilities (cs : List Candidate) : Leaves (Infer.possibilities cs) :=
  fun _ => .of_untouched (fun _ _ => rfl) ⟨rfl, rfl⟩

theorem make (k : Kind) : Leaves (Infer.make k) := by
  intro u
  rw [outcome_make]
  rcases u.build_eq k with h | ⟨contents, node, h⟩
  · rw [h]
    exact .refl u
  · rw [h]
    refine .of_untouched (fun n hn => ?_) ⟨rfl, rfl⟩
    exact Array.getElem?_push_lt hn |>.trans (Array.getElem?_eq_getElem hn).symm

theorem mergeTypes (forced : Bool) (a b : Ty) : Leaves (Infer.mergeTypes forced a b) :=
  .ite (.pure _) (.ite (.throw _) ((report _).bind fun _ => .pure _))

theorem mergeCandidates (scope : MergeScope) (forced : Bool) (a b ra rb : Slot) :
    Leaves (Infer.mergeCandidates scope forced a b ra rb) := by
  refine .store fun u => .ite (.pure _) (.ite (.throw _) (.ite (.pure _) (.ite ?_ ?_)))
  · exact (report _).bind fun _ => .pure _
  · exact (possibilities _).bind fun _ => .pure _

theorem union (ns : List NodeId) : Leaves (Infer.union ns) := by
  refine .store fun u => ?_
  split
  · exact .throw _
  · exact .pure _
  · exact .make _

end Leaves

/-! ### Slots -/

/-- A pending is not registered, or it is with a loop that there is. -/
theorem openPending_cases (u : Store) (l : LoopId) (r : Option Resolver) (priority : Priority) :
    (∃ fault, u.openPending l r priority = (.error fault, u)) ∨
      ∃ loop cell, u.loops[l]? = some loop ∧ u.knowsResolver r = true ∧
        cell.loop = l ∧ cell.status = .unresolved ∧ cell.resolver = r ∧ cell.waiters = [] ∧
        u.openPending l r priority = (.ok u.pendings.size, { u with
          pendings := u.pendings.push cell
          loops := u.loops.modify l fun loop =>
            { loop with pendings := loop.pendings ++ [u.pendings.size] } }) := by
  rw [Store.openPending]
  split
  · exact .inl ⟨_, rfl⟩
  next loop hloop =>
  split
  · exact .inl ⟨_, rfl⟩
  next hknown =>
  exact .inr ⟨loop, _, hloop, by simpa using hknown, rfl, rfl, rfl, rfl, rfl⟩

/-- A merge whose pending is registered gets its task. -/
theorem putsOff_spawn {i : LoopId} {loop : LoopState} {cell : Pending} {d : Deferral}
    (hloop : u.loops[i]? = some loop) (hout : d.out = u.pendings.size)
    (hleft : u.knowsSlot d.left = true) (hright : u.knowsSlot d.right = true)
    (hcell : cell.StandsFor (some i) d)
    (ht : t = { u with
      pendings := u.pendings.push cell
      loops := u.loops.modify i fun loop =>
        { loop with pendings := loop.pendings ++ [u.pendings.size] } }) :
    ∃ task t', t.spawn i (.merge d) = (.ok task, t') ∧ u.PutsOff (some i) [d] t' := by
  have hslot : ∀ x, u.knowsSlot x = true → t.knowsSlot x = true := by
    intro x hx
    simp only [knowsSlot, Bool.and_eq_true, List.all_eq_true, decide_eq_true_eq] at hx ⊢
    refine ⟨fun n hn => ht ▸ hx.1 n hn, fun p hp => ?_⟩
    rw [ht, Array.size_push]
    exact Nat.lt_succ_of_lt (hx.2 p hp)
  have hbody : t.knowsBody (.merge d) = true := by
    show (t.knowsSlot d.left && t.knowsSlot d.right && decide (d.out < t.pendings.size)) = true
    rw [hslot _ hleft, hslot _ hright, ht, Array.size_push, hout]
    simp
  have hloop' : t.loops[i]? =
      some { loop with pendings := loop.pendings ++ [u.pendings.size] } := by
    rw [ht, Array.getElem?_modify, if_pos rfl, hloop]
    rfl
  refine ⟨_, _, by simp only [Store.spawn, hloop', hbody]; rfl, fun n _ => by rw [ht]; rfl,
    ⟨[cell], by simp [modifyLoop, ht], .cons hcell .nil⟩, by simp [hout], fun j => ?_⟩
  simp only [modifyLoop, ht, Array.getElem?_modify]
  by_cases hj : i = j
  · subst hj
    rw [hloop]
    simp [LoopState.putOff, hout]
  · simp [hj]

/-- A merge of slots is put off as a whole, or not at all. -/
theorem outcome_deferMerge (u : Store) (scope : MergeScope) (forced : Bool) (v w : Slot) :
    ((deferMerge scope forced v w).outcome u).2 = u ∨
      ∃ d, u.PutsOff scope.loop [d] ((deferMerge scope forced v w).outcome u).2 ∧
        ((deferMerge scope forced v w).outcome u).1 = .ok (.pending d.out) := by
  rw [deferMerge]
  cases scope.loop with
  | none => exact .inl rfl
  | some l =>
    let r : Resolver := .operands v w
    let priority := Priority.highest (u.waitsOn v) (u.waitsOn w)
    have hopen : (openPending l (some r) priority).outcome u =
        ((u.openPending l (some r) priority).1.mapError .invalidConstruction,
          (u.openPending l (some r) priority).2) := rfl
    dsimp only
    rw [outcome_store_bind]
    rcases openPending_cases u l (some r) priority with ⟨fault, hfault⟩ | hregistered
    · rw [hfault] at hopen
      rw [outcome_bind_of_error hopen]
      exact .inl rfl
    obtain ⟨loop, cell, hloop, hknown, hcell, hstatus, hresolver, hwaiters, hok⟩ := hregistered
    simp only [knowsResolver, r, Bool.and_eq_true] at hknown
    let d : Deferral := ⟨v, w, u.pendings.size, forced⟩
    obtain ⟨task, t, hspawn, hputs⟩ := putsOff_spawn (d := d) hloop rfl hknown.1 hknown.2
      ⟨by rw [hcell], hstatus, hresolver, hwaiters⟩ rfl
    rw [hok] at hopen
    rw [outcome_bind_of_ok hopen]
    have hspawned : (spawn l d).outcome _ = (.ok task, t) :=
      congrArg (fun r => (r.1.mapError InferError.invalidConstruction, r.2)) hspawn
    rw [outcome_bind_of_ok hspawned]
    exact .inr ⟨_, hputs, rfl⟩

/-- **A merge of slots puts off nothing,** or, if they are not ready, one merge. -/
theorem outcome_mergeSlots {scope : MergeScope} {forced : Bool} {v w : Slot}
    {res : Except InferError Slot} (hu : s.Precedes u)
    (h : (mergeSlots scope forced v w).outcome u = (res, t)) :
    u.PutsOff none [] t ∨ ¬ s.Ready v w ∧
      ∃ d, u.PutsOff scope.loop [d] t ∧ res = .ok (.pending d.out) := by
  rw [mergeSlots, outcome_store_bind] at h
  have hleaves : ∀ {x : Infer Slot}, Leaves x → x.outcome u = (res, t) →
      u.PutsOff none [] t := by
    intro x hx hout
    have hputs := hx u
    rwa [hout] at hputs
  have hdefers : ∀ {v' w' : Slot}, ¬ s.Ready v w →
      (deferMerge scope forced v' w').outcome u = (res, t) →
      u.PutsOff none [] t ∨ ¬ s.Ready v w ∧
        ∃ d, u.PutsOff scope.loop [d] t ∧ res = .ok (.pending d.out) := by
    intro v' w' hready hout
    rcases outcome_deferMerge u scope forced v' w' with hsame | hput
    · rw [hout] at hsame
      exact .inl (hsame ▸ .refl u)
    · rw [hout] at hput
      exact .inr ⟨hready, hput⟩
  -- slots that are ready are resolved to what they were, and no branch that defers is taken
  have hknown : s.Ready v w → u.resolve v = .anything ∨
      ((u.resolve v).pendings = [] ∧ (u.resolve w).pendings = []) ∨
        ∃ p, u.resolve v = .pending p ∧ u.resolve w = .pending p := by
    have hfinal : ∀ {x : Slot}, (s.resolve x).pendings = [] → s.Final (s.resolve x) := by
      intro x hx p hp
      rw [hp] at hx
      cases hx
    rintro (hv | ⟨hv, hw⟩ | ⟨p, hv, hw, hp⟩)
    · rw [hu.resolve_eq (hfinal (by rw [hv]; rfl))]
      exact .inl hv
    · rw [hu.resolve_eq (hfinal hv), hu.resolve_eq (hfinal hw)]
      exact .inr (.inl ⟨hv, hw⟩)
    · have hclosed : ∀ {x : Slot}, s.resolve x = .pending p → s.Final (s.resolve x) := by
        intro x hx q hq
        obtain rfl : p = q := Slot.pending.inj (hx.symm.trans hq)
        exact hp
      rw [hu.resolve_eq (hclosed hv), hu.resolve_eq (hclosed hw)]
      exact .inr (.inr ⟨p, hv, hw⟩)
  dsimp only at h
  split at h
  · exact .inl (hleaves (.pure _) h)
  · next p q hp hq =>
    rw [outcome_ite] at h
    split at h
    · exact .inl (hleaves (.pure _) h)
    · next hpq =>
      refine hdefers (fun hready => ?_) h
      rcases hknown hready with hv | ⟨hv, -⟩ | ⟨r, hv, hw⟩
      · cases hp.symm.trans hv
      · cases (congrArg Slot.pendings hp).symm.trans hv
      · cases hp.symm.trans hv
        cases hq.symm.trans hw
        exact hpq rfl
  · next p hp hother =>
    refine hdefers (fun hready => ?_) h
    rcases hknown hready with hv | ⟨hv, -⟩ | ⟨r, -, hw⟩
    · cases hp.symm.trans hv
    · cases (congrArg Slot.pendings hp).symm.trans hv
    · exact hother r hw
  · next q hq hany hother =>
    refine hdefers (fun hready => ?_) h
    rcases hknown hready with hv | ⟨-, hw⟩ | ⟨r, hv, -⟩
    · exact hany hv
    · cases (congrArg Slot.pendings hq).symm.trans hw
    · exact hother r hv
  · exact .inl (hleaves (.ite (.throw _) (.pure _)) h)
  · exact .inl (hleaves (.ite (.pure _) (.ite (.throw _) (.ite
      ((Leaves.report _).bind fun _ => .pure _) (.throw _)))) h)
  · exact .inl (hleaves (.mergeCandidates _ _ _ _ _ _) h)

end Infer

end ValueInference
