/-
Resolvers under way, and the pendings that they are to close.

A pending is marked when its resolver starts, and it loses the mark when it is closed.  A resolver
that returns closes its pending if nothing else has, and whatever closes a pending queues the tasks
that it is to wake.  There is one exception: a resolver may return a slot that its pending cannot
take, as the pending itself is one.  The pending then keeps the mark, although its resolver is gone.

* **`Machine.returned?`**, **`Machine.refused?`** — the resolver that returns, and the exception;
* **`Store.Begun`**, **`Machine.Move.marked`** — what a step does to the mark;
* **`Machine.run_woken`** — a task that is to be woken is queued before it is forgotten;
* **`Machine.resolver_closes`** — along every run only resolvers under way and refused ones have
  marked pendings, and all others have closed their pendings and woken the tasks.
-/
import ValueInference.Proofs.Deferred
import ValueInference.Proofs.Queues

namespace ValueInference

namespace Store

variable {s t : Store} {p q : PendingId} {w : Waiter}

/-! ### Marks -/

/-- The pending exists, and something has happened to it. -/
def Begun (s : Store) (p : PendingId) : Prop :=
  p < s.pendings.size ∧ s.pendingStatus p ≠ .unresolved

theorem Begun.quiet (h : s.Begun p) (hst : s.Quiet t) : t.Begun p := by
  refine hst.keeps (P := fun u => u.Begun p) h fun hstep hu => ?_
  refine ⟨Nat.lt_of_lt_of_le hu.1 (Quiet.size_le (.single hstep)), ?_⟩
  cases hstep.pending p with
  | same status _ => exact status ▸ hu.2
  | opened fresh _ => exact absurd hu.1 (Nat.not_lt.mpr fresh)
  | resolved slot _ status _ => exact status ▸ nofun

theorem Begun.of_pendings (h : s.Begun p) (hpendings : t.pendings = s.pendings) : t.Begun p := by
  rw [Begun, hpendings, pendingStatus_of_pendings hpendings]
  exact h

theorem Begun.close (h : s.Begun p) {status : PendingStatus} (hstatus : status ≠ .unresolved) :
    (s.close q status).Begun p := by
  refine ⟨(size_close status).symm ▸ h.1, ?_⟩
  by_cases hqp : q = p
  · subst hqp
    rwa [pendingStatus_close h.1]
  · rw [pendingStatus, pending_close_of_ne hqp]
    exact h.2

/-- A pending whose resolver starts is marked, and the others stay as they are. -/
theorem pendingStatus_beginResolving {r : Resolver} (h : s.beginResolving p = (some r, t)) :
    p < t.pendings.size ∧ t.pendingStatus p = .resolving ∧
      ∀ q ≠ p, t.pendings[q]? = s.pendings[q]? := by
  obtain ⟨hres, rfl⟩ := beginResolving_eq h
  have hp : p < s.pendings.size := by
    by_contra hge
    rw [resolver?, Array.getElem?_eq_none (Nat.not_lt.mp hge)] at hres
    cases hres
  refine ⟨Nat.lt_of_lt_of_eq hp Array.size_modify.symm, ?_, fun q hq => pending_of_ne (Ne.symm hq)⟩
  rw [pendingStatus, pending_modify_self, Array.getElem?_eq_getElem hp]
  rfl

theorem Begun.beginResolving (h : s.Begun q) {r : Resolver}
    (hbegin : s.beginResolving p = (some r, t)) : t.Begun q := by
  obtain ⟨hp, hmarked, hothers⟩ := pendingStatus_beginResolving hbegin
  by_cases hqp : q = p
  · subst hqp
    exact ⟨hp, hmarked ▸ nofun⟩
  · obtain ⟨-, rfl⟩ := beginResolving_eq hbegin
    refine ⟨Nat.lt_of_lt_of_eq h.1 Array.size_modify.symm, ?_⟩
    rw [pendingStatus, hothers q hqp]
    exact h.2

/-- Quiet changes mark no pending. -/
theorem Quiet.marked (h : s.Quiet t) (hp : t.pendingStatus p = .resolving) :
    s.pendingStatus p = .resolving := by
  refine h.keeps (P := fun u => u.pendingStatus p = .resolving → s.pendingStatus p = .resolving)
    id (fun hstep hu hmarked => hu ?_) hp
  cases hstep.pending p with
  | same status _ => exact status ▸ hmarked
  | opened _ status => exact nomatch status.symm.trans hmarked
  | resolved slot _ status _ => exact nomatch status.symm.trans hmarked

theorem marked_of_close {status : PendingStatus} (hstatus : status ≠ .resolving)
    (hp : (s.close q status).pendingStatus p = .resolving) : s.pendingStatus p = .resolving := by
  by_cases hqp : q = p
  · subst hqp
    rcases Nat.lt_or_ge q s.pendings.size with hlt | hge
    · exact absurd ((pendingStatus_close hlt).symm.trans hp) hstatus
    · rw [pendingStatus_of_absent (Nat.le_trans (Nat.le_of_eq (size_close status)) hge)] at hp
      exact nomatch hp
  · rwa [pendingStatus, pending_close_of_ne hqp] at hp

/-! ### Closed pendings -/

/-- Closed pendings have no task to wake. -/
def Forgets (s : Store) : Prop := ∀ p, s.isOpen p = false → s.waiters p = []

theorem Forgets.of_pendings (h : s.Forgets) (hpendings : t.pendings = s.pendings) : t.Forgets := by
  intro p hp
  have hcell : t.pendings[p]? = s.pendings[p]? := by rw [hpendings]
  rw [waiters_of_pending hcell]
  exact h p (isOpen_of_pending hcell ▸ hp)

theorem Forgets.step (h : s.Forgets) (hst : s.QuietStep t) : t.Forgets := by
  cases hst with
  | register v q before =>
    intro p hp
    have hclosed : s.isOpen p = false := (isOpen_register v q).symm.trans hp
    have hqp : q ≠ p := by
      rintro rfl
      exact nomatch before.symm.trans hclosed
    rw [register, waiters_of_pending (pending_of_ne hqp)]
    exact h p hclosed
  | note l f _ _ _ _ => exact h.of_pendings rfl
  | change c =>
    intro p hp
    cases change_cell (s := s) (p := p) c with
    | same cell =>
      rw [waiters_of_pending cell]
      exact h p (isOpen_of_pending cell ▸ hp)
    | opened _ cell' cell _ hnone =>
      rw [waiters, cell]
      exact hnone
    | resolved slot _ _ closes =>
      rw [closes]
      exact waiters_close

theorem Forgets.quiet (h : s.Forgets) (hst : s.Quiet t) : t.Forgets :=
  hst.keeps h fun hstep hs => hs.step hstep

theorem Forgets.close (h : s.Forgets) (q : PendingId) (status : PendingStatus) :
    (s.close q status).Forgets := by
  intro p hp
  by_cases hqp : q = p
  · subst hqp
    exact waiters_close
  · rw [waiters_of_pending (pending_close_of_ne hqp)]
    exact h p (isOpen_of_pending (pending_close_of_ne hqp) ▸ hp)

theorem Forgets.beginResolving (h : s.Forgets) {r : Resolver}
    (hbegin : s.beginResolving q = (some r, t)) : t.Forgets := by
  obtain ⟨-, hmarked, hothers⟩ := pendingStatus_beginResolving hbegin
  intro p hp
  by_cases hpq : p = q
  · subst hpq
    exact nomatch (isOpen_iff.mpr (.inr hmarked)).symm.trans hp
  · rw [waiters_of_pending (hothers p hpq)]
    exact h p (isOpen_of_pending (hothers p hpq) ▸ hp)

/-! ### Tasks that are to be woken -/

theorem waiters_beginResolving {r : Resolver} (h : s.beginResolving q = (some r, t)) :
    t.waiters p = s.waiters p := by
  obtain ⟨-, rfl⟩ := beginResolving_eq h
  by_cases hqp : q = p
  · subst hqp
    rw [waiters, pending_modify_self, waiters]
    cases s.pendings[q]? <;> rfl
  · exact waiters_of_pending (pending_of_ne hqp)

theorem queued_putTask (l : LoopId) (n : TaskId) (body : TaskBody) :
    (s.putTask l n body).Queued w ↔ s.Queued w := by
  rw [Queued, putTask, loop_modifyLoop]
  split <;> exact Iff.rfl

/-- **Quiet changes** forget a task that is to be woken only by queueing it. -/
theorem Quiet.woken (h : s.Quiet t) (hw : w ∈ s.waiters p) (hl : w.loop < s.loops.size) :
    w ∈ t.waiters p ∨ t.Queued w := by
  refine (h.keeps (P := fun u => w.loop < u.loops.size ∧ (w ∈ u.waiters p ∨ u.Queued w))
    ⟨hl, .inl hw⟩ fun hstep hu => ⟨((hstep.table w.loop).config hu.1).1, ?_⟩).2
  rcases hu.2 with hw | hqueued
  · exact (hstep.minds hw hu.1).imp_left And.left
  · exact .inr ((hstep.queue w.loop).queued hqueued)

/-- Tasks that are to be woken have loops that exist. -/
def Homed (s : Store) : Prop := ∀ p, ∀ w ∈ s.waiters p, w.loop < s.loops.size

theorem Homed.later (h : s.Homed) (hsize : ∀ l < s.loops.size, l < t.loops.size)
    (hwaiters : ∀ p, ∀ w ∈ t.waiters p, w ∈ s.waiters p ∨ w.loop < s.loops.size) : t.Homed :=
  fun p w hw => hsize _ ((hwaiters p w hw).elim (h p w) id)

theorem loop_lt_of_spawned {l : LoopId} {n : TaskId} (h : n < (s.loop l).spawned) :
    l < s.loops.size := by
  by_contra hge
  rw [loop_of_absent (Nat.not_lt.mp hge)] at h
  exact absurd h (Nat.not_lt_zero n)

end Store

namespace Machine

variable {σ : Type} {m m' : Machine σ} {p q : PendingId} {w : Waiter}

/-! ### Resolvers that return -/

/-- The pending whose resolver is about to return. -/
def returned? (m : Machine σ) : Option PendingId :=
  match m.control with
  | .answer _ => m.topResolver?
  | _ => none

/-- The pending whose resolver is about to return a slot that it cannot take: itself, or one that
does not exist. -/
def refused? (m : Machine σ) : Option PendingId :=
  match m.stack, m.control with
  | .resolving p :: _, .answer (.ok slot) =>
    if m.store.isOpen p ∧ (slot = .pending p ∨ m.store.knowsSlot slot = false) then some p else none
  | _, _ => none

theorem returned?_eq_some : m.returned? = some p ↔
    ∃ r rest, m.control = .answer r ∧ m.stack = .resolving p :: rest := by
  rw [returned?]
  split
  · next r hcontrol =>
    rw [topResolver?]
    split
    · next q rest hstack =>
      refine ⟨fun h => ⟨r, rest, hcontrol, ?_⟩, ?_⟩
      · cases h
        exact hstack
      · rintro ⟨_, _, _, h⟩
        obtain rfl : q = p := Frame.resolving.inj (List.cons.inj (hstack.symm.trans h)).1
        rfl
    · next hstack =>
      refine ⟨(by cases ·), ?_⟩
      rintro ⟨_, rest, -, h⟩
      exact absurd h (hstack p rest)
  · next hcontrol =>
    refine ⟨(by cases ·), ?_⟩
    rintro ⟨r, _, h, -⟩
    exact absurd h (hcontrol r)

theorem refused?_of_stack {rest : List (Frame σ)} {slot : Slot}
    (hstack : m.stack = .resolving p :: rest) (hcontrol : m.control = .answer (.ok slot)) :
    m.refused? = some p ↔ m.store.isOpen p = true ∧
      (slot = .pending p ∨ m.store.knowsSlot slot = false) := by
  rw [refused?, hstack, hcontrol]
  simp only
  split
  · next h => exact iff_of_true rfl h
  · next h => exact iff_of_false nofun h

/-- A resolver whose result is refused is one that returns. -/
theorem returned?_of_refused? (h : m.refused? = some p) : m.returned? = some p := by
  rw [refused?] at h
  split at h
  · next q rest slot hstack hcontrol =>
    split at h
    · cases h
      exact returned?_eq_some.mpr ⟨_, rest, hcontrol, hstack⟩
    · exact nomatch h
  · exact nomatch h

theorem mem_resolvers_of_refused? (h : m.refused? = some p) : p ∈ m.resolvers := by
  obtain ⟨r, rest, -, hstack⟩ := returned?_eq_some.mp (returned?_of_refused? h)
  exact mem_resolvers.mpr (hstack ▸ List.mem_cons_self)

/-- **What a resolver's outcome does:** it closes the pending, unless that is closed already or
cannot take the slot. -/
theorem resolved_cases {rest : List (Frame σ)} {r : Outcome} (hp : p < m.store.pendings.size)
    (hstack : m.stack = .resolving p :: rest) (hcontrol : m.control = .answer r) :
    (m.refused? = some p ∧ ({ m with stack := rest }.resolved p r).store = m.store) ∨
    (m.store.isOpen p = false ∧ ({ m with stack := rest }.resolved p r).store = m.store) ∨
    ∃ status, ({ m with stack := rest }.resolved p r).store = m.store.close p status ∧
      status ≠ .unresolved ∧ status ≠ .resolving := by
  cases r with
  | error e => exact .inr (.inr ⟨.failed e, rfl, by simp, by simp⟩)
  | ok slot =>
    rw [refused?_of_stack hstack hcontrol, resolved]
    by_cases hopen : m.store.isOpen p = true
    swap
    · refine .inr (.inl ⟨Bool.eq_false_iff.mpr hopen, ?_⟩)
      simp only [hopen]
      rfl
    by_cases hrefused : slot = .pending p ∨ m.store.knowsSlot slot = false
    · refine .inl ⟨⟨hopen, hrefused⟩, ?_⟩
      have hset : ∃ e, m.store.setResult p slot = (.error e, m.store) := by
        rw [Store.setResult]
        simp only [hopen, Bool.not_true, Bool.false_eq_true, if_false]
        split
        · exact ⟨_, rfl⟩
        · next hself =>
          refine ⟨.invalidConstruction .dangling, ?_⟩
          simp [hrefused.resolve_left hself]
      obtain ⟨e, hset⟩ := hset
      simp only [hopen, if_true, hset]
      rfl
    · obtain ⟨hself, hknown⟩ := not_or.mp hrefused
      refine .inr (.inr ⟨.resolved slot, ?_, by simp, by simp⟩)
      have hset : m.store.setResult p slot = (.ok (), m.store.close p (.resolved slot)) := by
        rw [Store.setResult]
        simp [hopen, hself, hknown, hp]
      simp only [hopen, if_true, hset]
      rfl

/-! ### Homes of tasks -/

theorem Calm.homed (h : m.Calm m') (hm : m.Numbered) (hs : m.store.Homed) : m'.store.Homed := by
  refine hs.later (fun l hl => ((h.store.table l).config hl).1) fun p w hw => ?_
  refine (h.waiters p w hw).imp_right fun ⟨body, hbody⟩ => ?_
  exact Store.loop_lt_of_spawned (hm.frames _ hbody)

theorem homed_pollTask (hs : m.store.Homed) {l : LoopId} (hl : l < m.store.loops.size) (t : TaskId)
    (body : TaskBody) : (m.pollTask l t body).store.Homed := by
  cases body with
  | code i => exact hs
  | watched i => exact hs
  | merge d =>
    rcases pollMerge_cases m l t d with ⟨p, v, v', -, -, -, -, hstore, -⟩ | ⟨r, hpolled⟩
    · rw [pollTask, hstore]
      refine hs.later (fun l' hl' => Nat.lt_of_lt_of_eq hl' Array.size_modify.symm) fun q w hw => ?_
      refine (Store.mem_waiters_of_register hw).imp_right ?_
      rintro rfl
      exact hl
    · exact hs.later (fun l' hl' => ((hpolled.store.table l').config hl').1) fun q w hw =>
        .inl (hpolled.waiters q w hw)

/-- **Every step** registers only tasks of loops that exist. -/
theorem Move.homed (h : m.Move m') (hm : m.Numbered) (hs : m.store.Homed) : m'.store.Homed := by
  cases h with
  | calm h => exact h.homed hm hs
  | @spawned _ l body task _ h =>
    have htable := fun l' => Store.TableGrows.spawn m.store l body l'
    have hpendings := Store.pendings_spawn m.store l body
    refine h.homed (hm.spawned l body task) (hs.later (fun l' hl => ((htable l').config hl).1) ?_)
    exact fun p w hw => .inl (Store.waiters_of_pending (congrArg (·[p]?) hpendings) ▸ hw)
  | resolving h hbegin _ _ _ =>
    refine (h.homed hm hs).later ?_ fun p w hw => .inl (Store.waiters_beginResolving hbegin ▸ hw)
    obtain ⟨-, hstore⟩ := Store.beginResolving_eq hbegin
    exact hstore ▸ fun l => id
  | @resolved p r rest hstack hcontrol =>
    have hp : p < m.store.pendings.size := hm.frames (.resolving p) (hstack ▸ List.mem_cons_self)
    rcases resolved_cases hp hstack hcontrol with ⟨-, h⟩ | ⟨-, h⟩ | ⟨status, h, -⟩
    · rwa [h]
    · rwa [h]
    · rw [h]
      have htable := fun l => Store.TableGrows.close m.store p status l
      refine hs.later (fun l hl => ((htable l).config hl).1) fun q w hw => .inl ?_
      by_cases hpq : p = q
      · subst hpq
        exact absurd (Store.waiters_close ▸ hw) List.not_mem_nil
      · exact Store.waiters_of_pending (Store.pending_close_of_ne hpq) ▸ hw
  | skipped _ _ _ =>
    exact hs.later (fun l hl => Nat.lt_of_lt_of_eq hl Array.size_modify.symm) fun p w => .inl
  | @polled l _ t _ body s _ hhead hqueue hlookup =>
    have hsize : (s.dropTask l t).loops.size = m.store.loops.size := by
      rw [hqueue]
      exact Array.size_modify.trans Array.size_modify
    have hl : l < (s.dropTask l t).loops.size := by
      rw [hsize]
      by_contra hge
      rw [Store.loop_of_absent (Nat.not_lt.mp hge)] at hhead
      exact nomatch hhead
    refine homed_pollTask (m := { m with store := s.dropTask l t }) ?_ hl t body
    refine hs.later (fun l' hl' => hsize ▸ hl') fun p w hw => .inl ?_
    subst hqueue
    exact hw
  | turned h _ hstore _ _ _ => exact hstore ▸ h.calm.homed hm hs
  | suspended h _ hstore _ _ _ =>
    rw [hstore]
    refine (h.calm.homed hm hs).later (fun l hl => ?_) fun p w => .inl
    exact Nat.lt_of_lt_of_eq hl Array.size_modify.symm

theorem Reachable.homed (h : m.Reachable) : m.store.Homed := by
  induction h with
  | start client code => exact fun p w hw => absurd hw List.not_mem_nil
  | step h hstep ih => exact (moves hstep).homed h.numbered ih

/-! ### Resolvers under way -/

/-- **At most one resolver** starts or returns in a step. -/
theorem Move.resolvers_cases (h : m.Move m') :
    m'.resolvers = m.resolvers ∨
    (∃ p, m'.resolvers = p :: m.resolvers ∧ m'.store.Begun p) ∨
    ∃ p, m.resolvers = p :: m'.resolvers ∧ m.returned? = some p := by
  cases h with
  | calm h => exact .inl h.resolvers
  | spawned _ h => exact .inl h.resolvers
  | @resolving m₁ _ p _ h hbegin hstack _ _ =>
    obtain ⟨hlt, hmarked, -⟩ := Store.pendingStatus_beginResolving hbegin
    refine .inr (.inl ⟨p, ?_, hlt, hmarked ▸ nofun⟩)
    rw [← h.resolvers, resolvers, hstack]
    rfl
  | @resolved p r rest hstack hcontrol =>
    refine .inr (.inr ⟨p, ?_, returned?_eq_some.mpr ⟨r, rest, hcontrol, hstack⟩⟩)
    rw [resolvers, hstack, resolvers, resolved_stack]
    rfl
  | skipped _ _ _ => exact .inl rfl
  | @polled l _ t _ body s _ _ _ _ =>
    refine .inl ?_
    rw [resolvers]
    rcases pollTask_cases { m with store := s.dropTask l t } l t body with
      ⟨_, _, -, -, hstack⟩ | ⟨-, hstack⟩
    · rw [hstack]
      rfl
    · rw [hstack]
      rfl
  | turned h hstack _ hstack' _ _ =>
    refine .inl ?_
    rw [← h.calm.resolvers, resolvers, hstack', resolvers, hstack]
    rfl
  | suspended h hstack _ hstack' _ _ =>
    refine .inl ?_
    rw [← h.calm.resolvers, resolvers, hstack', resolvers, hstack]
    rfl

/-- **Every step** leaves a pending begun. -/
theorem Move.begun (h : m.Move m') (hp : m.store.Begun p) : m'.store.Begun p := by
  refine h.store_induction (motive := fun s => s.Begun p) hp ?_ ?_ ?_ ?_
  · exact fun hs _ hpendings => hs.of_pendings hpendings
  · exact fun hs hquiet => hs.quiet hquiet
  · exact fun _ hs hbegin => hs.beginResolving hbegin
  · exact fun q e _ => hp.close nofun

/-- **A step marks** only a pending whose resolver it starts. -/
theorem Move.marked (h : m.Move m') (hp : m'.store.pendingStatus p = .resolving) :
    m.store.pendingStatus p = .resolving ∨ p ∈ m'.resolvers := by
  cases h with
  | calm h => exact .inl (h.store.marked hp)
  | spawned _ h =>
    have hmarked := h.store.marked hp
    exact .inl ((Store.pendingStatus_of_pendings (Store.pendings_spawn _ _ _)).symm.trans hmarked)
  | @resolving m₁ _ q _ h hbegin hstack _ _ =>
    by_cases hpq : p = q
    · refine .inr (mem_resolvers.mpr ?_)
      rw [hstack, hpq]
      exact List.mem_cons_self
    · refine .inl (h.store.marked ?_)
      obtain ⟨-, -, hothers⟩ := Store.pendingStatus_beginResolving hbegin
      rwa [Store.pendingStatus, hothers p hpq] at hp
  | @resolved q r rest _ _ =>
    obtain h | ⟨e, -, h⟩ := resolved_store { m with stack := rest } q r
    · exact .inl (h.marked hp)
    · rw [h, Store.fail] at hp
      refine .inl (Store.marked_of_close ?_ hp)
      simp
  | skipped _ _ _ => exact .inl hp
  | @polled l _ t _ body s _ _ hqueue _ =>
    have hs : s.pendings = m.store.pendings := hqueue ▸ rfl
    rcases pollTask_cases { m with store := s.dropTask l t } l t body with
      ⟨s', body', hquiet, h, -⟩ | ⟨hquiet, -⟩
    · rw [h] at hp
      have hmarked := hquiet.marked hp
      exact .inl ((Store.pendingStatus_of_pendings hs).symm.trans hmarked)
    · have hmarked := hquiet.marked hp
      exact .inl ((Store.pendingStatus_of_pendings hs).symm.trans hmarked)
  | turned h _ hstore _ _ _ =>
    rw [hstore] at hp
    exact .inl (h.calm.store.marked hp)
  | suspended h _ hstore _ _ _ =>
    rw [hstore] at hp
    exact .inl (h.calm.store.marked hp)

/-- **A resolver that returns** leaves its pending closed, unless its result is refused. -/
theorem closed_of_returned (hm : m.Numbered) (hstep : m.step = some m')
    (hret : m.returned? = some p) (hrefused : m.refused? ≠ some p) : m'.store.isOpen p = false := by
  obtain ⟨r, rest, hcontrol, hstack⟩ := returned?_eq_some.mp hret
  have hp : p < m.store.pendings.size := hm.frames (.resolving p) (hstack ▸ List.mem_cons_self)
  rw [step, hcontrol] at hstep
  simp only [hstack] at hstep
  cases hstep
  show ({ m with stack := rest }.resolved p r).store.isOpen p = false
  rcases resolved_cases hp hstack hcontrol with ⟨h, -⟩ | ⟨hclosed, h⟩ | ⟨status, h, hnew, hmarked⟩
  · exact absurd h hrefused
  · rwa [h]
  · rw [h, Bool.eq_false_iff, Ne, Store.isOpen_iff, Store.pendingStatus_close hp]
    exact not_or.mpr ⟨hnew, hmarked⟩

/-- Closed pendings have no task to wake. -/
theorem Move.forgets (h : m.Move m') (hm : m.store.Forgets) : m'.store.Forgets := by
  refine h.store_induction (motive := Store.Forgets) hm ?_ ?_ ?_ ?_
  · exact fun hs _ hpendings => hs.of_pendings hpendings
  · exact fun hs hquiet => hs.quiet hquiet
  · exact fun _ hs hbegin => hs.beginResolving hbegin
  · exact fun q e _ => hm.close q _

/-- **Every step** forgets a task that is to be woken only by queueing it. -/
theorem Move.woken (h : m.Move m') (hw : w ∈ m.store.waiters p)
    (hl : w.loop < m.store.loops.size) : w ∈ m'.store.waiters p ∨ m'.store.Queued w := by
  cases h with
  | calm h => exact h.store.woken hw hl
  | @spawned _ l body _ _ h =>
    have hpendings := Store.pendings_spawn m.store l body
    refine h.store.woken ?_ ((Store.TableGrows.spawn m.store l body w.loop).config hl).1
    exact (Store.waiters_of_pending (congrArg (·[p]?) hpendings)).symm ▸ hw
  | resolving h hbegin _ _ _ =>
    refine (h.store.woken hw hl).imp (fun hw => Store.waiters_beginResolving hbegin ▸ hw) ?_
    obtain ⟨-, hstore⟩ := Store.beginResolving_eq hbegin
    rw [hstore]
    exact id
  | @resolved q r rest _ _ =>
    obtain h | ⟨e, -, h⟩ := resolved_store { m with stack := rest } q r
    · exact h.woken hw hl
    · rw [h]
      exact (Store.minds_close q hw hl).imp_left And.left
  | skipped _ _ _ => exact .inl hw
  | @polled l _ t _ body s _ _ hqueue _ =>
    have hsize : (s.dropTask l t).loops.size = m.store.loops.size := by
      rw [hqueue]
      exact Array.size_modify.trans Array.size_modify
    have hw' : w ∈ (s.dropTask l t).waiters p := by
      subst hqueue
      exact hw
    rcases pollTask_cases { m with store := s.dropTask l t } l t body with
      ⟨s', body', hquiet, h, -⟩ | ⟨hquiet, -⟩
    · rw [h, Store.queued_putTask]
      exact hquiet.woken hw' (hsize ▸ hl)
    · exact hquiet.woken hw' (hsize ▸ hl)
  | turned h _ hstore _ _ _ => exact hstore ▸ h.calm.store.woken hw hl
  | suspended h _ hstore _ _ _ =>
    rw [hstore, Store.queued_putTask]
    exact h.calm.store.woken hw hl

/-! ### Runs -/

/-- Resolvers under way, and those of the given pendings, have started, and no others have marked
pendings. -/
structure Marks (m : Machine σ) (P : PendingId → Prop) : Prop where
  marked : ∀ p, m.store.pendingStatus p = .resolving → p ∈ m.resolvers ∨ P p
  begun : ∀ p, p ∈ m.resolvers ∨ P p → m.store.Begun p

/-- The marked pendings are the open ones of these. -/
theorem Marks.iff {P : PendingId → Prop} (h : m.Marks P) (p : PendingId) :
    m.store.pendingStatus p = .resolving ↔
      m.store.isOpen p = true ∧ (p ∈ m.resolvers ∨ P p) := by
  refine ⟨fun hp => ⟨Store.isOpen_iff.mpr (.inr hp), h.marked p hp⟩, fun ⟨hopen, hp⟩ => ?_⟩
  exact (Store.isOpen_iff.mp hopen).resolve_left (h.begun p hp).2

theorem Marks.step {P Q : PendingId → Prop} (h : m.Marks P) (hm : m.Numbered)
    (hstep : m.step = some m') (hQ : ∀ p, Q p ↔ P p ∨ m.refused? = some p) : m'.Marks Q := by
  have hmove := moves hstep
  refine ⟨fun p hp => ?_, fun p hp => ?_⟩
  · rcases hmove.marked hp with hmarked | hnew
    swap
    · exact .inl hnew
    rcases h.marked p hmarked with hunder | hP
    swap
    · exact .inr ((hQ p).mpr (.inl hP))
    rcases hmove.resolvers_cases with heq | ⟨q, heq, -⟩ | ⟨q, heq, hret⟩
    · exact .inl (heq ▸ hunder)
    · exact .inl (heq ▸ List.mem_cons_of_mem q hunder)
    rw [heq] at hunder
    rcases List.mem_cons.mp hunder with rfl | hrest
    · -- the resolver that returns leaves the mark only if its result is refused
      refine .inr ((hQ p).mpr (.inr ?_))
      by_contra hnot
      have hclosed := closed_of_returned hm hstep hret hnot
      exact nomatch (Store.isOpen_iff.mpr (.inr hp)).symm.trans hclosed
    · exact .inl hrest
  · by_cases hold : p ∈ m.resolvers ∨ P p
    · exact hmove.begun (h.begun p hold)
    obtain ⟨hnot, hnotP⟩ := not_or.mp hold
    rcases hp with hunder | hp
    · rcases hmove.resolvers_cases with heq | ⟨q, heq, hbegun⟩ | ⟨q, heq, -⟩
      · exact absurd (heq ▸ hunder) hnot
      · rw [heq] at hunder
        rcases List.mem_cons.mp hunder with rfl | hrest
        · exact hbegun
        · exact absurd hrest hnot
      · exact absurd (heq ▸ List.mem_cons_of_mem q hunder) hnot
    · rcases (hQ p).mp hp with hP | hrefused
      · exact absurd hP hnotP
      · exact absurd (mem_resolvers_of_refused? hrefused) hnot

/-- **Along every run** the marked pendings are the open ones whose resolvers are under way, or had
their results refused. -/
theorem run_marks (client : σ) (code : Program σ) (k : Nat) :
    ((start client code).run k).Marks fun p =>
      ∃ i < k, ((start client code).run i).refused? = some p := by
  induction k with
  | zero =>
    refine ⟨fun p hp => absurd hp nofun, fun p hp => ?_⟩
    rcases hp with hp | ⟨i, hi, -⟩
    · exact absurd hp List.not_mem_nil
    · exact absurd hi (Nat.not_lt_zero i)
  | succ k ih =>
    have hm := (Reachable.start client code).run k
    have hlater : ∀ p, (∃ i < k + 1, ((start client code).run i).refused? = some p) ↔
        (∃ i < k, ((start client code).run i).refused? = some p) ∨
          ((start client code).run k).refused? = some p := fun p => Nat.exists_lt_succ_right
    rw [run_succ]
    cases hstep : ((start client code).run k).step with
    | some m' => exact ih.step hm.numbered hstep hlater
    | none =>
      -- nothing is under way when the run is over
      refine ⟨fun p hp => (ih.marked p hp).imp_right fun hP => (hlater p).mpr (.inl hP), ?_⟩
      intro p hp
      refine ih.begun p (hp.elim .inl fun hp => ?_)
      exact ((hlater p).mp hp).elim .inr fun hrefused => .inl (mem_resolvers_of_refused? hrefused)

/-- **Along every run** a task that is to be woken is queued before it is forgotten. -/
theorem run_woken (hm : m.Reachable) (hw : w ∈ m.store.waiters p) (k : Nat) :
    w ∈ (m.run k).store.waiters p ∨ ∃ i, 0 < i ∧ i ≤ k ∧ (m.run i).store.Queued w := by
  induction k with
  | zero => exact .inl hw
  | succ k ih =>
    rcases ih with hw | ⟨i, hi, hik, hqueued⟩
    swap
    · exact .inr ⟨i, hi, Nat.le_succ_of_le hik, hqueued⟩
    rcases hstep : (m.run k).step with _ | m'
    · rw [run_succ, hstep]
      exact .inl hw
    have hnext : m.run (k + 1) = m' := by rw [run_succ, hstep]; rfl
    rcases (moves hstep).woken hw ((hm.run k).homed p w hw) with hw | hqueued
    · exact .inl (hnext ▸ hw)
    · exact .inr ⟨k + 1, Nat.succ_pos k, Nat.le_refl _, hnext ▸ hqueued⟩

theorem Reachable.forgets (h : m.Reachable) : m.store.Forgets := by
  induction h with
  | start client code => exact fun p hp => rfl
  | step _ hstep ih => exact (moves hstep).forgets ih

/-- A closed pending stays closed. -/
theorem run_closed (hm : m.Reachable) (hp : m.store.isOpen p = false) (k : Nat) :
    (m.run k).store.isOpen p = false :=
  run_keeps (P := fun m => m.store.isOpen p = false) k hp fun i _ hclosed _ hstep =>
    ((moves hstep).persists (hm.run i).idle).closed hclosed

/-- **A pending is marked only while its resolver runs.**  In every state of a run the pendings that
are marked as being resolved are open, and their resolvers are on the stack, except for those whose
resolvers have returned a slot that they cannot take.  So after any other resolver has returned, its
pending is closed, and every task that it was to wake at any time has been queued since. -/
theorem resolver_closes (client : σ) (code : Program σ) (k : Nat) :
    let run := fun i => (start client code).run i
    (∀ p, (run k).store.pendingStatus p = .resolving ↔ (run k).store.isOpen p = true ∧
      (.resolving p ∈ (run k).stack ∨ ∃ i < k, (run i).refused? = some p)) ∧
    ∀ i < k, ∀ p, (run i).returned? = some p → (run i).refused? ≠ some p →
      (run k).store.isOpen p = false ∧ ∀ j ≤ k, ∀ w ∈ (run j).store.waiters p,
        ∃ j', j < j' ∧ j' ≤ k ∧ (run j').store.Queued w := by
  intro run
  have hreach : ∀ i, (run i).Reachable := fun i => (Reachable.start client code).run i
  have hadd : ∀ i d, (run i).run d = run (i + d) := fun i d => (run_add i d _).symm
  refine ⟨fun p => ?_, fun i hi p hret hrefused => ?_⟩
  · rw [← mem_resolvers]
    exact (run_marks client code k).iff p
  have hclosed : (run k).store.isOpen p = false := by
    obtain ⟨r, rest, hcontrol, hstack⟩ := returned?_eq_some.mp hret
    rcases hstep : (run i).step with _ | m'
    · rw [step, hcontrol] at hstep
      simp only [hstack] at hstep
      cases hstep
    have hnext : run (i + 1) = m' := (run_succ i _).trans (congrArg (·.getD (run i)) hstep)
    have hafter := closed_of_returned (hreach i).numbered hstep hret hrefused
    obtain ⟨d, rfl⟩ := Nat.exists_eq_add_of_le (Nat.succ_le_of_lt hi)
    rw [← hadd]
    exact run_closed (hreach (i + 1)) (hnext ▸ hafter) d
  refine ⟨hclosed, fun j hj w hw => ?_⟩
  obtain ⟨d, rfl⟩ := Nat.exists_eq_add_of_le hj
  rcases run_woken (hreach j) hw d with hkept | ⟨j', hpos, hle, hqueued⟩
  · rw [hadd, (hreach (j + d)).forgets p hclosed] at hkept
    exact absurd hkept List.not_mem_nil
  · rw [hadd] at hqueued
    exact ⟨j + j', Nat.lt_add_of_pos_right hpos, Nat.add_le_add_left hle j, hqueued⟩

/-- Code with a task that waits for a pending, which is then forced. -/
def forcedForTask : Program Unit :=
  let resolver := .done (.ok (.constant (.int 1)))
  let task := .await (.pending 0) fun _ => .done unit
  .update (Infer.openLoop {}).run fun _ =>
    .pending 0 resolver (.ranked none) fun _ =>
      .spawn 0 task fun _ => .runReady 0 fun _ => .force 0 0 .done

/-- The pending is marked while its resolver runs, and no more when it has returned.  The task that
waited for it has been queued. -/
theorem resolver_closes_forcedForTask :
    let run := fun i => (start () forcedForTask).run i
    ((run 9).returned? = some 0 ∧ (run 9).refused? ≠ some 0 ∧ ⟨0, 0⟩ ∈ (run 9).store.waiters 0) ∧
      (run 9).store.pendingStatus 0 = .resolving ∧ (run 10).store.isOpen 0 = false ∧
      ∃ j, 9 < j ∧ j ≤ 10 ∧ (run j).store.Queued ⟨0, 0⟩ := by
  intro run
  have hret : (run 9).returned? = some 0 := by decide
  have hrefused : (run 9).refused? ≠ some 0 := by decide
  have hwaits : ⟨0, 0⟩ ∈ (run 9).store.waiters 0 := by decide
  have hunder : .resolving 0 ∈ (run 9).stack := by
    obtain ⟨r, rest, -, hstack⟩ := returned?_eq_some.mp hret
    exact hstack ▸ List.mem_cons_self
  obtain ⟨hclosed, hwoken⟩ :=
    (resolver_closes () forcedForTask 10).2 9 (by decide) 0 hret hrefused
  have hmarked := ((resolver_closes () forcedForTask 9).1 0).mpr ⟨by decide, .inl hunder⟩
  exact ⟨⟨hret, hrefused, hwaits⟩, hmarked, hclosed, hwoken 9 (by decide) _ hwaits⟩

end Machine

end ValueInference
