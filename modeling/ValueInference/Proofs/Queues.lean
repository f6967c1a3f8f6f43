/-
The queues of loops, and the tasks that pendings are to wake.

A task of a table is heeded if it is queued, or if every pending that it waits for is open and is to
wake it.  A pending forgets a task only by queueing it, and a loop passes over a number in its queue
only if no task of its table has it; so heeded tasks stay heeded.

* **`Store.QueueGrows`** — a table gets queued tasks only, and no queued task falls back;
* **`Store.QuietStep.minds`** — quiet changes forget a waiting task only by queueing it;
* **`Store.Tends`**, **`Store.Quiet.tends`** — so do quiet changes as a whole;
* **`Store.Heeded`**, **`Store.Heeded.later`** — and heeded tasks stay heeded.
-/
import ValueInference.Proofs.Tables

namespace ValueInference

/-- The number of the code of a task that runs a client's code. -/
def TaskBody.code? : TaskBody → Option Nat
  | .merge _ => none
  | .code i | .watched i => some i

/-- A task that is queued again keeps its place. -/
theorem LoopState.ready_schedule (loop : LoopState) (t : TaskId) :
    t ∈ (loop.schedule t).ready ∧ ∃ more, (loop.schedule t).ready = loop.ready ++ more := by
  rw [schedule]
  split
  · next h => exact ⟨h, [], (List.append_nil _).symm⟩
  · exact ⟨List.mem_append_right _ List.mem_cons_self, [t], rfl⟩

namespace Store

variable {s t u : Store} {l l' : LoopId} {p q : PendingId} {w : Waiter} {body : TaskBody}
  {ps : List PendingId} {P : TaskBody → Prop} {f g : TaskBody → List PendingId}

/-- The task is in the table of its loop. -/
def Tabled (s : Store) (w : Waiter) (body : TaskBody) : Prop :=
  (w.task, body) ∈ (s.loop w.loop).tasks

/-- The task is in the queue of its loop. -/
def Queued (s : Store) (w : Waiter) : Prop := w.task ∈ (s.loop w.loop).ready

instance : Decidable (s.Queued w) :=
  inferInstanceAs (Decidable (w.task ∈ (s.loop w.loop).ready))

/-- The task is in its table, and in the queue of its loop with no others ahead of it but the last
of the given ones. -/
def InLine (s : Store) (w : Waiter) (body : TaskBody) (ahead : List TaskId) : Prop :=
  s.Tabled w body ∧ ∃ before rest, (s.loop w.loop).ready = before ++ w.task :: rest ∧
    before <:+ ahead

theorem InLine.queued {ahead : List TaskId} (h : s.InLine w body ahead) : s.Queued w := by
  obtain ⟨-, before, rest, hready, -⟩ := h
  rw [Queued, hready]
  exact List.mem_append_right _ List.mem_cons_self

theorem Tabled.loop_lt (h : s.Tabled w body) : w.loop < s.loops.size := by
  by_contra hge
  rw [Tabled, loop_of_absent (Nat.not_lt.mp hge)] at h
  exact absurd h List.not_mem_nil

/-! ### Queues -/

theorem loop_wake (s : Store) (w : Waiter) (l : LoopId) :
    ((s.wake w).loop l).tasks = (s.loop l).tasks ∧
      ∃ more, ((s.wake w).loop l).ready = (s.loop l).ready ++ more := by
  have hloop := s.loop_modifyLoop w.loop l fun loop => loop.schedule w.task
  split at hloop
  · obtain ⟨-, more, hmore⟩ := (s.loop l).ready_schedule w.task
    refine ⟨?_, more, (congrArg LoopState.ready hloop).trans hmore⟩
    rw [wake, hloop, LoopState.schedule]
    split <;> rfl
  · exact ⟨congrArg LoopState.tasks hloop, [],
      (congrArg LoopState.ready hloop).trans (List.append_nil _).symm⟩

theorem loop_wakes (l : LoopId) (ws : List Waiter) : ∀ s : Store,
    ((ws.foldl wake s).loop l).tasks = (s.loop l).tasks ∧
      ∃ more, ((ws.foldl wake s).loop l).ready = (s.loop l).ready ++ more := by
  induction ws with
  | nil => exact fun s => ⟨rfl, [], (List.append_nil _).symm⟩
  | cons w ws ih =>
    intro s
    obtain ⟨htasks, more, hmore⟩ := loop_wake s w l
    obtain ⟨htasks', more', hmore'⟩ := ih (s.wake w)
    refine ⟨htasks'.trans htasks, more ++ more', ?_⟩
    rw [List.foldl_cons, hmore', hmore, List.append_assoc]

/-- To a table only queued tasks are added, and to a queue only at its end. -/
structure QueueGrows (P : TaskBody → Prop) (s t : Store) (l : LoopId) : Prop where
  tasks : ∃ new, (t.loop l).tasks = (s.loop l).tasks ++ new ∧
    ∀ e ∈ new, e.1 ∈ (t.loop l).ready ∧ P e.2
  ready : ∃ more, (t.loop l).ready = (s.loop l).ready ++ more

namespace QueueGrows

/-- The table stays, and the queue gets longer. -/
theorem of_append {more : List TaskId} (htasks : (t.loop l).tasks = (s.loop l).tasks)
    (hready : (t.loop l).ready = (s.loop l).ready ++ more) : QueueGrows P s t l where
  tasks := ⟨[], by rw [htasks, List.append_nil], fun _ he => absurd he List.not_mem_nil⟩
  ready := ⟨more, hready⟩

theorem of_same (htasks : (t.loop l).tasks = (s.loop l).tasks)
    (hready : (t.loop l).ready = (s.loop l).ready) : QueueGrows P s t l :=
  of_append htasks (hready.trans (List.append_nil _).symm)

theorem of_loop (h : t.loop l = s.loop l) : QueueGrows P s t l := of_same (by rw [h]) (by rw [h])

theorem of_loops (h : t.loops = s.loops) : QueueGrows P s t l :=
  of_loop (by rw [loop, h, loop])

theorem refl (s : Store) (l : LoopId) : QueueGrows P s s l := of_loop rfl

theorem mem_ready (h : QueueGrows P s t l) {n : TaskId} (hn : n ∈ (s.loop l).ready) :
    n ∈ (t.loop l).ready := by
  obtain ⟨more, hmore⟩ := h.ready
  exact hmore ▸ List.mem_append_left _ hn

theorem trans (h : QueueGrows P s t l) (h' : QueueGrows P t u l) : QueueGrows P s u l where
  tasks := by
    obtain ⟨new, hnew, hqueued⟩ := h.tasks
    obtain ⟨new', hnew', hqueued'⟩ := h'.tasks
    refine ⟨new ++ new', by rw [hnew', hnew, List.append_assoc], fun e he => ?_⟩
    rcases List.mem_append.mp he with he | he
    · exact ⟨h'.mem_ready (hqueued e he).1, (hqueued e he).2⟩
    · exact hqueued' e he
  ready := by
    obtain ⟨more, hmore⟩ := h.ready
    obtain ⟨more', hmore'⟩ := h'.ready
    exact ⟨more ++ more', by rw [hmore', hmore, List.append_assoc]⟩

/-- A note in a loop about neither its tasks nor its queue. -/
theorem note (s : Store) (l l' : LoopId) (f : LoopState → LoopState)
    (tasks : ∀ loop, (f loop).tasks = loop.tasks)
    (ready : ∀ loop, (f loop).ready = loop.ready) : QueueGrows P s (s.modifyLoop l f) l' := by
  have hloop := s.loop_modifyLoop l l' f
  split at hloop
  · exact of_same (by rw [hloop, tasks]) (by rw [hloop, ready])
  · exact of_loop hloop

theorem wakes (l : LoopId) (ws : List Waiter) (s : Store) :
    QueueGrows P s (ws.foldl wake s) l := by
  obtain ⟨htasks, more, hmore⟩ := loop_wakes l ws s
  exact of_append htasks hmore

theorem close (s : Store) (p : PendingId) (status : PendingStatus) (l : LoopId) :
    QueueGrows P s (s.close p status) l :=
  (of_loops rfl : QueueGrows P s (s.modifyPending p _) l).trans (wakes l _ _)

theorem openLoop (s : Store) (config : Config) (l : LoopId) :
    QueueGrows P s (s.openLoop config).2 l := by
  rcases Nat.lt_or_ge l s.loops.size with hl | hge
  · refine of_loop ?_
    show (s.loops.push _)[l]?.getD _ = _
    rw [Array.getElem?_push_lt hl, loop, Array.getElem?_eq_getElem hl]
  · -- neither the absent loop nor the new one has tasks
    have hempty : ((s.openLoop config).2.loop l).tasks = [] ∧
        ((s.openLoop config).2.loop l).ready = [] := by
      show ((s.loops.push _)[l]?.getD _).tasks = [] ∧ ((s.loops.push _)[l]?.getD _).ready = []
      rw [Array.getElem?_push]
      split
      · exact ⟨rfl, rfl⟩
      · rw [Array.getElem?_eq_none hge]
        exact ⟨rfl, rfl⟩
    have habsent := loop_of_absent hge
    exact of_same (by rw [hempty.1, habsent]) (by rw [hempty.2, habsent])

theorem openPending (s : Store) (l' : LoopId) (resolver : Option Resolver) (priority : Priority)
    (l : LoopId) : QueueGrows P s (s.openPending l' resolver priority).2 l := by
  rw [Store.openPending]
  split
  · exact .refl s l
  split
  · exact .refl s l
  exact (note s l' l (fun loop => { loop with pendings := loop.pendings ++ [s.pendings.size] })
    (fun _ => rfl) fun _ => rfl).trans (of_loops rfl)

theorem spawn (s : Store) (l : LoopId) (l' : LoopId) (hbody : P body) :
    QueueGrows P s (s.spawn l body).2 l' := by
  rw [Store.spawn]
  split
  · exact .refl s l'
  split
  · exact .refl s l'
  next loop _ _ =>
  have hloop := s.loop_modifyLoop l l' fun loop' => LoopState.schedule
    { loop' with spawned := loop.spawned + 1, tasks := loop'.tasks ++ [(loop.spawned, body)] }
    loop.spawned
  split at hloop
  · obtain ⟨hmem, more, hmore⟩ := LoopState.ready_schedule
      { s.loop l' with
        spawned := loop.spawned + 1
        tasks := (s.loop l').tasks ++ [(loop.spawned, body)] } loop.spawned
    constructor
    · refine ⟨[(loop.spawned, body)], ?_, fun e he => ?_⟩
      · rw [hloop, LoopState.schedule]
        split <;> rfl
      · rw [List.mem_singleton.mp he]
        exact ⟨hloop ▸ hmem, hbody⟩
    · exact ⟨more, (congrArg LoopState.ready hloop).trans hmore⟩
  · exact of_loop hloop

end QueueGrows

/-- **Quiet changes** add only tasks of deferred merges, which are queued. -/
theorem QuietStep.queue (h : s.QuietStep t) (l : LoopId) :
    QueueGrows (fun body => body.code? = none) s t l := by
  cases h with
  | register w p _ => exact .of_loops rfl
  | note l' f tasks _ _ ready => exact .note s l' l f tasks ready
  | change c =>
    cases c with
    | build k =>
      show QueueGrows _ s (s.build k).2 l
      obtain h | ⟨contents, node, h⟩ := s.build_eq k
      all_goals
        rw [h]
        exact .of_loops rfl
    | complete n k =>
      show QueueGrows _ s (s.complete n k).2 l
      rw [complete]
      repeat' split
      all_goals exact .of_loops rfl
    | openLoop config => exact .openLoop s config l
    | openPending l' resolver priority => exact .openPending s l' resolver priority l
    | spawn l' d => exact .spawn s l' l rfl
    | setResult p slot =>
      show QueueGrows _ s (s.setResult p slot).2 l
      rw [setResult]
      repeat' split
      · exact .refl s l
      · exact .refl s l
      · exact .refl s l
      · exact .close s p _ l
    | _ => exact .of_loops rfl

theorem Quiet.queue (h : s.Quiet t) (l : LoopId) :
    QueueGrows (fun body => body.code? = none) s t l := by
  induction h with
  | refl => exact .refl s l
  | tail _ hlast ih => exact ih.trans (hlast.queue l)

theorem QueueGrows.tabled (h : QueueGrows P s t w.loop) (hw : s.Tabled w body) :
    t.Tabled w body := by
  obtain ⟨new, hnew, -⟩ := h.tasks
  rw [Tabled, hnew]
  exact List.mem_append_left _ hw

theorem QueueGrows.tabled_cases (h : QueueGrows P s t w.loop) (hw : t.Tabled w body) :
    s.Tabled w body ∨ t.Queued w ∧ P body := by
  obtain ⟨new, hnew, hqueued⟩ := h.tasks
  rw [Tabled, hnew] at hw
  exact (List.mem_append.mp hw).imp_right (hqueued (w.task, body))

theorem QueueGrows.queued (h : QueueGrows P s t w.loop) (hw : s.Queued w) : t.Queued w :=
  h.mem_ready hw

/-- A task that is in line stays in line where its queue is kept. -/
theorem QueueGrows.inLine (h : QueueGrows P s t w.loop) {ahead : List TaskId}
    (hw : s.InLine w body ahead) : t.InLine w body ahead := by
  obtain ⟨htable, before, rest, hbefore, hsuffix⟩ := hw
  obtain ⟨more, hmore⟩ := h.ready
  refine ⟨h.tabled htable, before, rest ++ more, ?_, hsuffix⟩
  rw [hmore, hbefore, List.append_assoc, List.cons_append]

/-! ### The head of a queue -/

section

variable {n : TaskId} {ready : List TaskId}

/-- Taking out the head of a queue leaves the tables. -/
theorem tabled_behead :
    (s.modifyLoop l fun loop => { loop with ready }).Tabled w body ↔ s.Tabled w body := by
  rw [Tabled, loop_modifyLoop]
  split <;> exact Iff.rfl

theorem ne_of_absent (hw : s.Tabled w body)
    (absent : ((s.modifyLoop l fun loop => { loop with ready }).loop l).tasks.lookup n = none) :
    w ≠ ⟨l, n⟩ := by
  rintro rfl
  exact absurd (List.lookup_eq_none_iff.mp absent _ (tabled_behead.mpr hw)) (by simp)

theorem queued_behead (head : (s.loop l).ready = n :: ready) (hw : s.Queued w) (hne : w ≠ ⟨l, n⟩) :
    (s.modifyLoop l fun loop => { loop with ready }).Queued w := by
  rw [Queued, loop_modifyLoop]
  split
  · next hl =>
    have hmem : w.task ∈ n :: ready := by
      rw [← head, hl.1]
      exact hw
    refine (List.mem_cons.mp hmem).resolve_left fun heq => hne ?_
    rw [hl.1, ← heq]
  · exact hw

/-- A task stays in line when another one leaves the head of a queue. -/
theorem InLine.behead {ahead : List TaskId} (h : s.InLine w body ahead)
    (head : (s.loop l).ready = n :: ready) (hne : w ≠ ⟨l, n⟩) :
    (s.modifyLoop l fun loop => { loop with ready }).InLine w body ahead := by
  obtain ⟨htable, before, rest, hready, hsuffix⟩ := h
  refine ⟨tabled_behead.mpr htable, ?_⟩
  rw [loop_modifyLoop]
  split
  · next hl =>
    obtain ⟨rfl, -⟩ := hl
    -- what leaves the queue is the first of the tasks ahead
    rw [head] at hready
    rcases before with _ | ⟨x, before⟩
    · refine absurd ?_ hne
      rw [(List.cons.inj hready).1]
    · exact ⟨before, rest, (List.cons.inj hready).2, (List.suffix_cons x before).trans hsuffix⟩
  · exact ⟨before, rest, hready, hsuffix⟩

end

/-! ### Waiting tasks -/

theorem queued_of_wakes {ws : List Waiter} (hw : w ∈ ws) :
    ∀ s : Store, w.loop < s.loops.size → (ws.foldl wake s).Queued w := by
  induction ws with
  | nil => exact absurd hw List.not_mem_nil
  | cons v ws ih =>
    intro s hl
    rcases List.mem_cons.mp hw with rfl | hw
    · obtain ⟨-, more, hmore⟩ := loop_wakes w.loop ws (s.wake w)
      have hloop := s.loop_modifyLoop w.loop w.loop fun loop => loop.schedule w.task
      rw [if_pos ⟨rfl, hl⟩] at hloop
      rw [Queued, List.foldl_cons, hmore, wake, hloop]
      exact List.mem_append_left _ ((s.loop w.loop).ready_schedule w.task).1
    · exact ih hw (s.wake v) (Nat.lt_of_lt_of_eq hl Array.size_modify.symm)

/-- Closing a pending queues all tasks that it is to wake. -/
theorem queued_close {status : PendingStatus} (hw : w ∈ s.waiters p) (hl : w.loop < s.loops.size) :
    (s.close p status).Queued w :=
  queued_of_wakes hw _ hl

/-- The pending is still to wake the task, and open if it was, or the task is queued. -/
def Minds (s t : Store) (w : Waiter) (p : PendingId) : Prop :=
  (w ∈ t.waiters p ∧ (s.isOpen p = true → t.isOpen p = true)) ∨ t.Queued w

theorem Minds.of_pending (h : t.pendings[p]? = s.pendings[p]?) (hw : w ∈ s.waiters p) :
    s.Minds t w p :=
  .inl ⟨waiters_of_pending h ▸ hw, fun hp => isOpen_of_pending h ▸ hp⟩

theorem minds_close {status : PendingStatus} (q : PendingId) (hw : w ∈ s.waiters p)
    (hl : w.loop < s.loops.size) : s.Minds (s.close q status) w p := by
  by_cases hqp : q = p
  · subst hqp
    exact .inr (queued_close hw hl)
  · exact .of_pending (pending_close_of_ne hqp) hw

theorem mem_waiters_register (v : Waiter) (q : PendingId) (hw : w ∈ s.waiters p) :
    w ∈ (s.register v q).waiters p := by
  by_cases hqp : q = p
  · subst hqp
    rw [waiters] at hw ⊢
    rw [pending_register_self]
    cases hcell : s.pendings[q]? with
    | none => rwa [hcell] at hw
    | some c =>
      rw [hcell] at hw
      show w ∈ (if v ∈ c.waiters then c else { c with waiters := c.waiters ++ [v] }).waiters
      split
      · exact hw
      · exact List.mem_append_left _ hw
  · rwa [register, waiters_of_pending (pending_of_ne hqp)]

/-- A task that is registered with a pending is to be woken by it. -/
theorem mem_waiters_register_self (hp : p < s.pendings.size) : w ∈ (s.register w p).waiters p := by
  rw [waiters, pending_register_self, Array.getElem?_eq_getElem hp]
  show w ∈ (if w ∈ s.pendings[p].waiters then s.pendings[p] else _).waiters
  split
  · assumption
  · exact List.mem_append_right _ List.mem_cons_self

/-- **Quiet changes** forget a waiting task only by queueing it. -/
theorem QuietStep.minds (h : s.QuietStep t) (hw : w ∈ s.waiters p)
    (hl : w.loop < s.loops.size) : s.Minds t w p := by
  have hsame : t.pendings = s.pendings → s.Minds t w p := fun h => .of_pending (h ▸ rfl) hw
  cases h with
  | register v q _ =>
    exact .inl ⟨mem_waiters_register v q hw, fun hp => (isOpen_register v q).trans hp⟩
  | note l f _ _ _ _ => exact hsame rfl
  | change c =>
    cases change_cell (s := s) (p := p) c with
    | same cell => exact .of_pending cell hw
    | opened fresh _ _ _ _ => exact absurd (lt_of_waiters hw) (Nat.not_lt.mpr fresh)
    | resolved slot _ _ closes =>
      rw [closes]
      exact minds_close p hw hl

/-! ### Heeded tasks -/

/-- A queued task stays queued, and pendings forget the task only by queueing it. -/
structure Tends (s t : Store) (w : Waiter) : Prop where
  queued : s.Queued w → t.Queued w
  minds : ∀ p, w ∈ s.waiters p → s.Minds t w p

namespace Tends

theorem refl (s : Store) (w : Waiter) : s.Tends s w := ⟨id, fun _ hw => .inl ⟨hw, id⟩⟩

theorem trans (h : s.Tends t w) (h' : t.Tends u w) : s.Tends u w where
  queued hqueued := h'.queued (h.queued hqueued)
  minds p hw := by
    rcases h.minds p hw with ⟨hw', hopen⟩ | hqueued
    · exact (h'.minds p hw').imp_left fun ⟨hw'', hopen'⟩ => ⟨hw'', hopen' ∘ hopen⟩
    · exact .inr (h'.queued hqueued)

/-- Changes of loops alone. -/
theorem of_pendings (hpendings : t.pendings = s.pendings) (hqueued : s.Queued w → t.Queued w) :
    s.Tends t w :=
  ⟨hqueued, fun _ hw => .of_pending (by rw [hpendings]) hw⟩

theorem spawn (s : Store) (l : LoopId) (body : TaskBody) (w : Waiter) :
    s.Tends (s.spawn l body).2 w :=
  .of_pendings (pendings_spawn s l body)
    (QueueGrows.spawn (P := fun _ => True) s l w.loop trivial).queued

theorem close (s : Store) (p : PendingId) (status : PendingStatus) (hl : w.loop < s.loops.size) :
    s.Tends (s.close p status) w where
  queued := (QueueGrows.close (P := fun _ => True) s p status w.loop).queued
  minds _ hw := minds_close p hw hl

/-- A pending whose resolver starts is open, and is to wake the same tasks. -/
theorem beginResolving {r : Resolver} (hbegin : s.beginResolving p = (some r, t)) :
    s.Tends t w := by
  obtain ⟨-, rfl⟩ := beginResolving_eq hbegin
  refine ⟨id, fun q hw => ?_⟩
  by_cases hpq : p = q
  · subst hpq
    have hp := lt_of_waiters hw
    refine .inl ⟨?_, fun _ => ?_⟩
    · rw [waiters, pending_modify_self, Array.getElem?_eq_getElem hp]
      rwa [waiters, Array.getElem?_eq_getElem hp] at hw
    · rw [isOpen_iff, pendingStatus, pending_modify_self, Array.getElem?_eq_getElem hp]
      exact .inr rfl
  · exact .of_pending (pending_of_ne hpq) hw

/-- Another task leaves the head of a queue. -/
theorem behead {n : TaskId} {ready : List TaskId} (head : (s.loop l).ready = n :: ready)
    (hne : w ≠ ⟨l, n⟩) : s.Tends (s.modifyLoop l fun loop => { loop with ready }) w :=
  .of_pendings rfl fun hqueued => queued_behead head hqueued hne

end Tends

/-- **Quiet changes** keep queued tasks queued, and forget no other. -/
theorem Quiet.tends (h : s.Quiet t) (hl : w.loop < s.loops.size) : s.Tends t w := by
  induction h with
  | refl => exact .refl s w
  | tail hst hstep ih =>
    have hl' := ((Quiet.table hst w.loop).config hl).1
    exact ih.trans ⟨(hstep.queue w.loop).queued, fun p hw => hstep.minds hw hl'⟩

/-- The task is queued, or every pending that it waits for is open and is to wake it. -/
def Heeded (s : Store) (w : Waiter) (ps : List PendingId) : Prop :=
  s.Queued w ∨ ps ≠ [] ∧ ∀ p ∈ ps, s.isOpen p = true ∧ w ∈ s.waiters p

/-- The task is heeded where it is in its table, with what it waits for by its body. -/
def Heeds (s : Store) (f : TaskBody → List PendingId) (w : Waiter) : Prop :=
  ∀ body, s.Tabled w body → s.Heeded w (f body)

/-- **A task stays heeded** where it stays queued and no pending forgets it otherwise. -/
theorem Heeded.later (h : s.Heeded w ps) (hst : s.Tends t w) : t.Heeded w ps := by
  rcases h with hready | ⟨hne, hwaits⟩
  · exact .inl (hst.queued hready)
  by_cases hready : t.Queued w
  · exact .inl hready
  · refine .inr ⟨hne, fun p hp => ?_⟩
    obtain ⟨hopen, hw⟩ := hwaits p hp
    obtain ⟨hw', hopen'⟩ := (hst.minds p hw).resolve_right hready
    exact ⟨hopen' hopen, hw'⟩

/-- A task that is new in a table is queued. -/
theorem Heeds.later (h : s.Heeds f w) (hgrows : QueueGrows P s t w.loop)
    (hst : w.loop < s.loops.size → s.Tends t w) : t.Heeds f w := by
  intro body hw
  rcases hgrows.tabled_cases hw with hold | ⟨hnew, -⟩
  · exact (h body hold).later (hst hold.loop_lt)
  · exact .inl hnew

/-- A task that is queued whatever it waits for, or waits for the same in another reading. -/
theorem Heeds.congr (h : s.Heeds f w) (hfg : ∀ body, g body = f body ∨ f body = []) :
    s.Heeds g w := by
  intro body hw
  rcases hfg body with heq | hnil
  · rw [heq]
    exact h body hw
  · -- a task that waits for nothing is heeded only if it is queued
    rcases h body hw with hready | ⟨hne, -⟩
    · exact .inl hready
    · exact absurd hnil hne

end Store

end ValueInference
