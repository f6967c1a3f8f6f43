/-
The tables of tasks along a run.

Code adds tasks to a table and never takes any out; only a loop does, when it polls a task, and the
task goes back if it waits.  Every task of a table has a number that was handed out, so a new task
is not mistaken for one that has completed.

* **`Store.TableGrows`** — a table gets new tasks only, with new numbers;
* **`Store.QuietStep.table`** — quiet changes do no more to a table;
* **`Machine.Numbered`** — tasks and resolvers, waiting or under way, have numbers that exist;
* **`Machine.Reachable.numbered`** — along every run.
-/
import ValueInference.Proofs.Covers
import ValueInference.Proofs.Lasting

namespace ValueInference

namespace Store

variable {s t u : Store} {l l' : LoopId}

/-! ### Loops -/

theorem loop_modifyLoop (s : Store) (l l' : LoopId) (f : LoopState → LoopState) :
    (s.modifyLoop l f).loop l' = if l = l' ∧ l < s.loops.size then f (s.loop l') else s.loop l' := by
  rw [loop, modifyLoop, loop]
  show (s.loops.modify l f)[l']?.getD _ = _
  rw [Array.getElem?_modify]
  by_cases h : l = l'
  · subst h
    by_cases hl : l < s.loops.size
    · simp [hl]
    · simp [hl]
  · simp [h]

theorem loop_of_absent (h : s.loops.size ≤ l) : s.loop l = { config := {} } := by
  rw [loop, Array.getElem?_eq_none h]
  rfl

/-- In a table there are only tasks that were there, and new ones with new numbers. -/
structure TableGrows (s t : Store) (l : LoopId) : Prop where
  spawned : (s.loop l).spawned ≤ (t.loop l).spawned
  tasks : ∀ e ∈ (t.loop l).tasks,
    e ∈ (s.loop l).tasks ∨ (s.loop l).spawned ≤ e.1 ∧ e.1 < (t.loop l).spawned
  config : l < s.loops.size → l < t.loops.size ∧ (t.loop l).config = (s.loop l).config

namespace TableGrows

theorem of_loops (h : t.loops = s.loops) : s.TableGrows t l := by
  have hloop : t.loop l = s.loop l := by rw [loop, h, loop]
  refine ⟨Nat.le_of_eq (by rw [hloop]), fun e he => .inl (by rwa [hloop] at he), fun hl => ?_⟩
  exact ⟨by rwa [h], by rw [hloop]⟩

theorem refl (s : Store) (l : LoopId) : s.TableGrows s l := of_loops rfl

theorem trans (h : s.TableGrows t l) (h' : t.TableGrows u l) : s.TableGrows u l where
  spawned := Nat.le_trans h.spawned h'.spawned
  tasks e he := by
    rcases h'.tasks e he with he | ⟨hge, hlt⟩
    · exact (h.tasks e he).imp id fun ⟨hge, hlt⟩ => ⟨hge, Nat.lt_of_lt_of_le hlt h'.spawned⟩
    · exact .inr ⟨Nat.le_trans h.spawned hge, hlt⟩
  config hl := by
    obtain ⟨ht, hconfig⟩ := h.config hl
    obtain ⟨hu, hconfig'⟩ := h'.config ht
    exact ⟨hu, hconfig'.trans hconfig⟩

/-- A note in a loop about anything but its tasks. -/
theorem note (s : Store) (l l' : LoopId) (f : LoopState → LoopState)
    (tasks : ∀ loop, (f loop).tasks = loop.tasks)
    (spawned : ∀ loop, (f loop).spawned = loop.spawned)
    (config : ∀ loop, (f loop).config = loop.config) : s.TableGrows (s.modifyLoop l f) l' := by
  have hsize : (s.modifyLoop l f).loops.size = s.loops.size := Array.size_modify
  have hloop := s.loop_modifyLoop l l' f
  constructor
  · rw [hloop]
    split
    · exact Nat.le_of_eq (spawned _).symm
    · exact Nat.le_refl _
  · intro e he
    rw [hloop] at he
    split at he
    · exact .inl (tasks _ ▸ he)
    · exact .inl he
  · intro hl
    rw [hloop, hsize]
    refine ⟨hl, ?_⟩
    split
    · exact config _
    · rfl

theorem schedule (s : Store) (l l' : LoopId) (t : TaskId) :
    s.TableGrows (s.modifyLoop l fun loop => loop.schedule t) l' := by
  refine note s l l' _ ?_ ?_ ?_
  all_goals
    intro loop
    rw [LoopState.schedule]
    split <;> rfl

theorem wakes (l : LoopId) (ws : List Waiter) : ∀ s : Store, s.TableGrows (ws.foldl wake s) l := by
  induction ws with
  | nil => exact fun s => .refl s l
  | cons w ws ih => exact fun s => (schedule s w.loop l w.task).trans (ih _)

theorem close (s : Store) (p : PendingId) (status : PendingStatus) (l : LoopId) :
    s.TableGrows (s.close p status) l :=
  (of_loops rfl : s.TableGrows (s.modifyPending p _) l).trans (wakes l _ _)

theorem openLoop (s : Store) (config : Config) (l : LoopId) :
    s.TableGrows (s.openLoop config).2 l := by
  show s.TableGrows { s with loops := s.loops.push { config } } l
  rcases Nat.lt_or_ge l s.loops.size with hl | hge
  · have hloop : Store.loop { s with loops := s.loops.push { config } } l = s.loop l := by
      show (s.loops.push _)[l]?.getD _ = _
      rw [Array.getElem?_push_lt hl, loop, Array.getElem?_eq_getElem hl]
    refine ⟨Nat.le_of_eq (by rw [hloop]), fun e he => .inl (by rwa [hloop] at he), fun _ => ?_⟩
    exact ⟨by rw [Array.size_push]; exact Nat.lt_succ_of_lt hl, by rw [hloop]⟩
  · -- a new loop has no tasks
    have hnone : (s.loop l).spawned = 0 := by rw [loop_of_absent hge]
    have hempty : (Store.loop { s with loops := s.loops.push { config } } l).tasks = [] := by
      show ((s.loops.push _)[l]?.getD _).tasks = []
      rw [Array.getElem?_push]
      split
      · rfl
      · rw [Array.getElem?_eq_none hge]
        rfl
    refine ⟨by rw [hnone]; exact Nat.zero_le _, fun e he => ?_, fun hl => absurd hl (Nat.not_lt.mpr hge)⟩
    rw [hempty] at he
    exact absurd he List.not_mem_nil

theorem spawn (s : Store) (l : LoopId) (body : TaskBody) (l' : LoopId) :
    s.TableGrows (s.spawn l body).2 l' := by
  rw [Store.spawn]
  split
  · exact .refl s l'
  next loop hloop =>
  split
  · exact .refl s l'
  have hl : l < s.loops.size := (Array.getElem?_eq_some_iff.mp hloop).1
  have hcurrent : s.loop l = loop := by rw [Store.loop, hloop]; rfl
  have hsize : ∀ f, (s.modifyLoop l f).loops.size = s.loops.size := fun f => Array.size_modify
  by_cases h : l = l'
  · subst h
    constructor
    all_goals
      rw [loop_modifyLoop, if_pos ⟨rfl, hl⟩, LoopState.schedule]
    · split <;> (rw [hcurrent]; exact Nat.le_succ _)
    · intro e he
      have hmem : e ∈ loop.tasks ++ [(loop.spawned, body)] := by
        rw [hcurrent] at he
        split at he <;> exact he
      rcases List.mem_append.mp hmem with he | he
      · exact .inl (hcurrent ▸ he)
      · rw [List.mem_singleton.mp he, hcurrent]
        refine .inr ⟨Nat.le_refl _, ?_⟩
        split <;> exact Nat.lt_succ_self _
    · intro _
      refine ⟨hsize _ ▸ hl, ?_⟩
      split <;> rfl
  · have hsame : ∀ f, (s.modifyLoop l f).loop l' = s.loop l' := fun f => by
      rw [loop_modifyLoop, if_neg fun hand => h hand.1]
    refine ⟨Nat.le_of_eq (by rw [hsame]), fun e he => .inl (by rwa [hsame] at he), fun hl' => ?_⟩
    exact ⟨hsize _ ▸ hl', by rw [hsame]⟩

end TableGrows

/-- **Quiet changes** only add tasks to a table. -/
theorem QuietStep.table (h : s.QuietStep t) (l : LoopId) : s.TableGrows t l := by
  cases h with
  | register w p _ => exact .of_loops rfl
  | note l' f tasks spawned config _ => exact .note s l' l f tasks spawned config
  | change c =>
    cases c with
    | build k =>
      show s.TableGrows (s.build k).2 l
      obtain h | ⟨contents, node, h⟩ := s.build_eq k
      all_goals
        rw [h]
        exact .of_loops rfl
    | complete n k =>
      show s.TableGrows (s.complete n k).2 l
      rw [complete]
      repeat' split
      all_goals exact .of_loops rfl
    | openLoop config => exact .openLoop s config l
    | openPending l' resolver priority =>
      show s.TableGrows (s.openPending l' resolver priority).2 l
      rw [openPending]
      repeat' split
      · exact .refl s l
      · exact .refl s l
      · exact (TableGrows.note s l' l (fun loop => { loop with
          pendings := loop.pendings ++ [s.pendings.size] }) (fun _ => rfl) (fun _ => rfl)
          fun _ => rfl).trans (.of_loops rfl)
    | spawn l' d => exact .spawn s l' (.merge d) l
    | setResult p slot =>
      show s.TableGrows (s.setResult p slot).2 l
      rw [setResult]
      repeat' split
      · exact .refl s l
      · exact .refl s l
      · exact .refl s l
      · exact .close s p _ l
    | _ => exact .of_loops rfl

theorem Quiet.table (h : s.Quiet t) (l : LoopId) : s.TableGrows t l := by
  induction h with
  | refl => exact .refl s l
  | tail _ hlast ih => exact ih.trans (hlast.table l)

/-- What a loop and the pendings are after a pending was registered. -/
theorem openPending_ok {r : Option Resolver} {priority : Priority} {p : PendingId}
    (h : s.openPending l r priority = (.ok p, t)) :
    p = s.pendings.size ∧ (∃ cell : Pending, t.pendings = s.pendings.push cell ∧
        cell.resolver = r ∧ cell.status = .unresolved) ∧
      l < t.loops.size ∧ ∃ pendings, t.loop l = { s.loop l with pendings } := by
  rw [openPending] at h
  split at h
  · cases h
  next loop hloop =>
  split at h
  · cases h
  have hl : l < s.loops.size := (Array.getElem?_eq_some_iff.mp hloop).1
  cases h
  refine ⟨rfl, ⟨_, rfl, rfl, rfl⟩, Nat.lt_of_lt_of_eq hl Array.size_modify.symm,
    (s.loop l).pendings ++ [s.pendings.size], ?_⟩
  exact (s.loop_modifyLoop l l _).trans (if_pos ⟨rfl, hl⟩)

/-- What a loop is after a task was added to it. -/
theorem spawn_ok {body : TaskBody} {n : TaskId} (h : s.spawn l body = (.ok n, t)) :
    n = (s.loop l).spawned ∧ t.pendings = s.pendings ∧ l < t.loops.size ∧ ∃ ready,
      t.loop l = { s.loop l with
        spawned := n + 1
        tasks := (s.loop l).tasks ++ [(n, body)]
        ready } := by
  rw [Store.spawn] at h
  split at h
  · cases h
  next loop hloop =>
  split at h
  · cases h
  have hl : l < s.loops.size := (Array.getElem?_eq_some_iff.mp hloop).1
  have hcurrent : s.loop l = loop := by rw [Store.loop, hloop]; rfl
  cases h
  refine ⟨by rw [hcurrent], rfl, Nat.lt_of_lt_of_eq hl Array.size_modify.symm, ?_⟩
  rw [loop_modifyLoop, if_pos ⟨rfl, hl⟩, LoopState.schedule]
  split <;> exact ⟨_, rfl⟩

/-! ### Tasks out of their tables and back -/

theorem mem_dropTask {e : TaskId × TaskBody} (s : Store) (l l' : LoopId) (t : TaskId)
    (h : e ∈ ((s.dropTask l t).loop l').tasks) :
    e ∈ (s.loop l').tasks ∧ ¬ (l = l' ∧ e.1 = t) := by
  rw [dropTask, loop_modifyLoop] at h
  split at h
  · obtain ⟨hmem, hne⟩ := List.mem_filter.mp h
    exact ⟨hmem, fun ⟨_, he⟩ => by simp [he] at hne⟩
  · next hl =>
    refine ⟨h, fun ⟨heq, _⟩ => ?_⟩
    subst heq
    rw [loop_of_absent (Nat.not_lt.mp fun hlt => hl ⟨rfl, hlt⟩)] at h
    exact nomatch h

theorem TableGrows.dropTask (s : Store) (l l' : LoopId) (t : TaskId) :
    s.TableGrows (s.dropTask l t) l' := by
  have hloop : (s.dropTask l t).loop l' = _ := s.loop_modifyLoop l l' _
  constructor
  · rw [hloop]
    split <;> exact Nat.le_refl _
  · exact fun e he => .inl (mem_dropTask s l l' t he).1
  · intro hl
    refine ⟨Nat.lt_of_lt_of_eq hl Array.size_modify.symm, ?_⟩
    rw [hloop]
    split <;> rfl

theorem mem_putTask {e : TaskId × TaskBody} (s : Store) (l l' : LoopId) (t : TaskId)
    (body : TaskBody) (h : e ∈ ((s.putTask l t body).loop l').tasks) :
    e ∈ (s.loop l').tasks ∨ l = l' ∧ e = (t, body) := by
  rw [putTask, loop_modifyLoop] at h
  split at h
  · next hl => exact (List.mem_append.mp h).imp id fun he => ⟨hl.1, List.mem_singleton.mp he⟩
  · exact .inl h

/-- A task that is put back changes nothing else in its loop. -/
theorem loop_putTask (s : Store) (l l' : LoopId) (t : TaskId) (body : TaskBody) :
    ((s.putTask l t body).loop l').spawned = (s.loop l').spawned ∧
      ((s.putTask l t body).loop l').config = (s.loop l').config := by
  rw [putTask, loop_modifyLoop]
  split <;> exact ⟨rfl, rfl⟩

/-! ### Numbers that were handed out -/

/-- Every task of a table has a number that was handed out. -/
def Numbered (s : Store) : Prop := ∀ l, ∀ e ∈ (s.loop l).tasks, e.1 < (s.loop l).spawned

theorem Numbered.grows (h : s.Numbered) (hgrows : ∀ l, s.TableGrows t l) : t.Numbered := by
  intro l e he
  rcases (hgrows l).tasks e he with hold | ⟨-, hnew⟩
  · exact Nat.lt_of_lt_of_le (h l e hold) (hgrows l).spawned
  · exact hnew

theorem Numbered.putTask (h : s.Numbered) {task : TaskId} (body : TaskBody)
    (htask : task < (s.loop l).spawned) : (s.putTask l task body).Numbered := by
  intro l' e he
  rw [(loop_putTask s l l' task body).1]
  rcases mem_putTask s l l' task body he with hold | ⟨rfl, rfl⟩
  · exact h l' e hold
  · exact htask

end Store

/-! ### Machines -/

namespace Machine

variable {σ : Type} {m m' : Machine σ}

/-- A task or a resolver under way has a number that was handed out. -/
def FrameNumbered (s : Store) : Frame σ → Prop
  | .task l t _ => t < (s.loop l).spawned
  | .resolving p => p < s.pendings.size
  | _ => True

/-- Tasks and resolvers, waiting or under way, have numbers that were handed out. -/
structure Numbered (m : Machine σ) : Prop where
  tasks : m.store.Numbered
  frames : ∀ f ∈ m.stack, FrameNumbered m.store f

theorem frameNumbered_of_plain {s : Store} {f : Frame σ} (h : f.Plain) : FrameNumbered s f := by
  cases f with
  | task l t body => exact h.elim
  | resolving p => exact h.elim
  | _ => trivial

theorem FrameNumbered.grows {s t : Store} {f : Frame σ} (h : FrameNumbered s f)
    (hspawned : ∀ l, (s.loop l).spawned ≤ (t.loop l).spawned)
    (hpendings : s.pendings.size ≤ t.pendings.size) : FrameNumbered t f := by
  cases f with
  | task l task body => exact Nat.lt_of_lt_of_le h (hspawned l)
  | resolving p => exact Nat.lt_of_lt_of_le h hpendings
  | _ => trivial

/-- The numbers stay good where tables only grow, and new frames have good numbers. -/
theorem Numbered.grows (hm : m.Numbered) (htable : ∀ l, m.store.TableGrows m'.store l)
    (hpendings : m.store.pendings.size ≤ m'.store.pendings.size)
    (hstack : ∀ f ∈ m'.stack, FrameNumbered m'.store f ∨ f ∈ m.stack) : m'.Numbered where
  tasks := hm.tasks.grows htable
  frames f hf := by
    rcases hstack f hf with hnew | hold
    · exact hnew
    · exact (hm.frames f hold).grows (fun l => (htable l).spawned) hpendings

theorem Calm.numbered (h : m.Calm m') (hm : m.Numbered) : m'.Numbered := by
  refine hm.grows h.store.table h.store.size_le fun f hf => ?_
  exact (h.stack f hf).imp_left frameNumbered_of_plain

theorem Numbered.put (hm : m.Numbered) {l : LoopId} {t : TaskId} {body : TaskBody}
    (ht : t < (m.store.loop l).spawned) (hstore : m'.store = m.store.putTask l t body)
    (hstack : ∀ f ∈ m'.stack, f ∈ m.stack) : m'.Numbered where
  tasks := hstore ▸ hm.tasks.putTask body ht
  frames f hf := by
    rw [hstore]
    refine (hm.frames f (hstack f hf)).grows (fun l' => ?_) (Nat.le_refl _)
    exact Nat.le_of_eq (Store.loop_putTask m.store l l' t body).1.symm

/-- A task of new code is added to a table. -/
theorem Numbered.spawned (hm : m.Numbered) (l : LoopId) (body : TaskBody) (task : Program σ) :
    Numbered { m with codes := m.codes.push task, store := (m.store.spawn l body).2 } := by
  refine hm.grows (fun l' => .spawn m.store l body l') ?_ fun f hf => .inr hf
  exact Nat.le_of_eq (congrArg Array.size (Store.pendings_spawn m.store l body).symm)

/-- A task is taken from its table to be polled. -/
theorem Numbered.dropped (hm : m.Numbered) {l : LoopId} {t : TaskId} {ready : List TaskId}
    {s : Store} (hs : s = m.store.modifyLoop l fun loop => { loop with ready }) :
    Numbered { m with store := s.dropTask l t } := by
  subst hs
  refine hm.grows (fun l' => (Store.TableGrows.note m.store l l' _ ?_ ?_ ?_).trans
    (.dropTask _ l l' t)) (Nat.le_refl _) fun f hf => .inr hf
  all_goals exact fun _ => rfl

/-- **Every step** hands out the numbers of the tasks and the resolvers that it starts. -/
theorem Move.numbered (h : m.Move m') (hm : m.Numbered) : m'.Numbered := by
  cases h with
  | calm h => exact h.numbered hm
  | spawned _ h => exact h.numbered (hm.spawned _ _ _)
  | @resolving m₁ _ p res h hbegin hstack _ _ =>
    obtain ⟨hres, hstore⟩ := Store.beginResolving_eq hbegin
    refine (h.numbered hm).grows (fun l => hstore ▸ .of_loops rfl) ?_ fun f hf => ?_
    · rw [hstore]
      exact Nat.le_of_eq Array.size_modify.symm
    rw [hstack] at hf
    rcases List.mem_cons.mp hf with rfl | hf
    · -- only a pending that exists has a resolver
      refine .inl ?_
      show p < m'.store.pendings.size
      rw [hstore]
      refine Nat.lt_of_lt_of_eq ?_ Array.size_modify.symm
      by_contra hge
      rw [Store.resolver?, Array.getElem?_eq_none (Nat.not_lt.mp hge)] at hres
      cases hres
    · exact .inr hf
  | @resolved p r rest hstack _ =>
    have hrest : ∀ f ∈ rest, f ∈ m.stack := fun f hf => hstack ▸ List.mem_cons_of_mem _ hf
    have hframes : ∀ f ∈ ({ m with stack := rest }.resolved p r).stack, f ∈ m.stack := by
      rw [resolved_stack]
      exact hrest
    obtain h | ⟨e, -, h⟩ := resolved_store { m with stack := rest } p r
    · exact hm.grows h.table h.size_le fun f hf => .inr (hframes f hf)
    · refine hm.grows (fun l => h ▸ .close m.store p _ l) ?_ fun f hf => .inr (hframes f hf)
      rw [h]
      exact Nat.le_of_eq (Store.size_close _).symm
  | @skipped l _ _ ready _ _ _ =>
    refine hm.grows (fun l' => .note m.store l l' (fun loop => { loop with ready }) ?_ ?_ ?_)
      (Nat.le_refl _) fun f hf => .inr hf
    all_goals exact fun _ => rfl
  | @polled l _ t ready body s _ _ hqueue hlookup =>
    have hs : Machine.Numbered { m with store := s } := by
      subst hqueue
      refine hm.grows (fun l' => .note m.store l l' (fun loop => { loop with ready }) ?_ ?_ ?_)
        (Nat.le_refl _) fun f hf => .inr hf
      all_goals exact fun _ => rfl
    have hdrop : Machine.Numbered { m with store := s.dropTask l t } :=
      hs.grows (fun l' => .dropTask s l l' t) (Nat.le_refl _) fun f hf => .inr hf
    have ht : t < ((s.dropTask l t).loop l).spawned := by
      have hbefore : t < (s.loop l).spawned := hs.tasks l (t, body) (mem_of_lookup hlookup)
      exact Nat.lt_of_lt_of_le hbefore (Store.TableGrows.dropTask s l l t).spawned
    rcases pollTask_cases { m with store := s.dropTask l t } l t body with
      ⟨s', body', hquiet, hstore, hstack⟩ | ⟨hquiet, hstack⟩
    · have hwaits : Machine.Numbered { m with store := s' } :=
        hdrop.grows hquiet.table hquiet.size_le fun f hf => .inr hf
      refine hwaits.put (Nat.lt_of_lt_of_le ht (hquiet.table l).spawned) hstore fun f hf => ?_
      exact hstack ▸ hf
    · refine hdrop.grows hquiet.table hquiet.size_le fun f hf => ?_
      rw [hstack] at hf
      rcases List.mem_cons.mp hf with rfl | hf
      · exact .inl (Nat.lt_of_lt_of_le ht (hquiet.table l).spawned)
      · exact .inr hf
  | @turned m₁ _ _ _ _ _ _ h hstack hstore hstack' _ _ =>
    refine (h.calm.numbered hm).grows (fun l => hstore ▸ .refl m₁.store l)
      (Nat.le_of_eq (by rw [hstore])) fun f hf => ?_
    rw [hstack'] at hf
    rcases List.mem_cons.mp hf with rfl | hf
    · exact .inl trivial
    · exact .inr (hstack ▸ List.mem_cons_of_mem _ hf)
  | @suspended m₁ _ _ l t body rest h hstack hstore hstack' _ _ =>
    have hm₁ := h.calm.numbered hm
    have ht : t < (m₁.store.loop l).spawned :=
      hm₁.frames (.task l t body) (hstack ▸ List.mem_cons_self)
    exact hm₁.put ht hstore fun f hf => hstack ▸ List.mem_cons_of_mem _ (hstack' ▸ hf)

/-- **Along every run** the numbers of tasks and resolvers were handed out. -/
theorem Reachable.numbered (h : m.Reachable) : m.Numbered := by
  induction h with
  | start client code =>
    constructor
    · exact fun l e he => absurd he List.not_mem_nil
    · exact fun f hf => absurd hf List.not_mem_nil
  | step _ hstep ih => exact (moves hstep).numbered ih

end Machine

end ValueInference
