/-
The errors of tasks, and how loops come to tell them.

A task that fails leaves its error with its loop, behind those that are there, unless a caller
watches the task: then the loop keeps the outcome for that caller.  A loop that is driven tells its
first error when no task is ready, and takes it away.  Nothing else touches the errors: neither a
resolver that fails, nor a deadlock, nor a loop that is driven within another.

* **`Machine.failed?`**, **`Machine.failures`** — the errors with which tasks fail, in order;
* **`Machine.told?`**, **`Machine.reports`** — the errors that a loop tells, in order;
* **`Machine.Reporting`**, **`Machine.step_reporting`** — what one step does with errors and
  outcomes;
* **`Machine.reports_append_errors`** — what a run adds to the errors of a loop, and what it takes
  away.
-/
import ValueInference.Proofs.Callers
import ValueInference.Proofs.Upkeep

namespace ValueInference

namespace Store

variable {s t u : Store} {p : PendingId}

/-! ### Changes that leave errors and outcomes alone -/

/-- The errors and the outcomes that every loop keeps stay. -/
def KeepsReports (s t : Store) : Prop :=
  ∀ l, (t.loop l).errors = (s.loop l).errors ∧ (t.loop l).outcomes = (s.loop l).outcomes

namespace KeepsReports

theorem refl (s : Store) : s.KeepsReports s := fun _ => ⟨rfl, rfl⟩

theorem trans (h : s.KeepsReports t) (h' : t.KeepsReports u) : s.KeepsReports u :=
  fun l => ⟨(h' l).1.trans (h l).1, (h' l).2.trans (h l).2⟩

theorem of_loops (h : t.loops = s.loops) : s.KeepsReports t :=
  fun l => by rw [loop, h, ← loop]; exact ⟨rfl, rfl⟩

theorem modifyLoop (s : Store) (l : LoopId) {f : LoopState → LoopState}
    (hf : ∀ loop, (f loop).errors = loop.errors ∧ (f loop).outcomes = loop.outcomes) :
    s.KeepsReports (s.modifyLoop l f) := by
  intro l'
  rw [loop_modifyLoop]
  split
  · exact hf _
  · exact ⟨rfl, rfl⟩

theorem wakes (ws : List Waiter) : ∀ s : Store, s.KeepsReports (ws.foldl wake s) := by
  induction ws with
  | nil => exact .refl
  | cons w ws ih =>
    intro s
    refine (modifyLoop s w.loop fun loop => ?_).trans (ih _)
    rw [LoopState.schedule]
    split <;> exact ⟨rfl, rfl⟩

theorem close (s : Store) (p : PendingId) (status : PendingStatus) :
    s.KeepsReports (s.close p status) :=
  .trans (of_loops rfl) (wakes _ _)

theorem setResult (s : Store) (p : PendingId) (slot : Slot) :
    s.KeepsReports (s.setResult p slot).2 := by
  rw [Store.setResult]
  repeat' split
  · exact .refl s
  · exact .refl s
  · exact .refl s
  · exact close s p _

theorem spawn (s : Store) (l : LoopId) (body : TaskBody) : s.KeepsReports (s.spawn l body).2 := by
  rw [Store.spawn]
  split
  · exact .refl s
  split
  · exact .refl s
  refine modifyLoop s l fun loop => ?_
  rw [LoopState.schedule]
  split <;> exact ⟨rfl, rfl⟩

/-- A new loop keeps nothing. -/
theorem openLoop (s : Store) (config : Config) : s.KeepsReports (s.openLoop config).2 := by
  intro l
  rw [Store.openLoop]
  rcases Nat.lt_trichotomy l s.loops.size with hlt | rfl | hgt
  · rw [loop, Array.getElem?_push_lt hlt, loop, Array.getElem?_eq_getElem hlt]
    exact ⟨rfl, rfl⟩
  · rw [loop, Array.getElem?_push_size, loop_of_absent (Nat.le_refl _)]
    exact ⟨rfl, rfl⟩
  · rw [loop, Array.getElem?_eq_none (by rw [Array.size_push]; exact hgt),
      loop_of_absent (Nat.le_of_lt hgt)]
    exact ⟨rfl, rfl⟩

theorem openPending (s : Store) (l : LoopId) (resolver : Option Resolver) (priority : Priority) :
    s.KeepsReports (s.openPending l resolver priority).2 := by
  rw [Store.openPending]
  split
  · exact .refl s
  split
  · exact .refl s
  have hlist : s.KeepsReports
      (s.modifyLoop l fun loop => { loop with pendings := loop.pendings ++ [s.pendings.size] }) :=
    modifyLoop s l fun _ => ⟨rfl, rfl⟩
  exact hlist.trans (of_loops rfl)

theorem change (s : Store) (c : Change) : s.KeepsReports (c.apply s) := by
  cases c with
  | build k =>
    show s.KeepsReports (s.build k).2
    obtain h | ⟨contents, node, h⟩ := s.build_eq k
    all_goals
      rw [h]
      exact of_loops rfl
  | complete n k =>
    show s.KeepsReports (s.complete n k).2
    rw [complete]
    repeat' split
    all_goals exact of_loops rfl
  | openLoop config => exact openLoop s config
  | openPending l resolver priority => exact openPending s l resolver priority
  | spawn l d => exact spawn s l (.merge d)
  | setResult p slot => exact setResult s p slot
  | _ => exact of_loops rfl

theorem evolves (h : Evolves s t) : s.KeepsReports t := by
  induction h with
  | refl => exact .refl s
  | step c _ ih => exact ih.trans (change _ c)

theorem chore (h : s.Chore t) : s.KeepsReports t := by
  cases h with
  | note l f kept => exact modifyLoop s l kept
  | spawn l body => exact spawn s l body
  | openPending l resolver priority => exact openPending s l resolver priority
  | fail p e => exact close s p (.failed e)
  | _ => exact of_loops rfl

theorem upkeep (h : s.Upkeep t) : s.KeepsReports t := by
  induction h with
  | refl => exact .refl s
  | tail _ h ih => exact ih.trans (chore h)

end KeepsReports

end Store

namespace Machine

variable {σ : Type} {m m' : Machine σ} {l : LoopId}

open Store (KeepsReports Upkeep)

theorem Affects.keepsReports {s : Store} (h : m.Affects s) : m.store.KeepsReports s := by
  cases h with
  | upkeep h => exact .upkeep h
  | @update α x next control => exact .evolves (x.evolves m.store)
  | resolved stack control => exact .setResult m.store _ _
  | @merged l t d s left right polls table h =>
    have hmerge := (Infer.mergeDeferred l d left right).run.evolves s
    exact (KeepsReports.upkeep h).trans (.evolves hmerge)

/-! ### Failures and reports -/

/-- The error with which a task of a loop fails at the next step, unless a caller watches the
task. -/
def failed? (m : Machine σ) (l : LoopId) : Option InferError :=
  match m.stack, m.control with
  | .task _ _ (.watched _) :: _, _ => none
  | .task l' _ _ :: _, .answer (.error e) => if l' = l then some e else none
  | _, _ => none

/-- The error that a loop tells its caller at the next step: its first one, when the loop is driven
and no task is ready. -/
def told? (m : Machine σ) (l : LoopId) : Option InferError :=
  match m.stack, m.control with
  | .drive l' _ :: _, .poll l'' _ =>
    if l' = l ∧ (m.store.loop l'').ready = [] then (m.store.loop l).errors.head? else none
  | _, _ => none

/-- The errors with which tasks of a loop fail within a number of steps, in order. -/
def failures (m : Machine σ) (l : LoopId) (k : Nat) : List InferError :=
  (List.range k).filterMap fun i => (m.run i).failed? l

/-- The errors that a loop tells within a number of steps, in order. -/
def reports (m : Machine σ) (l : LoopId) (k : Nat) : List InferError :=
  (List.range k).filterMap fun i => (m.run i).told? l

theorem failures_succ (m : Machine σ) (l : LoopId) (k : Nat) :
    m.failures l (k + 1) = m.failures l k ++ ((m.run k).failed? l).toList := by
  rw [failures, List.range_succ, List.filterMap_append, failures]
  cases h : (m.run k).failed? l <;> simp [h]

theorem reports_succ (m : Machine σ) (l : LoopId) (k : Nat) :
    m.reports l (k + 1) = m.reports l k ++ ((m.run k).told? l).toList := by
  rw [reports, List.range_succ, List.filterMap_append, reports]
  cases h : (m.run k).told? l <;> simp [h]

/-- A task fails when it is on top and is handed an error. -/
theorem failed?_of_control (h : ∀ r, m.control ≠ .answer r) : m.failed? l = none := by
  rw [failed?]
  split
  · rfl
  · next hcontrol => exact absurd hcontrol (h _)
  · rfl

theorem failed?_of_stack (h : ∀ l t body rest, m.stack ≠ .task l t body :: rest) :
    m.failed? l = none := by
  rw [failed?]
  split
  · rfl
  · next hstack _ => exact absurd hstack (h _ _ _ _)
  · rfl

theorem told?_of_control (h : ∀ l' polled, m.control ≠ .poll l' polled) : m.told? l = none := by
  rw [told?]
  split
  · next hcontrol => exact absurd hcontrol (h _ _)
  · rfl

/-- A loop tells its first error while it is driven. -/
theorem told?_eq_some {e : InferError} (h : m.told? l = some e) :
    ∃ goal rest errors l' polled, m.stack = .drive l goal :: rest ∧ m.control = .poll l' polled ∧
      (m.store.loop l').ready = [] ∧ (m.store.loop l).errors = e :: errors := by
  rw [told?] at h
  split at h
  · next l₁ goal rest l' polled hstack hcontrol =>
    split at h
    · next hboth =>
      obtain ⟨rfl, hready⟩ := hboth
      obtain ⟨errors, herrors⟩ := List.head?_eq_some_iff.mp h
      exact ⟨goal, rest, errors, l', polled, hstack, hcontrol, hready, herrors⟩
    · cases h
  · cases h

theorem told?_of_drive {l' l₁ : LoopId} {goal : Goal} {polled : Bool} {rest : List (Frame σ)}
    (hcontrol : m.control = .poll l₁ polled) (hstack : m.stack = .drive l' goal :: rest)
    (hready : (m.store.loop l₁).ready = []) (l : LoopId) :
    m.told? l = if l' = l then (m.store.loop l).errors.head? else none := by
  rw [told?, hstack, hcontrol]
  simp only [hready, and_true]

/-- What a step does with the errors and the outcomes that loops keep. -/
inductive Reporting (m : Machine σ) : Machine σ → Prop where
  /-- Nothing. -/
  | kept {m' : Machine σ} (store : m.Affects m'.store) (told : ∀ l, m.told? l = none)
      (failed : ∀ l, m.failed? l = none) : Reporting m m'
  /-- A loop tells its first error. -/
  | told {l l' : LoopId} {goal : Goal} {rest : List (Frame σ)} {polled : Bool} {e : InferError}
      {errors : List InferError} (stack : m.stack = .drive l goal :: rest)
      (control : m.control = .poll l' polled) (ready : (m.store.loop l').ready = [])
      (first : (m.store.loop l).errors = e :: errors) :
      Reporting m { m with
        store := m.store.modifyLoop l fun loop => { loop with errors }
        stack := rest
        control := .answer (.error e) }
  /-- A task completes. -/
  | done {l : LoopId} {t : TaskId} {body : TaskBody} {rest : List (Frame σ)} {r : Outcome}
      (stack : m.stack = .task l t body :: rest) (control : m.control = .answer r) :
      Reporting m ({ m with stack := rest }.taskDone l t body r)
  /-- A caller is handed the outcome of the task that it watches. -/
  | taken {l : LoopId} {t : TaskId} {rest : List (Frame σ)} {slot : Slot} {r : Outcome}
      (stack : m.stack = .watching l t :: rest) (control : m.control = .answer (.ok slot))
      (outcome : (m.store.loop l).outcomes.lookup t = some r) :
      Reporting m { m with
        store := m.store.modifyLoop l fun loop =>
          { loop with outcomes := loop.outcomes.filter fun e => e.1 ≠ t }
        stack := rest
        control := .answer r }

/-- A loop that goes on tells its first error, or touches none. -/
theorem reporting_driveOn {l l' : LoopId} {goal : Goal} {rest : List (Frame σ)} {polled : Bool}
    (hstack : m.stack = .drive l goal :: rest) (hcontrol : m.control = .poll l' polled)
    (hready : (m.store.loop l').ready = []) :
    m.Reporting ({ m with stack := rest }.driveOn l goal) := by
  have hquiet : (m.store.loop l).errors = [] → ∀ l₁, m.told? l₁ = none := by
    intro hnone l₁
    rw [told?_of_drive hcontrol hstack hready]
    split
    · next h => rw [← h, hnone]; rfl
    · rfl
  have hfailed : ∀ l₁, m.failed? l₁ = none := fun _ =>
    failed?_of_control fun _ h => nomatch hcontrol.symm.trans h
  rcases driveOn_cases { m with stack := rest } l goal with ⟨e, errors, herrors, h⟩ |
    ⟨herrors, -, h⟩ | ⟨herrors, h⟩ <;> rw [h]
  · exact .told hstack hcontrol hready herrors
  · exact .kept (.upkeep (.refl _)) (hquiet herrors) hfailed
  · refine .kept (.upkeep ?_) (hquiet herrors) hfailed
    exact upkeep_pick { m with stack := rest } l (.drive goal) none _

theorem reporting_pollNext {l : LoopId} {polled : Bool} (hcontrol : m.control = .poll l polled) :
    m.Reporting (m.pollNext l polled) := by
  have hfailed : ∀ l₁, m.failed? l₁ = none := fun _ =>
    failed?_of_control fun _ h => by cases hcontrol.symm.trans h
  cases hready : (m.store.loop l).ready with
  | nil =>
    rw [pollNext]
    simp only [hready]
    rw [allPolled]
    split
    · next hstack => exact reporting_driveOn hstack hcontrol hready
    · next hstack =>
      refine .kept (.upkeep (.refl _)) (fun l₁ => ?_) hfailed
      rw [told?, hstack, hcontrol]
    · next hstack _ =>
      refine .kept (.upkeep (.refl _)) (fun l₁ => ?_) hfailed
      rw [told?]
      split
      · next hdrive _ => exact absurd hdrive (hstack _ _ _)
      · rfl
  | cons t ready =>
    have htold : ∀ l₁, m.told? l₁ = none := by
      intro l₁
      rw [told?]
      split
      · next hpoll =>
        cases hcontrol.symm.trans hpoll
        exact if_neg fun h => by cases h.2.symm.trans hready
      · rfl
    refine .kept ?_ htold hfailed
    rw [pollNext_eq polled hready]
    split
    · exact .upkeep (.note m.store l fun _ => ⟨rfl, rfl⟩)
    · next hbody => exact affects_poll hcontrol hready hbody

theorem reporting_resume {f : Frame σ} {rest : List (Frame σ)} {r : Outcome}
    (hstack : m.stack = f :: rest) (hcontrol : m.control = .answer r) :
    m.Reporting ({ m with stack := rest }.resume r f) := by
  have htold : ∀ l₁, m.told? l₁ = none := fun _ =>
    told?_of_control fun _ _ h => nomatch hcontrol.symm.trans h
  by_cases htask : ∃ l t body, f = .task l t body
  · obtain ⟨l, t, body, rfl⟩ := htask
    exact .done hstack hcontrol
  have hfailed : ∀ l₁, m.failed? l₁ = none := fun _ => failed?_of_stack fun l t body rest' h =>
    htask ⟨l, t, body, (List.cons.inj (hstack.symm.trans h)).1⟩
  by_cases hwatching : ∃ l t, f = .watching l t
  · obtain ⟨l, t, rfl⟩ := hwatching
    cases r with
    | error e => exact .kept (.upkeep (.refl _)) htold hfailed
    | ok slot =>
      rw [resume, takeOutcome]
      split
      · exact .kept (.upkeep (.record _ _)) htold hfailed
      · next houtcome => exact .taken hstack hcontrol houtcome
  · refine .kept (affects_resume hstack hcontrol ?_ ?_) htold hfailed
    · exact fun l t body h => htask ⟨l, t, body, h⟩
    · exact fun l t h => hwatching ⟨l, t, h⟩

/-- **What a step does** with the errors and the outcomes that loops keep. -/
theorem step_reporting (hstep : m.step = some m') : m.Reporting m' := by
  cases hcontrol : m.control with
  | exec code =>
    cases (step_exec hcontrol).symm.trans hstep
    exact .kept (affects_execute hcontrol)
      (fun _ => told?_of_control fun _ _ h => nomatch hcontrol.symm.trans h)
      fun _ => failed?_of_control fun _ h => nomatch hcontrol.symm.trans h
  | rank p =>
    cases (step_rank hcontrol).symm.trans hstep
    exact .kept (.upkeep (upkeep_startRule m p))
      (fun _ => told?_of_control fun _ _ h => nomatch hcontrol.symm.trans h)
      fun _ => failed?_of_control fun _ h => nomatch hcontrol.symm.trans h
  | poll l polled =>
    cases (step_poll hcontrol).symm.trans hstep
    exact reporting_pollNext hcontrol
  | answer r =>
    cases hstack : m.stack with
    | nil =>
      rw [step, hcontrol] at hstep
      simp only [hstack] at hstep
      cases hstep
    | cons f rest =>
      cases (step_answer hcontrol hstack).symm.trans hstep
      exact reporting_resume hstack hcontrol

/-- **A step** puts the error of a task that fails behind those of its loop, and takes the first one
of a loop away when it is told.  Nothing else changes the errors. -/
theorem step_errors (hm : m.Numbered) (hstep : m.step = some m') (l : LoopId) :
    (m.told? l).toList ++ (m'.store.loop l).errors =
      (m.store.loop l).errors ++ (m.failed? l).toList := by
  cases step_reporting hstep with
  | kept haffects htold hfailed =>
    rw [htold, hfailed, (haffects.keepsReports l).1]
    exact (List.append_nil _).symm
  | @told l' l₁ goal rest polled e errors hstack hcontrol hready herrors =>
    have hl' : l' < m.store.loops.size := by
      by_contra hge
      rw [Store.loop_of_absent (Nat.not_lt.mp hge)] at herrors
      cases herrors
    have hfailed : m.failed? l = none := failed?_of_control fun _ h => nomatch hcontrol.symm.trans h
    rw [told?_of_drive hcontrol hstack hready, hfailed, Store.loop_modifyLoop]
    by_cases h : l' = l
    · subst h
      rw [if_pos rfl, if_pos ⟨rfl, hl'⟩, herrors]
      exact (List.append_nil _).symm
    · rw [if_neg h, if_neg fun hand => h hand.1]
      exact (List.append_nil _).symm
  | @done l' t body rest r hstack hcontrol =>
    have hl' : l' < m.store.loops.size :=
      Store.loop_lt_of_spawned (hm.frames (.task l' t body) (hstack ▸ List.mem_cons_self))
    have htold : m.told? l = none := told?_of_control fun _ _ h => nomatch hcontrol.symm.trans h
    rw [htold, failed?, hstack, hcontrol, taskDone, Store.loop_modifyLoop]
    by_cases h : l' = l
    · rw [if_pos ⟨h, hl'⟩]
      cases body <;> cases r <;> simp [h]
    · rw [if_neg fun hand => h hand.1]
      cases body <;> cases r <;> simp [h]
  | @taken l' t rest slot r hstack hcontrol houtcome =>
    have htold : m.told? l = none := told?_of_control fun _ _ h => nomatch hcontrol.symm.trans h
    have hfailed : m.failed? l = none := failed?_of_stack fun _ _ _ _ h => nomatch hstack.symm.trans h
    rw [htold, hfailed, Store.loop_modifyLoop]
    split <;> exact (List.append_nil _).symm

/-! ### Runs -/

/-- **Along a run** the errors that a loop had and those of the tasks that fail are told in that
order, and what is not told yet is kept. -/
theorem reports_append_errors (hm : m.Reachable) (l : LoopId) (k : Nat) :
    m.reports l k ++ ((m.run k).store.loop l).errors =
      (m.store.loop l).errors ++ m.failures l k := by
  induction k with
  | zero => exact (List.append_nil _).symm
  | succ k ih =>
    rw [reports_succ, failures_succ, ← List.append_assoc, ← ih, List.append_assoc, List.append_assoc]
    congr 1
    cases hstep : (m.run k).step with
    | some m' =>
      rw [run_of_step hstep]
      exact step_errors (hm.run k).numbered hstep l
    | none =>
      -- a run that is over neither fails nor tells anything
      have hover : m.run (k + 1) = m.run k := by rw [run_succ, hstep]; rfl
      have htold : (m.run k).told? l = none :=
        told?_of_control fun l' polled h => nomatch (step_poll h).symm.trans hstep
      have hfailed : (m.run k).failed? l = none := by
        rw [failed?]
        split
        · rfl
        · next hstack hcontrol => cases (step_answer hcontrol hstack).symm.trans hstep
        · rfl
      rw [hover, htold, hfailed]
      exact (List.append_nil _).symm

end Machine

end ValueInference
