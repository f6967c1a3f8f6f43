/-
Driving a loop comes to an end.

While a call of a loop goes on, let each task be polled finitely often, let there be finitely many
tasks, and let every resolver and every rule that starts return.  From some step on no task is
polled.  Polls of ready tasks end there, for the queue gets shorter, and so does choosing a pending,
for there are fewer and fewer to ask for their ranks, and driving a loop, for each pending that it
forces is counted.  From there we go back step by step.  A task that is polled at a step executes a
request after the other, and whatever a request drives goes on at later steps.

* **`Machine.Tame`** — what is assumed of tasks, resolvers and rules while a call goes on;
* **`Machine.ForcingEnds`**, **`Machine.Tame.chooses`** — how a loop goes on that chooses a pending;
* **`Machine.DriveEnds`** — how driving a loop can end;
* **`Machine.Polling`**, **`Machine.Driving`**, **`Machine.Finishing`**, **`Machine.Yielding`** —
  what ends from some step on;
* **`Machine.Tame.ends`** — they end from the first step on.
-/
import ValueInference.Proofs.Stacks
import ValueInference.Proofs.Wakeups
import Mathlib.Data.Set.Finite.Lattice
import Mathlib.Order.Bounds.Basic

namespace ValueInference

/-- The open pendings of a loop that tasks wait for, in the order in which they were registered. -/
def Store.blocked (s : Store) (l : LoopId) : List PendingId :=
  (s.pendingsOf l).filter fun p => s.isOpen p && s.hasWaiters p

/-- A pending that a loop can force while it is driven: it is open and not being resolved, it has a
resolver, and some task waits for it. -/
def Store.Forcible (s : Store) (p : PendingId) : Prop :=
  s.isOpen p = true ∧ s.isResolving p = false ∧ s.hasResolver p = true ∧ s.hasWaiters p = true

/-- A loop with a ready task is there. -/
theorem Store.loop_lt_of_ready {s : Store} {l : LoopId} {t : TaskId} {ready : List TaskId}
    (h : (s.loop l).ready = t :: ready) : l < s.loops.size := by
  by_contra hge
  rw [loop_of_absent (Nat.not_lt.mp hge)] at h
  cases h

namespace Machine

variable {σ : Type} {m : Machine σ} {l : LoopId} {p : PendingId} {depth i k start : Nat}

/-- What a loop can force on the way to a goal. -/
theorem eligible_drive {goal : Goal} : m.eligible (.drive goal) p = true ↔ m.store.Forcible p := by
  simp [eligible, Store.Forcible, and_assoc]

/-- What a loop can force to leave none. -/
theorem eligible_finish : m.eligible .finish p = true ↔ m.store.isOpen p = true ∧
    m.store.isResolving p = false ∧ m.store.hasResolver p = true := by
  simp [eligible, and_assoc]

/-! ### Tame calls -/

/-- The pending whose rank is asked for at the next step. -/
def asked? (m : Machine σ) : Option PendingId :=
  match m.control with
  | .rank p => some p
  | _ => none

/-- While the stack is higher than some depth, each task is polled finitely often, there are
finitely many tasks, the resolvers that start return, and whoever asks for a rank is told. -/
structure Tame (m : Machine σ) (depth : Nat) : Prop where
  polls : ∀ w, {i | m.Stays depth 1 i ∧ (m.run i).polls? = some w}.Finite
  tasks : {w : Waiter | ∃ i, m.Stays depth 1 i ∧
    w.task < ((m.run i).store.loop w.loop).spawned}.Finite
  resolvers : ∀ i p, m.Stays depth 1 i → (m.run i).invoked? = some p →
    ∃ j, i < j ∧ (m.run j).returned? = some p
  rules : ∀ i p, m.Stays depth 1 i → (m.run i).asked? = some p →
    ∃ j r, i < j ∧ (m.run j).stack = (m.run i).stack ∧ (m.run j).control = .answer r

/-- A task that is polled has a number that was handed out. -/
theorem spawned_of_polls? {w : Waiter} (hm : m.Numbered) (h : m.polls? = some w) :
    w.task < (m.store.loop w.loop).spawned := by
  rw [polls?] at h
  split at h
  · next l polled _ =>
    split at h
    · next t ready hready =>
      split at h
      · next hsome =>
        cases h
        obtain ⟨body, hbody⟩ := Option.isSome_iff_exists.mp hsome
        exact hm.tasks l (t, body) (mem_of_lookup hbody)
      · cases h
    · cases h
  · cases h

/-- **From some step on** no task is polled while the call goes on. -/
theorem Tame.quiet (h : m.Tame depth) (hm : m.Reachable) :
    ∃ last, ∀ i, m.Stays depth 1 i → (m.run i).polls? ≠ none → i < last := by
  have hfinite : {i | m.Stays depth 1 i ∧ (m.run i).polls? ≠ none}.Finite := by
    refine (h.tasks.biUnion fun w _ => h.polls w).subset ?_
    rintro i ⟨hi, hpolls⟩
    obtain ⟨w, hw⟩ := Option.ne_none_iff_exists'.mp hpolls
    exact Set.mem_biUnion ⟨i, hi, spawned_of_polls? (hm.run i).numbered hw⟩ ⟨hi, hw⟩
  obtain ⟨last, hlast⟩ := hfinite.bddAbove
  exact ⟨last + 1, fun i hi hpolls => Nat.lt_succ_of_le (hlast ⟨hi, hpolls⟩)⟩

/-! ### Single steps of a run -/

section

variable {f : Frame σ} {rest : List (Frame σ)} {r : Outcome}

/-- At a step of the run an outcome is handed to a stack. -/
def Hands (m : Machine σ) (i : Nat) (stack : List (Frame σ)) (r : Outcome) : Prop :=
  (m.run i).stack = stack ∧ (m.run i).control = .answer r

/-- At a step of the run code is executed on a stack. -/
def Execs (m : Machine σ) (i : Nat) (stack : List (Frame σ)) (code : Program σ) : Prop :=
  (m.run i).stack = stack ∧ (m.run i).control = .exec code

/-- At a step of the run a loop polls its tasks. -/
def Polls (m : Machine σ) (i : Nat) (stack : List (Frame σ)) (l : LoopId) : Prop :=
  (m.run i).stack = stack ∧ ∃ polled, (m.run i).control = .poll l polled

theorem Hands.next (h : m.Hands i (f :: rest) r) :
    m.run (i + 1) = { m.run i with stack := rest }.resume r f :=
  run_of_step (step_answer h.2 h.1)

/-- A loop that is driven to a goal goes on to it when no task is ready. -/
theorem step_driveOn {goal : Goal} {polled : Bool} (hcontrol : m.control = .poll l polled)
    (hstack : m.stack = .drive l goal :: rest) (hready : (m.store.loop l).ready = []) :
    m.step = some ({ m with stack := rest }.driveOn l goal) := by
  rw [step_poll hcontrol, pollNext]
  simp only [hready, allPolled, hstack]

theorem Execs.next {stack : List (Frame σ)} {code : Program σ} (h : m.Execs i stack code) :
    m.run (i + 1) = (m.run i).execute code :=
  run_of_step (step_exec h.2)

/-- The stack of a step is higher than a depth. -/
theorem stays_of_stack {stack : List (Frame σ)} (h : (m.run i).stack = stack)
    (hdepth : depth < stack.length) : m.Stays depth i i :=
  stays_single (h ▸ hdepth)

end

/-! ### What ends from some step on -/

/-- How driving a loop ends at some step, by the outcome that is handed on. -/
inductive DriveEnds (m : Machine σ) (l : LoopId) (goal : Goal) : Nat → Outcome → Prop where
  /-- The goal is reached or no task is left, and no error of a task is kept. -/
  | done {k : Nat} (errors : ((m.run (k + 1)).store.loop l).errors = [])
      (finished : (m.run (k + 1)).goalReached l goal = true ∨
        ((m.run (k + 1)).store.loop l).tasks = []) : DriveEnds m l goal k unit
  /-- The first error of a task is told. -/
  | task {k : Nat} {e : InferError} {errors : List InferError}
      (kept : ((m.run k).store.loop l).errors = e :: errors) : DriveEnds m l goal k (.error e)
  /-- A resolver that the loop has started on its own account has ended with an error. -/
  | resolver {j : Nat} {p : PendingId} {e : InferError}
      (returned : (m.run j).returned? = some p) (own : (m.run j).forcedBy? = some l)
      (handed : (m.run (j + 1)).control = .answer (.error e)) : DriveEnds m l goal (j + 1) (.error e)
  /-- The loop cannot go on: there is nothing that it can force, or it may not force any more. -/
  | deadlock {k : Nat} (stuck : (∀ p ∈ (m.run (k + 1)).store.pendingsOf l,
        ¬ (m.run (k + 1)).store.Forcible p) ∨
      ((m.run (k + 1)).store.loop l).config.maxForced ≤ ((m.run (k + 1)).store.loop l).forced) :
      DriveEnds m l goal k (.error (.deadlock
        (((m.run (k + 1)).store.blocked l).map (m.run (k + 1)).store.pendingNumber)))

/-- Polling ready tasks ends, from some step on. -/
def Polling (m : Machine σ) (depth start : Nat) : Prop :=
  ∀ i l stack, start ≤ i → depth < stack.length → m.Stays depth 1 i → m.Polls i stack l →
    ∃ k, i ≤ k ∧ m.Stays depth i k ∧ m.Polls k stack l ∧ ((m.run k).store.loop l).ready = []

/-- From a step on, driving a loop ends. -/
def DriveReturns (m : Machine σ) (depth i : Nat) (l : LoopId) (goal : Goal)
    (stack : List (Frame σ)) : Prop :=
  ∃ k r, i ≤ k ∧ m.Stays depth i k ∧ m.Hands (k + 1) stack r ∧ m.DriveEnds l goal k r

/-- Driving a loop ends, from some step on. -/
def Driving (m : Machine σ) (depth start : Nat) : Prop :=
  ∀ i l goal stack, start ≤ i → depth ≤ stack.length → m.Stays depth 1 i →
    m.Polls i (.drive l goal :: stack) l → m.DriveReturns depth i l goal stack

/-- From a step on, finishing a loop ends; and if that succeeds, no task and no error is left, and
all pendings of the loop are closed. -/
def FinishEnds (m : Machine σ) (depth i : Nat) (l : LoopId) (stack : List (Frame σ)) : Prop :=
  ∃ k r, i ≤ k ∧ m.Stays depth i k ∧ m.Hands (k + 1) stack r ∧ ∀ slot, r = .ok slot →
    ((m.run (k + 1)).store.loop l).tasks = [] ∧ ((m.run (k + 1)).store.loop l).errors = [] ∧
      ∀ p ∈ (m.run (k + 1)).store.pendingsOf l, (m.run (k + 1)).store.isOpen p = false

/-- Finishing a loop ends, from some step on. -/
def Finishing (m : Machine σ) (depth start : Nat) : Prop :=
  ∀ i l stack, start ≤ i → depth ≤ stack.length → m.Stays depth 1 i →
    m.Polls i (.drive l .idle :: .finishRunning l :: stack) l → m.FinishEnds depth i l stack

/-- From a step on, the task that is under way waits or completes, and its loop goes on polling. -/
def YieldEnds (m : Machine σ) (depth i : Nat) (l : LoopId) (stack : List (Frame σ)) : Prop :=
  ∃ k, i < k ∧ m.Stays depth i k ∧ m.Polls k stack l

/-- A task that is under way waits or completes, from some step on. -/
def Yielding (m : Machine σ) (depth start : Nat) : Prop :=
  ∀ i l t body stack code, start ≤ i → depth < stack.length → m.Stays depth 1 i →
    m.Execs i (.task l t body :: stack) code → m.YieldEnds depth i l stack

/-! ### Polling -/

/-- The next ready task is looked up in the table. -/
theorem pollNext_eq {t : TaskId} {ready : List TaskId} (polled : Bool)
    (hready : (m.store.loop l).ready = t :: ready) :
    m.pollNext l polled =
      match (m.store.loop l).tasks.lookup t with
      | none => { m with
          store := m.store.modifyLoop l fun loop => { loop with ready }
          control := .poll l polled }
      | some body => { m with
          store := (m.store.modifyLoop l fun loop => { loop with ready }).dropTask l t }.pollTask
            l t body := by
  have htasks : ((m.store.modifyLoop l fun loop => { loop with ready }).loop l).tasks =
      (m.store.loop l).tasks := by
    rw [Store.loop_modifyLoop]
    split <;> rfl
  rw [pollNext]
  cases hlookup : (m.store.loop l).tasks.lookup t with
  | none => simp only [hready, htasks, hlookup]
  | some body => simp only [hready, htasks, hlookup]

/-- The next ready task is passed over or polled. -/
theorem pollNext_cases {t : TaskId} {ready : List TaskId} {polled : Bool}
    (hcontrol : m.control = .poll l polled) (hready : (m.store.loop l).ready = t :: ready) :
    m.pollNext l polled = { m with
      store := m.store.modifyLoop l fun loop => { loop with ready }
      control := .poll l polled } ∨
    m.polls? ≠ none ∧ ∃ body s, m.pollNext l polled = { m with store := s }.pollTask l t body := by
  rw [pollNext_eq polled hready]
  cases hlookup : (m.store.loop l).tasks.lookup t with
  | none => exact .inl rfl
  | some body =>
    refine .inr ⟨?_, body, _, rfl⟩
    rw [polls?, hcontrol]
    simp only [hready, hlookup]
    exact Option.some_ne_none _

/-- A task that is polled goes back to its table, completes, or is under way. -/
theorem pollTask_control (m : Machine σ) (l : LoopId) (t : TaskId) (body : TaskBody) :
    ((m.pollTask l t body).stack = m.stack ∧ (m.pollTask l t body).control = .poll l true) ∨
    (m.pollTask l t body).stack = .task l t body :: m.stack ∧
      ((∃ r, (m.pollTask l t body).control = .answer r) ∨
        ∃ code, (m.pollTask l t body).control = .exec code) := by
  cases body with
  | code i => exact .inr ⟨rfl, .inr ⟨_, rfl⟩⟩
  | watched i => exact .inr ⟨rfl, .inr ⟨_, rfl⟩⟩
  | merge d =>
    rw [pollTask, pollMerge]
    split
    · exact .inl ⟨rfl, rfl⟩
    · exact .inr ⟨rfl, .inl ⟨_, rfl⟩⟩
    split
    · exact .inl ⟨rfl, rfl⟩
    · exact .inr ⟨rfl, .inl ⟨_, rfl⟩⟩
    · exact .inr ⟨rfl, .inl ⟨_, rfl⟩⟩

/-- A task that has an outcome is done, and its loop goes on polling. -/
theorem Hands.task {t : TaskId} {body : TaskBody} {stack : List (Frame σ)} {r : Outcome}
    (h : m.Hands i (.task l t body :: stack) r) : m.Polls (i + 1) stack l := by
  rw [Polls, h.next]
  exact ⟨rfl, true, rfl⟩

/-- A task that is polled gives way sooner or later, if tasks do from the next step on. -/
theorem Yielding.polled {t : TaskId} {body : TaskBody} {stack : List (Frame σ)} {s : Store}
    (hyields : m.Yielding depth (start + 1)) (hi : start ≤ i) (hdepth : depth < stack.length)
    (hinside : m.Stays depth 1 i) (hstack : (m.run i).stack = stack)
    (hnext : m.run (i + 1) = { m.run i with store := s }.pollTask l t body) :
    ∃ j, i < j ∧ m.Stays depth (i + 1) j ∧ m.Polls j stack l := by
  rcases pollTask_control { m.run i with store := s } l t body with ⟨hsame, hpoll⟩ | ⟨hpushed, hgoes⟩
  · have hpolls : m.Polls (i + 1) stack l := by
      rw [Polls, hnext]
      exact ⟨hsame.trans hstack, true, hpoll⟩
    exact ⟨i + 1, Nat.lt_succ_self i, stays_of_stack hpolls.1 hdepth, hpolls⟩
  have hstack' : (m.run (i + 1)).stack = .task l t body :: stack := by
    rw [hnext, hpushed]
    exact congrArg _ hstack
  have habove : m.Stays depth (i + 1) (i + 1) := stays_of_stack hstack' (Nat.lt_succ_of_lt hdepth)
  rcases hgoes with ⟨r, hr⟩ | ⟨code, hcode⟩
  · -- a deferred merge has its outcome at once
    have hpolls : m.Polls (i + 1 + 1) stack l := Hands.task ⟨hstack', hnext ▸ hr⟩
    exact ⟨i + 2, by omega, habove.join (stays_of_stack hpolls.1 hdepth) (Nat.le_refl _), hpolls⟩
  · obtain ⟨j, hj, hstays, hpolls⟩ := hyields (i + 1) l t body stack code (by omega) hdepth
      (hinside.join habove (Nat.le_refl _)) ⟨hstack', hnext ▸ hcode⟩
    exact ⟨j, by omega, hstays, hpolls⟩

/-- **Polling ends** if, after a poll, the task gives way and later polling ends. -/
theorem polling_of (h : ∀ i, start ≤ i → m.Stays depth 1 i → (m.run i).polls? ≠ none →
    m.Yielding depth (start + 1) ∧ m.Polling depth (start + 1)) : m.Polling depth start := by
  intro i l stack
  generalize hn : ((m.run i).store.loop l).ready.length = n
  induction n generalizing i with
  | zero =>
    intro _ hdepth _ hpolls
    exact ⟨i, Nat.le_refl i, stays_of_stack hpolls.1 hdepth, hpolls,
      List.length_eq_zero_iff.mp hn⟩
  | succ n ih =>
    intro hi hdepth hinside hpolls
    obtain ⟨hstack, polled, hcontrol⟩ := hpolls
    have hhere := stays_of_stack hstack hdepth
    obtain ⟨t, ready, hready⟩ := List.exists_cons_of_length_eq_add_one hn
    have hnext : m.run (i + 1) = (m.run i).pollNext l polled := run_of_step (step_poll hcontrol)
    rcases pollNext_cases hcontrol hready with hskip | ⟨hpolled, body, s, hpoll⟩
    · -- the queue gets shorter
      rw [hskip] at hnext
      have hpolls' : m.Polls (i + 1) stack l := by
        rw [Polls, hnext]
        exact ⟨hstack, polled, rfl⟩
      have hl := Store.loop_lt_of_ready hready
      have hshorter : ((m.run (i + 1)).store.loop l).ready.length = n := by
        rw [hnext, Store.loop_modifyLoop, if_pos ⟨rfl, hl⟩]
        rw [hready] at hn
        exact Nat.succ.inj hn
      have hinside' : m.Stays depth 1 (i + 1) :=
        hinside.join (stays_of_stack hpolls'.1 hdepth) (Nat.le_refl _)
      obtain ⟨k, hk, hstays, hend⟩ := ih (i + 1) hshorter (Nat.le_succ_of_le hi) hdepth hinside'
        hpolls'
      exact ⟨k, Nat.le_of_succ_le hk, hhere.join hstays (Nat.le_refl _), hend⟩
    · obtain ⟨hyields, hlater⟩ := h i hi hinside hpolled
      rw [hpoll] at hnext
      obtain ⟨j, hj, hstays, hpolls'⟩ := hyields.polled hi hdepth hinside hstack hnext
      have hinside' : m.Stays depth 1 j :=
        hinside.join hstays (Nat.le_refl _)
      obtain ⟨k, hk, hstays', hend⟩ := hlater j l stack (by omega) hdepth hinside' hpolls'
      exact ⟨k, by omega, (hhere.join hstays (Nat.le_refl _)).join hstays' (by omega), hend⟩

/-! ### Forcing -/

theorem resolved_control (m : Machine σ) (p : PendingId) (r : Outcome) :
    ∃ r', (m.resolved p r).control = .answer r' := by
  cases r with
  | error e => exact ⟨_, rfl⟩
  | ok slot =>
    rw [resolved]
    split
    · rcases m.store.setResult p slot with ⟨_ | _, s⟩ <;> exact ⟨_, rfl⟩
    · exact ⟨_, rfl⟩

/-- A resolver that starts while a tame call goes on hands an outcome to what lies below it. -/
theorem Tame.resolves {below : List (Frame σ)} (h : m.Tame depth) (hm : m.Reachable)
    (hinside : m.Stays depth 1 i) (hinvoked : (m.run i).invoked? = some p)
    (hstack : (m.run (i + 1)).stack = .resolving p :: below) (hdepth : depth ≤ below.length) :
    ∃ k r, i < k ∧ m.Stays depth (i + 1) k ∧ (m.run k).returned? = some p ∧
      (m.run k).stack = .resolving p :: below ∧ m.Hands (k + 1) below r := by
  obtain ⟨j, hj, hret⟩ := h.resolvers i p hinside hinvoked
  obtain ⟨k, r, hk, hstays, htop, hcontrol⟩ := resolver_excursion hm hstack hj hret
  have hnext := Hands.next ⟨htop, hcontrol⟩
  obtain ⟨r', hr'⟩ := resolved_control { m.run k with stack := below } p r
  refine ⟨k, r', hk, hstays.weaken hdepth, returned?_eq_some.mpr ⟨r, below, hcontrol, htop⟩, htop, ?_⟩
  rw [Hands, hnext]
  exact ⟨resolved_stack _ p r, hr'⟩

/-- A rule that runs while a tame call goes on tells the rank to the frame that has asked. -/
theorem Tame.tells {f : Frame σ} {below : List (Frame σ)} (h : m.Tame depth) (hf : f.Waits)
    (hinside : m.Stays depth 1 i) (hstack : (m.run i).stack = f :: below)
    (hcontrol : (m.run i).control = .rank p) (hdepth : depth ≤ below.length) :
    ∃ k r, i < k ∧ m.Stays depth i k ∧ m.Hands k (f :: below) r := by
  obtain ⟨j, r, hj, hsame, hr⟩ := h.rules i p hinside (by rw [asked?, hcontrol])
  obtain ⟨k, r', hk, hstays, htop, hanswer⟩ :=
    excursion hf hstack (Nat.le_of_lt hj) (hsame.trans hstack) hr
  refine ⟨k, r', Nat.lt_of_le_of_ne hk ?_, hstays.weaken hdepth, htop, hanswer⟩
  rintro rfl
  cases hcontrol.symm.trans hanswer

section

variable {aim : Aim} {stack : List (Frame σ)} {j : Nat}

/-- How a loop goes on that has found a pending which it can force: its budget is used up, or it
counts a pending, and is handed an outcome in the frame in which it forces that. -/
inductive ForcingEnds (m : Machine σ) (depth i : Nat) (l : LoopId) (aim : Aim)
    (stack : List (Frame σ)) : Prop where
  | used {k : Nat} (later : i ≤ k) (stays : m.Stays depth i k)
      (used : ((m.run k).store.loop l).config.maxForced ≤ ((m.run k).store.loop l).forced)
      (next : m.run (k + 1) = { m.run k with stack }.deadlocked l)
  /-- Only the resolver of a pending that the loop forces ends with an error. -/
  | forced {k : Nat} {r : Outcome} (later : i ≤ k) (stays : m.Stays depth i k)
      (counted : ((m.run i).store.loop l).forced < ((m.run (k + 1)).store.loop l).forced)
      (handed : m.Hands (k + 1) (aim.frame l :: stack) r)
      (failed : ∀ e, r = .error e →
        ∃ p, (m.run k).returned? = some p ∧ (m.run k).forcedBy? = some l)

theorem ForcingEnds.later (h : m.ForcingEnds depth j l aim stack) (hm : m.Reachable) (hij : i ≤ j)
    (habove : m.Stays depth i j) : m.ForcingEnds depth i l aim stack := by
  cases h with
  | used hk hstays hused hnext =>
    exact .used (Nat.le_trans hij hk) (habove.join hstays (Nat.le_succ j)) hused hnext
  | forced hk hstays hcounted hhands hfailed =>
    refine .forced (Nat.le_trans hij hk) (habove.join hstays (Nat.le_succ j)) ?_ hhands hfailed
    exact Nat.lt_of_le_of_lt (forced_mono hm l hij) hcounted

/-- A pending that a loop has counted is forced, unless it was resolved while its rule ran. -/
theorem Tame.forces (h : m.Tame depth) (hm : m.Reachable) (hinside : m.Stays depth 1 i)
    (hdepth : depth ≤ stack.length) (hstack : (m.run i).stack = .charging l aim p :: stack)
    (hcontrol : (m.run i).control = .rank p) :
    ∃ k r, i ≤ k ∧ m.Stays depth i k ∧ m.Hands (k + 1) (aim.frame l :: stack) r ∧
      ∀ e, r = .error e →
        ∃ p, (m.run k).returned? = some p ∧ (m.run k).forcedBy? = some l := by
  obtain ⟨n, rank, hn, hstays, htold⟩ :=
    h.tells (f := .charging l aim p) trivial hinside hstack hcontrol hdepth
  let noted : Machine σ := { m.run n with
    store := (m.run n).store.record (.forced ((m.run n).store.pendingNumber p) (rankOf rank))
    stack := aim.frame l :: stack }
  have hnext : m.run (n + 1) = noted.startResolver p := htold.next
  rcases noted.startResolver_cases p with ⟨-, hgone⟩ | ⟨res, control, -, hstarted⟩
  · -- there is no resolver any more
    rw [hgone] at hnext
    exact ⟨n, unit, Nat.le_of_lt hn, hstays, ⟨by rw [hnext]; rfl, by rw [hnext]; rfl⟩, nofun⟩
  rw [hstarted] at hnext
  have htop : (m.run (n + 1)).stack = .resolving p :: aim.frame l :: stack := by
    rw [hnext]
  have hinvoked : (m.run n).invoked? = some p := by
    refine invoked?_of_stack ((step_answer htold.2 htold.1).trans (congrArg some ?_)) htop ?_
    · exact htold.next.symm
    · rw [Machine.resolvers, htold.1, Machine.resolvers, htop]
      cases aim <;> exact Nat.lt_succ_self _
  obtain ⟨k, r, hk, hstays', hret, htop', hhands⟩ := h.resolves hm (hinside.join hstays (Nat.le_succ i))
    hinvoked htop (Nat.le_succ_of_le hdepth)
  refine ⟨k, r, by omega, hstays.join hstays' (Nat.le_refl _), hhands, fun _ _ => ⟨p, hret, ?_⟩⟩
  rw [forcedBy?, htop']
  exact aim.forcingLoop?_frame l

/-- **A loop that has found a pending** which it can force asks the rest for their ranks, one after
the other, and then forces the best one unless its budget is used up. -/
theorem Tame.picks (h : m.Tame depth) (hm : m.Reachable) (hdepth : depth ≤ stack.length)
    (best : PendingId × Option Int) (ps : List PendingId) (hinside : m.Stays depth 1 i)
    (hhere : m.Stays depth i i) (hl : l < (m.run i).store.loops.size)
    (hnext : m.run (i + 1) = { m.run i with stack }.pick l aim (some best) ps) :
    m.ForcingEnds depth i l aim stack := by
  generalize hlength : ps.length = n
  induction n using Nat.strong_induction_on generalizing i best ps with
  | _ n ih =>
  rcases pick_cases { m.run i with stack } l aim (some best) ps with
    ⟨before, q, rest, rfl, -, -, hpick⟩ | ⟨-, ⟨q, rank, -, hpick⟩ | ⟨hnone, -⟩⟩
  · -- another one is asked for its rank
    rw [hpick] at hnext
    have hstack : (m.run (i + 1)).stack = .choosing l aim (some best) q rest :: stack := by
      rw [hnext]
      rfl
    have hasked := hhere.join (stays_of_stack hstack (Nat.lt_succ_of_le hdepth)) (Nat.le_refl _)
    obtain ⟨k, r, hk, hstays, htold⟩ := h.tells (f := .choosing l aim (some best) q rest) (p := q)
      trivial (hinside.join hasked (Nat.le_succ i)) hstack (by rw [hnext]; rfl) hdepth
    have hpast : m.Stays depth i k := hasked.join hstays (Nat.le_succ _)
    have hshorter : rest.length < n := by
      rw [← hlength, List.length_append, List.length_cons]
      omega
    have hl' : l < (m.run k).store.loops.size :=
      (hm.run k).housed _ (htold.1 ▸ List.mem_cons_self) l rfl
    exact (ih rest.length hshorter _ rest (hinside.join hpast (Nat.le_succ i))
      (stays_of_stack htold.1 (Nat.lt_succ_of_le hdepth)) hl' htold.next rfl).later hm (by omega) hpast
  · rw [hpick, charge] at hnext
    dsimp only at hnext
    split at hnext
    · next hused => exact .used (Nat.le_refl i) hhere hused hnext
    have hstack : (m.run (i + 1)).stack = .charging l aim q :: stack := by
      rw [hnext]
      rfl
    have hcounted : ((m.run (i + 1)).store.loop l).forced = ((m.run i).store.loop l).forced + 1 := by
      have hloop := (m.run i).store.loop_counted l l
      rw [if_pos ⟨rfl, hl⟩] at hloop
      rw [hnext]
      exact congrArg LoopState.forced hloop
    have hcharged := hhere.join (stays_of_stack hstack (Nat.lt_succ_of_le hdepth)) (Nat.le_refl _)
    obtain ⟨k, r, hk, hstays, hhands, hfailed⟩ := h.forces hm (hinside.join hcharged (Nat.le_succ i))
      hdepth hstack (by rw [hnext]; rfl)
    refine .forced (by omega) (hcharged.join hstays (Nat.le_succ _)) ?_ hhands hfailed
    have hmono := forced_mono hm l (Nat.le_add_right_of_le hk : i + 1 ≤ k + 1)
    omega
  · cases hnone

/-- **A loop that chooses a pending** finds none, or goes on to force one. -/
theorem Tame.chooses (h : m.Tame depth) (hm : m.Reachable) (hdepth : depth ≤ stack.length)
    (hinside : m.Stays depth 1 i) (hhere : m.Stays depth i i)
    (hnext : m.run (i + 1) = { m.run i with stack }.choose l aim) :
    (∀ p ∈ (m.run i).store.pendingsOf l, (m.run i).eligible aim p = false) ∧
      m.run (i + 1) = { m.run i with stack }.noneLeft l aim ∨
    l < (m.run i).store.loops.size ∧ m.ForcingEnds depth i l aim stack := by
  rw [choose] at hnext
  rcases pick_cases { m.run i with stack } l aim none ((m.run i).store.loop l).pendings with
    ⟨before, p, rest, hps, -, -, hpick⟩ | ⟨hnone, ⟨p, rank, hbest, -⟩ | ⟨-, hpick⟩⟩
  · have hp : p ∈ ((m.run i).store.loop l).pendings :=
      hps ▸ List.mem_append_right _ List.mem_cons_self
    refine .inr ⟨loop_lt_of_pending hp, ?_⟩
    rw [hpick] at hnext
    have hstack : (m.run (i + 1)).stack = .choosing l aim none p rest :: stack := by
      rw [hnext]
      rfl
    have hasked := hhere.join (stays_of_stack hstack (Nat.lt_succ_of_le hdepth)) (Nat.le_refl _)
    obtain ⟨k, r, hk, hstays, htold⟩ := h.tells (f := .choosing l aim none p rest) (p := p) trivial
      (hinside.join hasked (Nat.le_succ i)) hstack (by rw [hnext]; rfl) hdepth
    have hpast : m.Stays depth i k := hasked.join hstays (Nat.le_succ _)
    have hl : l < (m.run k).store.loops.size :=
      (hm.run k).housed _ (htold.1 ▸ List.mem_cons_self) l rfl
    exact (h.picks hm hdepth _ rest (hinside.join hpast (Nat.le_succ i))
      (stays_of_stack htold.1 (Nat.lt_succ_of_le hdepth)) hl htold.next).later hm (by omega) hpast
  · cases hbest
  · refine .inl ⟨fun p hp => hnone p ?_, hnext.trans hpick⟩
    rwa [((hm.run i).registered l).1]

end

/-- What a loop answers when it cannot go on. -/
theorem driveEnds_deadlocked (goal : Goal) {stack : List (Frame σ)} (hm : m.Reachable)
    (hnext : m.run (k + 1) = { m.run k with stack }.deadlocked l)
    (hstuck : (∀ p ∈ (m.run k).store.pendingsOf l, ¬ (m.run k).store.Forcible p) ∨
      ((m.run k).store.loop l).config.maxForced ≤ ((m.run k).store.loop l).forced) :
    ∃ r, m.Hands (k + 1) stack r ∧ m.DriveEnds l goal k r := by
  -- a diagnostic is all that is new in the store
  have hlist : (m.run k).store.loopPendings l
      (fun p => (m.run k).store.isOpen p && (m.run k).store.hasWaiters p) =
        (m.run (k + 1)).store.blocked l := by
    rw [Store.loopPendings, ((hm.run k).registered l).1, hnext]
    rfl
  have hanswer : (m.run (k + 1)).control = .answer (.error (.deadlock
      (((m.run (k + 1)).store.blocked l).map (m.run (k + 1)).store.pendingNumber))) := by
    rw [← hlist, hnext]
    rfl
  refine ⟨_, ⟨by rw [hnext]; rfl, hanswer⟩, .deadlock ?_⟩
  rw [hnext]
  exact hstuck

/-- What a loop does when no task is ready. -/
theorem driveOn_cases (m : Machine σ) (l : LoopId) (goal : Goal) :
    (∃ e errors, (m.store.loop l).errors = e :: errors ∧ m.driveOn l goal = { m with
      store := m.store.modifyLoop l fun loop => { loop with errors } }.answer (.error e)) ∨
    ((m.store.loop l).errors = [] ∧
      (m.goalReached l goal = true ∨ (m.store.loop l).tasks = []) ∧
        m.driveOn l goal = m.answer unit) ∨
    (m.store.loop l).errors = [] ∧ m.driveOn l goal = m.choose l (.drive goal) := by
  rw [driveOn]
  cases herrors : (m.store.loop l).errors with
  | cons e errors => exact .inl ⟨e, errors, rfl, rfl⟩
  | nil =>
    refine .inr ?_
    dsimp only
    by_cases hover : (m.goalReached l goal || (m.store.loop l).tasks.isEmpty) = true
    · rw [if_pos hover]
      rw [Bool.or_eq_true, List.isEmpty_iff] at hover
      exact .inl ⟨rfl, hover, rfl⟩
    · exact .inr ⟨rfl, if_neg hover⟩

/-- The budget of a loop that has counted a pending is smaller from then on. -/
theorem budget_lt {j : Nat} (hm : m.Reachable) (hl : l < (m.run i).store.loops.size) (hij : i ≤ j)
    (hcounted : ((m.run i).store.loop l).forced < ((m.run j).store.loop l).forced) :
    ((m.run j).store.loop l).config.maxForced - ((m.run j).store.loop l).forced <
      ((m.run i).store.loop l).config.maxForced - ((m.run i).store.loop l).forced := by
  obtain ⟨d, rfl⟩ := Nat.exists_eq_add_of_le hij
  have hconfig := run_config hl d
  have hlimit := (hm.run (i + d)).thrifty l
  rw [← run_add] at hconfig
  rw [hconfig] at hlimit ⊢
  omega

section

variable {goal : Goal} {stack : List (Frame σ)} {slot : Slot} {j : Nat}

theorem DriveReturns.later (h : m.DriveReturns depth j l goal stack) (hij : i ≤ j)
    (habove : m.Stays depth i j) : m.DriveReturns depth i l goal stack := by
  obtain ⟨k, r, hk, hstays, hends⟩ := h
  exact ⟨k, r, Nat.le_trans hij hk, habove.join hstays (Nat.le_succ j), hends⟩

/-- **A loop that is driven when no task is ready** ends, or it counts a pending, forces it, and
goes on. -/
theorem Tame.drives_on (htame : m.Tame depth) (hm : m.Reachable) (hdepth : depth ≤ stack.length)
    (hinside : m.Stays depth 1 i) (hpolls : m.Polls i (.drive l goal :: stack) l)
    (hempty : ((m.run i).store.loop l).ready = []) :
    m.DriveReturns depth i l goal stack ∨ l < (m.run i).store.loops.size ∧ ∃ j, i < j ∧
      ((m.run i).store.loop l).forced < ((m.run j).store.loop l).forced ∧ m.Stays depth i j ∧
        m.Polls j (.drive l goal :: stack) l := by
  obtain ⟨hstack, polled, hcontrol⟩ := hpolls
  have hhere := stays_of_stack hstack (Nat.lt_succ_of_le hdepth)
  have hnext := run_of_step (step_driveOn hcontrol hstack hempty)
  rcases driveOn_cases { m.run i with stack } l goal with ⟨e, errors, hkept, h⟩ |
    ⟨herrors, hover, h⟩ | ⟨-, h⟩ <;> rw [h] at hnext
  · -- an error is told
    refine .inl ⟨i, _, Nat.le_refl i, hhere, ⟨?_, ?_⟩, .task hkept⟩ <;>
      exact hnext ▸ rfl
  · -- the goal is reached, or no task is left
    refine .inl ⟨i, _, Nat.le_refl i, hhere, ⟨?_, ?_⟩, .done ?_ ?_⟩ <;> rw [hnext]
    · rfl
    · rfl
    · exact herrors
    · exact hover
  rcases htame.chooses hm hdepth hinside hhere hnext with ⟨hnone, hnext⟩ | ⟨hl, hforcing⟩
  · -- there is nothing to force
    have hstuck : ∀ p ∈ (m.run i).store.pendingsOf l, ¬ (m.run i).store.Forcible p := by
      intro p hp hforcible
      exact Bool.noConfusion ((hnone p hp).symm.trans (eligible_drive.mpr hforcible))
    obtain ⟨r, hhands, hends⟩ := driveEnds_deadlocked goal hm hnext (.inl hstuck)
    exact .inl ⟨i, r, Nat.le_refl i, hhere, hhands, hends⟩
  cases hforcing with
  | @used k hk hstays hused hnext =>
    obtain ⟨r, hhands, hends⟩ := driveEnds_deadlocked goal hm hnext (.inr hused)
    exact .inl ⟨k, r, hk, hstays, hhands, hends⟩
  | @forced k r hk hstays hcounted hhands hfailed =>
    have habove := hstays.join (stays_of_stack hhands.1 (Nat.lt_succ_of_le hdepth)) (Nat.le_refl _)
    have hnext : m.run (k + 1 + 1) = { m.run (k + 1) with stack }.resume r _ := hhands.next
    cases r with
    | error e =>
      obtain ⟨p, hret, hown⟩ := hfailed e rfl
      refine .inl ⟨k + 1, .error e, by omega, habove, ⟨?_, ?_⟩, .resolver hret hown hhands.2⟩ <;>
        exact hnext ▸ rfl
    | ok slot =>
      have hpolls : m.Polls (k + 2) (.drive l goal :: stack) l := by
        rw [Polls, hnext]
        exact ⟨rfl, false, rfl⟩
      have hthere := stays_of_stack hpolls.1 (Nat.lt_succ_of_le hdepth)
      have hmono := forced_mono hm l (Nat.le_succ (k + 1))
      exact .inr ⟨hl, k + 2, by omega, Nat.lt_of_lt_of_le hcounted hmono,
        habove.join hthere (Nat.le_refl _), hpolls⟩

/-- A driven loop with no ready task ends, for it has a smaller budget after each pending that it
forces. -/
theorem Polling.drives (hpolling : m.Polling depth start) (htame : m.Tame depth) (hm : m.Reachable)
    (hi : start ≤ i) (hdepth : depth ≤ stack.length) (hinside : m.Stays depth 1 i)
    (hpolls : m.Polls i (.drive l goal :: stack) l)
    (hempty : ((m.run i).store.loop l).ready = []) : m.DriveReturns depth i l goal stack := by
  generalize hbudget : ((m.run i).store.loop l).config.maxForced -
    ((m.run i).store.loop l).forced = budget
  induction budget using Nat.strong_induction_on generalizing i with
  | _ budget ih =>
    rcases htame.drives_on hm hdepth hinside hpolls hempty with
      hreturns | ⟨hl, j, hj, hcounted, habove, hpolls'⟩
    · exact hreturns
    obtain ⟨n, hn, hstays, hpolls'', hempty'⟩ := hpolling j l (.drive l goal :: stack) (by omega)
      (Nat.lt_succ_of_le hdepth) (hinside.join habove (Nat.le_succ i)) hpolls'
    have hpast : m.Stays depth i n := habove.join hstays (Nat.le_succ j)
    have hsmaller := budget_lt hm hl (by omega) (Nat.lt_of_lt_of_le hcounted (forced_mono hm l hn))
    exact (ih _ (hbudget ▸ hsmaller) (by omega) (hinside.join hpast (Nat.le_succ i)) hpolls''
      hempty' rfl).later (by omega) hpast

/-- **Driving ends** if polling does: the loop polls until no task is ready. -/
theorem driving_of (htame : m.Tame depth) (hm : m.Reachable) (hpolling : m.Polling depth start) :
    m.Driving depth start := by
  intro i l goal stack hi hdepth hinside hpolls
  obtain ⟨k, hk, hstays, hpolls', hempty⟩ :=
    hpolling i l (.drive l goal :: stack) hi (Nat.lt_succ_of_le hdepth) hinside hpolls
  exact (hpolling.drives htame hm (Nat.le_trans hi hk) hdepth (hinside.join hstays (Nat.le_succ i))
    hpolls' hempty).later hk hstays

end

/-! ### Finishing -/

/-- A loop that is to leave no pending and finds none that it can force ends, without an error if
all its pendings are closed. -/
theorem noneLeft_finish_cases (m : Machine σ) (l : LoopId) :
    (m.store.loopPendings l m.store.isOpen = [] ∧ m.noneLeft l .finish = m.answer unit) ∨
    ∃ e s, m.noneLeft l .finish = { m with store := s }.answer (.error e) := by
  rw [noneLeft]
  cases hopen : m.store.loopPendings l m.store.isOpen with
  | nil => exact .inl ⟨rfl, rfl⟩
  | cons p ps => exact .inr ⟨_, _, rfl⟩

section

variable {stack : List (Frame σ)} {slot : Slot} {j : Nat}

/-- Finishing a loop may end with an error at any time. -/
theorem finishEnds_error {e : InferError} (hle : i ≤ k) (hstays : m.Stays depth i k)
    (h : m.Hands (k + 1) stack (.error e)) : m.FinishEnds depth i l stack := by
  refine ⟨k, .error e, hle, hstays, h, fun slot hok => ?_⟩
  cases hok

theorem FinishEnds.later (h : m.FinishEnds depth j l stack) (hij : i ≤ j)
    (habove : m.Stays depth i j) : m.FinishEnds depth i l stack := by
  obtain ⟨k, r, hk, hstays, hends⟩ := h
  exact ⟨k, r, Nat.le_trans hij hk, habove.join hstays (Nat.le_succ j), hends⟩

/-- At a step of the run a loop that finishes has run, and no task and no error is left. -/
structure HasRun (m : Machine σ) (i : Nat) (l : LoopId) (stack : List (Frame σ)) : Prop where
  handed : ∃ slot, m.Hands i (.finishRunning l :: stack) (.ok slot)
  tasks : ((m.run i).store.loop l).tasks = []
  errors : ((m.run i).store.loop l).errors = []

/-- A loop that finishes is driven first, and then it has run, or it ends with an error. -/
theorem Driving.has_run (h : m.Driving depth start) (hi : start ≤ i) (hdepth : depth ≤ stack.length)
    (hinside : m.Stays depth 1 i)
    (hpolls : m.Polls i (.drive l .idle :: .finishRunning l :: stack) l) :
    m.FinishEnds depth i l stack ∨ ∃ j, i < j ∧ m.Stays depth i j ∧ m.HasRun j l stack := by
  obtain ⟨k, r, hk, hstays, hhands, hends⟩ :=
    h i l .idle (.finishRunning l :: stack) hi (Nat.le_succ_of_le hdepth) hinside hpolls
  have habove : m.Stays depth i (k + 1) :=
    hstays.join (stays_of_stack hhands.1 (Nat.lt_succ_of_le hdepth)) (Nat.le_refl _)
  cases r with
  | error e =>
    have hnext : m.run (k + 1 + 1) = { m.run (k + 1) with stack }.answer (.error e) := hhands.next
    exact .inl (finishEnds_error (by omega) habove ⟨by rw [hnext]; rfl, by rw [hnext]; rfl⟩)
  | ok slot =>
    cases hends with
    | done herrors hover =>
      exact .inr ⟨k + 1, by omega, habove, ⟨_, hhands⟩, hover.resolve_left Bool.false_ne_true, herrors⟩

/-- **A loop that has run** ends, or it counts a pending, forces it, and is driven again. -/
theorem HasRun.goes_on (h : m.HasRun i l stack) (htame : m.Tame depth) (hm : m.Reachable)
    (hdepth : depth ≤ stack.length) (hinside : m.Stays depth 1 i) :
    m.FinishEnds depth i l stack ∨ l < (m.run i).store.loops.size ∧ ∃ j, i < j ∧
      ((m.run i).store.loop l).forced < ((m.run j).store.loop l).forced ∧ m.Stays depth i j ∧
        m.Polls j (.drive l .idle :: .finishRunning l :: stack) l := by
  obtain ⟨⟨slot, hhands⟩, htasks, herrors⟩ := h
  have hhere := stays_of_stack hhands.1 (Nat.lt_succ_of_le hdepth)
  have hnext : m.run (i + 1) = { m.run i with stack }.choose l .finish := hhands.next
  rcases htame.chooses hm hdepth hinside hhere hnext with ⟨-, hnext⟩ | ⟨hl, hforcing⟩
  · rcases noneLeft_finish_cases { m.run i with stack } l with ⟨hclosed, h⟩ | ⟨e, s, h⟩ <;>
      rw [h] at hnext
    · -- no pending of the loop is open
      have hall : ∀ p ∈ (m.run i).store.pendingsOf l, (m.run i).store.isOpen p = false := by
        intro p hp
        rw [← ((hm.run i).registered l).1] at hp
        refine Bool.eq_false_iff.mpr fun hopen => List.not_mem_nil (a := p) ?_
        exact hclosed ▸ List.mem_filter.mpr ⟨hp, hopen⟩
      refine .inl ⟨i, _, Nat.le_refl i, hhere, ⟨by rw [hnext]; rfl, by rw [hnext]; rfl⟩,
        fun _ _ => ?_⟩
      rw [hnext]
      exact ⟨htasks, herrors, hall⟩
    · exact .inl (finishEnds_error (Nat.le_refl i) hhere ⟨by rw [hnext]; rfl, by rw [hnext]; rfl⟩)
  cases hforcing with
  | used hk hstays _ hnext =>
    exact .inl (finishEnds_error hk hstays ⟨by rw [hnext]; rfl, by rw [hnext]; rfl⟩)
  | @forced k r hk hstays hcounted hhands _ =>
    have habove := hstays.join (stays_of_stack hhands.1 (Nat.lt_succ_of_le hdepth)) (Nat.le_refl _)
    have hnext : m.run (k + 1 + 1) = { m.run (k + 1) with stack }.resume r _ := hhands.next
    cases r with
    | error e =>
      exact .inl (finishEnds_error (by omega) habove ⟨by rw [hnext]; rfl, by rw [hnext]; rfl⟩)
    | ok slot =>
      have hpolls : m.Polls (k + 2) (.drive l .idle :: .finishRunning l :: stack) l := by
        rw [Polls, hnext]
        exact ⟨rfl, false, rfl⟩
      have hthere := stays_of_stack hpolls.1 (Nat.lt_succ_of_le (Nat.le_succ_of_le hdepth))
      have hmono := forced_mono hm l (Nat.le_succ (k + 1))
      exact .inr ⟨hl, k + 2, by omega, Nat.lt_of_lt_of_le hcounted hmono,
        habove.join hthere (Nat.le_refl _), hpolls⟩

/-- A loop that has run ends, for it has a smaller budget after each pending that it forces. -/
theorem Driving.finishes (hdriving : m.Driving depth start) (htame : m.Tame depth)
    (hm : m.Reachable) (hi : start ≤ i) (hdepth : depth ≤ stack.length) (hinside : m.Stays depth 1 i)
    (h : m.HasRun i l stack) : m.FinishEnds depth i l stack := by
  generalize hbudget : ((m.run i).store.loop l).config.maxForced -
    ((m.run i).store.loop l).forced = budget
  induction budget using Nat.strong_induction_on generalizing i with
  | _ budget ih =>
    rcases h.goes_on htame hm hdepth hinside with hends | ⟨hl, j, hj, hcounted, habove, hpolls⟩
    · exact hends
    have hinside' : m.Stays depth 1 j := hinside.join habove (Nat.le_succ i)
    rcases hdriving.has_run (by omega) hdepth hinside' hpolls with hends | ⟨n, hn, hstays, hran⟩
    · exact hends.later (Nat.le_of_lt hj) habove
    have hmono := forced_mono hm l (Nat.le_of_lt hn)
    have hsmaller := budget_lt hm hl (by omega) (Nat.lt_of_lt_of_le hcounted hmono)
    have hpast : m.Stays depth i n := habove.join hstays (Nat.le_succ j)
    exact (ih _ (hbudget ▸ hsmaller) (by omega) (hinside.join hpast (Nat.le_succ i)) hran rfl).later
      (by omega) hpast

/-- **Finishing ends** if driving does. -/
theorem finishing_of (htame : m.Tame depth) (hm : m.Reachable) (hdriving : m.Driving depth start) :
    m.Finishing depth start := by
  intro i l stack hi hdepth hinside hpolls
  rcases hdriving.has_run hi hdepth hinside hpolls with hends | ⟨j, hj, hstays, hran⟩
  · exact hends
  exact (hdriving.finishes htame hm (by omega) hdepth (hinside.join hstays (Nat.le_succ i)) hran).later
    (Nat.le_of_lt hj) hstays

end

/-! ### Tasks under way -/

/-- A task that forces a pending has its outcome at once, starts its resolver, or drives its
loop. -/
theorem startForce_cases (m : Machine σ) (l : LoopId) (p : PendingId) :
    ((m.startForce l p).stack = m.stack ∧ ∃ r, (m.startForce l p).control = .answer r) ∨
    (m.startForce l p).stack = .resolving p :: .forcing l p :: m.stack ∨
    m.startForce l p = (m.push (.forcing l p)).startDrive l (.closed p) := by
  rw [startForce]
  split
  · exact .inl ⟨rfl, _, rfl⟩
  split
  · exact .inl ⟨rfl, _, rfl⟩
  split
  · next hresolver =>
    obtain ⟨r, hr⟩ := Option.isSome_iff_exists.mp hresolver
    rcases (m.push (.forcing l p)).startResolver_cases p with ⟨hnone, -⟩ | ⟨r', control, -, h⟩
    · cases hnone.symm.trans hr
    · exact .inr (.inl (by rw [h]; rfl))
  · exact .inr (.inr rfl)

/-- The outcome of a pending that was forced is handed to the caller. -/
theorem Hands.forcing {stack : List (Frame σ)} {r : Outcome}
    (h : m.Hands i (.forcing l p :: stack) r) : ∃ r', m.Hands (i + 1) stack r' := by
  have hnext := h.next
  cases r with
  | error e => exact ⟨.error e, by rw [hnext]; rfl, by rw [hnext]; rfl⟩
  | ok slot =>
    rw [resume, forceDone] at hnext
    split at hnext <;> exact ⟨_, by rw [hnext]; rfl, by rw [hnext]; rfl⟩

/-- The outcome of a watched task is handed to the caller. -/
theorem Hands.watching {t : TaskId} {stack : List (Frame σ)} {r : Outcome}
    (h : m.Hands i (.watching l t :: stack) r) : ∃ r', m.Hands (i + 1) stack r' := by
  have hnext := h.next
  cases r with
  | error e => exact ⟨.error e, by rw [hnext]; rfl, by rw [hnext]; rfl⟩
  | ok slot =>
    rw [resume, takeOutcome] at hnext
    split at hnext <;> exact ⟨_, by rw [hnext]; rfl, by rw [hnext]; rfl⟩

section

variable {stack base : List (Frame σ)} {code : Program σ} {j : Nat}

/-- Whatever code of a task is on top of some frames, the task gives way: when the code has an
outcome, and when it waits. -/
structure GivesWay (m : Machine σ) (depth start : Nat) (l : LoopId)
    (stack base : List (Frame σ)) : Prop where
  higher : depth < base.length
  handed : ∀ i r, start ≤ i → m.Stays depth 1 i → m.Hands i base r → m.YieldEnds depth i l stack
  pauses : ∀ i m' code, start ≤ i → m.Stays depth 1 i → m.Stays depth i i →
    m.run (i + 1) = pause m' code base → m.YieldEnds depth i l stack

/-- A task that executes some code gives way, from some step on. -/
def Yields (m : Machine σ) (depth start : Nat) (l : LoopId) (stack : List (Frame σ))
    (code : Program σ) : Prop :=
  ∀ i base, m.GivesWay depth start l stack base → start ≤ i → m.Stays depth 1 i →
    m.Execs i base code → m.YieldEnds depth i l stack

/-- The task goes on with other code later. -/
theorem Yields.later (h : m.Yields depth start l stack code)
    (hbase : m.GivesWay depth start l stack base) (hi : start ≤ i) (hinside : m.Stays depth 1 i)
    (hij : i ≤ j) (habove : m.Stays depth i j) (hexec : m.Execs j base code) :
    m.YieldEnds depth i l stack := by
  obtain ⟨k, hk, hstays, hpolls⟩ := h j base hbase (Nat.le_trans hi hij)
    (hinside.join habove (Nat.le_succ i)) hexec
  exact ⟨k, Nat.lt_of_le_of_lt hij hk, habove.join hstays (Nat.le_succ j), hpolls⟩

/-- The task goes on at the next step. -/
theorem Yields.next (h : m.Yields depth start l stack code)
    (hbase : m.GivesWay depth start l stack base) (hi : start ≤ i) (hinside : m.Stays depth 1 i)
    (hhere : m.Stays depth i i) (hexec : m.Execs (i + 1) base code) :
    m.YieldEnds depth i l stack := by
  have hthere := stays_of_stack hexec.1 hbase.higher
  exact h.later hbase hi hinside (Nat.le_succ i) (hhere.join hthere (Nat.le_refl _)) hexec

/-! ### Pieces of code -/

/-- Without other pieces the task completes, or goes back to its table. -/
theorem GivesWay.task {t : TaskId} {body : TaskBody} (hdepth : depth < stack.length) :
    m.GivesWay depth start l stack (.task l t body :: stack) where
  higher := Nat.lt_succ_of_lt hdepth
  handed i r _ _ hhands := by
    have hhere := stays_of_stack hhands.1 (Nat.lt_succ_of_lt hdepth)
    have hdone := stays_of_stack hhands.task.1 hdepth
    exact ⟨i + 1, Nat.lt_succ_self i, hhere.join hdone (Nat.le_refl _), hhands.task⟩
  pauses i m' code _ _ hhere hnext := by
    have hpolls : m.Polls (i + 1) stack l := by
      rw [Polls, hnext]
      cases body <;> exact ⟨rfl, true, rfl⟩
    exact ⟨i + 1, Nat.lt_succ_self i, hhere.join (stays_of_stack hpolls.1 hdepth) (Nat.le_refl _),
      hpolls⟩

section

variable {rule : Fork} {next : rule.Answer → Program σ}

/-- The right one of two pieces of code: what is joined goes on or waits. -/
theorem GivesWay.right (h : m.GivesWay depth start l stack base) (left : Program σ)
    (hnext : ∀ a, m.Yields depth start l stack (next a)) :
    m.GivesWay depth start l stack (.right rule left next :: base) where
  higher := Nat.lt_succ_of_lt h.higher
  handed i r hi hinside hhands := by
    have hhere := stays_of_stack hhands.1 (Nat.lt_succ_of_lt h.higher)
    have hthen : m.run (i + 1) = { m.run i with stack := base }.rightDone r left rule next :=
      hhands.next
    cases rule with
    | race => exact (hnext _).next h hi hinside hhere ⟨by rw [hthen]; rfl, by rw [hthen]; rfl⟩
    | join =>
      cases left with
      | done a => exact (hnext _).next h hi hinside hhere ⟨by rw [hthen]; rfl, by rw [hthen]; rfl⟩
      | _ => exact h.pauses i _ _ hi hinside hhere hthen
  pauses i m' code hi hinside hhere hthen := h.pauses i m' _ hi hinside hhere hthen

/-- The left one of two pieces of code: the right one has its turn. -/
theorem GivesWay.left {right : Program σ} (h : m.GivesWay depth start l stack base)
    (hright : m.Yields depth start l stack right)
    (hnext : ∀ a, m.Yields depth start l stack (next a)) :
    m.GivesWay depth start l stack (.left rule right next :: base) where
  higher := Nat.lt_succ_of_lt h.higher
  handed i r hi hinside hhands := by
    have hhere := stays_of_stack hhands.1 (Nat.lt_succ_of_lt h.higher)
    have hthen : m.run (i + 1) = { m.run i with stack := base }.leftDone r right rule next :=
      hhands.next
    cases rule with
    | join =>
      exact hright.next (h.right (.done r) hnext) hi hinside hhere
        ⟨by rw [hthen]; rfl, by rw [hthen]; rfl⟩
    | race => exact (hnext _).next h hi hinside hhere ⟨by rw [hthen]; rfl, by rw [hthen]; rfl⟩
  pauses i m' code hi hinside hhere hthen :=
    hright.next (h.right code hnext) hi hinside hhere ⟨by rw [hthen]; rfl, by rw [hthen]; rfl⟩

theorem yields_fork {left right : Program σ} (hleft : m.Yields depth start l stack left)
    (hright : m.Yields depth start l stack right)
    (hnext : ∀ a, m.Yields depth start l stack (next a)) :
    m.Yields depth start l stack (.fork rule left right next) := by
  intro i base hbase hi hinside hexec
  refine hleft.next (hbase.left hright hnext) hi hinside (stays_of_stack hexec.1 hbase.higher) ?_
  rw [Execs, hexec.next, ← hexec.1]
  exact ⟨rfl, rfl⟩

end

/-! ### Requests -/

/-- The task goes on with the outcome of a call. -/
theorem yieldEnds_called {next : Outcome → Program σ} {r : Outcome}
    (h : ∀ r, m.Yields depth start l stack (next r)) (hbase : m.GivesWay depth start l stack base)
    (hi : start ≤ i) (hinside : m.Stays depth 1 i) (hij : i ≤ j) (habove : m.Stays depth i j)
    (hhands : m.Hands (j + 1) (.client next :: base) r) : m.YieldEnds depth i l stack := by
  have hexec : m.Execs (j + 2) base (next r) := by
    rw [Execs, hhands.next]
    exact ⟨rfl, rfl⟩
  have hreturned := stays_of_stack hhands.1 (Nat.lt_succ_of_lt hbase.higher)
  have hgone := stays_of_stack hexec.1 hbase.higher
  exact (h r).later hbase hi hinside (by omega)
    ((habove.join hreturned (Nat.le_refl _)).join hgone (Nat.le_refl _)) hexec

theorem yields_done (outcome : Outcome) : m.Yields depth start l stack (.done outcome) := by
  intro i base hbase hi hinside hexec
  have hhands : m.Hands (i + 1) base outcome := by
    rw [Hands, hexec.next]
    exact ⟨hexec.1, rfl⟩
  have habove := (stays_of_stack hexec.1 hbase.higher).join
    (stays_of_stack hhands.1 hbase.higher) (Nat.le_refl _)
  obtain ⟨k, hk, hstays, hpolls⟩ := hbase.handed (i + 1) outcome (Nat.le_succ_of_le hi)
    (hinside.join habove (Nat.le_succ i)) hhands
  exact ⟨k, by omega, habove.join hstays (Nat.le_succ _), hpolls⟩

/-- A request that is answered at once. -/
theorem yields_of_execute {α : Type} {next : α → Program σ}
    (hanswer : ∀ m : Machine σ, ∃ a, (m.execute code).stack = m.stack ∧
      (m.execute code).control = .exec (next a))
    (h : ∀ a, m.Yields depth start l stack (next a)) : m.Yields depth start l stack code := by
  intro i base hbase hi hinside hexec
  obtain ⟨a, hstack, hcontrol⟩ := hanswer (m.run i)
  rw [← hexec.next] at hstack hcontrol
  exact (h a).next hbase hi hinside (stays_of_stack hexec.1 hbase.higher)
    ⟨hstack.trans hexec.1, hcontrol⟩

theorem yields_await (w : Wait) {next : Outcome → Program σ}
    (h : ∀ a, m.Yields depth start l stack (next a)) :
    m.Yields depth start l stack (.await w next) := by
  intro i base hbase hi hinside hexec
  have hhere := stays_of_stack hexec.1 hbase.higher
  have hnext := hexec.next
  rw [execute, await] at hnext
  split at hnext
  · exact (h _).next hbase hi hinside hhere ⟨by rw [hnext]; exact hexec.1, by rw [hnext]; rfl⟩
  next p _ =>
  split at hnext
  · rw [hexec.1] at hnext
    exact hbase.pauses i _ _ hi hinside hhere hnext
  · -- code that cannot wait is told so
    have hhands : m.Hands (i + 1) base (.error (.deadlock [(m.run i).store.pendingNumber p])) := by
      rw [Hands, hnext]
      exact ⟨hexec.1, rfl⟩
    have habove := hhere.join (stays_of_stack hhands.1 hbase.higher) (Nat.le_refl _)
    obtain ⟨k, hk, hstays, hpolls⟩ := hbase.handed (i + 1) _ (Nat.le_succ_of_le hi)
      (hinside.join habove (Nat.le_succ i)) hhands
    exact ⟨k, by omega, habove.join hstays (Nat.le_succ _), hpolls⟩

theorem Tame.yields_rank (htame : m.Tame depth) (p : PendingId) {next : Option Int → Program σ}
    (h : ∀ a, m.Yields depth start l stack (next a)) :
    m.Yields depth start l stack (.rank p next) := by
  intro i base hbase hi hinside hexec
  have hstack : (m.run (i + 1)).stack = .ranked next :: base := by
    rw [hexec.next, ← hexec.1]
    rfl
  have hasked := (stays_of_stack hexec.1 hbase.higher).join
    (stays_of_stack hstack (Nat.lt_succ_of_lt hbase.higher)) (Nat.le_refl _)
  obtain ⟨k, r, hk, hstays, htold⟩ := htame.tells (f := .ranked next) (p := p) trivial
    (hinside.join hasked (Nat.le_succ i)) hstack (by rw [hexec.next]; rfl) (Nat.le_of_lt hbase.higher)
  have hexec' : m.Execs (k + 1) base (next (rankOf r)) := by
    rw [Execs, htold.next]
    exact ⟨rfl, rfl⟩
  refine (h _).later hbase hi hinside (by omega) ?_ hexec'
  exact (hasked.join hstays (Nat.le_succ _)).join (stays_of_stack hexec'.1 hbase.higher)
    (Nat.le_refl _)

theorem Polling.yields_runReady (hpolling : m.Polling depth start) (l' : LoopId)
    {next : Bool → Program σ} (h : ∀ a, m.Yields depth start l stack (next a)) :
    m.Yields depth start l stack (.runReady l' next) := by
  intro i base hbase hi hinside hexec
  have hpolls : m.Polls (i + 1) (.polled next :: base) l' := by
    rw [Polls, hexec.next, ← hexec.1]
    exact ⟨rfl, false, rfl⟩
  have hhigher : depth < (.polled next :: base).length := Nat.lt_succ_of_lt hbase.higher
  have hstarted := (stays_of_stack hexec.1 hbase.higher).join
    (stays_of_stack hpolls.1 hhigher) (Nat.le_refl _)
  obtain ⟨k, hk, hstays, ⟨hstack, polled, hcontrol⟩, hempty⟩ := hpolling (i + 1) l' _ (by omega)
    hhigher (hinside.join hstarted (Nat.le_succ i)) hpolls
  have hnext : m.run (k + 1) = (m.run k).pollNext l' polled := run_of_step (step_poll hcontrol)
  rw [pollNext] at hnext
  simp only [hempty, allPolled, hstack] at hnext
  have hexec' : m.Execs (k + 1) base (next polled) := by
    rw [Execs, hnext]
    exact ⟨rfl, rfl⟩
  refine (h polled).later hbase hi hinside (by omega) ?_ hexec'
  exact (hstarted.join hstays (Nat.le_succ _)).join (stays_of_stack hexec'.1 hbase.higher)
    (Nat.le_refl _)

/-- A loop that a task drives hands an outcome to what lies below, with the task still there. -/
theorem Driving.called {goal : Goal} {l' : LoopId} (hdriving : m.Driving depth start)
    (above : List (Frame σ)) (hbase : depth < base.length) (hi : start ≤ i)
    (hinside : m.Stays depth 1 i) (hstack : (m.run i).stack = base)
    (hpolls : m.Polls (i + 1) (.drive l' goal :: (above ++ base)) l') :
    ∃ k r, i ≤ k ∧ m.Stays depth i k ∧ m.Hands (k + 1) (above ++ base) r := by
  have habove : depth < (above ++ base).length := by
    rw [List.length_append]
    omega
  have hstarted := (stays_of_stack hstack hbase).join
    (stays_of_stack hpolls.1 (Nat.lt_succ_of_lt habove)) (Nat.le_refl _)
  obtain ⟨k, r, hk, hstays, hhands, -⟩ := hdriving (i + 1) l' goal _ (by omega)
    (Nat.le_of_lt habove) (hinside.join hstarted (Nat.le_succ i)) hpolls
  exact ⟨k, r, by omega, hstarted.join hstays (Nat.le_succ _), hhands⟩

theorem Driving.yields_run (hdriving : m.Driving depth start) (l' : LoopId)
    {next : Outcome → Program σ} (h : ∀ r, m.Yields depth start l stack (next r)) :
    m.Yields depth start l stack (.run l' next) := by
  intro i base hbase hi hinside hexec
  have hpolls : m.Polls (i + 1) (.drive l' .idle :: .client next :: base) l' := by
    rw [Polls, hexec.next, ← hexec.1]
    exact ⟨rfl, false, rfl⟩
  obtain ⟨k, r, hk, hstays, hhands⟩ :=
    hdriving.called [.client next] hbase.higher hi hinside hexec.1 hpolls
  exact yieldEnds_called h hbase hi hinside hk hstays hhands

theorem Finishing.yields_finish (hfinishing : m.Finishing depth start) (l' : LoopId)
    {next : Outcome → Program σ} (h : ∀ r, m.Yields depth start l stack (next r)) :
    m.Yields depth start l stack (.finish l' next) := by
  intro i base hbase hi hinside hexec
  have hpolls : m.Polls (i + 1) (.drive l' .idle :: .finishRunning l' :: .client next :: base) l' := by
    rw [Polls, hexec.next, ← hexec.1]
    exact ⟨rfl, false, rfl⟩
  have hhigher := hbase.higher
  have hstarted := (stays_of_stack hexec.1 hhigher).join
    (stays_of_stack hpolls.1 (by simp only [List.length_cons]; omega)) (Nat.le_refl _)
  obtain ⟨k, r, hk, hstays, hhands, -⟩ := hfinishing (i + 1) l' (.client next :: base) (by omega)
    (by simp only [List.length_cons]; omega) (hinside.join hstarted (Nat.le_succ i)) hpolls
  exact yieldEnds_called h hbase hi hinside (by omega) (hstarted.join hstays (Nat.le_succ _)) hhands

/-- What a task forces has its outcome, is resolved, or is waited for by its loop. -/
theorem Tame.yields_force (htame : m.Tame depth) (hm : m.Reachable)
    (hdriving : m.Driving depth start) (l' : LoopId) (p : PendingId) {next : Outcome → Program σ}
    (h : ∀ r, m.Yields depth start l stack (next r)) :
    m.Yields depth start l stack (.force l' p next) := by
  intro i base hbase hi hinside hexec
  have hhigher := hbase.higher
  have hhere := stays_of_stack hexec.1 hhigher
  have hnext : m.run (i + 1) = ((m.run i).push (.client next)).startForce l' p := hexec.next
  have hstack : ((m.run i).push (.client next)).stack = .client next :: base :=
    congrArg _ hexec.1
  -- what was forced is handed over from its own frame
  have hforced : ∀ {k r}, i ≤ k → m.Stays depth i k →
      m.Hands (k + 1) (.forcing l' p :: .client next :: base) r → m.YieldEnds depth i l stack := by
    intro k r hk hstays hhands
    obtain ⟨r', hhands'⟩ := hhands.forcing
    exact yieldEnds_called h hbase hi hinside (by omega) (hstays.join
      (stays_of_stack hhands.1 (by simp only [List.length_cons]; omega)) (Nat.le_refl _)) hhands'
  rcases startForce_cases ((m.run i).push (.client next)) l' p with
    ⟨hsame, r, hr⟩ | hresolving | hdrives
  · exact yieldEnds_called h hbase hi hinside (Nat.le_refl i) hhere
      ⟨by rw [hnext, hsame, hstack], by rw [hnext, hr]⟩
  · rw [hstack, ← hnext] at hresolving
    have hinvoked : (m.run i).invoked? = some p := by
      refine invoked?_of_stack (run_of_step (step_exec hexec.2) ▸ step_exec hexec.2) hresolving ?_
      rw [Machine.resolvers, Machine.resolvers, hresolving, hexec.1]
      exact Nat.lt_succ_self _
    obtain ⟨k, r, hk, hstays, -, -, hhands⟩ := htame.resolves hm hinside hinvoked hresolving
      (by simp only [List.length_cons]; omega)
    exact hforced (by omega) (hhere.join hstays (Nat.le_refl _)) hhands
  · rw [hdrives] at hnext
    have hpolls : m.Polls (i + 1) (.drive l' (.closed p) :: .forcing l' p :: .client next :: base)
        l' := by
      rw [Polls, hnext, ← hexec.1]
      exact ⟨rfl, false, rfl⟩
    obtain ⟨k, r, hk, hstays, hhands⟩ := hdriving.called [.forcing l' p, .client next]
      hhigher hi hinside hexec.1 hpolls
    exact hforced hk hstays hhands

/-- A task that runs a loop until another task has completed goes on with the outcome of that. -/
theorem Driving.yields_runUntil (hdriving : m.Driving depth start) (l' : LoopId) (task : Program σ)
    {next : Outcome → Program σ} (h : ∀ r, m.Yields depth start l stack (next r)) :
    m.Yields depth start l stack (.runUntil l' task next) := by
  intro i base hbase hi hinside hexec
  have hhigher := hbase.higher
  have hnext := hexec.next
  simp only [execute, addCode, spawn] at hnext
  rcases hspawn : (m.run i).store.spawn l' (.watched (m.run i).codes.size) with ⟨e | t', s⟩ <;>
    rw [hspawn] at hnext
  · exact (h _).next hbase hi hinside (stays_of_stack hexec.1 hhigher)
      ⟨by rw [hnext]; exact hexec.1, by rw [hnext]; rfl⟩
  · have hpolls : m.Polls (i + 1) (.drive l' (.outcome t') :: .watching l' t' :: .client next :: base)
        l' := by
      rw [Polls, hnext, ← hexec.1]
      exact ⟨rfl, false, rfl⟩
    obtain ⟨k, r, hk, hstays, hhands⟩ := hdriving.called [.watching l' t', .client next]
      hhigher hi hinside hexec.1 hpolls
    obtain ⟨r', hhands'⟩ := hhands.watching
    have hwatching : m.Stays depth (k + 1) (k + 1) :=
      stays_of_stack hhands.1 (by simp only [List.length_append, List.length_cons]; omega)
    exact yieldEnds_called h hbase hi hinside (by omega) (hstays.join hwatching (Nat.le_refl _))
      hhands'

end

/-- **A task gives way** if polling, driving and finishing end: it executes a request after the
other, and no program goes on for ever. -/
theorem yielding_of (htame : m.Tame depth) (hm : m.Reachable) (hpolling : m.Polling depth start)
    (hdriving : m.Driving depth start) (hfinishing : m.Finishing depth start) :
    m.Yielding depth start := by
  intro i l t body stack code hi hdepth hinside hexec
  suffices h : m.Yields depth start l stack code from h i _ (.task hdepth) hi hinside hexec
  clear hexec
  induction code with
  | done outcome => exact yields_done outcome
  | update x next ih => exact yields_of_execute (fun _ => ⟨_, rfl, rfl⟩) ih
  | client f next ih => exact yields_of_execute (fun _ => ⟨_, rfl, rfl⟩) ih
  | await w next ih => exact yields_await w ih
  | fork rule left right next ihleft ihright ih => exact yields_fork ihleft ihright ih
  | spawn l' task next _ ih => exact yields_of_execute (fun _ => ⟨_, rfl, rfl⟩) ih
  | pending l' resolver rule next _ _ ih => exact yields_of_execute (fun _ => ⟨_, rfl, rfl⟩) ih
  | rank p next ih => exact htame.yields_rank p ih
  | runReady l' next ih => exact hpolling.yields_runReady l' ih
  | run l' next ih => exact hdriving.yields_run l' ih
  | finish l' next ih => exact hfinishing.yields_finish l' ih
  | force l' p next ih => exact htame.yields_force hm hdriving l' p ih
  | runUntil l' task next _ ih => exact hdriving.yields_runUntil l' task ih

/-! ### From the first step on -/

/-- **Polling, driving and finishing end** while a tame call goes on. -/
theorem Tame.ends (htame : m.Tame depth) (hm : m.Reachable) :
    m.Driving depth 0 ∧ m.Finishing depth 0 := by
  obtain ⟨last, hlast⟩ := htame.quiet hm
  -- from the last poll on, and then back from each step to the one before
  have hback : ∀ n start, start + n = last → m.Polling depth start ∧ m.Yielding depth start := by
    intro n
    induction n with
    | zero =>
      intro start hstart
      have hpolling : m.Polling depth start := polling_of fun i hi hinside hpolled => by
        have := hlast i hinside hpolled
        omega
      have hdriving := driving_of htame hm hpolling
      exact ⟨hpolling, yielding_of htame hm hpolling hdriving (finishing_of htame hm hdriving)⟩
    | succ n ih =>
      intro start hstart
      obtain ⟨hpolling', hyielding'⟩ := ih (start + 1) (by omega)
      have hpolling : m.Polling depth start := polling_of fun _ _ _ _ => ⟨hyielding', hpolling'⟩
      have hdriving := driving_of htame hm hpolling
      exact ⟨hpolling, yielding_of htame hm hpolling hdriving (finishing_of htame hm hdriving)⟩
  have hdriving := driving_of htame hm (hback last 0 (Nat.zero_add last)).1
  exact ⟨hdriving, finishing_of htame hm hdriving⟩

end Machine

end ValueInference
