/-
What becomes of the outcome of a task that a caller watches.

A caller may have a task run and watch it: the loop is driven until the task has completed, and then
the caller is handed the outcome.  The loop keeps the outcome in between.  No task has the number of
another, so no outcome is taken for that of another task; and it is handed over once, to the call
that watches the task, unless that call ends earlier with an error.

* **`Machine.Completes`** — a task that is watched comes to its outcome;
* **`Machine.Fresh`**, **`Machine.Reachable.fresh`** — a loop keeps outcomes of tasks that are over
  only;
* **`Machine.watches_unique`** — no two calls watch one task;
* **`Machine.Answered.watched`** — what a call returns that watches a task;
* **`Machine.errors_reported_once`** — what becomes of the errors of all tasks.
-/
import ValueInference.Proofs.Reported

namespace ValueInference

/-- An entry stays what a key stands for when those of another key are taken out. -/
theorem lookup_filter_of_ne {β : Type*} {n t : TaskId} (hne : n ≠ t) (xs : List (TaskId × β)) :
    (xs.filter fun e => e.1 ≠ t).lookup n = xs.lookup n := by
  induction xs with
  | nil => rfl
  | cons e xs ih =>
    obtain ⟨k, b⟩ := e
    by_cases hk : k = t
    · subst hk
      rw [List.filter_cons_of_neg (by simp), ih, List.lookup_cons, beq_false_of_ne hne]
    · rw [List.filter_cons_of_pos (by simpa using hk), List.lookup_cons, List.lookup_cons, ih]

namespace Machine

variable {σ : Type} {m m' : Machine σ} {l : LoopId} {w : Waiter}

/-! ### Numbers of tasks -/

/-- No number is handed out again. -/
theorem Move.spawned_le (h : m.Move m') (l : LoopId) :
    (m.store.loop l).spawned ≤ (m'.store.loop l).spawned := by
  cases h with
  | calm h => exact (h.store.table l).spawned
  | spawned _ h => exact ((Store.TableGrows.spawn m.store _ _ l).trans (h.store.table l)).spawned
  | resolving h hbegin _ _ _ =>
    obtain ⟨-, hstore⟩ := Store.beginResolving_eq hbegin
    refine ((h.store.table l).trans ?_).spawned
    exact hstore ▸ .of_loops rfl
  | @resolved p r rest _ _ =>
    obtain h | ⟨e, -, h⟩ := resolved_store { m with stack := rest } p r
    · exact (h.table l).spawned
    · exact h ▸ (Store.TableGrows.close m.store p _ l).spawned
  | @skipped l' _ _ ready _ _ _ =>
    refine (Store.TableGrows.note m.store l' l (fun loop => { loop with ready }) ?_ ?_ ?_).spawned
    all_goals exact fun _ => rfl
  | @polled l' _ t ready body s _ _ hqueue _ =>
    have hhead : m.store.TableGrows s l := by
      subst hqueue
      refine .note m.store l' l (fun loop => { loop with ready }) ?_ ?_ ?_
      all_goals exact fun _ => rfl
    have hdropped := hhead.trans (.dropTask s l' l t)
    rcases pollTask_cases { m with store := s.dropTask l' t } l' t body with
      ⟨s', body', hquiet, hstore, -⟩ | ⟨hquiet, -⟩
    · rw [hstore, (Store.loop_putTask s' l' l t body').1]
      exact (hdropped.trans (hquiet.table l)).spawned
    · exact (hdropped.trans (hquiet.table l)).spawned
  | turned h _ hstore _ _ _ => exact hstore ▸ (h.calm.store.table l).spawned
  | @suspended m₁ _ _ l' t body _ h _ hstore _ _ _ =>
    rw [hstore, (Store.loop_putTask m₁.store l' l t body).1]
    exact (h.calm.store.table l).spawned

theorem spawned_mono (m : Machine σ) (l : LoopId) {i k : Nat} (h : i ≤ k) :
    ((m.run i).store.loop l).spawned ≤ ((m.run k).store.loop l).spawned := by
  obtain ⟨d, rfl⟩ := Nat.exists_eq_add_of_le h
  rw [run_add]
  exact run_keeps (P := fun m' => ((m.run i).store.loop l).spawned ≤ (m'.store.loop l).spawned) d
    (Nat.le_refl _) fun _ _ hle m' hstep => Nat.le_trans hle ((moves hstep).spawned_le l)

/-! ### Outcomes -/

/-- A task that is watched comes to its outcome at the next step. -/
def Completes (m : Machine σ) (w : Waiter) (r : Outcome) : Prop :=
  ∃ i rest, m.stack = .task w.loop w.task (.watched i) :: rest ∧ m.control = .answer r

/-- A loop keeps the outcome of a task that is watched. -/
theorem outcomes_of_completes {t : TaskId} {r : Outcome} (hm : m.Numbered)
    (h : m.Completes ⟨l, t⟩ r) (hstep : m.step = some m') :
    (m'.store.loop l).outcomes = (m.store.loop l).outcomes ++ [(t, r)] := by
  obtain ⟨i, rest, hstack, hcontrol⟩ := h
  have hl : l < m.store.loops.size :=
    Store.loop_lt_of_spawned (hm.frames (.task l t (.watched i)) (hstack ▸ List.mem_cons_self))
  cases (step_answer hcontrol hstack).symm.trans hstep
  rw [resume, taskDone, Store.loop_modifyLoop, if_pos ⟨rfl, hl⟩]

/-- What a step does to the outcomes that a loop keeps: a task that is watched adds its own, and a
loop that was driven for one takes it away. -/
theorem step_outcomes (hm : m.Numbered) (hstep : m.step = some m') (l : LoopId) :
    (m'.store.loop l).outcomes = (m.store.loop l).outcomes ∨
    (∃ t r, m.Completes ⟨l, t⟩ r ∧
      (m'.store.loop l).outcomes = (m.store.loop l).outcomes ++ [(t, r)]) ∨
    ∃ t rest, m.stack = .watching l t :: rest ∧ m'.stack = rest ∧ (∃ r, m.control = .answer r) ∧
      (m'.store.loop l).outcomes = (m.store.loop l).outcomes.filter fun e => e.1 ≠ t := by
  cases step_reporting hstep with
  | kept hstore _ _ => exact .inl (hstore.keepsReports l).2
  | told =>
    refine .inl ?_
    rw [Store.loop_modifyLoop]
    split <;> rfl
  | @done l' t body rest r hstack hcontrol =>
    by_cases hwatched : l' = l ∧ ∃ i, body = .watched i
    · obtain ⟨rfl, i, rfl⟩ := hwatched
      have hcompletes : m.Completes ⟨l', t⟩ r := ⟨i, rest, hstack, hcontrol⟩
      exact .inr (.inl ⟨t, r, hcompletes, outcomes_of_completes hm hcompletes hstep⟩)
    · refine .inl ?_
      rw [taskDone, Store.loop_modifyLoop]
      split
      · next h =>
        cases body with
        | watched i => exact absurd ⟨h.1, i, rfl⟩ hwatched
        | _ => cases r <;> rfl
      · rfl
  | @taken l' t rest slot r hstack hcontrol _ =>
    rw [Store.loop_modifyLoop]
    split
    · next h =>
      obtain rfl := h.1
      exact .inr (.inr ⟨t, rest, hstack, rfl, ⟨_, hcontrol⟩, rfl⟩)
    · exact .inl rfl

/-- A loop keeps outcomes of tasks only that have numbers, and that are neither in its table nor
under way. -/
def Fresh (m : Machine σ) : Prop :=
  ∀ l, ∀ e ∈ (m.store.loop l).outcomes, e.1 < (m.store.loop l).spawned ∧
    ∀ i, ¬ m.Stands ⟨l, e.1⟩ (.watched i)

/-- A task that has a number, and is neither in its table nor under way, is so from then on. -/
theorem Move.over {t : TaskId} (h : m.Move m') (ht : t < (m.store.loop l).spawned)
    (hover : ∀ i, ¬ m.Stands ⟨l, t⟩ (.watched i)) (i : Nat) : ¬ m'.Stands ⟨l, t⟩ (.watched i) := by
  intro hstands
  obtain ⟨w₀, hw₀, hcases⟩ := h.stands
  have hcode : (TaskBody.watched i).code? ≠ none := nofun
  rcases hcases _ _ hcode hstands with hold | ⟨rfl, -⟩
  · exact hover i hold
  · exact Nat.lt_irrefl _ (hw₀ ▸ ht)

/-- A task that has come to its outcome is over. -/
theorem over_of_completes {r : Outcome} (hs : m.Single) (h : m.Completes w r)
    (hstep : m.step = some m') (i : Nat) : ¬ m'.Stands w (.watched i) := by
  obtain ⟨k, rest, hstack, hcontrol⟩ := h
  have hunder : m.underway = w :: rest.filterMap Frame.task? := by
    rw [underway, hstack]
    rfl
  cases (step_answer hcontrol hstack).symm.trans hstep
  rintro (htable | hframe)
  · refine hs.apart w (hunder ▸ List.mem_cons_self) (.watched i) ?_
    rw [Store.Tabled, resume, taskDone, Store.loop_modifyLoop] at htable
    split at htable <;> exact htable
  · have hagain : w ∈ rest.filterMap Frame.task? := List.mem_filterMap.mpr ⟨_, hframe, rfl⟩
    exact (List.nodup_cons.mp (hunder ▸ hs.once)).1 hagain

/-- **Along every run** loops keep outcomes of tasks only that are over. -/
theorem Reachable.fresh (h : m.Reachable) : m.Fresh := by
  induction h with
  | start client code => exact fun l e he => absurd he List.not_mem_nil
  | @step m m' h hstep ih =>
    intro l e he
    have hle := (moves hstep).spawned_le l
    have hold : e ∈ (m.store.loop l).outcomes → e.1 < (m'.store.loop l).spawned ∧
        ∀ i, ¬ m'.Stands ⟨l, e.1⟩ (.watched i) := fun he =>
      ⟨Nat.lt_of_lt_of_le (ih l e he).1 hle, (moves hstep).over (ih l e he).1 (ih l e he).2⟩
    rcases step_outcomes h.numbered hstep l with hsame | ⟨t, r, hcompletes, hmore⟩ |
      ⟨t, rest, -, -, -, hless⟩
    · exact hold (hsame ▸ he)
    · rw [hmore] at he
      rcases List.mem_append.mp he with he | he
      · exact hold he
      obtain rfl := List.mem_singleton.mp he
      obtain ⟨i, rest, hstack, -⟩ := id hcompletes
      have hnumber : t < (m.store.loop l).spawned :=
        h.numbered.frames (.task l t (.watched i)) (hstack ▸ List.mem_cons_self)
      exact ⟨Nat.lt_of_lt_of_le hnumber hle, over_of_completes h.single hcompletes hstep⟩
    · rw [hless] at he
      exact hold (List.mem_of_mem_filter he)

/-! ### Calls that watch a task -/

section

variable {c c' j n : Nat} {code code' : Program σ} {t : TaskId} {next next' : Outcome → Program σ}

/-- **No two calls watch one task.** -/
theorem watches_unique (hcode : (m.run c).control = .exec code)
    (hdrives : code.Drives (m.run c).store l next (some t))
    (hcode' : (m.run c').control = .exec code')
    (hdrives' : code'.Drives (m.run c').store l next' (some t)) : c = c' := by
  -- the number of the task is handed out once
  have hlt : ∀ {c c' : Nat} {code code' : Program σ} {next next' : Outcome → Program σ},
      (m.run c).control = .exec code → code.Drives (m.run c).store l next (some t) →
      code'.Drives (m.run c').store l next' (some t) → c' ≤ c := by
    intro c c' code code' next next' hcode hdrives hdrives'
    by_contra hlt
    obtain ⟨m', hstep, hspawned, -⟩ := begins_watching hcode hdrives
    rw [← run_of_step hstep] at hspawned
    cases hdrives' with
    | runUntil task _ =>
      exact Nat.lt_irrefl _ (Nat.lt_of_lt_of_le hspawned (spawned_mono m l (Nat.not_le.mp hlt)))
  exact Nat.le_antisymm (hlt hcode' hdrives' hdrives) (hlt hcode hdrives hdrives')

/-- A call whose code is on the stack drives its loop. -/
theorem drives_of_calledBefore {below : List (Frame σ)}
    (h : m.CalledBefore n l (some t) next below) :
    ∃ c code, (m.run c).stack = below ∧ (m.run c).control = .exec code ∧
      code.Drives (m.run c).store l next (some t) := by
  obtain ⟨c, code, hc, hbelow, hcode, hcalls, hstays⟩ := h
  refine ⟨c, code, hbelow, hcode, ?_⟩
  cases hcalls with
  | runUntil task =>
    refine .runUntil task (Nat.not_le.mp fun hge => ?_)
    -- without the loop the code would have gone on at once
    have hstep := step_exec hcode
    rw [execute] at hstep
    simp only [addCode, spawn, Store.spawn, Array.getElem?_eq_none hge] at hstep
    have hunder := hstays (c + 1) (Nat.le_refl _) hc
    rw [run_of_step hstep, ← hbelow] at hunder
    exact lt_irrefl _ hunder

variable {i : Nat} {r r' : Outcome}

/-- A task that is watched has its number from the call. -/
theorem lt_of_completes (hm : m.Reachable) (hdrives : code.Drives (m.run c).store l next (some t))
    (h : (m.run i).Completes ⟨l, t⟩ r) : c < i := by
  by_contra hle
  obtain ⟨k, rest, hstack, -⟩ := h
  have hnumber : t < ((m.run i).store.loop l).spawned :=
    (hm.run i).numbered.frames (.task l t (.watched k)) (hstack ▸ List.mem_cons_self)
  cases hdrives with
  | runUntil task _ =>
    exact Nat.lt_irrefl _ (Nat.lt_of_lt_of_le hnumber (spawned_mono m l (Nat.not_lt.mp hle)))

/-- **The loop keeps the outcome** of a task that a call watches until the call takes it. -/
theorem outcome_kept (hm : m.Reachable) (hempty : m.stack = [])
    (hcode : (m.run c).control = .exec code)
    (hdrives : code.Drives (m.run c).store l next (some t))
    (h : (m.run i).Completes ⟨l, t⟩ r) {k : Nat}
    (hstays : m.Stays (.client next :: (m.run c).stack).length (c + 1) k) (hin : i < n)
    (hnk : n ≤ k) : ((m.run n).store.loop l).outcomes.lookup t = some r := by
  have hci := lt_of_completes hm hdrives h
  induction n with
  | zero => exact absurd hin (Nat.not_lt_zero i)
  | succ n ih =>
    rcases Nat.lt_or_ge i n with hlt | hge
    swap
    · -- there is none before the task completes
      obtain rfl := Nat.le_antisymm (Nat.le_of_lt_succ hin) hge
      obtain ⟨a, rest, hstack, hcontrol⟩ := id h
      have hstep := step_answer hcontrol hstack
      rw [run_of_step hstep, outcomes_of_completes (hm.run i).numbered h hstep, List.lookup_append]
      have hnone : ((m.run i).store.loop l).outcomes.lookup t = none := by
        rw [List.lookup_eq_none_iff]
        intro e he
        refine bne_iff_ne.mpr fun heq => ((hm.run i).fresh l e he).2 a ?_
        exact .inr (hstack ▸ heq ▸ List.mem_cons_self)
      rw [hnone, Option.none_or, List.lookup_cons_self]
    have hbefore := ih hlt (Nat.le_of_succ_le hnk)
    cases hstep : (m.run n).step with
    | none =>
      have hover : m.run (n + 1) = m.run n := by rw [run_succ, hstep]; rfl
      rwa [hover]
    | some m' =>
      rw [run_of_step hstep]
      rcases step_outcomes (hm.run n).numbered hstep l with hsame | ⟨t', r', -, hmore⟩ |
        ⟨t', rest, hstack, hstack', ⟨r', hr'⟩, hless⟩
      · rwa [hsame]
      · rw [hmore, List.lookup_append, hbefore, Option.some_or]
      rw [hless, lookup_filter_of_ne ?_, hbefore]
      -- the call itself has not taken it
      rintro rfl
      have hplaced := (run_orderly hempty n).placed
      rw [hstack] at hplaced
      obtain ⟨next', below, rfl, hcalled⟩ := hplaced.top.attends l rfl
      obtain ⟨c', code', rfl, hcode', hdrives'⟩ := drives_of_calledBefore hcalled
      obtain rfl := watches_unique hcode hdrives hcode' hdrives'
      have hunder := hstays (n + 1) (by omega) hnk
      rw [run_of_step hstep, hstack'] at hunder
      exact lt_irrefl _ hunder

/-- **A call that watches a task** returns its outcome, unless the loop ends with an error before it
is driven on for the task. -/
theorem Answered.watched (h : m.Answered c j next r) (hm : m.Reachable) (hempty : m.stack = [])
    (hcode : (m.run c).control = .exec code)
    (hdrives : code.Drives (m.run c).store l next (some t))
    (hcompletes : (m.run i).Completes ⟨l, t⟩ r') (hij : i < j) :
    r = r' ∨ ∃ k e, j = k + 1 ∧ r = .error e ∧
      m.Hands k (.watching l t :: .client next :: (m.run c).stack) (.error e) := by
  obtain ⟨m', hstep, -, hstack⟩ := begins_watching hcode hdrives
  rw [← run_of_step hstep] at hstack
  have hgone : ¬ .watching l t :: .client next :: (m.run c).stack <:+ (m.run j).stack := by
    intro hthere
    have hle := hthere.length_le
    rw [h.handed.1] at hle
    exact Nat.not_succ_le_self _ hle
  obtain ⟨k, r₁, hk, hkj, hstays, htop, hr₁⟩ := leaves (f := .watching l t) trivial
    (hstack ▸ List.suffix_cons _ _) h.later hgone
  -- it is answered at once
  obtain ⟨r₂, hhands⟩ := Hands.watching ⟨htop, hr₁⟩
  obtain rfl := h.first (Nat.lt_succ_of_lt hk) hkj hhands
  obtain rfl : r = r₂ := by
    cases h.handed.2.symm.trans hhands.2
    rfl
  have hanswer := hhands.2
  rw [run_of_step (step_answer hr₁ htop)] at hanswer
  cases r₁ with
  | error e =>
    cases hanswer
    exact .inr ⟨k, e, rfl, rfl, htop, hr₁⟩
  | ok slot =>
    have hik : i < k := by
      obtain ⟨a, rest, hstack', -⟩ := hcompletes
      refine Nat.lt_of_le_of_ne (Nat.le_of_lt_succ hij) ?_
      rintro rfl
      cases hstack'.symm.trans htop
    have hkept := outcome_kept hm hempty hcode hdrives hcompletes hstays hik (Nat.le_refl k)
    rw [resume, takeOutcome] at hanswer
    simp only [hkept] at hanswer
    cases hanswer
    exact .inl rfl

/-- A task that is watched comes to its outcome once. -/
theorem Completes.once (hm : m.Reachable) (h : (m.run i).Completes w r)
    (h' : (m.run j).Completes w r') : i = j := by
  -- it is over from the next step on
  have hlt : ∀ {i j : Nat} {r r' : Outcome}, (m.run i).Completes w r → (m.run j).Completes w r' →
      j ≤ i := by
    intro i j r r' h h'
    by_contra hlt
    obtain ⟨a, rest, hstack, hcontrol⟩ := id h
    have hnumber : w.task < ((m.run i).store.loop w.loop).spawned :=
      (hm.run i).numbered.frames (.task w.loop w.task (.watched a)) (hstack ▸ List.mem_cons_self)
    have hstep := step_answer hcontrol hstack
    have hover := over_of_completes (hm.run i).single h hstep
    rw [← run_of_step hstep] at hover
    obtain ⟨d, rfl⟩ := Nat.exists_eq_add_of_le (Nat.succ_le_of_lt (Nat.not_le.mp hlt))
    rw [run_add] at h'
    obtain ⟨b, rest', hstack', -⟩ := h'
    have hlater : ∀ n, w.task < (((m.run (i + 1)).run n).store.loop w.loop).spawned ∧
        ∀ a, ¬ ((m.run (i + 1)).run n).Stands w (.watched a) := fun n =>
      run_keeps (P := fun x => w.task < (x.store.loop w.loop).spawned ∧
          ∀ a, ¬ x.Stands w (.watched a)) n
        ⟨Nat.lt_of_lt_of_le hnumber (spawned_mono m w.loop (Nat.le_succ i)), hover⟩
        fun _ _ hx _ hstep => ⟨Nat.lt_of_lt_of_le hx.1 ((moves hstep).spawned_le w.loop),
          (moves hstep).over hx.1 hx.2⟩
    exact (hlater d).2 b (.inr (hstack' ▸ List.mem_cons_self))
  exact Nat.le_antisymm (hlt h' h) (hlt h h')

end

/-! ### Every error -/

/-- **What becomes of the errors of tasks.**  Along every run:

* the errors of tasks that no caller watches are, in the order in which the tasks fail, those that
  the loop has told and those that it keeps; so none is lost, repeated or passed over, however the
  calls of loops end;
* what a loop tells is returned by exactly one call of that loop — it runs, it finishes, it forces a
  pending, or it runs for the sake of a watched task — and no call returns two of them;
* before a call that drives a loop returns, no task is ready at some step, and the first error that
  the loop has then is the one that the call returns; a call that returns without an error leaves
  none;
* a task that a caller watches comes to its outcome once, and that is what the call returns, unless
  the loop is driven no further because of another error, which the call returns then. -/
theorem errors_reported_once (client : σ) (code : Program σ) (l : LoopId) :
    let m := start client code
    (∀ k, m.failures l k = m.reports l k ++ ((m.run k).store.loop l).errors) ∧
    (∀ i e, (m.run i).told? l = some e → ∃! c, m.Delivers l c i e) ∧
    (∀ c i i' e e', m.Delivers l c i e → m.Delivers l c i' e' → i = i') ∧
    (∀ c call t next j r, (m.run c).control = .exec call → call.Drives (m.run c).store l next t →
      m.Answered c j next r →
        (∃ i, c < i ∧ i < j ∧ ((m.run i).store.loop l).ready = [] ∧
          ∀ e, ((m.run i).store.loop l).errors.head? = some e → m.Delivers l c i e) ∧
        (∀ slot, r = .ok slot → ((m.run j).store.loop l).errors = []) ∧
        ∀ n i r', t = some n → i < j → (m.run i).Completes ⟨l, n⟩ r' → r = r' ∨
          ∃ k e, j = k + 1 ∧ r = .error e ∧
            m.Hands k (.watching l n :: .client next :: (m.run c).stack) (.error e)) ∧
    ∀ w i i' r r', (m.run i).Completes w r → (m.run i').Completes w r' → i = i' := by
  intro m
  have hm : m.Reachable := .start client code
  refine ⟨fun k => ?_, fun i e h => ?_, fun c i i' e e' h h' => h.told_once h', ?_,
    fun w i i' r r' h h' => h.once hm h'⟩
  · rw [reports_append_errors hm l k]
    rfl
  · obtain ⟨c, hc⟩ := delivers_of_told (m := m) rfl h
    exact ⟨c, hc, fun c' hc' => hc'.caller hc⟩
  · intro c call t next j r hcall hdrives h
    refine ⟨h.drained rfl hcall hdrives, ?_, ?_⟩
    · rintro slot rfl
      exact h.clean rfl hcall hdrives
    · rintro n i r' rfl hij hcompletes
      exact h.watched hm rfl hcall hdrives hcompletes hij

/-- A task that fails, and another that runs the same loop and then fails as well. -/
def failingTasks : Program Unit :=
  let fails := fun text => .done (.error (.invalidConstruction (.custom text)))
  .update (Infer.openLoop {}).run fun _ =>
    .spawn 0 (fails "first") fun _ => .spawn 0 (.run 0 fun _ => fails "second") fun _ =>
      .run 0 .done

-- the call within the second task is told of the first one, and the call around it of the second
example : (start () failingTasks).failures 0 20 = (start () failingTasks).reports 0 20 ∧
    (start () failingTasks).reports 0 20 =
      [.invalidConstruction (.custom "first"), .invalidConstruction (.custom "second")] := by
  decide +kernel

/-- A task that fails, another that is watched and fails after it, and a caller that notes what it
is handed. -/
def unheard : Program (List Outcome) :=
  let fails := fun text => .done (.error (.invalidConstruction (.custom text)))
  let note := fun r next => .client (fun heard => ((), heard ++ [r])) fun _ => next
  .update (Infer.openLoop {}).run fun _ =>
    .spawn 0 (fails "task") fun _ => .runUntil 0 (fails "watched") fun r =>
      note r (.run 0 fun r => note r (.done unit))

/-- The call that watches a task is told of another error, and nobody is told of that of the
task. -/
theorem outcome_lost_unheard :
    let m := start [] unheard
    (m.run 8).Completes ⟨0, 1⟩ (.error (.invalidConstruction (.custom "watched"))) ∧
      (m.run 20).step.isNone = true ∧
      (m.run 20).client = [.error (.invalidConstruction (.custom "task")), unit] :=
  ⟨⟨1, _, rfl, rfl⟩, by decide +kernel, by decide +kernel⟩

end Machine

end ValueInference
