/-
What a call of a loop reports.

Code runs a loop, or finishes it, and is handed an outcome.  If the tasks are polled finitely often,
and there are finitely many, and if the resolvers that start return and the rules tell the ranks
that they are asked for, the call comes to an end, and what it reports is exact.

* **`Machine.Returns`** — the step at which a call returns;
* **`Machine.reports_exact`** — a call returns within the budget; without an error nothing is left;
  and a deadlock that the loop itself raises names the pendings that tasks wait for, where there is
  none that the loop could force, or it may not force any more.
-/
import ValueInference.Proofs.Driving

namespace ValueInference

namespace Store

variable {s : Store} {l : LoopId} {p : PendingId}

theorem mem_pendingsOf : p ∈ s.pendingsOf l ↔ ∃ c, s.pendings[p]? = some c ∧ c.loop = l := by
  rw [pendingsOf, List.mem_filter, List.mem_range, getElem?_addresses, length_addresses]
  constructor
  · rintro ⟨hp, hl⟩
    rw [Array.getElem?_eq_getElem hp] at hl ⊢
    exact ⟨_, rfl, by simpa using hl⟩
  · rintro ⟨c, hc, rfl⟩
    exact ⟨(Array.getElem?_eq_some_iff.mp hc).1, by simp [hc]⟩

/-- The numbers of some pendings of a loop go up along its list. -/
theorem Registered.increasing (h : s.Registered) (l : LoopId) (keep : PendingId → Bool) :
    (((s.pendingsOf l).filter keep).map s.pendingNumber).Pairwise (· < ·) := by
  refine List.Pairwise.sublist (List.filter_sublist.map s.pendingNumber) ?_
  rw [(h l).2]
  exact List.pairwise_lt_range

end Store

namespace Machine

variable {σ : Type} {m : Machine σ} {l : LoopId} {next : Outcome → Program σ} {k : Nat} {r : Outcome}

/-! ### Calls -/

/-- A call of a loop returns from a step: until then the stack has been higher than that of the code
that called, which goes on with the outcome. -/
structure Returns (m : Machine σ) (next : Outcome → Program σ) (k : Nat) (r : Outcome) : Prop where
  under : m.Stays (m.stack.length + 1) 1 k
  handed : m.Hands (k + 1) (.client next :: m.stack) r

/-- What a loop starts on its own account, until the stack is back, is within what is left of its
budget. -/
theorem ownInvocations_le (hm : m.Reachable) (hl : l < m.store.loops.size)
    (hhands : m.Hands k (.client next :: m.stack) r) :
    (m.ownInvocations l k).length ≤
      (m.store.loop l).config.maxForced - (m.store.loop l).forced := by
  have hcount := run_forced hm l k
  have hlimit := (hm.run k).thrifty l
  rw [run_config hl] at hlimit
  -- what the loop had counted before the call, it has still to force
  have hcharges : (m.run k).charges l = m.charges l := by
    rw [charges, hhands.1, List.countP_cons_of_neg (by simp [Frame.chargingLoop?]), charges]
  omega

/-- **What a call reports is exact.**  Let code run a loop, or finish it, and let the call be tame.
Then it returns, and the loop has forced no more pendings than what was left of its budget.

* If `run` reports no error, no task is left and no error of a task is kept.  Otherwise it reports
  the first error of a task that was kept, or the one with which a resolver ended that the loop had
  started on its own account, or a deadlock.  That names the open pendings of the loop that tasks
  wait for, in the order in which they were registered; and then there is none among the pendings of
  the loop that it could force, or its budget is used up.
* If `finish` reports no error, the pendings of the loop are all closed as well. -/
theorem reports_exact (hm : m.Reachable) (hl : l < m.store.loops.size)
    (htame : m.Tame (m.stack.length + 1)) :
    let budget := (m.store.loop l).config.maxForced - (m.store.loop l).forced
    (m.control = .exec (.run l next) → ∃ k r, m.Returns next k r ∧
      (m.ownInvocations l (k + 1)).length ≤ budget ∧
      let s := (m.run (k + 1)).store
      (∀ slot, r = .ok slot → (s.loop l).tasks = [] ∧ (s.loop l).errors = []) ∧
      ∀ e, r = .error e →
        (∃ errors, ((m.run k).store.loop l).errors = e :: errors) ∨
        (∃ j p, k = j + 1 ∧ (m.run j).returned? = some p ∧ (m.run j).forcedBy? = some l ∧
          (m.run k).control = .answer (.error e)) ∨
        e = .deadlock ((s.blocked l).map s.pendingNumber) ∧
          ((s.blocked l).map s.pendingNumber).Pairwise (· < ·) ∧
          ((∀ p c, s.pendings[p]? = some c → c.loop = l → ¬ s.Forcible p) ∨
            (s.loop l).config.maxForced ≤ (s.loop l).forced)) ∧
    (m.control = .exec (.finish l next) → ∃ k r, m.Returns next k r ∧
      (m.ownInvocations l (k + 1)).length ≤ budget ∧
      let s := (m.run (k + 1)).store
      ∀ slot, r = .ok slot → (s.loop l).tasks = [] ∧ (s.loop l).errors = [] ∧
        ∀ p c, s.pendings[p]? = some c → c.loop = l → s.isOpen p = false) := by
  intro budget
  obtain ⟨hdriving, hfinishing⟩ := htame.ends hm
  constructor
  · intro hcontrol
    have hpolls : m.Polls 1 (.drive l .idle :: .client next :: m.stack) l := by
      rw [Polls, run_of_step (m := m) (i := 0) (step_exec hcontrol)]
      exact ⟨rfl, false, rfl⟩
    have hinside : m.Stays (m.stack.length + 1) 1 1 :=
      stays_of_stack hpolls.1 (by simp only [List.length_cons]; omega)
    obtain ⟨k, r, hk, hstays, hhands, hends⟩ := hdriving 1 l .idle (.client next :: m.stack)
      (Nat.zero_le 1) (by simp only [List.length_cons]; omega) hinside hpolls
    refine ⟨k, r, ⟨hstays, hhands⟩, ownInvocations_le hm hl hhands, ?_, ?_⟩
    · rintro slot rfl
      cases hends with
      | done herrors hover => exact ⟨hover.resolve_left Bool.false_ne_true, herrors⟩
    · rintro e rfl
      cases hends with
      | task kept => exact .inl ⟨_, kept⟩
      | resolver returned own handed => exact .inr (.inl ⟨_, _, rfl, returned, own, handed⟩)
      | deadlock stuck =>
        have hordered := (hm.run (k + 1)).registered.increasing l fun p =>
          (m.run (k + 1)).store.isOpen p && (m.run (k + 1)).store.hasWaiters p
        refine .inr (.inr ⟨rfl, hordered, stuck.imp_left fun hnone p c hc hloop => ?_⟩)
        exact hnone p (Store.mem_pendingsOf.mpr ⟨c, hc, hloop⟩)
  · intro hcontrol
    have hpolls : m.Polls 1 (.drive l .idle :: .finishRunning l :: .client next :: m.stack) l := by
      rw [Polls, run_of_step (m := m) (i := 0) (step_exec hcontrol)]
      exact ⟨rfl, false, rfl⟩
    have hinside : m.Stays (m.stack.length + 1) 1 1 :=
      stays_of_stack hpolls.1 (by simp only [List.length_cons]; omega)
    obtain ⟨k, r, hk, hstays, hhands, hends⟩ := hfinishing 1 l (.client next :: m.stack)
      (Nat.zero_le 1) (by simp only [List.length_cons]; omega) hinside hpolls
    refine ⟨k, r, ⟨hstays, hhands⟩, ownInvocations_le hm hl hhands, fun slot hr => ?_⟩
    obtain ⟨htasks, herrors, hclosed⟩ := hends slot hr
    exact ⟨htasks, herrors, fun p c hc hloop => hclosed p (Store.mem_pendingsOf.mpr ⟨c, hc, hloop⟩)⟩

/-! ### Calls that are over -/

theorem finite_spawned (s : Store) : {w : Waiter | w.task < (s.loop w.loop).spawned}.Finite := by
  have hfinite : (⋃ l ∈ Set.Iio s.loops.size,
      (fun t => (⟨l, t⟩ : Waiter)) '' Set.Iio (s.loop l).spawned).Finite :=
    (Set.finite_Iio _).biUnion fun l _ => (Set.finite_Iio _).image _
  refine hfinite.subset fun w hw => ?_
  exact Set.mem_biUnion (Store.loop_lt_of_spawned hw) ⟨w.task, hw, rfl⟩

theorem run_of_over {i n : Nat} (hover : (m.run n).step = none) (hle : n ≤ i) :
    m.run i = m.run n := by
  obtain ⟨d, rfl⟩ := Nat.exists_eq_add_of_le hle
  rw [run_add]
  cases d with
  | zero => rfl
  | succ d => rw [run, hover]

/-- A run that comes to its end is tame, if the resolvers that start return and the rules that are
asked tell. -/
theorem tame_of_over {n : Nat} (hover : (m.run n).step = none)
    (hreturn : ∀ i < n, ∀ p ∈ (m.run i).invoked?, ∃ j < n, i < j ∧ (m.run j).returned? = some p)
    (htell : ∀ i < n, ∀ p ∈ (m.run i).asked?,
      ∃ j r, i < j ∧ m.Hands j (m.run i).stack r)
    (depth : Nat) : m.Tame depth := by
  have hstill : ∀ i, n ≤ i → (m.run i).invoked? = none ∧ (m.run i).polls? = none ∧
      (m.run i).asked? = none := by
    intro i hi
    rw [run_of_over hover hi, invoked?, hover, polls?, asked?]
    refine ⟨rfl, ?_, ?_⟩
    · split
      · next hcontrol => cases (step_poll hcontrol).symm.trans hover
      · rfl
    · split
      · next hcontrol => cases (step_rank hcontrol).symm.trans hover
      · rfl
  constructor
  · intro w
    refine (Set.finite_Iio n).subset ?_
    rintro i ⟨-, hpolls⟩
    refine Set.mem_Iio.mpr (Nat.not_le.mp fun hle => ?_)
    cases hpolls.symm.trans (hstill i hle).2.1
  · refine ((Set.finite_Iic n).biUnion fun i _ => finite_spawned (m.run i).store).subset ?_
    rintro w ⟨i, -, hw⟩
    rcases Nat.lt_or_ge n i with hlt | hle
    · rw [run_of_over hover (Nat.le_of_lt hlt)] at hw
      exact Set.mem_biUnion (Set.mem_Iic.mpr (Nat.le_refl n)) hw
    · exact Set.mem_biUnion (Set.mem_Iic.mpr hle) hw
  · intro i p _ hp
    rcases Nat.lt_or_ge i n with hlt | hge
    · obtain ⟨j, -, hij, hret⟩ := hreturn i hlt p hp
      exact ⟨j, hij, hret⟩
    · cases hp.symm.trans (hstill i hge).1
  · intro i p _ hp
    have hlt : i < n := Nat.not_le.mp fun hge => by cases (hstill i hge).2.2.symm.trans hp
    exact htell i hlt p hp

/-- The outcome of code that is over at once. -/
def outcomeOf? : Program σ → Option Outcome
  | .done r => some r
  | _ => none

/-- A rule that is over at once tells its outcome to the frame that has asked. -/
theorem hands_of_rule {p j : Nat} (hasked : (m.run k).asked? = some p)
    (hpriority : (m.run k).store.pendings[p]?.map Pending.priority = some (.code j))
    (hrule : (m.run k).rules[j]?.bind outcomeOf? = some r) : m.Hands (k + 2) (m.run k).stack r := by
  have hcontrol : (m.run k).control = .rank p := by
    rw [asked?] at hasked
    split at hasked
    · next h => exact h.trans (congrArg _ (Option.some.inj hasked))
    · cases hasked
  obtain ⟨code, hcode, hr⟩ := Option.bind_eq_some_iff.mp hrule
  cases code with
  | done outcome =>
    obtain rfl : outcome = r := Option.some.inj hr
    have hstarted : m.run (k + 1) = (m.run k).exec (.done outcome) := by
      rw [run_of_step (step_rank hcontrol), startRule, hpriority]
      simp only [hcode]
    have hexecs : m.Execs (k + 1) (m.run k).stack (.done outcome) := by
      rw [Execs, hstarted]
      exact ⟨rfl, rfl⟩
    rw [Hands, hexecs.next]
    exact ⟨hexecs.1, rfl⟩
  | _ => cases hr

/-- Code with a task that waits for two pendings, of which one has a resolver. -/
def halfResolved (call : Program Unit) : Program Unit :=
  let task := .fork .join (.await (.pending 0) .done) (.await (.pending 1) .done) fun _ => .done unit
  .update (Infer.openLoop {}).run fun _ =>
    .pending 0 (.done (.ok (.constant (.int 1)))) (.ranked none) fun _ =>
      .update (Infer.hole 0).run fun _ => .spawn 0 task fun _ => call

/-- Both calls return.  The first pending is forced, and then the loop is stuck with the second. -/
theorem reports_exact_halfResolved :
    let m := (start () (halfResolved (.run 0 .done))).run 4
    let m' := (start () (halfResolved (.finish 0 .done))).run 4
    (∃ k r, m.Returns .done k r ∧ (m.ownInvocations 0 (k + 1)).length ≤ 10000) ∧
      ∃ k r, m'.Returns .done k r ∧ (m'.ownInvocations 0 (k + 1)).length ≤ 10000 := by
  intro m m'
  have hm : m.Reachable := (Reachable.start () _).run 4
  have hm' : m'.Reachable := (Reachable.start () _).run 4
  have hstep : ∀ {m : Machine Unit} {n : Nat}, (m.run n).step.isNone = true →
      (m.run n).step = none := Option.isNone_iff_eq_none.mp
  -- the rank of the first pending is asked for twice, and told two steps later
  have htell : ∀ m : Machine Unit, (∀ i < 25, (m.run i).asked? ≠ none → i = 6 ∨ i = 9) →
      m.Hands 8 (m.run 6).stack unit → m.Hands 11 (m.run 9).stack unit →
      ∀ i < 25, ∀ p ∈ (m.run i).asked?, ∃ j r, i < j ∧ m.Hands j (m.run i).stack r := by
    intro m hasked hfirst hsecond i hi p hp
    rcases hasked i hi (by rw [hp]; exact nofun) with rfl | rfl
    · exact ⟨8, unit, by decide, hfirst⟩
    · exact ⟨11, unit, by decide, hsecond⟩
  have hfirst : m.Hands 8 (m.run 6).stack unit := hands_of_rule (p := 0) (j := 0)
    (by decide +kernel) (by decide +kernel) (by decide +kernel)
  have hsecond : m.Hands 11 (m.run 9).stack unit := hands_of_rule (p := 0) (j := 0)
    (by decide +kernel) (by decide +kernel) (by decide +kernel)
  have hfirst' : m'.Hands 8 (m'.run 6).stack unit := hands_of_rule (p := 0) (j := 0)
    (by decide +kernel) (by decide +kernel) (by decide +kernel)
  have hsecond' : m'.Hands 11 (m'.run 9).stack unit := hands_of_rule (p := 0) (j := 0)
    (by decide +kernel) (by decide +kernel) (by decide +kernel)
  have htame : m.Tame (m.stack.length + 1) :=
    tame_of_over (n := 25) (hstep (by decide +kernel)) (by decide +kernel)
      (htell m (by decide +kernel) hfirst hsecond) _
  have htame' : m'.Tame (m'.stack.length + 1) :=
    tame_of_over (n := 25) (hstep (by decide +kernel)) (by decide +kernel)
      (htell m' (by decide +kernel) hfirst' hsecond') _
  obtain ⟨k, r, hreturns, hwithin, -⟩ := (reports_exact (l := 0) hm (by decide) htame).1 rfl
  obtain ⟨k', r', hreturns', hwithin', -⟩ := (reports_exact (l := 0) hm' (by decide) htame').2 rfl
  exact ⟨⟨k, r, hreturns, hwithin⟩, k', r', hreturns', hwithin'⟩

end Machine

end ValueInference
