/-
Resolvers that start.

The pendings whose resolvers a run starts are listed in order.  A resolver is gone once it has
started or its pending is closed, and only an open pending has one; so no pending is in the list
twice, and none after it was closed.  A loop counts a pending before it starts the resolver on its
own account, and never counts beyond its limit.  The rule that tells the pending's rank runs in
between; it may resolve the pending, and then nothing is left to start.

* **`Machine.invoked?`**, **`Machine.invocations`** — the resolvers that a step, or a run, starts;
* **`Machine.ownInvocations`** — those that a loop starts on its own account;
* **`Machine.run_forced`** — a loop's count covers what it has started on its own account;
* **`Machine.resolvers_run_once`** — resolvers run at most once and within the limits.
-/
import ValueInference.Proofs.Ledger

namespace ValueInference

namespace Machine

variable {σ : Type} {m m' : Machine σ} {l : LoopId} {p : PendingId}

/-! ### What a step starts -/

/-- The pending whose resolver the next step starts. -/
def invoked? (m : Machine σ) : Option PendingId :=
  m.step.bind fun m' => if m.resolvers.length < m'.resolvers.length then m'.topResolver? else none

/-- The pending whose resolver the next step starts, on a loop's own account. -/
def ownInvoked? (m : Machine σ) (l : LoopId) : Option PendingId :=
  m.step.bind fun m' => if m'.forcedBy? = some l then m.invoked? else none

/-- The pendings whose resolvers start within a number of steps, in order. -/
def invocations (m : Machine σ) (k : Nat) : List PendingId :=
  (List.range k).filterMap fun i => (m.run i).invoked?

/-- The pendings whose resolvers a loop starts on its own account within a number of steps. -/
def ownInvocations (m : Machine σ) (l : LoopId) (k : Nat) : List PendingId :=
  (List.range k).filterMap fun i => (m.run i).ownInvoked? l

theorem topResolver?_of_stack {rest : List (Frame σ)} (h : m.stack = .resolving p :: rest) :
    m.topResolver? = some p := by
  rw [topResolver?, h]

/-- A step starts the resolver of a pending, which is taken. -/
structure Starts (m m' : Machine σ) (p : PendingId) : Prop where
  resolvers : m'.resolvers = p :: m.resolvers
  top : m'.topResolver? = some p
  /-- The pending has a resolver just before, which nothing but quiet changes came before. -/
  taken : ∃ s r, m.store.Quiet s ∧ s.resolver? p = some r ∧ m'.store = s.taken p

/-- If there are more resolvers under way after a step, it has started one. -/
theorem Move.starts (h : m.Move m') (hmore : m.resolvers.length < m'.resolvers.length) :
    ∃ p, m.Starts m' p := by
  cases h with
  | calm h => exact absurd hmore (by rw [h.resolvers]; exact lt_irrefl _)
  | spawned _ h => exact absurd hmore (by rw [h.resolvers]; exact lt_irrefl _)
  | @resolving m₁ _ p r h hbegin hstack _ _ =>
    obtain ⟨hres, hstore⟩ := Store.beginResolving_eq hbegin
    refine ⟨p, ?_, topResolver?_of_stack hstack, m₁.store, r, h.store, hres, hstore⟩
    rw [← h.resolvers, resolvers, hstack]
    rfl
  | @resolved p r rest hstack _ =>
    have hrest : ({ m with stack := rest }.resolved p r).resolvers.length ≤ m.resolvers.length :=
      ((Settled.pop hstack).trans (.resolved _ p r)).resolvers
    exact absurd hmore (Nat.not_lt.mpr hrest)
  | skipped _ _ _ => exact absurd hmore (lt_irrefl _)
  | @polled l _ t _ body s _ _ _ _ =>
    have hpolled := (Settled.pollTask { m with store := s.dropTask l t } l t body).resolvers
    exact absurd hmore (Nat.not_lt.mpr hpolled)
  | turned h hstack _ hstack' _ _ =>
    have hsame : m'.resolvers = m.resolvers := by
      rw [← h.calm.resolvers, resolvers, hstack', resolvers, hstack]
      rfl
    exact absurd hmore (by rw [hsame]; exact lt_irrefl _)
  | suspended h hstack _ hstack' _ _ =>
    have hsame : m'.resolvers = m.resolvers := by
      rw [← h.calm.resolvers, resolvers, hstack', resolvers, hstack]
      rfl
    exact absurd hmore (by rw [hsame]; exact lt_irrefl _)

theorem invoked?_eq_some : m.invoked? = some p ↔ ∃ m', m.step = some m' ∧ m.Starts m' p := by
  rw [invoked?, Option.bind_eq_some_iff]
  refine exists_congr fun m' => and_congr_right fun hstep => ⟨fun h => ?_, fun h => ?_⟩
  · split at h
    · next hmore =>
      obtain ⟨q, hq⟩ := (moves hstep).starts hmore
      exact Option.some.inj (hq.top.symm.trans h) ▸ hq
    · exact nomatch h
  · rw [if_pos (by rw [h.resolvers]; exact Nat.lt_succ_self _), h.top]

/-- A resolver that starts is gone, and its pending is marked. -/
theorem Starts.begun (h : m.Starts m' p) : m'.store.Begun p := by
  obtain ⟨s, r, -, hres, hstore⟩ := h.taken
  obtain ⟨hlt, hmarked, -⟩ :=
    Store.pendingStatus_beginResolving (Store.beginResolving_some hres)
  exact hstore ▸ ⟨hlt, hmarked ▸ nofun⟩

/-- Only a pending that nothing has happened to has a resolver that can start. -/
theorem Starts.fresh (h : m.Starts m' p) (hm : m.store.Idle) :
    ¬ m.store.Begun p ∧ m.store.isOpen p = true := by
  obtain ⟨s, r, hquiet, hres, -⟩ := h.taken
  have hstatus : s.pendingStatus p = .unresolved :=
    hm.quiet hquiet p (by rw [hres]; exact Option.some_ne_none r)
  refine ⟨fun hbegun => (hbegun.quiet hquiet).2 hstatus, ?_⟩
  by_contra hclosed
  have hlater := hquiet.persists.closed (Bool.eq_false_iff.mpr hclosed)
  rw [Store.isOpen, hstatus] at hlater
  exact Bool.false_ne_true hlater.symm

/-! ### At most once -/

/-- A pending that something has happened to stays begun. -/
theorem run_begun (h : m.store.Begun p) (k : Nat) : (m.run k).store.Begun p :=
  run_keeps (P := fun m => m.store.Begun p) k h fun _ _ hbegun _ hstep => (moves hstep).begun hbegun

/-- **A pending whose resolver starts** was open all the time, and its resolver has not started
before. -/
theorem open_before_invoked (hm : m.Reachable) {i j : Nat} (hij : i ≤ j)
    (h : (m.run j).invoked? = some p) : (m.run i).store.isOpen p = true ∧
      (i < j → (m.run i).invoked? ≠ some p) := by
  obtain ⟨m', -, hstarts⟩ := invoked?_eq_some.mp h
  obtain ⟨hfresh, hopen⟩ := hstarts.fresh (hm.run j).idle
  obtain ⟨d, rfl⟩ := Nat.exists_eq_add_of_le hij
  rw [run_add] at hfresh hopen
  refine ⟨?_, fun hlt hearlier => ?_⟩
  · by_contra hclosed
    rw [run_closed (hm.run i) (Bool.eq_false_iff.mpr hclosed) d] at hopen
    exact nomatch hopen
  · obtain ⟨m'', hstep, hearly⟩ := invoked?_eq_some.mp hearlier
    have hnext : (m.run i).run 1 = m'' := by rw [run, hstep]; rfl
    obtain ⟨e, rfl⟩ : ∃ e, d = 1 + e := ⟨d - 1, by omega⟩
    rw [run_add, hnext] at hfresh
    exact hfresh (run_begun hearly.begun e)

/-- **No resolver starts twice** in a run. -/
theorem nodup_invocations (hm : m.Reachable) (k : Nat) : (m.invocations k).Nodup := by
  refine List.Nodup.filterMap (fun i j p hi hj => ?_) List.nodup_range
  rcases Nat.lt_trichotomy i j with hlt | heq | hgt
  · exact absurd hi ((open_before_invoked hm (Nat.le_of_lt hlt) hj).2 hlt)
  · exact heq
  · exact absurd hj ((open_before_invoked hm (Nat.le_of_lt hgt) hi).2 hgt)

/-! ### On a loop's own account -/

theorem invocations_succ (m : Machine σ) (k : Nat) :
    m.invocations (k + 1) = m.invocations k ++ (m.run k).invoked?.toList := by
  rw [invocations, List.range_succ, List.filterMap_append, invocations]
  cases h : (m.run k).invoked? <;> simp [h]

theorem ownInvocations_succ (m : Machine σ) (l : LoopId) (k : Nat) :
    m.ownInvocations l (k + 1) = m.ownInvocations l k ++ ((m.run k).ownInvoked? l).toList := by
  rw [ownInvocations, List.range_succ, List.filterMap_append, ownInvocations]
  cases h : (m.run k).ownInvoked? l <;> simp [h]

theorem ownInvoked?_of_step (hstep : m.step = some m') (l : LoopId) :
    m.ownInvoked? l = if m'.forcedBy? = some l then m.invoked? else none := by
  rw [ownInvoked?, hstep, Option.bind_some]

theorem invoked?_of_le (hstep : m.step = some m')
    (h : m'.resolvers.length ≤ m.resolvers.length) : m.invoked? = none := by
  rw [invoked?, hstep, Option.bind_some, if_neg (Nat.not_lt.mpr h)]

theorem invoked?_of_stack {rest : List (Frame σ)} (hstep : m.step = some m')
    (hstack : m'.stack = .resolving p :: rest) (hmore : m.resolvers.length < m'.resolvers.length) :
    m.invoked? = some p := by
  rw [invoked?, hstep, Option.bind_some, if_pos hmore, topResolver?_of_stack hstack]

/-- A step starts nothing on the account of a loop that no frame below the resolver is of. -/
theorem ownInvoked?_eq_none (hstep : m.step = some m')
    (hown : m'.resolvers.length ≤ m.resolvers.length ∨ m'.forcedBy? ≠ some l) :
    m.ownInvoked? l = none := by
  rw [ownInvoked?_of_step hstep]
  rcases hown with hle | hother
  · rw [invoked?_of_le hstep hle, ite_self]
  · rw [if_neg hother]

theorem Accounted.forced_le (h : m.Accounted m') (l : LoopId) :
    (m.store.loop l).forced ≤ (m'.store.loop l).forced := by
  cases h with
  | free books _ _ => exact Nat.le_of_eq (books.forced l).symm
  | forced books _ _ => exact Nat.le_of_eq (books.forced l).symm
  | counted _ _ store _ _ =>
    rw [store, Store.loop_counted]
    split
    · exact Nat.le_succ _
    · exact Nat.le_refl _

/-- **A step starts** on a loop's own account only what the loop has counted. -/
theorem forced_step (hm : m.Housed) (hstep : m.step = some m') (l : LoopId) :
    (m.store.loop l).forced + (m.ownInvoked? l).toList.length + m'.charges l ≤
      (m'.store.loop l).forced + m.charges l := by
  cases (step_books hm hstep).1 with
  | free books charges own =>
    have hnone := ownInvoked?_eq_none (l := l) hstep (own.imp_right fun h => by rw [h]; exact nofun)
    rw [hnone, books.forced]
    exact Nat.add_le_add_left (charges l) _
  | @counted l' known _ store resolvers charges =>
    have hnone := ownInvoked?_eq_none (l := l) hstep (.inl (Nat.le_of_eq (by rw [resolvers])))
    have hforced : (m'.store.loop l).forced =
        (m.store.loop l).forced + if l' = l then 1 else 0 := by
      rw [store, Store.loop_counted]
      by_cases h : l' = l
      · rw [if_pos ⟨h, known⟩, if_pos h]
      · rw [if_neg fun hand => h hand.1, if_neg h]
        rfl
    have hcharges := charges l
    rw [hnone, hforced]
    show _ + 0 + _ ≤ _
    omega
  | @forced l' books charges own =>
    have hcharges := charges l
    rw [books.forced]
    by_cases h : l' = l
    · -- what is started has been counted
      have hone : (m.ownInvoked? l).toList.length ≤ 1 := by cases m.ownInvoked? l <;> simp
      rw [if_pos h] at hcharges
      omega
    · have hnone := ownInvoked?_eq_none (l := l) hstep
        (own.imp_right fun hby heq => h (Option.some.inj (hby.symm.trans heq)))
      rw [hnone]
      rw [if_neg h] at hcharges
      exact Nat.add_le_add_left hcharges _

/-- **A loop counts** what it starts on its own account, and before it starts it. -/
theorem run_forced (hm : m.Reachable) (l : LoopId) (k : Nat) :
    (m.store.loop l).forced + (m.ownInvocations l k).length + (m.run k).charges l ≤
      ((m.run k).store.loop l).forced + m.charges l := by
  induction k with
  | zero => exact Nat.le_refl _
  | succ k ih =>
    rw [ownInvocations_succ, List.length_append, run_succ]
    cases hstep : (m.run k).step with
    | none =>
      rw [ownInvoked?, hstep]
      exact ih
    | some m' =>
      have hnext := forced_step (hm.run k).housed hstep l
      rw [Option.getD_some]
      omega

/-- The count of a loop does not go down. -/
theorem forced_mono (hm : m.Reachable) (l : LoopId) {j k : Nat} (h : j ≤ k) :
    ((m.run j).store.loop l).forced ≤ ((m.run k).store.loop l).forced := by
  obtain ⟨d, rfl⟩ := Nat.exists_eq_add_of_le h
  rw [run_add]
  refine run_keeps (P := fun m' => ((m.run j).store.loop l).forced ≤ (m'.store.loop l).forced) d
    (Nat.le_refl _) fun i _ hle m' hstep => Nat.le_trans hle ?_
  exact (step_books ((hm.run j).run i).housed hstep).1.forced_le l

/-! ### Limits -/

/-- A loop that is there stays, with its limits. -/
theorem Move.config (h : m.Move m') (hl : l < m.store.loops.size) :
    l < m'.store.loops.size ∧ (m'.store.loop l).config = (m.store.loop l).config := by
  -- a task that goes back to its table changes nothing about the limits
  have hput : ∀ {s : Store} {l' t body}, m.store.TableGrows s l →
      l < (s.putTask l' t body).loops.size ∧
        ((s.putTask l' t body).loop l).config = (m.store.loop l).config := by
    intro s l' t body hgrows
    obtain ⟨hsize, hconfig⟩ := hgrows.config hl
    refine ⟨Nat.lt_of_lt_of_eq hsize Array.size_modify.symm, ?_⟩
    rw [(Store.loop_putTask s l' l t body).2, hconfig]
  cases h with
  | calm h => exact (h.store.table l).config hl
  | spawned _ h => exact ((Store.TableGrows.spawn _ _ _ l).trans (h.store.table l)).config hl
  | resolving h hbegin _ _ _ =>
    obtain ⟨-, hstore⟩ := Store.beginResolving_eq hbegin
    exact ((h.store.table l).trans (hstore ▸ .of_loops rfl)).config hl
  | @resolved p r rest _ _ =>
    obtain h | ⟨e, -, h⟩ := resolved_store { m with stack := rest } p r
    · exact (h.table l).config hl
    · exact (h ▸ Store.TableGrows.close m.store p _ l : m.store.TableGrows _ l).config hl
  | @skipped l' _ _ ready _ _ _ =>
    exact (Store.TableGrows.note m.store l' l (fun loop => { loop with ready })
      (fun _ => rfl) (fun _ => rfl) fun _ => rfl).config hl
  | @polled l' _ t ready body s _ _ hqueue _ =>
    have hhead : m.store.TableGrows s l := hqueue ▸ .note m.store l' l
      (fun loop => { loop with ready }) (fun _ => rfl) (fun _ => rfl) fun _ => rfl
    have hdrop := hhead.trans (.dropTask s l' l t)
    rcases pollTask_cases { m with store := s.dropTask l' t } l' t body with
      ⟨s', body', hquiet, hstore, -⟩ | ⟨hquiet, -⟩
    · rw [hstore]
      exact hput (hdrop.trans (hquiet.table l))
    · exact (hdrop.trans (hquiet.table l)).config hl
  | turned h _ hstore _ _ _ => exact hstore ▸ (h.calm.store.table l).config hl
  | suspended h _ hstore _ _ _ =>
    rw [hstore]
    exact hput (h.calm.store.table l)

/-- Along a run a loop that is there keeps its limits. -/
theorem run_config (hl : l < m.store.loops.size) (k : Nat) :
    ((m.run k).store.loop l).config = (m.store.loop l).config := by
  refine (run_keeps (P := fun m' => l < m'.store.loops.size ∧
    (m'.store.loop l).config = (m.store.loop l).config) k ⟨hl, rfl⟩ fun i _ ih m' hstep => ?_).2
  obtain ⟨hsize, hconfig⟩ := (moves hstep).config ih.1
  exact ⟨hsize, hconfig.trans ih.2⟩

/-- No loop counts beyond its limit. -/
def Thrifty (m : Machine σ) : Prop :=
  ∀ l, (m.store.loop l).forced ≤ (m.store.loop l).config.maxForced

/-- **A step** counts only for loops that may still force. -/
theorem Thrifty.step (hm : m.Thrifty) (hhoused : m.Housed) (hstep : m.step = some m') :
    m'.Thrifty := by
  have hcounts : ∀ l, (m'.store.loop l).forced = (m.store.loop l).forced ∨
      l < m.store.loops.size ∧ (m.store.loop l).forced < (m.store.loop l).config.maxForced ∧
        (m'.store.loop l).forced = (m.store.loop l).forced + 1 := by
    intro l
    cases (step_books hhoused hstep).1 with
    | free books _ _ => exact .inl (books.forced l)
    | forced books _ _ => exact .inl (books.forced l)
    | @counted l' known within store _ _ =>
      rw [store, Store.loop_counted]
      by_cases h : l' = l
      · subst h
        exact .inr ⟨known, within, by rw [if_pos ⟨rfl, known⟩]⟩
      · exact .inl (by rw [if_neg fun hand => h hand.1])
  intro l
  rcases Nat.lt_or_ge l m.store.loops.size with hl | hge
  · rw [((moves hstep).config hl).2]
    rcases hcounts l with heq | ⟨-, hlt, heq⟩
    · exact heq ▸ hm l
    · exact heq ▸ hlt
  · -- a loop that is not there counts nothing
    rcases hcounts l with heq | ⟨hl, -, -⟩
    · rw [heq, Store.loop_of_absent hge]
      exact Nat.zero_le _
    · exact absurd hl (Nat.not_lt.mpr hge)

/-- **Along every run** no loop counts beyond its limit. -/
theorem Reachable.thrifty (h : m.Reachable) : m.Thrifty := by
  induction h with
  | start client code => exact fun l => Nat.zero_le _
  | step h hstep ih => exact ih.step h.housed hstep

/-- **Resolvers run at most once and within the limits.**  Along every run, no pending's resolver
starts twice, and none starts after its pending was closed.  The count of a loop never goes down
and never exceeds its limit, and the loop has started no more resolvers on its own account than it
has counted. -/
theorem resolvers_run_once (client : σ) (code : Program σ) (k : Nat) :
    let run := fun i => (start client code).run i
    ((start client code).invocations k).Nodup ∧
    (∀ i ≤ k, ∀ p, (run k).invoked? = some p → (run i).store.isOpen p = true) ∧
    ∀ l, (∀ i ≤ k, ((run i).store.loop l).forced ≤ ((run k).store.loop l).forced) ∧
      ((run k).store.loop l).forced ≤ ((run k).store.loop l).config.maxForced ∧
      ((start client code).ownInvocations l k).length ≤ ((run k).store.loop l).forced := by
  intro run
  have hm := Reachable.start client code
  refine ⟨nodup_invocations hm k, fun i hi p hp => (open_before_invoked hm hi hp).1, fun l => ?_⟩
  refine ⟨fun i hi => forced_mono hm l hi, (hm.run k).thrifty l, ?_⟩
  have hcovers : 0 + ((start client code).ownInvocations l k).length + (run k).charges l ≤
      ((run k).store.loop l).forced + 0 := run_forced hm l k
  omega

/-- Code with three pendings.  The first is forced, and forces the second in turn; then the loop is
told to finish, and is left with the third. -/
def forcedInTurn : Program Unit :=
  let known := .done (.ok (.constant (.int 1)))
  .update (Infer.openLoop { maxForced := 1 }).run fun _ =>
    .pending 0 (.force 0 1 .done) (.ranked none) fun _ =>
      .pending 0 known (.ranked none) fun _ =>
        .pending 0 known (.ranked none) fun _ =>
          .force 0 0 fun _ => .finish 0 .done

/-- Each of the three resolvers starts once, and the loop counts the last one only. -/
theorem resolvers_run_once_forcedInTurn :
    (start () forcedInTurn).invocations 40 = [0, 1, 2] ∧
      (start () forcedInTurn).ownInvocations 0 40 = [2] ∧
      ((start () forcedInTurn).invocations 40).Nodup ∧
      1 ≤ (((start () forcedInTurn).run 40).store.loop 0).forced := by
  obtain ⟨hnodup, -, hloops⟩ := resolvers_run_once () forcedInTurn 40
  obtain ⟨-, -, hown⟩ := hloops 0
  have hlist : (start () forcedInTurn).ownInvocations 0 40 = [2] := by decide +kernel
  rw [hlist] at hown
  exact ⟨by decide +kernel, hlist, hnodup, hown⟩

end Machine

end ValueInference
