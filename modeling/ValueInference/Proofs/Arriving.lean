/-
Code that arrives, however often it is suspended.

A task whose code waits is suspended there, and other tasks run.  Nothing that the code has found
out is lost meanwhile: stores only get later.  The code waits for one slot at a time and puts
nothing aside, so no wake-up is lost either.  If from each of its waits the code goes on to its goal
whatever the store has become, and what it waits for is known in the end, then the task is polled
again and again until it arrives.

* **`Store.Comes`** — code that goes on to a goal, through updates and through waits;
* **`Machine.Bound`** — a task on its way: under way with such code, or suspended in it;
* **`Machine.Bound.step`** — each step leaves the task on its way, unless it has arrived;
* **`Machine.arrives`** — a task that has nothing left to do has arrived.
-/
import ValueInference.Proofs.Followed
import ValueInference.Proofs.Resolvers
import ValueInference.Proofs.Wakeups

namespace ValueInference

/-- Code that goes on to a goal on the way to the store `T`: through updates, and through waits for
slots that are known in the end, from which it goes on in whatever store it is woken. -/
inductive Store.Comes {σ : Type} (T : Store) (v : NodeId) (G : Store → Program σ → Prop) :
    Store → Program σ → Prop
  | here {s : Store} {code : Program σ} (goal : G s code) : Comes T v G s code
  | update {s : Store} {α : Type} {x : Update α} {next : α → Program σ}
      (going : (x.run s).2.Towards T v → s.Before (x.run s).2 →
        Comes T v G (x.run s).2 (next (x.run s).1)) : Comes T v G s (.update x next)
  | await {s : Store} {slot : Slot} {next : Outcome → Program σ}
      (known : ∀ p ∈ slot.pendings, p < s.pendings.size) (ends : (T.resolve slot).pendings = [])
      (going : ∀ t, t.Towards T v → s.Before t → t.resolve slot = T.resolve slot →
        Comes T v G t (next (.ok (T.resolve slot)))) : Comes T v G s (.await (.slot slot) next)

namespace Store

variable {s : Store} {l : LoopId} {t : TaskId} {w : Waiter} {body body' : TaskBody}

/-! ### Tasks that are put back and taken out -/

/-- A task that is put back is in its table. -/
theorem tabled_putTask (hl : l < s.loops.size) (t : TaskId) (body : TaskBody) :
    (s.putTask l t body).Tabled ⟨l, t⟩ body := by
  rw [Tabled, putTask, loop_modifyLoop, if_pos ⟨rfl, hl⟩]
  exact List.mem_append_right _ List.mem_cons_self

end Store

namespace Machine

variable {σ : Type} {m m' : Machine σ} {T : Store} {v : NodeId} {G : Store → Program σ → Prop}
  {l : LoopId} {t : TaskId} {body : TaskBody}

/-- The task is under way, and about to execute code at the goal. -/
def Arrived (m : Machine σ) (G : Store → Program σ → Prop) (l : LoopId) (t : TaskId)
    (body : TaskBody) : Prop :=
  ∃ rest code, m.stack = .task l t body :: rest ∧ m.control = .exec code ∧ G m.store code

/-- The task is suspended in code that waits for a pending, and that goes on to the goal from
there. -/
structure Suspended (T : Store) (v : NodeId) (G : Store → Program σ → Prop) (m : Machine σ)
    (l : LoopId) (t : TaskId) (body : TaskBody) (i : Nat) (q : PendingId)
    (next : Outcome → Program σ) : Prop where
  tabled : m.store.Tabled ⟨l, t⟩ body
  code : body.code? = some i
  saved : m.codes[i]? = some (.await (.slot (.pending q)) next)
  known : q < m.store.pendings.size
  ends : (T.resolve (.pending q)).pendings = []
  going : ∀ t, t.Towards T v → m.store.Before t → t.resolve (.pending q) = T.resolve (.pending q) →
    T.Comes v G t (next (.ok (T.resolve (.pending q))))

/-- The task is on its way to the goal. -/
inductive Bound (T : Store) (v : NodeId) (G : Store → Program σ → Prop) (m : Machine σ)
    (l : LoopId) (t : TaskId) (body : TaskBody) : Prop
  | running {rest : List (Frame σ)} {code : Program σ} (stack : m.stack = .task l t body :: rest)
      (control : m.control = .exec code) (comes : T.Comes v G m.store code)
  | waiting {i : Nat} {q : PendingId} {next : Outcome → Program σ}
      (waits : m.Suspended T v G l t body i q next)

/-! ### Tasks under way -/

/-- A task that executes code runs client code. -/
theorem exists_code (hm : m.Reachable) {rest : List (Frame σ)} {code : Program σ}
    (hstack : m.stack = .task l t body :: rest) (hcontrol : m.control = .exec code) :
    ∃ i, body.code? = some i ∧ i < m.codes.size := by
  have hstands : m.Stands ⟨l, t⟩ body := .inr (hstack ▸ List.mem_cons_self)
  rcases hcode : body.code? with _ | i
  · exfalso
    obtain ⟨d, rfl⟩ : ∃ d, body = .merge d := by
      cases body with
      | merge d => exact ⟨d, rfl⟩
      | _ => exact nomatch hcode
    rcases hm.merged with hnot | ⟨_, _, r, -, hanswer, -⟩
    · exact hnot (.task l t (.merge d)) (hstack ▸ List.mem_cons_self) trivial
    · exact nomatch hcontrol.symm.trans hanswer
  · exact ⟨i, rfl, hm.owned.bound _ _ i hstands hcode⟩

/-- **A task that waits for a slot** goes on if it is known, and is suspended otherwise. -/
theorem await_slot (slot : Slot) (next : Outcome → Program σ) {rest : List (Frame σ)}
    (hstack : m.stack = .task l t body :: rest) :
    (∀ r, m.store.poll slot = .inr r → m.await (.slot slot) next = m.exec (next r)) ∧
      ∀ p, m.store.poll slot = .inl p → m.await (.slot slot) next =
        ({ m with store := m.store.register ⟨l, t⟩ p, stack := rest }.saveCode body
          (.await (.slot (.pending p)) next)).suspend l t body := by
  obtain ⟨store, client, codes, rules, stack, control⟩ := m
  obtain rfl : stack = .task l t body :: rest := hstack
  refine ⟨fun r hpoll => ?_, fun p hpoll => ?_⟩
  · rw [await, Store.ask, hpoll]
  · rw [await, Store.ask, hpoll]
    rfl

/-- **A task under way** takes a step towards its goal. -/
theorem Bound.step_running (hm : m.Reachable) (hway : m.store.Towards T v)
    (hway' : m'.store.Towards T v) {rest : List (Frame σ)} {code : Program σ}
    (hstack : m.stack = .task l t body :: rest) (hcontrol : m.control = .exec code)
    (hcomes : T.Comes v G m.store code) (hstep : m.step = some m') :
    m.Arrived G l t body ∨ m'.Bound T v G l t body := by
  have hlater : m.store.Before m'.store := ((moves hstep).continues hm.idle hm.informed).1
  obtain ⟨i, hi, hbound⟩ := exists_code hm hstack hcontrol
  cases hcomes with
  | here hgoal => exact .inl ⟨rest, code, hstack, hcontrol, hgoal⟩
  | update hgoing =>
    rw [step, hcontrol] at hstep
    cases hstep
    exact .inr (.running hstack rfl (hgoing hway' hlater))
  | @await _ slot next hknown hends hgoing =>
    rw [step, hcontrol] at hstep
    cases hstep
    obtain ⟨hgo, hsuspend⟩ := await_slot slot next hstack
    rcases Store.poll_towards hway.informed hway.later.persists hends hknown with
      ⟨hpoll, hsame⟩ | ⟨p, hpoll, hresolve, hend⟩
    · rw [execute, hgo _ hpoll]
      exact .inr (.running hstack rfl (hgoing m.store hway (.refl _) hsame))
    · -- the task goes back to its table, and its code is what it waits with
      have hm' : m.execute (.await (.slot slot) next) = _ := hsuspend p hpoll
      have hstore : (m.execute (.await (.slot slot) next)).store =
          (m.store.register ⟨l, t⟩ p).putTask l t body := by
        rw [hm']
        cases body <;> rfl
      have hcodes : (m.execute (.await (.slot slot) next)).codes =
          m.codes.setIfInBounds i (.await (.slot (.pending p)) next) := by
        rw [hm']
        exact codes_saveCode hi
      have hnumber : t < (m.store.loop l).spawned :=
        hm.numbered.frames (.task l t body) (hstack ▸ List.mem_cons_self)
      have hp := (Store.canWait_iff.mp (Store.poll_open hpoll).2).1
      suffices hwaits : (m.execute (.await (.slot slot) next)).Suspended T v G l t body i p
          next from .inr (.waiting hwaits)
      refine ⟨?_, hi, ?_, hp.trans_le hlater.size_le, hend ▸ hends, ?_⟩
      · rw [hstore]
        exact Store.tabled_putTask (Store.loop_lt_of_spawned hnumber) t body
      · rw [hcodes]
        exact Array.getElem?_setIfInBounds_self_of_lt hbound
      · intro u hu hlater' hsame
        rw [hend] at hsame ⊢
        have hbecomes : u.Becomes slot (.pending p) :=
          (hresolve ▸ Store.Becomes.resolve m.store slot).later (hlater.trans hlater').persists
        refine hgoing u hu (hlater.trans hlater') ?_
        have hknown := (hbecomes.trans (.resolve u _)).resolve_known hu.later.persists hends
          (hsame ▸ hends)
        exact hknown.trans hsame

/-! ### Suspended tasks -/

/-- **A suspended task** stays where it is, or it is polled and on its way again. -/
theorem Bound.step_waiting (hm : m.Reachable) {i : Nat} {q : PendingId}
    {next : Outcome → Program σ} (h : m.Suspended T v G l t body i q next)
    (hstep : m.step = some m') : m'.Bound T v G l t body := by
  have hmove := moves hstep
  have hlater : m.store.Before m'.store := (hmove.continues hm.idle hm.informed).1
  have hstands : m.Stands ⟨l, t⟩ body := .inl h.tabled
  -- where the task stays, so does what it waits for
  have hstays : m'.store.Tabled ⟨l, t⟩ body → m'.codes[i]? = m.codes[i]? →
      m'.Bound T v G l t body := fun htabled hcodes =>
    .waiting ⟨htabled, h.code, hcodes.trans h.saved, h.known.trans_le hlater.size_le, h.ends,
      fun u hu hlater' => h.going u hu (hlater.trans hlater')⟩
  have hsaved : ∀ {m₁ : Machine σ}, m.codes.toList <+: m₁.codes.toList →
      m₁.codes[i]? = m.codes[i]? := fun hcodes =>
    (getElem?_codes hcodes h.saved).trans h.saved.symm
  cases hmove with
  | calm h' => exact hstays ((h'.store.queue l).tabled h.tabled) (hsaved h'.codes)
  | @spawned _ l' body' task _ h' =>
    have hspawn : Store.QueueGrows (fun _ => True) m.store (m.store.spawn l' body').2 l :=
      .spawn m.store l' l trivial
    refine hstays ((h'.store.queue l).tabled (hspawn.tabled h.tabled)) (hsaved ?_)
    exact (Calm.coded m task).codes.trans h'.codes
  | @resolving m₁ _ _ _ h' hbegin _ hcodes _ =>
    obtain ⟨-, hstore⟩ := Store.beginResolving_eq hbegin
    have hsame : Store.QueueGrows (fun _ => True) m₁.store m'.store l := hstore ▸ .of_loops rfl
    exact hstays (hsame.tabled ((h'.store.queue l).tabled h.tabled)) (hsaved (hcodes ▸ h'.codes))
  | @resolved p r rest _ _ =>
    refine hstays ((queue_resolved { m with stack := rest } p r l).tabled h.tabled) ?_
    rw [codes_resolved]
  | skipped => exact hstays (Store.tabled_behead.mpr h.tabled) rfl
  | @polled l' polled t' ready body' s hcontrol hhead hqueue hlookup =>
    have htabled : m.store.Tabled ⟨l', t'⟩ body' := by
      have hmem : s.Tabled ⟨l', t'⟩ body' := mem_of_lookup hlookup
      rw [hqueue] at hmem
      exact Store.tabled_behead.mp hmem
    by_cases hsame : (⟨l', t'⟩ : Waiter) = ⟨l, t⟩
    · -- the task goes on with its code
      cases hsame
      obtain rfl := hm.single.alone _ _ _ (h.code ▸ nofun) h.tabled htabled
      have hcode : pollTask { m with store := s.dropTask l t } l t body' =
          (push { m with store := s.dropTask l t } (.task l t body')).exec
            (.await (.slot (.pending q)) next) := pollTask_code h.code h.saved
      refine .running (by rw [hcode]; rfl) (by rw [hcode]; rfl) (.await ?_ h.ends ?_)
      · intro p hp
        obtain rfl := List.mem_singleton.mp hp
        exact h.known.trans_le hlater.size_le
      · exact fun u hu hlater' => h.going u hu (hlater.trans hlater')
    · have hbehead : s.Tabled ⟨l, t⟩ body := hqueue ▸ Store.tabled_behead.mpr h.tabled
      have hdrop : (s.dropTask l' t').Tabled ⟨l, t⟩ body := hbehead.drop (Ne.symm hsame)
      have hkept : Store.Tabled (pollTask { m with store := s.dropTask l' t' } l' t' body').store
          ⟨l, t⟩ body := by
        rcases pollTask_cases { m with store := s.dropTask l' t' } l' t' body' with
          ⟨s', body'', hquiet, hstore, -⟩ | ⟨hquiet, -⟩
        · rw [hstore]
          exact ((hquiet.queue l).tabled hdrop).put _ _ _
        · exact (hquiet.queue l).tabled hdrop
      refine hstays hkept ?_
      rw [codes_pollTask]
  | turned h' _ hstore _ hcodes _ =>
    refine hstays (hstore ▸ (h'.calm.store.queue l).tabled h.tabled) ?_
    rw [hcodes]
    exact hsaved h'.calm.codes
  | @suspended m₁ _ _ l' t' body' _ h' hstack hstore _ hcodes _ =>
    have hcalm := h'.calm
    obtain ⟨i', hi'⟩ := hm.merged.code? h' hstack
    have hframe : .task l' t' body' ∈ m.stack :=
      (hcalm.stack _ (hstack ▸ List.mem_cons_self)).resolve_left id
    have hne : i' ≠ i := by
      rintro rfl
      have hstands' : m.Stands ⟨l', t'⟩ body' := .inr hframe
      have hsame := hm.owned.unique _ _ _ _ _ hstands hstands' h.code hi'
      have hunder : ⟨l', t'⟩ ∈ m.underway := mem_underway.mpr ⟨body', hframe⟩
      exact hm.single.apart _ (hsame ▸ hunder) body h.tabled
    refine hstays (hstore ▸ ((hcalm.store.queue l).tabled h.tabled).put _ _ _) ?_
    rw [hcodes, codes_saveCode hi', Array.getElem?_setIfInBounds_ne hne]
    exact hsaved hcalm.codes

/-! ### Runs -/

/-- **Each step** leaves a task on its way, unless it has arrived. -/
theorem Bound.step (h : m.Bound T v G l t body) (hm : m.Reachable) (hway : m.store.Towards T v)
    (hway' : m'.store.Towards T v) (hstep : m.step = some m') :
    m.Arrived G l t body ∨ m'.Bound T v G l t body := by
  cases h with
  | running hstack hcontrol hcomes => exact step_running hm hway hway' hstack hcontrol hcomes hstep
  | waiting hwaits => exact .inr (step_waiting hm hwaits hstep)

/-- A task on its way arrives, or is still on its way after any number of steps. -/
theorem Bound.run (h : m.Bound T v G l t body) (hm : m.Reachable) (k : Nat)
    (hway : ∀ i ≤ k, (m.run i).store.Towards T v) :
    (∃ i ≤ k, (m.run i).Arrived G l t body) ∨ (m.run k).Bound T v G l t body := by
  induction k with
  | zero => exact .inr h
  | succ k ih =>
    rcases ih fun i hi => hway i (Nat.le_succ_of_le hi) with ⟨i, hi, harrived⟩ | hbound
    · exact .inl ⟨i, Nat.le_succ_of_le hi, harrived⟩
    have hnext := hway (k + 1) (Nat.le_refl _)
    rw [run_succ] at hnext ⊢
    cases hstep : (m.run k).step with
    | none => exact .inr hbound
    | some m' =>
      rw [hstep] at hnext
      rcases hbound.step (hm.run k) (hway k (Nat.le_succ k)) hnext hstep with harrived | hbound
      · exact .inl ⟨k, Nat.le_succ k, harrived⟩
      · exact .inr hbound

/-- A task on its way to a store is queued or under way there, or about to arrive. -/
theorem Bound.not_idle (h : m.Bound m.store v G l t body) (hm : m.Reachable) :
    m.store.Queued ⟨l, t⟩ ∨ ⟨l, t⟩ ∈ m.underway := by
  cases h with
  | running hstack _ _ => exact .inr (mem_underway.mpr ⟨body, hstack ▸ List.mem_cons_self⟩)
  | @waiting i q next h =>
    left
    have hone : m.Undivided body := by
      intro j rule left right next' hj hfork
      obtain rfl : i = j := Option.some.inj (h.code.symm.trans hj)
      cases h.saved.symm.trans hfork
    refine (hm.heedsUndivided _ _ h.tabled hone).resolve_right fun hheeded => ?_
    have hopen := hheeded.2
    have hwaits : q ∈ m.awaits body := by
      rw [awaits_eq h.code, h.saved]
      exact List.mem_cons_self
    have hresult : m.store.result? q = none :=
      Option.eq_none_iff_forall_ne_some.mpr fun w hw => by
        have hclosed := Store.isOpen_eq_false_iff.mpr (.inl ⟨w, hw⟩)
        rw [(hopen q hwaits).1] at hclosed
        cases hclosed
    -- an open pending stands for itself
    have hfinal : m.store.Final (.pending q) := by
      rintro p ⟨⟩
      exact hresult
    have hends := h.ends
    rw [Store.resolve, hfinal.follow] at hends
    cases hends

/-- **A task arrives** at the goal of its code by the time when what it waits for is known and it
has nothing left to do. -/
theorem arrives (hm : m.Reachable) {rest : List (Frame σ)} {code : Program σ} {k : Nat}
    (hstack : m.stack = .task l t body :: rest) (hcontrol : m.control = .exec code)
    (hcomes : (m.run k).store.Comes v G m.store code)
    (hway : ∀ i ≤ k, (m.run i).store.Towards (m.run k).store v)
    (hidle : ¬ (m.run k).store.Queued ⟨l, t⟩ ∧ ⟨l, t⟩ ∉ (m.run k).underway) :
    ∃ i ≤ k, (m.run i).Arrived G l t body := by
  rcases (Bound.running hstack hcontrol hcomes).run hm k hway with harrived | hbound
  · exact harrived
  · exact absurd (hbound.not_idle (hm.run k)) (not_or.mpr hidle)

end Machine

end ValueInference
