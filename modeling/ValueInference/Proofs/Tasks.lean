/-
Tasks and their code.

A task of client code has code of its own, whose number it keeps as long as it is in its table or
under way.  The code itself changes only where the task is suspended: it then goes on from there.  A
deferred merge has no such code, and it is under way only with its outcome.

* **`Machine.Stands`** — a task is in its table, or under way;
* **`Machine.Move.stands`** — a task of client code was there before a step, or it has a new number;
* **`Machine.Owned`**, **`Machine.Reachable.owned`** — no two tasks have the same code;
* **`Machine.Merged`**, **`Machine.Reachable.merged`** — deferred merges under way have their
  outcomes;
* **`Machine.Merged.code?`** — so a task that is suspended has code.
-/
import ValueInference.Proofs.Deferred
import ValueInference.Proofs.Queues

namespace ValueInference

/-- A deferred merge under way. -/
def Frame.Merging {σ : Type} : Frame σ → Prop
  | .task _ _ (.merge _) => True
  | _ => False

theorem Frame.Plain.not_merging {σ : Type} {f : Frame σ} (h : f.Plain) : ¬ f.Merging := by
  cases f with
  | task l t body => exact h.elim
  | _ => exact id

namespace Store

variable {s : Store}

/-- A task that is added has the next number. -/
theorem tabled_spawn {w : Waiter} {l : LoopId} {body body' : TaskBody}
    (h : (s.spawn l body).2.Tabled w body') :
    s.Tabled w body' ∨ w = ⟨l, (s.loop l).spawned⟩ ∧ body' = body := by
  rw [Store.spawn] at h
  split at h
  · exact .inl h
  next loop hloop =>
  split at h
  · exact .inl h
  have hcurrent : s.loop l = loop := by rw [Store.loop, hloop]; rfl
  have hself := s.loop_modifyLoop l w.loop fun loop' => LoopState.schedule
    { loop' with spawned := loop.spawned + 1, tasks := loop'.tasks ++ [(loop.spawned, body)] }
    loop.spawned
  rw [Tabled, hself] at h
  split at h
  · next hl =>
    have hmem : (w.task, body') ∈ (s.loop w.loop).tasks ++ [(loop.spawned, body)] := by
      rw [LoopState.schedule] at h
      split at h <;> exact h
    refine (List.mem_append.mp hmem).imp_right fun he => ?_
    obtain ⟨htask, hbody⟩ := Prod.mk.inj (List.mem_singleton.mp he)
    obtain ⟨l', t⟩ := w
    obtain rfl : l = l' := hl.1
    exact ⟨by rw [hcurrent, ← htask], hbody⟩
  · exact .inl h

/-- The others stay where a task is put back. -/
theorem Tabled.put {w : Waiter} {body : TaskBody} (h : s.Tabled w body) (l : LoopId) (t : TaskId)
    (body' : TaskBody) : (s.putTask l t body').Tabled w body := by
  rw [Tabled, putTask, loop_modifyLoop]
  split
  · exact List.mem_append_left _ h
  · exact h

/-- The others stay where a task is taken out. -/
theorem Tabled.drop {w : Waiter} {body : TaskBody} {l : LoopId} {t : TaskId}
    (h : s.Tabled w body) (hne : w ≠ ⟨l, t⟩) : (s.dropTask l t).Tabled w body := by
  rw [Tabled, dropTask, loop_modifyLoop]
  split
  · next hl =>
    have htask : w.task ≠ t := fun heq => hne (by rw [hl.1, ← heq])
    exact List.mem_filter.mpr ⟨h, by simpa using htask⟩
  · exact h

end Store

namespace Machine

variable {σ : Type} {m m' m₁ : Machine σ} {w w' : Waiter} {body body' : TaskBody}

/-- Code keeps its number. -/
theorem getElem?_codes {code : Program σ} {i : Nat} (h : m.codes.toList <+: m'.codes.toList)
    (hi : m.codes[i]? = some code) : m'.codes[i]? = some code := by
  obtain ⟨more, hmore⟩ := h
  rw [← Array.getElem?_toList] at hi
  have hlt := (List.getElem?_eq_some_iff.mp hi).1
  rw [← Array.getElem?_toList, ← hmore, List.getElem?_append_left hlt, hi]

/-! ### Tasks and their code -/

/-- The task is in its table, or under way. -/
def Stands (m : Machine σ) (w : Waiter) (body : TaskBody) : Prop :=
  m.store.Tabled w body ∨ .task w.loop w.task body ∈ m.stack

theorem stands_of_queue
    (hqueue : ∀ l, Store.QueueGrows (fun body => body.code? = none) m.store m'.store l)
    (hstack : ∀ l t body, .task l t body ∈ m'.stack → body.code? ≠ none →
      .task l t body ∈ m.stack) (hcode : body.code? ≠ none) (hw : m'.Stands w body) :
    m.Stands w body := by
  rcases hw with htable | hframe
  · exact ((hqueue w.loop).tabled_cases htable).elim .inl fun hnew => absurd hnew.2 hcode
  · exact .inr (hstack _ _ _ hframe hcode)

theorem Calm.stands (h : m.Calm m') (hcode : body.code? ≠ none) (hw : m'.Stands w body) :
    m.Stands w body :=
  stands_of_queue h.store.queue (fun _ _ _ hf _ => (h.stack _ hf).resolve_left id) hcode hw

theorem Calm.size_le (h : m.Calm m') : m.codes.size ≤ m'.codes.size := h.codes.length_le

theorem codes_resolved (m : Machine σ) (p : PendingId) (r : Outcome) :
    (m.resolved p r).codes = m.codes := by
  cases r with
  | error e => rfl
  | ok slot =>
    rw [resolved]
    split
    · rcases m.store.setResult p slot with ⟨_ | _, s⟩ <;> rfl
    · rfl

theorem codes_pollTask (m : Machine σ) (l : LoopId) (t : TaskId) (body : TaskBody) :
    (m.pollTask l t body).codes = m.codes := by
  cases body with
  | code i => rfl
  | watched i => rfl
  | merge d =>
    rw [pollTask, pollMerge]
    repeat' split
    all_goals rfl

/-- A task that is polled goes on with its code. -/
theorem pollTask_code {l : LoopId} {t : TaskId} {code : Program σ} {i : Nat}
    (hcode : body.code? = some i) (hsaved : m.codes[i]? = some code) :
    m.pollTask l t body = (m.push (.task l t body)).exec code := by
  cases body with
  | merge d => exact nomatch hcode
  | code j =>
    cases hcode
    rw [pollTask, hsaved]
    rfl
  | watched j =>
    cases hcode
    rw [pollTask, hsaved]
    rfl

theorem size_codes_saveCode (m : Machine σ) (body : TaskBody) (code : Program σ) :
    (m.saveCode body code).codes.size = m.codes.size := by
  cases body with
  | merge d => rfl
  | code i => exact Array.size_setIfInBounds
  | watched i => exact Array.size_setIfInBounds

/-- What a resolver's outcome does to the tables and the queues. -/
theorem queue_resolved (m : Machine σ) (p : PendingId) (r : Outcome) (l : LoopId) :
    Store.QueueGrows (fun body => body.code? = none) m.store (m.resolved p r).store l := by
  obtain h | ⟨e, -, h⟩ := resolved_store m p r
  · exact h.queue l
  · exact h ▸ .close m.store p _ l

/-- A task that is polled is under way, or waits as a deferred merge does. -/
theorem stands_pollTask {l : LoopId} {t : TaskId} (hcode : body'.code? ≠ none)
    (h : (m.pollTask l t body).Stands w body') :
    m.Stands w body' ∨ w = ⟨l, t⟩ ∧ body' = body := by
  have hpush : ∀ {fs : List (Frame σ)}, .task w.loop w.task body' ∈ .task l t body :: fs →
      .task w.loop w.task body' ∈ fs ∨ w = ⟨l, t⟩ ∧ body' = body := by
    intro fs hf
    rcases List.mem_cons.mp hf with heq | hf
    · cases heq
      exact .inr ⟨rfl, rfl⟩
    · exact .inl hf
  cases body with
  | code i => exact h.elim (fun h => .inl (.inl h)) fun h => (hpush h).imp_left .inr
  | watched i => exact h.elim (fun h => .inl (.inl h)) fun h => (hpush h).imp_left .inr
  | merge d =>
    rcases pollMerge_cases m l t d with ⟨p, v, w', -, -, -, -, hstore, hstack⟩ | ⟨r, hpolled⟩
    · rcases h with htable | hframe
      · rw [pollTask, Store.Tabled, hstore] at htable
        rcases Store.mem_putTask _ l w.loop t _ htable with hold | ⟨-, he⟩
        · exact .inl (.inl hold)
        · exact absurd (congrArg (TaskBody.code? ∘ Prod.snd) he) hcode
      · exact .inl (.inr (hstack ▸ hframe))
    · rcases h with htable | hframe
      · refine (hpolled.store.queue w.loop).tabled_cases htable |>.elim (.inl ∘ .inl) ?_
        exact fun hnew => absurd hnew.2 hcode
      · exact (hpush (hpolled.stack ▸ hframe)).imp_left .inr

/-- **A task of client code** was in its table or under way before a step, or it is the one that the
step adds, with new code. -/
theorem Move.stands (h : m.Move m') :
    ∃ w₀ : Waiter, w₀.task = (m.store.loop w₀.loop).spawned ∧ ∀ w body, body.code? ≠ none →
      m'.Stands w body → m.Stands w body ∨
        w = w₀ ∧ body.code? = some m.codes.size ∧ m.codes.size < m'.codes.size := by
  -- only where a task is added there is a new one
  have hsame : (∀ w body, body.code? ≠ none → m'.Stands w body → m.Stands w body) →
      ∃ w₀ : Waiter, w₀.task = (m.store.loop w₀.loop).spawned ∧ ∀ w body, body.code? ≠ none →
        m'.Stands w body → m.Stands w body ∨
          w = w₀ ∧ body.code? = some m.codes.size ∧ m.codes.size < m'.codes.size := fun h =>
    ⟨⟨0, (m.store.loop 0).spawned⟩, rfl, fun w body hcode hw => .inl (h w body hcode hw)⟩
  cases h with
  | calm h => exact hsame fun _ _ => h.stands
  | @spawned _ l body task hbody h =>
    refine ⟨⟨l, (m.store.loop l).spawned⟩, rfl, fun w body' hcode hw => ?_⟩
    rcases h.stands hcode hw with htable | hframe
    · refine (Store.tabled_spawn htable).imp .inl fun ⟨hw, heq⟩ => ⟨hw, ?_, ?_⟩
      · subst heq
        rcases hbody with rfl | rfl <;> rfl
      · exact Nat.lt_of_lt_of_le (by simp) h.size_le
    · exact .inl (.inr hframe)
  | @resolving m₁ _ p res h hbegin hstack hcodes _ =>
    refine hsame fun w body hcode hw => ?_
    obtain ⟨-, hstore⟩ := Store.beginResolving_eq hbegin
    refine h.stands hcode (stands_of_queue (fun l => hstore ▸ .of_loops rfl) (fun l t b hf _ => ?_)
      hcode hw)
    rw [hstack] at hf
    exact (List.mem_cons.mp hf).resolve_left fun heq => by cases heq
  | @resolved p r rest hstack _ =>
    refine hsame fun w body hcode hw => ?_
    refine stands_of_queue (queue_resolved { m with stack := rest } p r) (fun l t b hf _ => ?_)
      hcode hw
    rw [resolved_stack] at hf
    exact hstack ▸ List.mem_cons_of_mem _ hf
  | skipped _ _ _ => exact hsame fun w body _ hw => hw.imp_left Store.tabled_behead.mp
  | @polled l _ t ready body s _ _ hqueue hlookup =>
    have hs : ∀ {w : Waiter} {body : TaskBody}, s.Tabled w body → m.store.Tabled w body := by
      intro w body hw
      rw [Store.Tabled, hqueue, Store.loop_modifyLoop] at hw
      split at hw <;> exact hw
    refine hsame fun w body' hcode hw => ?_
    rcases stands_pollTask hcode hw with hold | ⟨rfl, rfl⟩
    · exact hold.imp_left fun htable => hs (Store.mem_dropTask s l w.loop t htable).1
    · exact .inl (hs (mem_of_lookup hlookup))
  | @turned _ _ _ _ _ _ _ h hstack hstore hstack' hcodes _ =>
    refine hsame fun w body hcode hw => ?_
    refine h.calm.stands hcode (stands_of_queue (fun l => hstore ▸ .refl _ l) (fun l t b hf _ => ?_)
      hcode hw)
    rw [hstack'] at hf
    have hold := (List.mem_cons.mp hf).resolve_left fun heq => by cases heq
    exact hstack ▸ List.mem_cons_of_mem _ hold
  | @suspended m₁ _ _ l t body rest h hstack hstore hstack' hcodes _ =>
    refine hsame fun w body' hcode hw => h.calm.stands hcode ?_
    rcases hw with htable | hframe
    · rw [Store.Tabled, hstore] at htable
      rcases Store.mem_putTask m₁.store l w.loop t body htable with hold | ⟨hl, he⟩
      · exact .inl hold
      · obtain ⟨htask, rfl⟩ := Prod.mk.inj he
        refine .inr ?_
        rw [hstack, ← hl, htask]
        exact List.mem_cons_self
    · exact .inr (hstack ▸ List.mem_cons_of_mem _ (hstack' ▸ hframe))

/-- No code is taken away. -/
theorem Move.size_le (h : m.Move m') : m.codes.size ≤ m'.codes.size := by
  cases h with
  | calm h => exact h.size_le
  | spawned _ h => exact (Nat.le_of_lt (by simp)).trans h.size_le
  | resolving h _ _ hcodes _ => exact hcodes ▸ h.size_le
  | resolved => exact Nat.le_of_eq (by rw [codes_resolved])
  | skipped => exact Nat.le_refl _
  | polled => exact Nat.le_of_eq (by rw [codes_pollTask])
  | turned h _ _ _ hcodes _ => exact hcodes ▸ h.calm.size_le
  | suspended h _ _ _ hcodes _ =>
    rw [hcodes, size_codes_saveCode]
    exact h.calm.size_le

/-- The code of a task exists, and is that of no other task. -/
structure Owned (m : Machine σ) : Prop where
  bound : ∀ w body i, m.Stands w body → body.code? = some i → i < m.codes.size
  unique : ∀ w w' body body' i, m.Stands w body → m.Stands w' body' → body.code? = some i →
    body'.code? = some i → w = w'

/-- **Every step** leaves code with its tasks. -/
theorem Move.owned (h : m.Move m') (hm : m.Owned) : m'.Owned := by
  obtain ⟨w₀, -, hstands⟩ := h.stands
  replace hstands : ∀ {w body i}, m'.Stands w body → body.code? = some i →
      m.Stands w body ∨ w = w₀ ∧ body.code? = some m.codes.size ∧ m.codes.size < m'.codes.size :=
    fun {w body i} hw hi => hstands w body (hi ▸ nofun) hw
  -- code that a task had has a smaller number than new code
  have hnew : ∀ {w body i}, m.Stands w body → body.code? = some i → m.codes.size ≠ i :=
    fun {w body i} hw hi heq => Nat.lt_irrefl _ (heq ▸ hm.bound w body i hw hi)
  refine ⟨fun w body i hw hi => ?_, fun w w' body body' i hw hw' hi hi' => ?_⟩
  · rcases hstands hw hi with hold | ⟨-, hcode, hlt⟩
    · exact Nat.lt_of_lt_of_le (hm.bound w body i hold hi) h.size_le
    · exact Option.some.inj (hcode.symm.trans hi) ▸ hlt
  · rcases hstands hw hi with hold | ⟨rfl, hcode, -⟩ <;>
      rcases hstands hw' hi' with hold' | ⟨rfl, hcode', -⟩
    · exact hm.unique w w' body body' i hold hold' hi hi'
    · exact absurd (Option.some.inj (hcode'.symm.trans hi')) (hnew hold hi)
    · exact absurd (Option.some.inj (hcode.symm.trans hi)) (hnew hold' hi')
    · rfl

theorem Reachable.owned (h : m.Reachable) : m.Owned := by
  induction h with
  | start client code =>
    have hnone : ∀ w body, ¬ (Machine.start client code).Stands w body := by
      rintro w body (htable | hframe)
      · exact List.not_mem_nil htable
      · exact List.not_mem_nil hframe
    exact ⟨fun w body i hw => absurd hw (hnone w body),
      fun w w' body body' i hw => absurd hw (hnone w body)⟩
  | step _ hstep ih => exact (moves hstep).owned ih

/-! ### Deferred merges under way -/

/-- A deferred merge that is under way has its outcome. -/
def Merged (m : Machine σ) : Prop :=
  (∀ f ∈ m.stack, ¬ f.Merging) ∨ ∃ f rest r, m.stack = f :: rest ∧ m.control = .answer r ∧
    ∀ g ∈ rest, ¬ g.Merging

theorem not_merging_of_calm (h : m.Calm m') (hm : ∀ f ∈ m.stack, ¬ f.Merging) :
    ∀ f ∈ m'.stack, ¬ f.Merging :=
  fun f hf => (h.stack f hf).elim Frame.Plain.not_merging (hm f)

theorem merged_pollTask (hm : ∀ f ∈ m.stack, ¬ f.Merging) (l : LoopId) (t : TaskId)
    (body : TaskBody) : (m.pollTask l t body).Merged := by
  have hcoded : ∀ body' : TaskBody, body'.code? ≠ none →
      ∀ f ∈ Frame.task l t body' :: m.stack, ¬ f.Merging := by
    intro body' hcode f hf
    rcases List.mem_cons.mp hf with rfl | hf
    · cases body' with
      | merge d => exact absurd rfl hcode
      | _ => exact id
    · exact hm f hf
  cases body with
  | code i => exact .inl (hcoded (.code i) nofun)
  | watched i => exact .inl (hcoded (.watched i) nofun)
  | merge d =>
    rcases pollMerge_cases m l t d with ⟨_, _, _, -, -, -, -, -, hstack⟩ | ⟨r, hpolled⟩
    · exact .inl fun f hf => hm f (hstack ▸ hf)
    · exact .inr ⟨_, m.stack, r, hpolled.stack, hpolled.control, hm⟩

/-- **A deferred merge that is under way** has its outcome, and the next step takes it. -/
theorem Merged.step (h : m.Merged) (hstep : m.step = some m') : m'.Merged := by
  by_cases hnone : ∀ f ∈ m.stack, ¬ f.Merging
  · cases moves hstep with
    | calm hcalm => exact .inl (not_merging_of_calm hcalm hnone)
    | spawned _ hcalm => exact .inl (not_merging_of_calm hcalm hnone)
    | resolving hcalm _ hstack _ _ =>
      refine .inl fun f hf => ?_
      rcases List.mem_cons.mp (hstack ▸ hf) with rfl | hf
      · exact id
      · exact not_merging_of_calm hcalm hnone f hf
    | @resolved p r rest hstack _ =>
      refine .inl fun f hf => hnone f ?_
      rw [resolved_stack] at hf
      exact hstack ▸ List.mem_cons_of_mem _ hf
    | skipped _ _ _ => exact .inl hnone
    | @polled l _ t _ body s _ _ _ _ =>
      exact merged_pollTask (m := { m with store := s.dropTask l t }) hnone l t body
    | turned h hstack _ hstack' _ _ =>
      refine .inl fun f hf => ?_
      rcases List.mem_cons.mp (hstack' ▸ hf) with rfl | hf
      · exact id
      · exact not_merging_of_calm h.calm hnone f (hstack ▸ List.mem_cons_of_mem _ hf)
    | suspended h hstack _ hstack' _ _ =>
      refine .inl fun f hf => ?_
      exact not_merging_of_calm h.calm hnone f (hstack ▸ List.mem_cons_of_mem _ (hstack' ▸ hf))
  · obtain ⟨f, rest, r, hstack, hcontrol, hrest⟩ := h.resolve_left hnone
    obtain ⟨l, t, d, rfl⟩ : ∃ l t d, f = .task l t (.merge d) := by
      have hf : f.Merging := by
        by_contra hf
        refine hnone fun g hg => ?_
        rcases List.mem_cons.mp (hstack ▸ hg) with rfl | hg
        · exact hf
        · exact hrest g hg
      cases f with
      | task l t body =>
        cases body with
        | merge d => exact ⟨l, t, d, rfl⟩
        | _ => exact hf.elim
      | _ => exact hf.elim
    rw [Machine.step, hcontrol, hstack] at hstep
    cases hstep
    exact .inl (not_merging_of_calm (Calm.taskDone { m with stack := rest } l t _ r) hrest)

theorem Reachable.merged (h : m.Reachable) : m.Merged := by
  induction h with
  | start client code => exact .inl fun f hf => absurd hf List.not_mem_nil
  | step _ hstep ih => exact ih.step hstep

/-- A task that is suspended runs client code, as a deferred merge has its outcome already. -/
theorem Merged.code? (h : m.Merged) {code : Program σ} {l : LoopId} {t : TaskId}
    {rest : List (Frame σ)} (hpauses : m.Pauses code m₁)
    (hstack : m₁.stack = .task l t body :: rest) : ∃ i, body.code? = some i := by
  refine Option.ne_none_iff_exists'.mp fun hnone => ?_
  obtain ⟨d, rfl⟩ : ∃ d, body = .merge d := by
    cases body with
    | merge d => exact ⟨d, rfl⟩
    | _ => exact nomatch hnone
  have hframe : .task l t (.merge d) ∈ m.stack :=
    (hpauses.calm.stack _ (hstack ▸ List.mem_cons_self)).resolve_left id
  rcases h with hnot | ⟨f, rest', r, htop, hanswer, hbelow⟩
  · exact hnot _ hframe trivial
  obtain ⟨code₀, stack, s, hwaits, -, -⟩ := hpauses
  cases hwaits with
  | asks hcontrol _ _ => exact nomatch hcontrol.symm.trans hanswer
  | joins hright _ _ =>
    -- the frame on top is not that of a deferred merge, and none is below
    obtain ⟨rfl, rfl⟩ := List.cons.inj (htop.symm.trans hright)
    rcases List.mem_cons.mp (hright ▸ hframe) with heq | hmem
    · exact nomatch heq
    · exact hbelow _ hmem trivial

end Machine

end ValueInference
