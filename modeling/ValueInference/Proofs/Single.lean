/-
No task is in two places.

A task is in the table of its loop, or it is under way, or it has completed.  A loop takes it out of
the table when it polls it, and it goes back when it waits; new tasks have new numbers.  So a task
that waits is not under way anywhere down the stack, and its number stands for no other task.

* **`Machine.Single`** — each task is in one place;
* **`Machine.Reachable.single`** — along every run.
-/
import ValueInference.Proofs.Tasks

namespace ValueInference

namespace Machine

variable {σ : Type} {m m' : Machine σ} {w : Waiter} {l : LoopId} {t : TaskId}
  {body body' : TaskBody}

/-- Each task is in one place: under way once, or in its table.  A task of client code shares its
number with no other task of its loop. -/
structure Single (m : Machine σ) : Prop where
  once : m.underway.Nodup
  apart : ∀ w ∈ m.underway, ∀ body, ¬ m.store.Tabled w body
  alone : ∀ w body body', body.code? ≠ none → m.store.Tabled w body → m.store.Tabled w body' →
    body' = body

/-- A task that is in no table is in none later on. -/
theorem absent_of_grows {s s' : Store} (h : s.TableGrows s' w.loop)
    (hlt : w.task < (s.loop w.loop).spawned) (hnone : ∀ body, ¬ s.Tabled w body) :
    ∀ body, ¬ s'.Tabled w body := by
  intro body hw
  rcases h.tasks _ hw with hold | ⟨hge, -⟩
  · exact hnone body hold
  · exact Nat.lt_irrefl _ (hlt.trans_le hge)

/-- Tasks stay apart where tables get new tasks only, with new numbers, and no task of client code
among them. -/
theorem Single.grows (h : m.Single) (hm : m.Numbered) (hstack : m'.underway.Sublist m.underway)
    (htable : ∀ l, m.store.TableGrows m'.store l)
    (hqueue : ∀ l, Store.QueueGrows (fun body => body.code? = none) m.store m'.store l) :
    m'.Single := by
  -- what has an old number was there before
  have hold : ∀ {w body}, w.task < (m.store.loop w.loop).spawned → m'.store.Tabled w body →
      m.store.Tabled w body := fun hlt hw =>
    ((htable _).tasks _ hw).resolve_right fun hnew => Nat.lt_irrefl _ (hlt.trans_le hnew.1)
  refine ⟨hstack.nodup h.once, fun w hw body htabled => ?_, fun w body body' hcode hw hw' => ?_⟩
  · have hw' := hstack.subset hw
    obtain ⟨body', hframe⟩ := mem_underway.mp hw'
    exact h.apart w hw' body (hold (hm.frames _ hframe) htabled)
  · have hbefore := ((hqueue _).tabled_cases hw).resolve_right fun hnew => hcode hnew.2
    exact h.alone w body body' hcode hbefore (hold (hm.tasks _ _ hbefore) hw')

theorem Single.put (h : m.Single) (hm : m'.underway.Sublist m.underway) (ht : ⟨l, t⟩ ∉ m.underway)
    (hnone : ∀ body, ¬ m.store.Tabled ⟨l, t⟩ body) (hstore : m'.store = m.store.putTask l t body) :
    m'.Single := by
  have hcases : ∀ {w body'}, m'.store.Tabled w body' →
      m.store.Tabled w body' ∨ w = ⟨l, t⟩ ∧ body' = body := by
    intro w body' hw
    rw [Store.Tabled, hstore] at hw
    rcases Store.mem_putTask m.store l w.loop t body hw with hold | ⟨hl, he⟩
    · exact .inl hold
    · obtain ⟨htask, hbody⟩ := Prod.mk.inj he
      exact .inr ⟨by rw [hl, ← htask], hbody⟩
  refine ⟨hm.nodup h.once, fun w hw body' htabled => ?_, fun w b b' hcode hw hw' => ?_⟩
  · rcases hcases htabled with hold | ⟨rfl, -⟩
    · exact h.apart w (hm.subset hw) body' hold
    · exact ht (hm.subset hw)
  · rcases hcases hw with hold | ⟨rfl, rfl⟩ <;> rcases hcases hw' with hold' | ⟨heq, rfl⟩
    · exact h.alone w b b' hcode hold hold'
    · exact absurd (heq ▸ hold) (hnone b)
    · exact absurd hold' (hnone b')
    · rfl

/-- A task of client code that is added to a table has a number of its own. -/
theorem Single.spawned (h : m.Single) (hm : m.Numbered) (l : LoopId) (body : TaskBody)
    (codes : Array (Program σ)) :
    Single { m with codes, store := (m.store.spawn l body).2 } := by
  refine ⟨h.once, fun w hw body' htabled => ?_, fun w b b' hcode hw hw' => ?_⟩
  · rcases Store.tabled_spawn htabled with hold | ⟨rfl, -⟩
    · exact h.apart w hw body' hold
    · obtain ⟨body', hframe⟩ := mem_underway.mp hw
      exact Nat.lt_irrefl _ (hm.frames _ hframe)
  · have hfresh : ∀ {b}, ¬ m.store.Tabled ⟨l, (m.store.loop l).spawned⟩ b := fun hold =>
      Nat.lt_irrefl _ (hm.tasks _ _ hold)
    rcases Store.tabled_spawn hw with hold | ⟨rfl, rfl⟩ <;>
      rcases Store.tabled_spawn hw' with hold' | ⟨heq, rfl⟩
    · exact h.alone w b b' hcode hold hold'
    · exact absurd (heq ▸ hold) hfresh
    · exact absurd hold' hfresh
    · rfl

/-- A task that is polled is taken out of its table. -/
theorem Single.dropped (h : m.Single) {ready : List TaskId} {s : Store}
    (hs : s = m.store.modifyLoop l fun loop => { loop with ready }) :
    Single { m with store := s.dropTask l t } ∧ ∀ body, ¬ (s.dropTask l t).Tabled ⟨l, t⟩ body := by
  have hcases : ∀ {w body}, (s.dropTask l t).Tabled w body →
      m.store.Tabled w body ∧ w ≠ ⟨l, t⟩ := by
    intro w body hw
    obtain ⟨hmem, hne⟩ := Store.mem_dropTask s l w.loop t hw
    refine ⟨Store.tabled_behead.mp (hs ▸ hmem), fun heq => hne ?_⟩
    exact heq ▸ ⟨rfl, rfl⟩
  refine ⟨⟨h.once, fun w hw body htabled => h.apart w hw body (hcases htabled).1,
    fun w b b' hcode hw hw' => h.alone w b b' hcode (hcases hw).1 (hcases hw').1⟩, ?_⟩
  exact fun body htabled => (hcases htabled).2 rfl

/-- **A task that is polled** is under way, or back in its table. -/
theorem Single.polled (h : m.Single) (hm : m.Numbered) {ready : List TaskId} {s : Store}
    (hs : s = m.store.modifyLoop l fun loop => { loop with ready })
    (hlookup : (s.loop l).tasks.lookup t = some body) :
    Single ({ m with store := s.dropTask l t }.pollTask l t body) := by
  obtain ⟨hdropped, hnone⟩ := h.dropped (t := t) hs
  have htabled : m.store.Tabled ⟨l, t⟩ body := by
    have hmem : s.Tabled ⟨l, t⟩ body := mem_of_lookup hlookup
    rw [hs] at hmem
    exact Store.tabled_behead.mp hmem
  have hunder : ⟨l, t⟩ ∉ m.underway := fun hw => h.apart _ hw body htabled
  have htables : ∀ l', m.store.TableGrows (s.dropTask l t) l' := by
    subst hs
    refine fun l' => (Store.TableGrows.note m.store l l' _ ?_ ?_ ?_).trans (.dropTask _ l l' t)
    all_goals exact fun _ => rfl
  have hnumbered : Machine.Numbered { m with store := s.dropTask l t } := hm.dropped hs
  have habsent : ∀ {s' : Store}, (s.dropTask l t).Quiet s' → ∀ b, ¬ s'.Tabled ⟨l, t⟩ b :=
    fun hquiet => absent_of_grows (hquiet.table l)
      (Nat.lt_of_lt_of_le (hm.tasks l _ htabled) (htables l).spawned) hnone
  rcases pollTask_cases { m with store := s.dropTask l t } l t body with
    ⟨s', body', hquiet, hstore, hstack⟩ | ⟨hquiet, hstack⟩
  · have hwaits : Single { m with store := s' } :=
      hdropped.grows hnumbered (.refl _) hquiet.table hquiet.queue
    refine hwaits.put ?_ hunder (habsent hquiet) hstore
    rw [underway, hstack]
    exact .refl _
  · have hruns : Single
        { m with store := (pollTask { m with store := s.dropTask l t } l t body).store } :=
      hdropped.grows hnumbered (.refl _) hquiet.table hquiet.queue
    have hunderway : (pollTask { m with store := s.dropTask l t } l t body).underway =
        ⟨l, t⟩ :: m.underway := by
      rw [underway, hstack]
      rfl
    refine ⟨hunderway ▸ List.nodup_cons.mpr ⟨hunder, h.once⟩, fun w hw b htabled' => ?_,
      hruns.alone⟩
    rcases List.mem_cons.mp (hunderway ▸ hw) with rfl | hw
    · exact habsent hquiet b htabled'
    · exact hruns.apart w hw b htabled'

/-- A number that is passed over leaves the tables as they are. -/
theorem Single.skipped (h : m.Single) (hm : m'.underway.Sublist m.underway)
    {ready : List TaskId}
    (hs : m'.store = m.store.modifyLoop l fun loop => { loop with ready }) : m'.Single := by
  have htabled : ∀ {w body}, m'.store.Tabled w body → m.store.Tabled w body := fun hw =>
    Store.tabled_behead.mp (hs ▸ hw)
  exact ⟨hm.nodup h.once, fun w hw body hb => h.apart w (hm.subset hw) body (htabled hb),
    fun w b b' hcode hw hw' => h.alone w b b' hcode (htabled hw) (htabled hw')⟩

/-- **Every step** leaves each task in one place. -/
theorem Move.single (h : m.Move m') (hm : m.Numbered) (hs : m.Single) : m'.Single := by
  cases h with
  | calm h => exact hs.grows hm h.underway h.store.table h.store.queue
  | @spawned _ l body task _ h =>
    have hspawned := hs.spawned hm l body (m.codes.push task)
    exact hspawned.grows (hm.spawned l body task) h.underway h.store.table h.store.queue
  | resolving h hbegin hstack _ _ =>
    obtain ⟨-, hstore⟩ := Store.beginResolving_eq hbegin
    have hunder : m'.underway.Sublist m.underway := by
      rw [underway, hstack]
      exact h.underway
    refine hs.grows hm hunder (fun l => (h.store.table l).trans ?_) fun l =>
      (h.store.queue l).trans ?_
    · exact hstore ▸ .of_loops rfl
    · exact hstore ▸ .of_loops rfl
  | @resolved p r rest hstack _ =>
    have hunder : ({ m with stack := rest }.resolved p r).underway.Sublist m.underway := by
      rw [underway, resolved_stack, underway, hstack]
      exact .refl _
    refine hs.grows hm hunder (fun l => ?_) (queue_resolved { m with stack := rest } p r)
    obtain h' | ⟨e, -, h'⟩ := resolved_store { m with stack := rest } p r
    · exact h'.table l
    · exact h' ▸ .close m.store p _ l
  | skipped => exact hs.skipped (.refl _) rfl
  | polled _ _ hqueue hlookup => exact hs.polled hm hqueue hlookup
  | @turned m₁ _ _ _ _ _ _ h hstack hstore hstack' _ _ =>
    have hunder : m'.underway.Sublist m₁.underway := by
      rw [underway, hstack', underway, hstack]
      exact .refl _
    exact hs.grows hm (hunder.trans h.calm.underway) (fun l => hstore ▸ h.calm.store.table l)
      fun l => hstore ▸ h.calm.store.queue l
  | @suspended m₁ _ _ l t body rest h hstack hstore hstack' _ _ =>
    have hunder : m₁.underway = ⟨l, t⟩ :: rest.filterMap Frame.task? := by
      rw [underway, hstack]
      rfl
    have hs₁ := hs.grows hm h.calm.underway h.calm.store.table h.calm.store.queue
    have hrest : Single { m₁ with stack := rest } := by
      refine hs.grows hm (.trans ?_ h.calm.underway) h.calm.store.table h.calm.store.queue
      exact hunder ▸ List.sublist_cons_self _ _
    have hfirst : ⟨l, t⟩ ∈ m₁.underway := hunder ▸ List.mem_cons_self
    refine hrest.put ?_ (List.nodup_cons.mp (hunder ▸ hs₁.once)).1 (hs₁.apart _ hfirst) hstore
    rw [underway, hstack']
    exact .refl _

/-- **Along every run** each task is in one place. -/
theorem Reachable.single (h : m.Reachable) : m.Single := by
  induction h with
  | start client code =>
    exact ⟨.nil, fun w hw => absurd hw List.not_mem_nil,
      fun w body body' _ hw => absurd hw List.not_mem_nil⟩
  | step h hstep ih => exact (moves hstep).single h.numbered ih

end Machine

end ValueInference
