/-
Walks that need not be suspended.

A walk of a value without pendings is in step with the walk by updates at each level, since it is
inside of each node at most once.  So it never pauses, whatever loop polls it: a loop that has
nothing else to do polls it once, and has its outcome.  The loop forces nothing for it.

* **`Rebuild.visits_inStep`** — every visit below such a value is in step, by induction on the
  levels that are left;
* **`Machine.reaches_walk`** — the whole walk, from whatever machine;
* **`Machine.reaches_runUntil`** — a task without a pause, run on a loop at rest;
* **`Machine.walks_agree`** — walks in either host agree.
-/
import ValueInference.Proofs.Finished
import ValueInference.Proofs.InStep
import ValueInference.Proofs.Tables

namespace ValueInference

variable {σ τ : Type}

namespace Rebuild

variable {s : Store} {J : Walk τ → Prop}

/-! ### Levels -/

/-- The walk is inside of these nodes. -/
abbrev Inside (stack : List NodeId) (w : Walk τ) : Prop := w.memo.inside = stack

variable {h : Handlers} {stack : List NodeId} {n : NodeId} {base fuel fuel' : Nat}

/-- Visits of a node are in step while there are more than `base` levels left. -/
def VisitsInStep (σ : Type) (h : Handlers) (s : Store) (J : Walk τ → Prop) (base : Nat)
    (n : NodeId) : Prop :=
  ∀ fuel fuel', base < fuel → base < fuel' →
    Along (σ := σ) s J ((h.variant.visitor fuel).visit n) ((h.variant.visitor fuel').visit n)

theorem ref_inStep : ∀ {f : FunctionRef} {fuel fuel' : Nat},
    (∀ n ∈ f.children, VisitsInStep σ h s J base n) → base + f.depth + 1 < fuel →
      base + f.depth + 1 < fuel' →
        Along (σ := σ) s J ((h.variant.visitor fuel).ref f)
          ((h.variant.visitor fuel').ref f) := by
  have hdown : ∀ {f : FunctionRef} {fuel fuel' : Nat},
      (∀ n ∈ f.children, VisitsInStep σ h s J base n) → base < fuel → base < fuel' →
      (∀ g ∈ f.applied, Along (σ := σ) s J ((h.variant.visitor fuel).ref g)
        ((h.variant.visitor fuel').ref g)) →
      Along (σ := σ) s J ((h.variant.visitor (fuel + 1)).ref f)
        ((h.variant.visitor (fuel' + 1)).ref f) := by
    intro f fuel fuel' hvisits hfuel hfuel' hrefs
    have hbelow : Below (σ := σ) s J f.children [] f.applied (h.variant.visitor fuel)
        (h.variant.visitor fuel') :=
      ⟨fun n hn => hvisits n hn _ _ hfuel hfuel', nofun, hrefs⟩
    show Along s J (h.variant.ref _ f) (h.variant.ref _ f)
    simp only [Handlers.variant]
    split
    · exact along_handler hbelow
    · exact along_ref hbelow
  intro f
  induction f with
  | partialApp func args ih =>
    intro fuel fuel' hvisits hfuel hfuel'
    obtain ⟨fuel, rfl⟩ : ∃ k, fuel = k + 1 := ⟨fuel - 1, by omega⟩
    obtain ⟨fuel', rfl⟩ : ∃ k, fuel' = k + 1 := ⟨fuel' - 1, by omega⟩
    rw [FunctionRef.depth] at hfuel hfuel'
    refine hdown hvisits (by omega) (by omega) fun g hg => ?_
    obtain rfl := List.mem_singleton.mp hg
    exact ih (fun n hn => hvisits n (List.mem_append_left _ hn)) (by omega) (by omega)
  | _ =>
    intro fuel fuel' hvisits hfuel hfuel'
    obtain ⟨fuel, rfl⟩ : ∃ k, fuel = k + 1 := ⟨fuel - 1, by omega⟩
    obtain ⟨fuel', rfl⟩ : ∃ k, fuel' = k + 1 := ⟨fuel' - 1, by omega⟩
    exact hdown hvisits (by omega) (by omega) fun g hg => absurd hg List.not_mem_nil

theorem slot_inStep {v : Slot} {depth : Nat} (hv : v.pendings = [])
    (hvisits : ∀ n ∈ v.children, VisitsInStep σ h s J base n)
    (hdepth : ∀ f ∈ v.refs, f.depth ≤ depth) (hfuel : base + depth + 2 < fuel)
    (hfuel' : base + depth + 2 < fuel') :
    Along (σ := σ) s J ((h.variant.visitor fuel).slot v) ((h.variant.visitor fuel').slot v) := by
  obtain ⟨fuel, rfl⟩ : ∃ k, fuel = k + 1 := ⟨fuel - 1, by omega⟩
  obtain ⟨fuel', rfl⟩ : ∃ k, fuel' = k + 1 := ⟨fuel' - 1, by omega⟩
  have hbelow : Below (σ := σ) s J v.children [] v.refs (h.variant.visitor fuel)
      (h.variant.visitor fuel') := by
    refine ⟨fun n hn => hvisits n hn _ _ (by omega) (by omega), nofun, fun f hf => ?_⟩
    have hf' := hdepth f hf
    have hchildren : ∀ n ∈ f.children, VisitsInStep σ h s J base n := fun n hn =>
      hvisits n (Slot.mem_children_of_refs hf hn)
    exact ref_inStep hchildren (by omega) (by omega)
  show Along s J (h.variant.slot _ v) (h.variant.slot _ v)
  simp only [Handlers.variant]
  split
  · exact along_handler hbelow
  · exact along_slot hv hbelow

/-! ### Visits -/

/-- Looking up a node. -/
theorem known_inStep (n : NodeId) : InStep (σ := σ) s.Walked (Inside stack) (known? n) (known? n)
    (fun (w : Walk τ) r => Inside stack w ∧ (r = none → n ∉ stack)) (Inside stack) := by
  refine InStep.get.bind fun w₀ => ?_
  dsimp only
  cases hdone : w₀.memo.done.lookup n with
  | some out => exact .pure fun w hw => ⟨hw.1, nofun⟩
  | none =>
    cases hopen : w₀.memo.inProgress.lookup n with
    | none =>
      refine .pure fun w hw => ⟨hw.1, fun _ hmem => ?_⟩
      rw [← hw.1, ← hw.2] at hmem
      obtain ⟨e, he⟩ := exists_lookup_of_mem_keys hmem
      exact nomatch hopen.symm.trans he
    | some e =>
      cases e with
      | some ph => exact .pure fun w hw => ⟨hw.1, nofun⟩
      | none =>
        refine InStep.bind (K := fun w _ => Inside stack w) ?_ fun ph => ?_
        · exact .infer (fun _ => Store.Walked.placeholder) (fun _ _ _ _ _ hw => hw.1)
            fun _ hw => hw.1
        refine (InStep.modify (K := fun w _ => Inside stack w) fun w hw => ?_).bind fun _ => ?_
        · exact (Memo.inside_expect n ph).trans hw
        · exact .pure fun w hw => ⟨hw, nofun⟩

/-- The end of the work on a node. -/
theorem conclude_inStep (hn : n ∉ stack) (r : Except InferError NodeId) :
    InStep (σ := σ) s.Walked (Inside (τ := τ) (n :: stack)) (conclude n r) (conclude n r)
      (fun w _ => Inside stack w) (Inside stack) := by
  refine InStep.get.bind fun w₀ => ?_
  refine InStep.bind (K := fun w _ => Inside stack w)
    (.modify fun w hw => Memo.inside_leave hw.1 hn) fun _ => ?_
  refine InStep.bind (K := fun w _ => Inside stack w)
    (.outcome (fun _ _ _ => id) fun _ => id) fun out => ?_
  refine InStep.bind (K := fun w _ => Inside stack w) ?_ fun out => ?_
  · cases (w₀.memo.inProgress.lookup n).join with
    | none => exact .pure fun _ => id
    | some ph =>
      refine .ite (.pure fun _ => id) ?_
      refine InStep.bind (K := fun w _ => Inside stack w) ?_ fun _ => ?_
      · exact .infer (fun u hu => hu.complete ph _) (fun _ _ _ _ _ => id) fun _ => id
      · refine InStep.bind (K := fun w _ => Inside stack w) ?_ fun u => ?_
        · exact .infer (fun _ => id) (fun _ _ _ _ _ => id) fun _ => id
        · exact .ite (.pure fun _ => id) (.pure fun _ => id)
  · refine InStep.bind (K := fun w _ => Inside stack w) (.modify fun w hw => hw) fun _ => ?_
    exact .pure fun w hw => hw

/-- **A visit** is in step if the visits below are. -/
theorem visit_inStep {c : Visitor (Rebuild τ (Code σ))} {x : Visitor (Rebuild τ Update)}
    (hwork : n ∉ stack → Along (σ := σ) s (Inside (n :: stack)) (byForm h.variant c n)
      (byForm h.variant x n)) :
    Along s (Inside stack) (visit h.variant c n) (visit h.variant x n) := by
  refine (known_inStep n).bind fun r => ?_
  cases r with
  | some out => exact .pure fun w hw => hw.1
  | none =>
    by_cases hn : n ∈ stack
    · exact fun w hw => absurd hn (hw.2 rfl)
    refine InStep.bind (K := fun w _ => Inside (n :: stack) w) (.modify fun w hw => ?_) fun _ => ?_
    · rw [Inside, Memo.inside_enter (by rw [hw.1]; exact hn), hw.1]
    refine InStep.bind (K := fun w _ => Inside (n :: stack) w) ?_ (conclude_inStep hn)
    exact (hwork hn).lift.imp (fun w r hr => by cases r <;> exact hr)
      fun _ (hw : Inside stack _) => hw

/-- **Every visit below a complete value that reaches no pending** is in step. -/
theorem visits_inStep {v : NodeId} (hv : s.Finished v)
    (hpendings : ∀ m, s.Leads v m → (s.kind m).pendings = []) :
    ∀ {stack : List NodeId} {n : NodeId}, s.Leads v n →
      VisitsInStep σ h s (Inside (τ := τ) stack) (s.spare stack) n := by
  suffices hlevels : ∀ levels, ∀ {stack : List NodeId} {n : NodeId}, s.spare stack = levels →
      s.Leads v n → VisitsInStep σ h s (Inside (τ := τ) stack) (s.spare stack) n from
    fun {_ _} hn => hlevels _ rfl hn
  intro levels
  induction levels using Nat.strongRecOn with
  | ind levels ih =>
    intro stack n hlevels hn fuel fuel' hfuel hfuel'
    obtain ⟨fuel, rfl⟩ : ∃ k, fuel = k + 1 := ⟨fuel - 1, by omega⟩
    obtain ⟨fuel', rfl⟩ : ∃ k, fuel' = k + 1 := ⟨fuel' - 1, by omega⟩
    refine visit_inStep fun hfresh => ?_
    have hspare := Store.spare_cons (Store.present_of_isComplete (hv n hn)) hfresh
    rw [Store.cost] at hspare
    have hbelow : ∀ c ∈ (s.kind n).children,
        VisitsInStep σ h s (Inside (τ := τ) (n :: stack)) (s.spare (n :: stack)) c := fun c hc =>
      ih _ (by omega) rfl (hn.tail hc)
    have hvisits : ∀ c ∈ (s.kind n).children,
        Along (σ := σ) s (Inside (τ := τ) (n :: stack)) ((h.variant.visitor fuel).visit c)
          ((h.variant.visitor fuel').visit c) := fun c hc =>
      hbelow c hc _ _ (by omega) (by omega)
    refine along_byForm (hv n hn) ⟨hvisits, fun slot hslot => ?_, fun f hf => ?_⟩
    · have hslot : (s.kind n).slot? = some slot := Option.mem_toList.mp hslot
      have hopen := hpendings n hn
      rw [Kind.pendings, hslot] at hopen
      have hdepth : ∀ f ∈ slot.refs, f.depth ≤ (s.kind n).refDepth := by
        intro f hf
        refine (Kind.mem_refs ?_).2
        rw [Kind.refs, hslot]
        exact hf
      refine slot_inStep hopen (fun c hc => hbelow c ?_) hdepth (by omega) (by omega)
      rwa [Kind.children_of_slot hslot]
    · obtain ⟨hchildren, hdepth⟩ := Kind.mem_refs hf
      exact ref_inStep (fun c hc => hbelow c (hchildren c hc)) (by omega) (by omega)

end Rebuild


/-! ### Loops -/

namespace Store

variable {s : Store} {l : LoopId} {loop : LoopState} {f g : LoopState → LoopState}

/-- The loop has nothing to do but for suspended tasks, and nothing to tell. -/
structure AtRest (s : Store) (l : LoopId) : Prop where
  present : l < s.loops.size
  ready : (s.loop l).ready = []
  errors : (s.loop l).errors = []
  outcomes : (s.loop l).outcomes = []

/-- The loop has handed out one more number for a task. -/
def countTask (s : Store) (l : LoopId) : Store :=
  s.modifyLoop l fun loop => { loop with spawned := loop.spawned + 1 }

theorem modifyLoop_modifyLoop : (s.modifyLoop l f).modifyLoop l g = s.modifyLoop l (g ∘ f) := by
  rw [modifyLoop, modifyLoop, modifyLoop]
  congr 1
  refine Array.ext_getElem? fun i => ?_
  simp only [Array.getElem?_modify]
  split
  · rw [Option.map_map]
  · rfl

theorem modifyLoop_congr (h : f (s.loop l) = g (s.loop l)) :
    s.modifyLoop l f = s.modifyLoop l g := by
  rw [modifyLoop, modifyLoop]
  congr 1
  refine Array.ext_getElem? fun i => ?_
  simp only [Array.getElem?_modify]
  split
  · next hi =>
    subst hi
    cases hloop : s.loops[l]? with
    | none => rfl
    | some loop =>
      have hcurrent : s.loop l = loop := by rw [Store.loop, hloop]; rfl
      exact congrArg some (hcurrent ▸ h)
  · rfl

theorem modifyLoop_self (h : f (s.loop l) = s.loop l) : s.modifyLoop l f = s := by
  rw [modifyLoop_congr (g := id) h, modifyLoop]
  congr 1
  refine Array.ext_getElem? fun i => ?_
  rw [Array.getElem?_modify]
  split
  · rw [Option.map_id]; rfl
  · rfl

end Store

namespace Machine

variable {m m₁ m₂ : Machine σ} {l : LoopId}

/-- The machine comes to the second one in some steps. -/
def Reaches (m m' : Machine σ) : Prop := ∃ k, m.run k = m'

theorem Reaches.refl (m : Machine σ) : m.Reaches m := ⟨0, rfl⟩

theorem Reaches.trans (h : m.Reaches m₁) (h' : m₁.Reaches m₂) : m.Reaches m₂ := by
  obtain ⟨i, rfl⟩ := h
  obtain ⟨k, rfl⟩ := h'
  exact ⟨i + k, run_add i k m⟩

theorem Reaches.step (h : m.step = some m₁) (h' : m₁.Reaches m₂) : m.Reaches m₂ := by
  obtain ⟨k, rfl⟩ := h'
  exact ⟨k + 1, by rw [run, h]⟩

/-- The next task of a loop is taken out of its table and polled. -/
theorem pollNext_of_ready {t : TaskId} {ready : List TaskId} {body : TaskBody} (polled : Bool)
    (hready : (m.store.loop l).ready = t :: ready)
    (hbody : (m.store.loop l).tasks.lookup t = some body) :
    m.pollNext l polled = Machine.pollTask { m with
      store := m.store.modifyLoop l fun loop =>
        { loop with ready, tasks := loop.tasks.filter fun e => e.1 ≠ t } } l t body := by
  have htasks : ((m.store.modifyLoop l fun loop => { loop with ready }).loop l).tasks =
      (m.store.loop l).tasks := by
    rw [Store.loop_modifyLoop]
    split <;> rfl
  rw [pollNext, hready]
  dsimp only
  rw [htasks, hbody]
  dsimp only
  rw [Store.dropTask, Store.modifyLoop_modifyLoop]
  rfl

/-- A watched task that has completed is over for its loop, if nothing else is to be done. -/
theorem reaches_taskDone {t : TaskId} {i : Nat} {r : Outcome} {rest : List (Frame σ)}
    (hl : m.store.AtRest l)
    (hstack : m.stack = .drive l (.outcome t) :: .watching l t :: rest) :
    (m.taskDone l t (.watched i) r).Reaches ({ m with stack := rest }.answer r) := by
  have hloop : (m.taskDone l t (.watched i) r).store.loop l =
      { m.store.loop l with outcomes := [(t, r)] } := by
    rw [taskDone, Store.loop_modifyLoop, if_pos ⟨rfl, hl.present⟩, hl.outcomes]
    rfl
  have hlookup : ((m.taskDone l t (.watched i) r).store.loop l).outcomes.lookup t = some r := by
    rw [hloop]
    exact List.lookup_cons_self
  -- the first step finds nothing ready, and the goal of the watch reached
  have hdriven : (m.taskDone l t (.watched i) r).step = some { m.taskDone l t (.watched i) r with
      stack := .watching l t :: rest, control := .answer unit } := by
    show some ((m.taskDone l t (.watched i) r).pollNext l true) = _
    rw [pollNext, hloop]
    dsimp only
    rw [hl.ready]
    dsimp only
    rw [allPolled]
    have hstack' : (m.taskDone l t (.watched i) r).stack =
      .drive l (.outcome t) :: .watching l t :: rest := hstack
    rw [hstack']
    dsimp only
    rw [driveOn]
    dsimp only
    rw [hloop]
    dsimp only
    rw [hl.errors]
    dsimp only
    rw [goalReached, hlookup]
    rfl
  -- the second one takes the outcome, and with it the last trace of the task
  have htaken : Machine.step { m.taskDone l t (.watched i) r with
      stack := .watching l t :: rest, control := .answer unit } =
      some ({ m with stack := rest }.answer r) := by
    show some (takeOutcome _ l t) = _
    rw [takeOutcome]
    dsimp only
    rw [hlookup]
    dsimp only
    have hstore : ((m.taskDone l t (.watched i) r).store.modifyLoop l fun loop =>
        { loop with outcomes := loop.outcomes.filter fun e => e.1 ≠ t }) = m.store := by
      rw [taskDone, Store.modifyLoop_modifyLoop]
      refine Store.modifyLoop_self ?_
      simp [hl.outcomes]
      simp [← hl.outcomes]
    rw [hstore]
    rfl
  exact .step hdriven (.step htaken (.refl _))

/-- A task that does not pause, run on a loop at rest: the loop polls it once and tells its
outcome. -/
theorem reaches_runUntil {m : Machine σ} {task : Program σ} {next : Outcome → Program σ}
    {r : Outcome} {u : Store} {client : σ} (hm : m.store.Numbered) (hl : m.store.AtRest l)
    (hu : (m.store.countTask l).Untouched u)
    (htask : ∀ m' : Machine σ, m'.store = m.store.countTask l → m'.client = m.client →
      (m'.exec task).Reaches ({ m' with store := u, client }.answer r)) :
    (m.exec (.runUntil l task next)).Reaches
      ({ m with store := u, client, codes := m.codes.push task }.exec (next r)) := by
  set t := (m.store.loop l).spawned with ht
  set body : TaskBody := .watched m.codes.size with hbody
  set frames : List (Frame σ) :=
    .drive l (.outcome t) :: .watching l t :: .client next :: m.stack with hframes
  -- the loop has a task, which is queued
  set s₁ := m.store.modifyLoop l fun loop =>
    LoopState.schedule { loop with
      spawned := t + 1, tasks := loop.tasks ++ [(t, body)] } t with hs₁
  have hfresh : ∀ e ∈ (m.store.loop l).tasks, e.1 ≠ t := fun e he => Nat.ne_of_lt (hm l e he)
  have hloop₁ : s₁.loop l = { m.store.loop l with
      spawned := t + 1
      tasks := (m.store.loop l).tasks ++ [(t, body)]
      ready := [t] } := by
    rw [hs₁, Store.loop_modifyLoop, if_pos ⟨rfl, hl.present⟩, LoopState.schedule]
    simp [hl.ready]
  have hspawn : m.store.spawn l body = (.ok t, s₁) := by
    have hget : m.store.loops[l]? = some (m.store.loop l) := by
      rw [Store.loop, Array.getElem?_eq_getElem hl.present]
      rfl
    rw [Store.spawn, hget]
    rfl
  have hpoll : (m.exec (.runUntil l task next)).step = some { m with
      store := s₁, codes := m.codes.push task, stack := frames, control := .poll l false } := by
    show some ((m.exec (.runUntil l task next)).execute (.runUntil l task next)) = _
    rw [execute]
    dsimp only [addCode, exec, spawn]
    rw [hspawn]
    rfl
  -- the loop takes it out of its table, and is as before but for the number
  have hstart : Machine.step { m with
      store := s₁, codes := m.codes.push task, stack := frames, control := .poll l false } =
      some { m with
        store := m.store.countTask l, codes := m.codes.push task
        stack := .task l t body :: frames, control := .exec task } := by
    show some (pollNext _ l false) = _
    have hlookup : ((m.store.loop l).tasks ++ [(t, body)]).lookup t = some body := by
      rw [List.lookup_append, List.lookup_cons_self,
        lookup_eq_none_of_not_mem fun hmem => ?_]
      · rfl
      obtain ⟨e, he, heq⟩ := List.mem_map.mp hmem
      exact hfresh e he heq
    have hready : (s₁.loop l).ready = t :: [] := by rw [hloop₁]
    have hbody : (s₁.loop l).tasks.lookup t = some body := by rw [hloop₁]; exact hlookup
    rw [pollNext_of_ready false hready hbody]
    have hstore : (s₁.modifyLoop l fun loop =>
        { loop with ready := [], tasks := loop.tasks.filter fun e => e.1 ≠ t }) =
        m.store.countTask l := by
      rw [hs₁, Store.modifyLoop_modifyLoop]
      refine Store.modifyLoop_congr ?_
      have htasks : ((m.store.loop l).tasks ++ [(t, body)]).filter (fun e => e.1 ≠ t) =
          (m.store.loop l).tasks := by
        rw [List.filter_append, List.filter_eq_self.mpr fun e he => decide_eq_true (hfresh e he)]
        simp
      simp only [Function.comp_apply, LoopState.schedule, hl.ready, List.not_mem_nil, if_false,
        htasks]
      rw [← hl.ready]
    rw [hstore, pollTask]
    dsimp only [push, exec]
    rw [Array.getElem?_push_size]
    rfl
  have hrun := htask { m with
    store := m.store.countTask l, codes := m.codes.push task, stack := .task l t body :: frames }
    rfl rfl
  have hrest : u.AtRest l := by
    have hloop : u.loop l = { m.store.loop l with spawned := t + 1 } := by
      rw [Store.loop, hu.loops]
      exact (Store.loop_modifyLoop _ _ _ _).trans (if_pos ⟨rfl, hl.present⟩)
    refine ⟨?_, ?_, ?_, ?_⟩
    · rw [hu.loops]
      exact Nat.lt_of_lt_of_eq hl.present Array.size_modify.symm
    · exact (congrArg LoopState.ready hloop).trans hl.ready
    · exact (congrArg LoopState.errors hloop).trans hl.errors
    · exact (congrArg LoopState.outcomes hloop).trans hl.outcomes
  have hdone : Machine.Reaches _ _ := reaches_taskDone (i := m.codes.size) (r := r) (m := { m with
    store := u, client, codes := m.codes.push task, stack := frames }) hrest rfl
  exact .step hpoll (.step hstart (hrun.trans (.step rfl (hdone.trans (.step rfl (.refl _))))))

/-- **A walk that could be suspended** does what the walk by updates does, with no pause. -/
theorem reaches_walk {h : Handlers} {v : NodeId} {w : Walk τ} {fuel : Nat} (m : Machine σ)
    (hv : m.store.Finished v)
    (hpendings : ∀ n, m.store.Leads v n → (m.store.kind n).pendings = [])
    (hw : w.memo.inside = []) (hfuel : m.store.walkDepth ≤ fuel)
    (next : Except InferError NodeId × Walk τ → Program σ) :
    let r := (Infer.walk h.variant v w).run m.store
    m.store.Untouched r.2 ∧
      (m.exec (Code.walk fuel h.variant v w next)).Reaches
        ({ m with store := r.2 }.exec (next r.1)) := by
  have hspare := m.store.spare_lt_walkDepth
  have hvisit : Rebuild.Along (σ := σ) (τ := τ) m.store (Rebuild.Inside []) _ _ :=
    Rebuild.visits_inStep (h := h) hv hpendings .refl fuel m.store.walkDepth (by omega) (by omega)
  obtain ⟨hwalked, -, hrun⟩ := hvisit w hw m next (.refl _)
  exact ⟨hwalked.untouched, hrun⟩

/-- **Walks agree** in either host, for a complete value that reaches no pending and for handlers
that are the same in both.  Wherever the walk that could be suspended is executed, by whatever loop,
it fails or gives the same node as the walk by updates would there, and leaves the same nodes; no
pending is registered, and no loop changes.  A loop that has nothing else to do is run for such a
walk to its end: it hands out the number of one task, and forces nothing.

Here both walks begin in the same store.  Where one begins in what the other has left,
`Rebuild.Context.rebuilt_again_unpaused` compares their results. -/
theorem walks_agree {h : Handlers} {v : NodeId} {fuel : Nat} {m : Machine σ} (hm : m.Reachable)
    (hv : m.store.Finished v)
    (hpendings : ∀ n, m.store.Leads v n → (m.store.kind n).pendings = [])
    (hfuel : m.store.walkDepth ≤ fuel) :
    (∀ next : Except InferError NodeId → Program σ,
      let r := (Infer.rebuild h.variant v).outcome m.store
      m.store.Untouched r.2 ∧
        (m.exec (Code.walk fuel h.variant v { own := () } fun out => next out.1)).Reaches
          ({ m with store := r.2 }.exec (next r.1))) ∧
    ∀ l (keep : Except InferError NodeId → σ → σ) (next : Outcome → Program σ),
      m.store.AtRest l →
      let task : Program σ := Code.walk fuel h.variant v { own := () } fun out =>
        .client (fun own => ((), keep out.1 own)) fun _ => .done unit
      let r := (Infer.rebuild h.variant v).outcome (m.store.countTask l)
      (m.store.countTask l).Untouched r.2 ∧
        (m.exec (.runUntil l task next)).Reaches
          ({ m with
            store := r.2, client := keep r.1 m.client, codes := m.codes.push task }.exec
              (next unit)) := by
  refine ⟨fun next => reaches_walk m hv hpendings rfl hfuel fun out => next out.1, ?_⟩
  intro l keep next hl task r
  have hwalk : ∀ m' : Machine σ, m'.store = m.store.countTask l → m'.client = m.client →
      (m.store.countTask l).Untouched r.2 ∧ (m'.exec task).Reaches
        ({ m' with store := r.2, client := keep r.1 m.client }.answer unit) := by
    intro m' hstore hclient
    -- the loops do not matter for what the value is
    have hv' : m'.store.Finished v := by rw [hstore]; exact hv
    have hpendings' : ∀ n, m'.store.Leads v n → (m'.store.kind n).pendings = [] := by
      rw [hstore]
      exact hpendings
    have hfuel' : m'.store.walkDepth ≤ fuel := by rw [hstore]; exact hfuel
    obtain ⟨huntouched, hreaches⟩ := reaches_walk (h := h) (w := { own := () }) m' hv'
      hpendings' rfl hfuel' fun out => .client (fun own => ((), keep out.1 own)) fun _ => .done unit
    rw [hstore] at huntouched hreaches
    refine ⟨huntouched, hreaches.trans (.step rfl (.step rfl ?_))⟩
    rw [← hclient]
    exact .refl _
  have huntouched := (hwalk { m with store := m.store.countTask l } rfl rfl).1
  exact ⟨huntouched, reaches_runUntil hm.numbered.tasks hl huntouched fun m' hstore hclient =>
    (hwalk m' hstore hclient).2⟩

/-- Code that makes a loop, and a knot: a tuple of the number one and of a partial application,
which is of a function from the number to the tuple. -/
def knot : Program (Option NodeId) :=
  .update (Infer.openLoop {}).run fun _ =>
    .update Infer.placeholder.run fun _ =>
      .update (Infer.scalar (.constant (.int 1)) (.int 64)).run fun _ =>
        .update (Infer.functions [.partialApp (.virtual [1] 0) [1]]).run fun _ =>
          .update (Infer.complete 0 (.tuple [1, 2])).run fun _ => .done unit

/-- Scalars lose their values, and partial applications their arguments. -/
def forgetful : Handlers where
  node
    | .scalar _ ty, _ => some (.result (Infer.anyOf ty) (.make _))
    | _, _ => none
  ref
    | .partialApp f _ => some (.ref f List.mem_cons_self fun
      | .ok g => .result (pure g) (.pure _)
      | .error e => .result (throw e) (.throw _))
    | _ => none

/-- The walk rebuilds the knot, executed at once or run on the loop. -/
theorem walks_agree_knot :
    let m := (start none knot).run 5
    let next : Except InferError NodeId → Program (Option NodeId) := fun r =>
      .client (fun _ => ((), r.toOption)) fun _ => .done unit
    let task := Code.walk 11 forgetful.variant 0 { own := () } fun out => next out.1
    let s := m.store.countTask 0
    let r := (Infer.rebuild forgetful.variant 0).outcome s
    ((Infer.rebuild forgetful.variant 0).outcome m.store).1.toOption = some 4 ∧
      (m.exec task).Reaches
        ({ m with store := ((Infer.rebuild forgetful.variant 0).outcome m.store).2 }.exec
          (next (.ok 4))) ∧
      r.1.toOption = some 4 ∧ s.Untouched r.2 ∧ (r.2.loop 0).forced = 0 ∧
      (m.exec (.runUntil 0 task .done)).Reaches ({ m with
        store := r.2, client := some 4, codes := m.codes.push task }.exec (.done unit)) := by
  intro m next task s r
  have hm : m.Reachable := (Reachable.start none knot).run 5
  have hleads : ∀ n, m.store.Leads 0 n → n ∈ [0, 1, 2] := fun n hn =>
    Store.mem_of_leads (by decide +kernel) (by decide) hn
  have hcomplete : ∀ n ∈ [0, 1, 2], m.store.isComplete n = true := by decide +kernel
  have hpendings : ∀ n ∈ [0, 1, 2], (m.store.kind n).pendings = [] := by decide +kernel
  have hrest : m.store.AtRest 0 := ⟨by decide +kernel, by rfl, by rfl, by rfl⟩
  have hdepth : m.store.walkDepth ≤ 11 := by decide +kernel
  obtain ⟨hnow, hloop⟩ := walks_agree (h := forgetful) (v := 0) hm
    (fun n hn => hcomplete n (hleads n hn)) (fun n hn => hpendings n (hleads n hn)) hdepth
  have hsame : ((Infer.rebuild forgetful.variant 0).outcome m.store).1 = .ok 4 := by decide +kernel
  have hout : r.1 = .ok 4 := by decide +kernel
  obtain ⟨huntouched, hreaches⟩ := hloop 0 (fun r _ => r.toOption) .done hrest
  have hnow' := (hnow next).2
  rw [hsame] at hnow' ⊢
  refine ⟨rfl, hnow', ?_, huntouched, ?_, ?_⟩
  · rw [hout]
    rfl
  · rw [Store.loop, huntouched.loops]
    decide +kernel
  · rwa [show ((Infer.rebuild forgetful.variant 0).outcome (m.store.countTask 0)).1 = .ok 4
      from hout] at hreaches

end Machine

end ValueInference
