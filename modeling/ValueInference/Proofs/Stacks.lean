/-
What lies below on the stack.

A step pushes frames, or takes the top one away first; and code of a task that waits takes its
pieces along.  Any other frame stays until it is handed an outcome, or until no task is ready if it
is that of a loop that polls.  So the frame of a resolver goes away only when its resolver returns,
and the one that asked for a rank only when the rule has told it.

* **`Frame.Stands`**, **`Machine.step_stands`** — frames that stay until they have their turn;
* **`Frame.Waits`**, **`Machine.step_waits`** — those of them that are handed an outcome then;
* **`Machine.Reachable.nodup_resolvers`** — no pending has two resolvers under way;
* **`Machine.Stays`** — the stack is higher than some depth for a while;
* **`Machine.leaves`**, **`Machine.excursion`** — where the run goes until such a frame is handed an
  outcome;
* **`Machine.resolver_excursion`** — and while a resolver is under way.
-/
import ValueInference.Proofs.Invocations

namespace ValueInference

/-- A frame that stays until it has its turn: it is no piece of a task's code. -/
def Frame.Stands {σ : Type} : Frame σ → Prop
  | .left _ _ _ | .right _ _ _ | .task _ _ _ => False
  | _ => True

/-- A frame that stays until it is handed an outcome: it is no piece of a task's code, and no loop
that polls. -/
def Frame.Waits {σ : Type} : Frame σ → Prop
  | .left _ _ _ | .right _ _ _ | .task _ _ _ | .drive _ _ | .polled _ => False
  | _ => True

theorem Frame.Waits.stands {σ : Type} {f : Frame σ} (h : f.Waits) : f.Stands := by
  cases f with
  | left | right | task => exact h
  | _ => trivial

namespace Machine

variable {σ : Type} {m m' : Machine σ} {l : LoopId} {p : PendingId} {f : Frame σ}
  {rest : List (Frame σ)}

/-! ### Steps by control -/

theorem step_exec {code : Program σ} (h : m.control = .exec code) :
    m.step = some (m.execute code) := by
  rw [step, h]

theorem step_poll {polled : Bool} (h : m.control = .poll l polled) :
    m.step = some (m.pollNext l polled) := by
  rw [step, h]

theorem step_rank (h : m.control = .rank p) : m.step = some (m.startRule p) := by
  rw [step, h]

theorem step_answer {r : Outcome} (h : m.control = .answer r) (hstack : m.stack = f :: rest) :
    m.step = some ({ m with stack := rest }.resume r f) := by
  rw [step, h]
  simp only [hstack]

theorem run_of_step {i : Nat} (h : (m.run i).step = some m') : m.run (i + 1) = m' := by
  rw [run_succ, h]
  rfl

/-! ### Frames that stay -/

/-- The frames that stay are the ones of the first stack, with what lies below them, and perhaps
more. -/
def Keeps (stack stack' : List (Frame σ)) : Prop :=
  ∀ f below, f.Stands → f :: below <:+ stack → f :: below <:+ stack'

namespace Keeps

variable {stack stack' stack'' : List (Frame σ)}

theorem refl (stack : List (Frame σ)) : Keeps stack stack := fun _ _ _ => id

theorem trans (h : Keeps stack stack') (h' : Keeps stack' stack'') : Keeps stack stack'' :=
  fun f below hf hsuffix => h' f below hf (h f below hf hsuffix)

theorem of_suffix (h : stack <:+ stack') : Keeps stack stack' := fun _ _ _ hf => hf.trans h

theorem push (f : Frame σ) (stack : List (Frame σ)) : Keeps stack (f :: stack) :=
  of_suffix (List.suffix_cons f stack)

/-- A piece of a task's code goes away. -/
theorem pop (hf : ¬ f.Stands) (stack : List (Frame σ)) : Keeps (f :: stack) stack := by
  intro g below hg hsuffix
  rcases List.suffix_cons_iff.mp hsuffix with heq | hdeep
  · exact absurd ((List.cons.inj heq).1 ▸ hg) hf
  · exact hdeep

theorem rejoin (stack : List (Frame σ)) : ∀ code : Program σ,
    Keeps stack (Machine.rejoin code stack).2 := by
  induction stack with
  | nil => exact fun _ => .refl _
  | cons f stack ih =>
    intro code
    cases f with
    | right rule left next => exact (pop id stack).trans (ih _)
    | _ => exact .refl _

end Keeps

/-- Code that waits has its pieces taken off the stack, and one of them may be put back. -/
theorem stack_pause (m : Machine σ) (code : Program σ) (stack : List (Frame σ)) :
    ∃ rest, rest <:+ stack ∧ Keeps stack rest ∧ ((m.pause code stack).stack = rest ∨
      ∃ rule left next, (m.pause code stack).stack = .right rule left next :: rest) := by
  have hsuffix := rejoin_suffix stack code
  have hkeeps := Keeps.rejoin stack code
  rw [pause]
  split
  · next hrejoin =>
    rw [hrejoin] at hsuffix hkeeps
    exact ⟨_, (List.suffix_cons _ _).trans hsuffix, hkeeps.trans (.pop id _), .inr ⟨_, _, _, rfl⟩⟩
  · next l t body rest hrejoin =>
    rw [hrejoin] at hsuffix hkeeps
    refine ⟨rest, (List.suffix_cons _ _).trans hsuffix, hkeeps.trans (.pop id _), .inl ?_⟩
    cases body <;> rfl
  · next hrejoin =>
    rw [hrejoin] at hsuffix hkeeps
    exact ⟨_, hsuffix, hkeeps, .inl rfl⟩

theorem keeps_pause (m : Machine σ) (code : Program σ) (stack : List (Frame σ)) :
    Keeps stack (m.pause code stack).stack := by
  obtain ⟨rest, -, hkeeps, hstack | ⟨rule, left, next, hstack⟩⟩ := m.stack_pause code stack
  · exact hstack ▸ hkeeps
  · exact hstack ▸ hkeeps.trans (.push _ rest)

/-! ### The stack below -/

theorem stack_startResolver (m : Machine σ) (p : PendingId) :
    m.stack <:+ (m.startResolver p).stack := by
  rcases m.startResolver_cases p with ⟨-, h⟩ | ⟨r, control, -, h⟩
  · rw [h]
    exact List.suffix_rfl
  · rw [h]
    exact List.suffix_cons _ _

theorem stack_askRank (m : Machine σ) (p : Option PendingId) : (m.askRank p).stack = m.stack := by
  cases p <;> rfl

theorem stack_startRule (m : Machine σ) (p : PendingId) : m.stack <:+ (m.startRule p).stack := by
  rw [startRule]
  split
  · exact List.suffix_rfl
  · exact List.suffix_rfl
  · split <;> exact List.suffix_rfl
  · rw [stack_askRank]
    exact List.suffix_cons _ _

theorem stack_startForce (m : Machine σ) (l : LoopId) (p : PendingId) :
    m.stack <:+ (m.startForce l p).stack := by
  have hforcing : m.stack <:+ (m.push (.forcing l p)).stack := List.suffix_cons _ _
  rw [startForce]
  split
  · exact List.suffix_rfl
  split
  · exact List.suffix_rfl
  split
  · exact hforcing.trans (stack_startResolver _ p)
  · exact hforcing.trans (List.suffix_cons _ _)

theorem stack_noneLeft (m : Machine σ) (l : LoopId) (aim : Aim) :
    (m.noneLeft l aim).stack = m.stack := by
  cases aim with
  | drive goal => rfl
  | finish =>
    rw [noneLeft]
    split <;> rfl

theorem stack_charge (m : Machine σ) (l : LoopId) (aim : Aim) (p : PendingId) :
    m.stack <:+ (m.charge l aim p).stack := by
  rw [charge]
  dsimp only
  split
  · exact List.suffix_rfl
  · exact List.suffix_cons _ _

theorem stack_pick (m : Machine σ) (l : LoopId) (aim : Aim)
    (best : Option (PendingId × Option Int)) (ps : List PendingId) :
    m.stack <:+ (m.pick l aim best ps).stack := by
  rcases m.pick_cases l aim best ps with
    ⟨before, p, rest, -, -, -, h⟩ | ⟨-, ⟨p, rank, -, h⟩ | ⟨-, h⟩⟩ <;> rw [h]
  · exact List.suffix_cons _ _
  · exact stack_charge m l aim p
  · rw [stack_noneLeft]

theorem stack_charged (m : Machine σ) (l : LoopId) (aim : Aim) (p : PendingId)
    (rank : Option Int) : m.stack <:+ (m.charged l aim p rank).stack := by
  let noted := { m with store := m.store.record (.forced (m.store.pendingNumber p) rank) }
  have hframe : m.stack <:+ (noted.push (aim.frame l)).stack := List.suffix_cons _ _
  exact hframe.trans (stack_startResolver _ p)

theorem stack_driveOn (m : Machine σ) (l : LoopId) (goal : Goal) :
    m.stack <:+ (m.driveOn l goal).stack := by
  rw [driveOn]
  split
  · exact List.suffix_rfl
  split
  · exact List.suffix_rfl
  · exact stack_pick m l _ _ _

theorem stack_pollTask (m : Machine σ) (l : LoopId) (t : TaskId) (body : TaskBody) :
    m.stack <:+ (m.pollTask l t body).stack := by
  rcases pollTask_cases m l t body with ⟨_, _, -, -, h⟩ | ⟨-, h⟩
  · rw [h]
  · rw [h]
    exact List.suffix_cons _ _

theorem keeps_await (m : Machine σ) (w : Wait) (next : Outcome → Program σ) :
    Keeps m.stack (m.await w next).stack := by
  rw [await]
  split
  · exact .refl _
  split
  · exact keeps_pause _ _ _
  · exact .refl _

theorem keeps_execute (m : Machine σ) (code : Program σ) :
    Keeps m.stack (m.execute code).stack := by
  have hpush : ∀ f : Frame σ, Keeps m.stack (f :: m.stack) := fun f => .push f m.stack
  cases code with
  | await w next => exact keeps_await m w next
  | fork rule left right next => exact hpush _
  | rank p next => exact hpush _
  | runReady l next => exact hpush _
  | run l next => exact (hpush _).trans (.push _ _)
  | finish l next => exact ((hpush _).trans (.push _ _)).trans (.push _ _)
  | force l p next =>
    exact (hpush _).trans (.of_suffix (stack_startForce (m.push (.client next)) l p))
  | runUntil l task next =>
    simp only [execute, addCode, spawn]
    rcases m.store.spawn l (.watched m.codes.size) with ⟨_ | t, s⟩
    · exact .refl _
    · exact ((hpush _).trans (.push _ _)).trans (.push _ _)
  | _ => exact .refl _

/-- Polling takes the frame on top away when no task is ready, if that is a loop that polls. -/
theorem stands_pollNext {below : List (Frame σ)} (hf : f.Stands) (l : LoopId) (polled : Bool)
    (hsuffix : f :: below <:+ m.stack) : f :: below <:+ (m.pollNext l polled).stack ∨
      m.stack = f :: below ∧ ¬ f.Waits ∧ (m.store.loop l).ready = [] := by
  rw [pollNext]
  split
  · next hready =>
    rw [allPolled]
    split
    · next l' goal rest hstack =>
      rw [hstack] at hsuffix ⊢
      rcases List.suffix_cons_iff.mp hsuffix with heq | hdeep
      · cases heq
        exact .inr ⟨rfl, id, hready⟩
      · exact .inl (hdeep.trans (stack_driveOn { m with stack := rest } l' goal))
    · next hstack =>
      rw [hstack] at hsuffix ⊢
      rcases List.suffix_cons_iff.mp hsuffix with heq | hdeep
      · cases heq
        exact .inr ⟨rfl, id, hready⟩
      · exact .inl hdeep
    · exact .inl hsuffix
  · next t ready _ =>
    dsimp only
    split
    · exact .inl hsuffix
    · next body _ =>
      let s := m.store.modifyLoop l fun loop => { loop with ready }
      exact .inl (hsuffix.trans (stack_pollTask { m with store := s.dropTask l t } l t body))

theorem keeps_resume (m : Machine σ) (r : Outcome) (f : Frame σ) :
    Keeps m.stack (m.resume r f).stack := by
  have hpush : ∀ f : Frame σ, Keeps m.stack (f :: m.stack) := fun f => .push f m.stack
  cases f with
  | left rule right next =>
    cases rule with
    | join => exact hpush _
    | race => exact .refl _
  | right rule left next =>
    cases rule with
    | race => exact .refl _
    | join =>
      cases left with
      | done a => exact .refl _
      | _ => exact keeps_pause m _ m.stack
  | choosing l aim best p rest => exact .of_suffix (stack_pick m l aim _ rest)
  | charging l aim p => exact .of_suffix (stack_charged m l aim p _)
  | leftRank right =>
    rw [resume, stack_askRank]
    exact hpush _
  | resolving p =>
    rw [resume, resolved_stack]
    exact .refl _
  | driveForcing l goal =>
    cases r with
    | error e => exact .refl _
    | ok slot => exact hpush _
  | forcing l p =>
    cases r with
    | error e => exact .refl _
    | ok slot =>
      rw [resume, forceDone]
      split <;> exact .refl _
  | finishRunning l =>
    cases r with
    | error e => exact .refl _
    | ok slot => exact .of_suffix (stack_pick m l _ _ _)
  | finishForcing l =>
    cases r with
    | error e => exact .refl _
    | ok slot => exact (hpush _).trans (.push _ _)
  | watching l t =>
    cases r with
    | error e => exact .refl _
    | ok slot =>
      rw [resume, takeOutcome]
      split <;> exact .refl _
  | _ => exact .refl _

/-- A loop is polled that has no ready task. -/
def Drained (m : Machine σ) : Prop :=
  ∃ l polled, m.control = .poll l polled ∧ (m.store.loop l).ready = []

/-- **A frame that stays** is taken away only when it has its turn: it is on top, and it is handed
an outcome, or its loop is polled and has no ready task. -/
theorem step_stands {below : List (Frame σ)} (hf : f.Stands) (hstep : m.step = some m')
    (hsuffix : f :: below <:+ m.stack) : f :: below <:+ m'.stack ∨
      m.stack = f :: below ∧ ((∃ r, m.control = .answer r) ∨ ¬ f.Waits ∧ m.Drained) := by
  cases hcontrol : m.control with
  | exec code =>
    cases (step_exec hcontrol).symm.trans hstep
    exact .inl (keeps_execute m code f below hf hsuffix)
  | poll l polled =>
    cases (step_poll hcontrol).symm.trans hstep
    refine (stands_pollNext hf l polled hsuffix).imp_right fun ⟨htop, hpolls, hready⟩ => ?_
    exact ⟨htop, .inr ⟨hpolls, l, polled, hcontrol, hready⟩⟩
  | rank p =>
    cases (step_rank hcontrol).symm.trans hstep
    exact .inl (hsuffix.trans (stack_startRule m p))
  | answer r =>
    cases hstack : m.stack with
    | nil =>
      rw [hstack] at hsuffix
      cases List.suffix_nil.mp hsuffix
    | cons g rest =>
      cases (step_answer hcontrol hstack).symm.trans hstep
      rw [hstack, List.suffix_cons_iff] at hsuffix
      rcases hsuffix with heq | hdeep
      · exact .inr ⟨heq.symm, .inl ⟨r, rfl⟩⟩
      · exact .inl (keeps_resume { m with stack := rest } r g f below hf hdeep)

/-- **A frame that waits** is taken away only when it is handed an outcome. -/
theorem step_waits {below : List (Frame σ)} (hf : f.Waits) (hstep : m.step = some m')
    (hsuffix : f :: below <:+ m.stack) :
    f :: below <:+ m'.stack ∨ m.stack = f :: below ∧ ∃ r, m.control = .answer r := by
  refine (step_stands hf.stands hstep hsuffix).imp_right fun ⟨htop, hturn⟩ => ⟨htop, ?_⟩
  exact hturn.resolve_right fun hpolls => hpolls.1 hf

/-! ### Resolvers under way -/

/-- **No pending has two resolvers under way.** -/
theorem Reachable.nodup_resolvers (h : m.Reachable) : m.resolvers.Nodup := by
  suffices hm : m.resolvers.Nodup ∧ ∀ p ∈ m.resolvers, m.store.Begun p from hm.1
  induction h with
  | start client code => exact ⟨List.nodup_nil, fun p hp => absurd hp List.not_mem_nil⟩
  | @step m m' h hstep ih =>
    obtain ⟨hnodup, hbegun⟩ := ih
    have hmove := moves hstep
    rcases Nat.lt_or_ge m.resolvers.length m'.resolvers.length with hmore | hle
    · obtain ⟨p, hstarts⟩ := hmove.starts hmore
      have hfresh := (hstarts.fresh h.idle).1
      rw [hstarts.resolvers]
      refine ⟨List.nodup_cons.mpr ⟨fun hp => hfresh (hbegun p hp), hnodup⟩, fun q hq => ?_⟩
      rcases List.mem_cons.mp hq with rfl | hq
      · exact hstarts.begun
      · exact hmove.begun (hbegun q hq)
    · -- a resolver that returns leaves the others
      have hsuffix : m'.resolvers <:+ m.resolvers := by
        rcases hmove.resolvers_cases with heq | ⟨q, heq, -⟩ | ⟨q, heq, -⟩
        · rw [heq]
        · rw [heq] at hle
          exact absurd hle (Nat.not_le.mpr (Nat.lt_succ_self _))
        · exact heq ▸ List.suffix_cons q _
      exact ⟨hnodup.sublist hsuffix.sublist, fun q hq =>
        hmove.begun (hbegun q (hsuffix.subset hq))⟩

/-! ### Excursions -/

/-- From one step to another the stack is higher than some depth. -/
def Stays (m : Machine σ) (depth i k : Nat) : Prop :=
  ∀ j, i ≤ j → j ≤ k → depth < (m.run j).stack.length

section

variable {depth i j k : Nat}

/-- Two times that meet or overlap. -/
theorem Stays.join {i' : Nat} (h : m.Stays depth i j) (h' : m.Stays depth i' k) (hle : i' ≤ j + 1) :
    m.Stays depth i k :=
  fun n hi hk => (Nat.lt_or_ge j n).elim (fun hlt => h' n (Nat.le_trans hle hlt) hk)
    fun hge => h n hi hge

theorem Stays.weaken {depth' : Nat} (h : m.Stays depth i j) (hle : depth' ≤ depth) :
    m.Stays depth' i j :=
  fun n hi hj => Nat.lt_of_le_of_lt hle (h n hi hj)

theorem stays_single (h : depth < (m.run i).stack.length) : m.Stays depth i i := by
  intro j hi hj
  exact Nat.le_antisymm hi hj ▸ h

/-- **A frame that stays** and is gone at some step had its turn before, and until then it was
there. -/
theorem leaves_turn {below : List (Frame σ)} (hf : f.Stands)
    (hsuffix : f :: below <:+ (m.run i).stack) (hij : i ≤ j)
    (hgone : ¬ f :: below <:+ (m.run j).stack) :
    ∃ k, i ≤ k ∧ k < j ∧ m.Stays below.length i k ∧ (m.run k).stack = f :: below ∧
      ((∃ r, (m.run k).control = .answer r) ∨ ¬ f.Waits ∧ (m.run k).Drained) := by
  have habove : ∀ {i}, f :: below <:+ (m.run i).stack → m.Stays below.length i i := fun h =>
    stays_single (Nat.lt_of_lt_of_le (Nat.lt_succ_self _) h.length_le)
  obtain ⟨d, rfl⟩ := Nat.exists_eq_add_of_le hij
  induction d generalizing i with
  | zero => exact absurd hsuffix hgone
  | succ d ih =>
    have hsucc : i + (d + 1) = i + 1 + d := by omega
    rw [hsucc] at hgone ⊢
    cases hstep : (m.run i).step with
    | none =>
      -- the run is over
      have hsame : m.run (i + 1 + d) = m.run i := by
        rw [Nat.add_assoc, run_add, Nat.add_comm 1 d, run, hstep]
      exact absurd (hsame ▸ hsuffix) hgone
    | some m' =>
      rcases step_stands hf hstep hsuffix with hkept | ⟨htop, hturn⟩
      · rw [← run_of_step hstep] at hkept
        obtain ⟨k, hk, hlt, hstays, hends⟩ := ih hkept (Nat.le_add_right _ d) hgone
        exact ⟨k, by omega, hlt, (habove hsuffix).join hstays (Nat.le_refl _), hends⟩
      · exact ⟨i, Nat.le_refl i, by omega, habove hsuffix, htop, hturn⟩

/-- **A frame that waits** and is gone at some step was handed an outcome before, and until then it
was there. -/
theorem leaves {below : List (Frame σ)} (hf : f.Waits) (hsuffix : f :: below <:+ (m.run i).stack)
    (hij : i ≤ j) (hgone : ¬ f :: below <:+ (m.run j).stack) :
    ∃ k r, i ≤ k ∧ k < j ∧ m.Stays below.length i k ∧ (m.run k).stack = f :: below ∧
      (m.run k).control = .answer r := by
  obtain ⟨k, hk, hlt, hstays, htop, hturn⟩ := leaves_turn hf.stands hsuffix hij hgone
  obtain ⟨r, hr⟩ := hturn.resolve_right fun hpolls => hpolls.1 hf
  exact ⟨k, r, hk, hlt, hstays, htop, hr⟩

/-- **Where a run goes until a frame that waits is handed an outcome:** if it is at a later step, it
is at a first one, with the frame still there until then. -/
theorem excursion {below : List (Frame σ)} {r : Outcome} (hf : f.Waits)
    (hstack : (m.run i).stack = f :: below) (hij : i ≤ j) (htop : (m.run j).stack = f :: below)
    (hr : (m.run j).control = .answer r) :
    ∃ k r, i ≤ k ∧ m.Stays below.length i k ∧ (m.run k).stack = f :: below ∧
      (m.run k).control = .answer r := by
  by_cases hgone : ∃ n, i ≤ n ∧ n ≤ j ∧ ¬ f :: below <:+ (m.run n).stack
  · obtain ⟨n, hin, -, hn⟩ := hgone
    obtain ⟨k, r', hk, -, hends⟩ := leaves hf (hstack ▸ List.suffix_rfl) hin hn
    exact ⟨k, r', hk, hends⟩
  · refine ⟨j, r, hij, fun n hin hnj => ?_, htop, hr⟩
    have hthere : f :: below <:+ (m.run n).stack := by
      by_contra hn
      exact hgone ⟨n, hin, hnj, hn⟩
    exact Nat.lt_of_lt_of_le (Nat.lt_succ_self _) hthere.length_le

/-- **Where a run goes while a resolver is under way:** from the step that starts it to the one at
which it returns, with nothing else left on the stack above the code that called. -/
theorem resolver_excursion {below : List (Frame σ)} (hm : m.Reachable)
    (hstack : (m.run i).stack = .resolving p :: below) (hij : i ≤ j)
    (hret : (m.run j).returned? = some p) :
    ∃ k r, i ≤ k ∧ m.Stays below.length i k ∧ (m.run k).stack = .resolving p :: below ∧
      (m.run k).control = .answer r := by
  have hwaits : (Frame.resolving p : Frame σ).Waits := trivial
  obtain ⟨r, rest, hr, htop⟩ := returned?_eq_some.mp hret
  by_cases hthere : .resolving p :: below <:+ (m.run j).stack
  swap
  · obtain ⟨k, r', hk, -, hends⟩ := leaves hwaits (hstack ▸ List.suffix_rfl) hij hthere
    exact ⟨k, r', hk, hends⟩
  refine excursion hwaits hstack hij ?_ hr
  -- a second frame of the same resolver cannot be on the stack
  have hnodup := (hm.run j).nodup_resolvers
  rw [htop, List.suffix_cons_iff] at hthere
  rcases hthere with heq | hdeep
  · exact htop.trans heq.symm
  · rw [resolvers, htop, List.filterMap_cons_some (by rfl : (Frame.resolving p).resolving? = some p),
      List.nodup_cons] at hnodup
    have hagain : p ∈ rest.filterMap Frame.resolving? :=
      List.mem_filterMap.mpr ⟨.resolving p, hdeep.subset List.mem_cons_self, rfl⟩
    exact absurd hagain hnodup.1

end

end Machine

end ValueInference
