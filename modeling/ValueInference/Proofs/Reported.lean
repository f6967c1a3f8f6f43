/-
What a call of a loop tells its caller.

A call that drives a loop lasts from the step at which the loop is first polled to the one at which
the caller is handed an outcome.  In between the loop polls until no task is ready, more than once
if it forces pendings; each time it tells its first error if it has one, and the call returns that.
So a call that returns without an error leaves none with its loop.

* **`Frame.Forces`**, **`Machine.step_forces`** — a loop on its way to force a pending;
* **`Machine.InCall`**, **`Machine.InCall.step`** — a call under way;
* **`Program.Drives`**, **`Machine.Answered.clean`** — a call that returns without an error leaves
  none;
* **`Machine.Delivers`**, **`Machine.delivers_of_told`** — a call returns what its loop tells;
* **`Machine.Answered.drained`** — and before a call returns no task is ready.
-/
import ValueInference.Proofs.Errors

namespace ValueInference

/-- A frame of a loop that chooses a pending, counts it or forces it. -/
inductive Frame.Forces {σ : Type} (l : LoopId) (aim : Aim) : Frame σ → Prop where
  | choosing (best : Option (PendingId × Option Int)) (p : PendingId) (ps : List PendingId) :
      Forces l aim (.choosing l aim best p ps)
  | charging (p : PendingId) : Forces l aim (.charging l aim p)
  | forcing : Forces l aim (aim.frame l)

/-- A frame of a loop that is driven. -/
inductive Frame.Drives {σ : Type} (l : LoopId) : Frame σ → Prop where
  | drive (goal : Goal) : Drives l (.drive l goal)
  | forces {goal : Goal} {f : Frame σ} (h : f.Forces l (.drive goal)) : Drives l f

/-- Code whose next request is to drive a loop: it runs or finishes it, it forces an open pending
that only others can resolve, or it runs the loop for a task. -/
inductive Program.Drives {σ : Type} (s : Store) (l : LoopId) (next : Outcome → Program σ) :
    Option TaskId → Program σ → Prop where
  | run : Drives s l next none (.run l next)
  | finish : Drives s l next none (.finish l next)
  | force {p : PendingId} (opened : s.isOpen p = true) (idle : s.isResolving p = false)
      (unresolved : s.hasResolver p = false) : Drives s l next none (.force l p next)
  | runUntil (task : Program σ) (there : l < s.loops.size) :
      Drives s l next (some (s.loop l).spawned) (.runUntil l task next)

theorem Program.Drives.calls {σ : Type} {s : Store} {l : LoopId} {t : Option TaskId}
    {next : Outcome → Program σ} {code : Program σ} (h : code.Drives s l next t) :
    code.Calls s l next t := by
  cases h with
  | run => exact .run
  | finish => exact .finish
  | force => exact .force _
  | runUntil task _ => exact .runUntil task

theorem Frame.Forces.waits {σ : Type} {l : LoopId} {aim : Aim} {f : Frame σ} (h : f.Forces l aim) :
    f.Waits := by
  cases h with
  | forcing => cases aim <;> trivial
  | _ => trivial

namespace Machine

variable {σ : Type} {m m' : Machine σ} {l : LoopId} {f : Frame σ} {rest : List (Frame σ)}
  {C : LoopId → Option TaskId → (Outcome → Program σ) → List (Frame σ) → Prop}

/-! ### Forcing -/

section

variable {aim : Aim}

/-- A loop that has counted a pending asks for its rank again; one that may not returns an error. -/
theorem charge_forces (m : Machine σ) (l : LoopId) (aim : Aim) (p : PendingId) :
    (∃ f, f.Forces l aim ∧ f :: m.stack <:+ (m.charge l aim p).stack) ∨
      (m.charge l aim p).stack = m.stack ∧ ∃ e, (m.charge l aim p).control = .answer (.error e) := by
  rw [charge]
  dsimp only
  split
  · exact .inr ⟨rfl, _, rfl⟩
  · exact .inl ⟨_, .charging p, List.suffix_rfl⟩

/-- Going through pendings a loop asks for the rank of one, goes on to force the best one, returns
an error, or has none. -/
theorem pick_forces (m : Machine σ) (l : LoopId) (aim : Aim)
    (best : Option (PendingId × Option Int)) (ps : List PendingId) :
    (∃ f, f.Forces l aim ∧ f :: m.stack <:+ (m.pick l aim best ps).stack) ∨
      ((m.pick l aim best ps).stack = m.stack ∧
        ∃ e, (m.pick l aim best ps).control = .answer (.error e)) ∨
      best = none ∧ m.pick l aim best ps = m.noneLeft l aim := by
  rcases m.pick_cases l aim best ps with
    ⟨before, p, rest, -, -, -, h⟩ | ⟨-, ⟨p, rank, -, h⟩ | ⟨hnone, h⟩⟩
  · rw [h]
    exact .inl ⟨_, .choosing best p rest, List.suffix_rfl⟩
  · rw [h]
    exact (charge_forces m l aim p).imp_right .inl
  · exact .inr (.inr ⟨hnone, h⟩)

/-- **A loop that is about to force a pending** goes on with that, or returns an error, until the
pending has been forced. -/
theorem step_forces (hf : f.Forces l aim) (hthere : f :: rest <:+ m.stack)
    (hstep : m.step = some m') :
    (∃ f', f'.Forces l aim ∧ f' :: rest <:+ m'.stack) ∨
      (m'.stack = rest ∧ ∃ e, m'.control = .answer (.error e)) ∨
      ∃ slot, m' = { m with stack := rest }.resume (.ok slot) (aim.frame l) := by
  rcases step_waits hf.waits hstep hthere with hkept | ⟨htop, r, hr⟩
  · exact .inl ⟨f, hf, hkept⟩
  cases (step_answer hr htop).symm.trans hstep
  cases hf with
  | choosing best p ps =>
    rcases pick_forces { m with stack := rest } l aim (some (better best p (rankOf r))) ps with
      h | h | ⟨hnone, -⟩
    · exact .inl h
    · exact .inr (.inl h)
    · cases hnone
  | charging p =>
    let noted := m.store.record (.forced (m.store.pendingNumber p) (rankOf r))
    let m₁ := { m with stack := rest, store := noted }
    exact .inl ⟨aim.frame l, .forcing, stack_startResolver (m₁.push (aim.frame l)) p⟩
  | forcing =>
    cases r with
    | ok slot => exact .inr (.inr ⟨slot, rfl⟩)
    | error e => cases aim <;> exact .inr (.inl ⟨rfl, e, rfl⟩)

end

/-! ### Calls under way -/

/-- An outcome is handed on; if it is no error, the loop keeps none. -/
def HandsOver (m : Machine σ) (l : LoopId) (stack : List (Frame σ)) : Prop :=
  m.stack = stack ∧ ∃ r, m.control = .answer r ∧
    ∀ slot, r = .ok slot → (m.store.loop l).errors = []

theorem handsOver_error {stack : List (Frame σ)}
    (h : m.stack = stack ∧ ∃ e, m.control = .answer (.error e)) : m.HandsOver l stack := by
  obtain ⟨hstack, e, he⟩ := h
  exact ⟨hstack, .error e, he, nofun⟩

theorem noneLeft_drive (m : Machine σ) (l : LoopId) (goal : Goal) :
    (m.noneLeft l (.drive goal)).stack = m.stack ∧
      ∃ e, (m.noneLeft l (.drive goal)).control = .answer (.error e) :=
  ⟨rfl, _, rfl⟩

/-- **A loop that is driven** goes on, or it hands an outcome over; if that is no error, the loop
keeps none. -/
theorem step_drives (hm : Orderly C m) (hf : f.Drives l) (hthere : f :: rest <:+ m.stack)
    (hstep : m.step = some m') :
    (∃ f', f'.Drives l ∧ f' :: rest <:+ m'.stack) ∨ m'.HandsOver l rest := by
  cases hf with
  | forces hf =>
    rcases step_forces hf hthere hstep with ⟨f', hf', hthere'⟩ | h | ⟨slot, rfl⟩
    · exact .inl ⟨f', .forces hf', hthere'⟩
    · exact .inr (handsOver_error h)
    · exact .inl ⟨_, .drive _, List.suffix_rfl⟩
  | drive goal =>
    rcases step_stands (f := .drive l goal) trivial hstep hthere with hkept | ⟨htop, hturn⟩
    · exact .inl ⟨_, .drive goal, hkept⟩
    -- a loop that is driven and is on top polls
    obtain ⟨polled, hcontrol⟩ := hm.polls l (by rw [htop]; rfl)
    rcases hturn with ⟨r, hr⟩ | ⟨-, l', polled', hcontrol', hready⟩
    · cases hcontrol.symm.trans hr
    cases hcontrol.symm.trans hcontrol'
    cases (step_driveOn hcontrol htop hready).symm.trans hstep
    rcases driveOn_cases { m with stack := rest } l goal with
      ⟨e, errors, -, h⟩ | ⟨hnone, -, h⟩ | ⟨-, h⟩ <;> rw [h]
    · exact .inr (handsOver_error ⟨rfl, e, rfl⟩)
    · exact .inr ⟨rfl, _, rfl, fun _ _ => hnone⟩
    rcases pick_forces { m with stack := rest } l (.drive goal) none (m.store.loop l).pendings with
      ⟨f', hf', hthere'⟩ | h | ⟨-, h⟩
    · exact .inl ⟨f', .forces hf', hthere'⟩
    · exact .inr (handsOver_error h)
    · rw [choose]
      exact .inr (handsOver_error (h ▸ noneLeft_drive _ l goal))

/-- A call of a loop is under way, made by the code on a stack. -/
inductive InCall (l : LoopId) (caller : List (Frame σ)) (m : Machine σ) : Prop where
  /-- The loop is driven. -/
  | driving {f : Frame σ} {rest : List (Frame σ)}
      (base : rest = caller ∨ ∃ g, g.needs? = some l ∧ rest = g :: caller) (drives : f.Drives l)
      (there : f :: rest <:+ m.stack)
  /-- The loop was driven, and goes on with the request. -/
  | driven {f : Frame σ} (needs : f.needs? = some l) (hands : m.HandsOver l (f :: caller))
  /-- The loop forces what is left. -/
  | finishing {f : Frame σ} (forces : f.Forces l .finish) (there : f :: caller <:+ m.stack)

section

variable {caller : List (Frame σ)}

/-- The caller waits below. -/
theorem InCall.under (h : m.InCall l caller) : caller.length < m.stack.length := by
  cases h with
  | driving base _ there =>
    have hlt : ∀ {f : Frame σ} {rest}, f :: rest <:+ m.stack → rest.length < m.stack.length :=
      fun h => Nat.lt_of_lt_of_le (Nat.lt_succ_self _) h.length_le
    rcases base with rfl | ⟨g, -, rfl⟩
    · exact hlt there
    · exact Nat.lt_of_succ_lt (hlt there)
  | driven _ hands => exact hands.1 ▸ Nat.lt_succ_self _
  | finishing _ there => exact Nat.lt_of_lt_of_le (Nat.lt_succ_self _) there.length_le

/-- A loop that was driven for a request hands over what that comes to, or forces what is left. -/
theorem InCall.step_driven (hneeds : f.needs? = some l) (hands : m.HandsOver l (f :: caller))
    (hstep : m.step = some m') : m'.InCall l caller ∨ m'.HandsOver l caller := by
  obtain ⟨hstack, r, hr, hclean⟩ := hands
  cases (step_answer hr hstack).symm.trans hstep
  cases r with
  | error e =>
    refine .inr (handsOver_error ⟨?_, e, ?_⟩)
    · cases f <;> first | rfl | cases hneeds
    · cases f <;> first | rfl | cases hneeds
  | ok slot =>
    have hnone := hclean slot rfl
    cases f with
    | forcing l' p =>
      cases hneeds
      rw [resume, forceDone]
      split
      · exact .inr ⟨rfl, _, rfl, fun _ _ => hnone⟩
      · exact .inr (handsOver_error ⟨rfl, _, rfl⟩)
    | watching l' t =>
      cases hneeds
      rw [resume, takeOutcome]
      split
      · exact .inr (handsOver_error ⟨rfl, _, rfl⟩)
      · refine .inr ⟨rfl, _, rfl, fun _ _ => ?_⟩
        show ((m.store.modifyLoop l _).loop l).errors = []
        rw [Store.loop_modifyLoop]
        split <;> exact hnone
    | finishRunning l' =>
      cases hneeds
      rw [resume, choose]
      rcases pick_forces { m with stack := caller } l .finish none (m.store.loop l).pendings with
        ⟨f', hf', hthere'⟩ | h | ⟨-, h⟩
      · exact .inl (.finishing hf' hthere')
      · exact .inr (handsOver_error h)
      · rw [h]
        rcases noneLeft_finish_cases { m with stack := caller } l with ⟨-, h⟩ | ⟨e, s, h⟩ <;> rw [h]
        · exact .inr ⟨rfl, _, rfl, fun _ _ => hnone⟩
        · exact .inr (handsOver_error ⟨rfl, e, rfl⟩)
    | _ => cases hneeds

/-- **A call goes on** until it hands an outcome over; if that is no error, the loop keeps none. -/
theorem InCall.step (h : m.InCall l caller) (hm : Orderly C m) (hstep : m.step = some m') :
    m'.InCall l caller ∨ m'.HandsOver l caller := by
  cases h with
  | driven hneeds hands => exact step_driven hneeds hands hstep
  | finishing hf hthere =>
    rcases step_forces hf hthere hstep with ⟨f', hf', hthere'⟩ | h | ⟨slot, rfl⟩
    · exact .inl (.finishing hf' hthere')
    · exact .inr (handsOver_error h)
    · exact .inl (.driving (.inr ⟨_, rfl, rfl⟩) (.drive .idle) List.suffix_rfl)
  | @driving f rest hbase hf hthere =>
    rcases step_drives hm hf hthere hstep with ⟨f', hf', hthere'⟩ | h
    · exact .inl (.driving hbase hf' hthere')
    · rcases hbase with rfl | ⟨g, hneeds, rfl⟩
      · exact .inr h
      · exact .inl (.driven hneeds h)

end

/-- A call that watches a task hands out its number, and begins by polling. -/
theorem begins_watching {code : Program σ} {t : TaskId} {next : Outcome → Program σ}
    (hcode : m.control = .exec code) (hdrives : code.Drives m.store l next (some t)) :
    ∃ m', m.step = some m' ∧ t < (m'.store.loop l).spawned ∧
      m'.stack = .drive l (.outcome t) :: .watching l t :: .client next :: m.stack := by
  cases hdrives with
  | runUntil task hthere =>
    have hstep := step_exec hcode
    rw [execute] at hstep
    simp only [addCode, spawn] at hstep
    rcases hspawn : m.store.spawn l (.watched m.codes.size) with ⟨_ | t, s⟩
    · rw [Store.spawn, Array.getElem?_eq_getElem hthere] at hspawn
      cases hspawn
    · rw [hspawn] at hstep
      obtain ⟨rfl, -, -, ready, hloop⟩ := Store.spawn_ok hspawn
      refine ⟨_, hstep, ?_, rfl⟩
      show (m.store.loop l).spawned < (s.loop l).spawned
      rw [hloop]
      exact Nat.lt_succ_self _

/-- A call that drives a loop begins by polling. -/
theorem begins {code : Program σ} {t : Option TaskId} {next : Outcome → Program σ}
    (hcode : m.control = .exec code) (hdrives : code.Drives m.store l next t) :
    ∃ goal rest m', m.step = some m' ∧ m'.stack = .drive l goal :: rest ∧
      (rest = .client next :: m.stack ∨
        ∃ f, f.needs? = some l ∧ rest = f :: .client next :: m.stack) := by
  have hstep := step_exec hcode
  cases id hdrives with
  | run => exact ⟨.idle, _, _, hstep, rfl, .inl rfl⟩
  | finish => exact ⟨.idle, _, _, hstep, rfl, .inr ⟨.finishRunning l, rfl, rfl⟩⟩
  | @force p hopen hidle hunresolved =>
    refine ⟨.closed p, _, _, hstep, ?_, .inr ⟨.forcing l p, rfl, rfl⟩⟩
    have hnone : m.store.outcome? p = none := by
      rw [Store.outcome?]
      rcases Store.isOpen_iff.mp hopen with h | h <;> rw [h]
    simp only [execute, startForce, push, hnone, hidle, hunresolved, Bool.false_eq_true, if_false]
    rfl
  | runUntil =>
    obtain ⟨m', hstep, -, hstack⟩ := begins_watching hcode hdrives
    exact ⟨_, _, m', hstep, hstack, .inr ⟨_, rfl, rfl⟩⟩

section

variable {c j : Nat} {code : Program σ} {t : Option TaskId} {next : Outcome → Program σ}
  {r : Outcome}

/-- A call that has not returned goes on. -/
theorem Answered.inCall (h : m.Answered c j next r) (hm : m.stack = [])
    (hcode : (m.run c).control = .exec code) (hdrives : code.Drives (m.run c).store l next t)
    {n : Nat} (hc : c < n) (hn : n ≤ j) :
    (m.run n).InCall l (.client next :: (m.run c).stack) ∨
      n = j ∧ (m.run n).HandsOver l (.client next :: (m.run c).stack) := by
  induction n with
  | zero => exact absurd hc (Nat.not_lt_zero c)
  | succ n ih =>
    rcases Nat.lt_or_ge c n with hlt | hge
    swap
    · obtain rfl := Nat.le_antisymm (Nat.le_of_lt_succ hc) hge
      obtain ⟨goal, rest, m', hstep, hstack, hbase⟩ := begins hcode hdrives
      rw [run_of_step hstep]
      exact .inl (.driving hbase (.drive goal) (hstack ▸ List.suffix_rfl))
    rcases ih hlt (Nat.le_of_succ_le hn) with hcall | ⟨rfl, -⟩
    swap
    · exact absurd hn (Nat.not_succ_le_self n)
    cases hstep : (m.run n).step with
    | none =>
      -- the run would be over, but the call returns
      have hover : m.run j = m.run n := by
        obtain ⟨d, rfl⟩ := Nat.exists_eq_add_of_le hn
        rw [Nat.add_assoc, run_add, Nat.add_comm 1 d, run, hstep]
      have hunder := hcall.under
      rw [← hover, h.handed.1] at hunder
      exact absurd hunder (lt_irrefl _)
    | some m' =>
      rw [run_of_step hstep]
      refine (hcall.step (run_orderly hm n) hstep).imp_right fun hhands => ⟨?_, hhands⟩
      obtain ⟨hstack, r', hr', -⟩ := hhands
      rw [← run_of_step hstep] at hstack hr'
      exact h.first hc hn ⟨hstack, hr'⟩

/-- **A call that drives a loop** and returns without an error leaves none with the loop. -/
theorem Answered.clean {slot : Slot} (h : m.Answered c j next (.ok slot)) (hm : m.stack = [])
    (hcode : (m.run c).control = .exec code) (hdrives : code.Drives (m.run c).store l next t) :
    ((m.run j).store.loop l).errors = [] := by
  rcases h.inCall hm hcode hdrives h.later (Nat.le_refl j) with hcall | ⟨-, -, r, hr, hclean⟩
  · have hunder := hcall.under
    rw [h.handed.1] at hunder
    exact absurd hunder (lt_irrefl _)
  · cases hr.symm.trans h.handed.2
    exact hclean slot rfl

end

/-! ### Who is told -/

/-- A call of a loop that code makes at one step returns the error that the loop tells at
another. -/
def Delivers (m : Machine σ) (l : LoopId) (c i : Nat) (e : InferError) : Prop :=
  (m.run i).told? l = some e ∧ ∃ code t next j, (m.run c).control = .exec code ∧
    code.Calls (m.run c).store l next t ∧ c < i ∧ i < j ∧ j ≤ i + 2 ∧ m.Answered c j next (.error e)

/-- A loop that tells an error hands it to what drives the loop. -/
theorem step_told {e : InferError} (h : m.told? l = some e) : ∃ goal rest m',
    m.stack = .drive l goal :: rest ∧ m.step = some m' ∧ m'.stack = rest ∧
      m'.control = .answer (.error e) := by
  obtain ⟨goal, rest, errors, l', polled, hstack, hcontrol, hready, herrors⟩ := told?_eq_some h
  refine ⟨goal, rest, _, hstack, step_poll hcontrol, ?_⟩
  rw [pollNext]
  simp only [hready, allPolled, hstack, driveOn, herrors]
  exact ⟨rfl, rfl⟩

/-- A loop that was driven for a request passes an error on. -/
theorem resume_error (e : InferError) (hf : f.needs? = some l) :
    m.resume (.error e) f = m.answer (.error e) := by
  cases f <;> first | rfl | cases hf

section

variable {c i : Nat} {code : Program σ} {t : Option TaskId} {next : Outcome → Program σ}
  {goal : Goal} {e : InferError}

/-- What a loop tells on behalf of a call is handed to the code that called it, through the frame of
the request. -/
theorem delivers_of_drive (hcode : (m.run c).control = .exec code)
    (hcalls : code.Calls (m.run c).store l next t) (hc : c < i)
    (hunder : m.Stays (m.run c).stack.length (c + 1) i)
    (hstack : (m.run i).stack = .drive l goal :: rest)
    (hrest : rest = .client next :: (m.run c).stack ∨
      ∃ f, f.needs? = some l ∧ rest = f :: .client next :: (m.run c).stack)
    (h : (m.run i).told? l = some e) : m.Delivers l c i e := by
  obtain ⟨_, _, m', htop, hstep, hstack', hcontrol'⟩ := step_told h
  cases htop.symm.trans hstack
  have hnext := run_of_step hstep
  have htells : m.Hands (i + 1) rest (.error e) := ⟨hnext ▸ hstack', hnext ▸ hcontrol'⟩
  -- the caller waits below until the error comes to it
  have hwaits : ∀ {j : Nat}, (∀ k, i < k → k ≤ j → (m.run c).stack.length < (m.run k).stack.length) →
      m.Stays (m.run c).stack.length (c + 1) j := by
    intro j hlater
    have hpast : m.Stays (m.run c).stack.length (i + 1) j := fun k hk => hlater k hk
    exact hunder.join hpast (Nat.le_refl _)
  rcases hrest with rfl | ⟨f, hf, rfl⟩
  · refine ⟨h, code, t, next, i + 1, hcode, hcalls, hc, Nat.lt_succ_self i, Nat.le_succ _,
      Nat.lt_succ_of_lt hc, hwaits fun k hk hj => ?_, htells⟩
    obtain rfl : k = i + 1 := Nat.le_antisymm hj hk
    rw [htells.1]
    exact Nat.lt_succ_self _
  · have hpassed : m.run (i + 2) =
        { m.run (i + 1) with stack := .client next :: (m.run c).stack }.answer (.error e) := by
      rw [htells.next, resume_error e hf]
    have hhands : m.Hands (i + 2) (.client next :: (m.run c).stack) (.error e) :=
      ⟨by rw [hpassed]; rfl, by rw [hpassed]; rfl⟩
    refine ⟨h, code, t, next, i + 2, hcode, hcalls, hc, by omega, Nat.le_refl _, by omega,
      hwaits fun k hk hj => ?_, hhands⟩
    obtain rfl | rfl : k = i + 1 ∨ k = i + 2 := by omega
    · rw [htells.1]
      exact Nat.lt_succ_of_lt (Nat.lt_succ_self _)
    · rw [hhands.1]
      exact Nat.lt_succ_self _

/-- **What a loop tells** is returned by a call. -/
theorem delivers_of_told (hm : m.stack = []) (h : (m.run i).told? l = some e) :
    ∃ c, m.Delivers l c i e := by
  obtain ⟨goal, rest, m', hstack, -⟩ := step_told h
  have hplaced := (run_orderly hm i).placed
  rw [hstack] at hplaced
  rcases hplaced.top.drives l rfl with ⟨next, _, rfl, hcall⟩ | ⟨f, _, rfl, hf, next, _, rfl, hcall⟩
  · obtain ⟨c, code, hc, rfl, hcode, hcalls, hstays⟩ := hcall
    exact ⟨c, delivers_of_drive hcode hcalls hc hstays hstack (.inl rfl) h⟩
  · obtain ⟨c, code, hc, rfl, hcode, hcalls, hstays⟩ := hcall
    exact ⟨c, delivers_of_drive hcode hcalls hc hstays hstack (.inr ⟨f, hf, rfl⟩) h⟩

/-- **Before a call that drives a loop returns,** no task of the loop is ready at some step, and the
first error that the loop has then is the one that the call returns. -/
theorem Answered.drained {j : Nat} {r : Outcome} (h : m.Answered c j next r) (hm : m.stack = [])
    (hcode : (m.run c).control = .exec code) (hdrives : code.Drives (m.run c).store l next t) :
    ∃ i, c < i ∧ i < j ∧ ((m.run i).store.loop l).ready = [] ∧
      ∀ e, ((m.run i).store.loop l).errors.head? = some e → m.Delivers l c i e := by
  obtain ⟨goal, rest, m', hstep, hstack, hbase⟩ := begins hcode hdrives
  rw [← run_of_step hstep] at hstack
  -- the loop is driven no more when the call returns
  have hgone : ¬ .drive l goal :: rest <:+ (m.run j).stack := by
    intro hthere
    have hle := hthere.length_le
    rw [h.handed.1, List.length_cons, List.length_cons] at hle
    rcases hbase with rfl | ⟨f, -, rfl⟩ <;> simp only [List.length_cons] at hle <;> omega
  obtain ⟨i, hi, hij, -, htop, hturn⟩ := leaves_turn (f := .drive l goal) trivial
    (hstack ▸ List.suffix_rfl) h.later hgone
  -- a loop that is driven and is on top polls
  obtain ⟨polled, hcontrol⟩ := (run_orderly hm i).polls l (by rw [htop]; rfl)
  rcases hturn with ⟨r, hr⟩ | ⟨-, l', polled', hcontrol', hready⟩
  · cases hcontrol.symm.trans hr
  cases hcontrol.symm.trans hcontrol'
  refine ⟨i, hi, hij, hready, fun e he => ?_⟩
  have hunder : m.Stays (m.run c).stack.length (c + 1) i := fun k hk hki =>
    h.under k hk (by omega)
  refine delivers_of_drive hcode hdrives.calls hi hunder htop hbase ?_
  rw [told?_of_drive hcontrol htop hready, if_pos rfl]
  exact he

end

section

variable {c c' i i' : Nat} {e e' : InferError}

/-- One call returns what a loop tells. -/
theorem Delivers.caller (h : m.Delivers l c i e) (h' : m.Delivers l c' i e') : c = c' := by
  obtain ⟨-, _, _, _, j, -, -, -, hij, hj, hanswered⟩ := h
  obtain ⟨-, _, _, _, j', -, -, -, hij', hj', hanswered'⟩ := h'
  -- code that is handed an outcome goes on at once
  have hnot : ∀ {c c' j next next' r r'}, m.Answered c j next r →
      ¬ m.Answered c' (j + 1) next' r' := by
    intro c c' j next next' r r' h h'
    have hcontrol := h'.handed.2
    rw [h.handed.next] at hcontrol
    cases hcontrol
  obtain rfl | rfl | rfl : j = j' ∨ j' = j + 1 ∨ j = j' + 1 := by omega
  · exact hanswered.caller hanswered'
  · exact absurd hanswered' (hnot hanswered)
  · exact absurd hanswered (hnot hanswered')

/-- A call returns one thing that a loop tells. -/
theorem Delivers.told_once (h : m.Delivers l c i e) (h' : m.Delivers l c i' e') : i = i' := by
  obtain ⟨htold, _, _, _, j, -, -, -, hij, hj, hanswered⟩ := h
  obtain ⟨htold', _, _, _, j', -, -, -, hij', hj', hanswered'⟩ := h'
  obtain rfl := hanswered.unique hanswered'
  -- a loop does not tell two errors in successive steps
  have hnot : ∀ {i e e'}, (m.run i).told? l = some e → (m.run (i + 1)).told? l ≠ some e' := by
    intro i e e' h h'
    obtain ⟨_, _, m', -, hstep, -, hcontrol⟩ := step_told h
    obtain ⟨_, _, _, _, _, -, hpoll, -⟩ := told?_eq_some h'
    rw [run_of_step hstep, hcontrol] at hpoll
    cases hpoll
  obtain rfl | rfl | rfl : i = i' ∨ i' = i + 1 ∨ i = i' + 1 := by omega
  · rfl
  · exact absurd htold' (hnot htold)
  · exact absurd htold (hnot htold')

end


end Machine

end ValueInference
