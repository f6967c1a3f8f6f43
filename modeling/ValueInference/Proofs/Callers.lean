/-
Which call a frame serves.

Code that calls a loop leaves a frame that waits for the outcome.  The frames with which the loop
goes about the call lie right above it: one for the request itself, unless the loop is only run, and
one for driving the loop.  A step pushes and pops such frames, but never apart from the frame of the
code that called.  Above a loop that is driven only its tasks are under way: a loop that is driven
and is on top polls.

* **`Program.Calls`** — code whose next request is a call of a loop;
* **`Machine.Placed`** — every frame of a loop lies on the code that called the loop;
* **`Machine.Orderly`**, **`Machine.step_orderly`** — a step keeps that, with the calls that it
  makes;
* **`Machine.run_orderly`** — along a run, a frame of a loop belongs to a call that was made before
  and has not returned;
* **`Machine.Answered`** — code calls at one step and is handed an outcome at another.
-/
import ValueInference.Proofs.Driving

namespace ValueInference

/-- Code whose next request is a call of a loop, and that goes on with the outcome.  The task that
the code watches, if it does, is the next one that the loop spawns. -/
inductive Program.Calls {σ : Type} (s : Store) (l : LoopId) (next : Outcome → Program σ) :
    Option TaskId → Program σ → Prop where
  | run : Calls s l next none (.run l next)
  | finish : Calls s l next none (.finish l next)
  | force (p : PendingId) : Calls s l next none (.force l p next)
  | runUntil (task : Program σ) : Calls s l next (some (s.loop l).spawned) (.runUntil l task next)

namespace Frame

variable {σ : Type}

/-- The loop that goes about a request, which is more than to be driven. -/
def attends? : Frame σ → Option LoopId
  | .forcing l _ | .finishRunning l | .finishForcing l | .watching l _ => some l
  | .choosing l .finish _ _ _ | .charging l .finish _ => some l
  | _ => none

/-- The loop that has to be driven before it goes on with a request. -/
def needs? : Frame σ → Option LoopId
  | .forcing l _ | .finishRunning l | .watching l _ => some l
  | _ => none

/-- The task for which a loop runs. -/
def watches? : Frame σ → Option TaskId
  | .watching _ t => some t
  | _ => none

/-- The loop that is driven. -/
def drives? : Frame σ → Option LoopId
  | .drive l _ | .driveForcing l _ => some l
  | .choosing l (.drive _) _ _ _ | .charging l (.drive _) _ => some l
  | _ => none

end Frame

namespace Machine

variable {σ : Type} {m m' : Machine σ} {l : LoopId} {p : PendingId} {f : Frame σ}
  {rest stack : List (Frame σ)}

/-! ### Frames in their places -/

/-- A kind of call: of a loop, with the task that is watched if any, by code that goes on with the
outcome on top of some frames. -/
abbrev CallKind (σ : Type) : Type 1 :=
  LoopId → Option TaskId → (Outcome → Program σ) → List (Frame σ) → Prop

section

variable {C C' : CallKind σ}

/-- On top is code that has called a loop, in a call of a given kind. -/
def Called (C : CallKind σ) (l : LoopId) (t : Option TaskId) (stack : List (Frame σ)) : Prop :=
  ∃ next below, stack = .client next :: below ∧ C l t next below

/-- On top is code that has called a loop, or the loop that is to be driven for its request. -/
def Attended (C : CallKind σ) (l : LoopId) (stack : List (Frame σ)) : Prop :=
  Called C l none stack ∨
    ∃ f rest, stack = f :: rest ∧ f.needs? = some l ∧ Called C l f.watches? rest

/-- The loop that polls on top of a stack. -/
def polling? : List (Frame σ) → Option LoopId
  | .drive l _ :: _ => some l
  | _ => none

/-- What a frame of a loop lies on is a call of that loop, and what lies on a loop that is driven is
one of its tasks. -/
structure LiesOn (C : CallKind σ) (f : Frame σ) (rest : List (Frame σ)) : Prop where
  attends : ∀ l, f.attends? = some l → Called C l f.watches? rest
  drives : ∀ l, f.drives? = some l → Attended C l rest
  tasks : ∀ l, polling? rest = some l → ∃ t body, f = .task l t body

/-- Every frame of a loop lies on a call of that loop. -/
def Placed (C : CallKind σ) (stack : List (Frame σ)) : Prop :=
  ∀ f rest, f :: rest <:+ stack → LiesOn C f rest

/-- The frames are in their places, and a loop that is driven and is on top polls. -/
structure Orderly (C : CallKind σ) (m : Machine σ) : Prop where
  placed : Placed C m.stack
  polls : ∀ l, polling? m.stack = some l → ∃ polled, m.control = .poll l polled

/-- The frames are in their places, and no loop that is driven is on top. -/
structure Rests (C : CallKind σ) (stack : List (Frame σ)) : Prop where
  placed : Placed C stack
  free : polling? stack = none

theorem placed_nil : Placed C [] :=
  fun _ _ h => nomatch List.suffix_nil.mp h

theorem Placed.cons (h : Placed C rest) (hf : LiesOn C f rest) : Placed C (f :: rest) := by
  intro g below hsuffix
  rcases List.suffix_cons_iff.mp hsuffix with heq | hdeep
  · cases heq
    exact hf
  · exact h g below hdeep

theorem Placed.tail (h : Placed C (f :: rest)) : Placed C rest :=
  fun g below hsuffix => h g below (hsuffix.trans (List.suffix_cons f rest))

theorem Placed.top (h : Placed C (f :: rest)) : LiesOn C f rest := h f rest List.suffix_rfl

theorem Called.attended (h : Called C l none stack) : Attended C l stack := .inl h

theorem Called.attended_cons (h : Called C l f.watches? stack) (hf : f.needs? = some l) :
    Attended C l (f :: stack) :=
  .inr ⟨f, stack, rfl, hf, h⟩

theorem Called.imp {t : Option TaskId} (h : Called C l t stack)
    (hC : ∀ l t next below, .client next :: below <:+ stack → C l t next below → C' l t next below) :
    Called C' l t stack := by
  obtain ⟨next, below, rfl, hcall⟩ := h
  exact ⟨next, below, rfl, hC l t next below List.suffix_rfl hcall⟩

/-- What is known of the calls on a stack may change, as long as it holds of those. -/
theorem Placed.imp (h : Placed C stack)
    (hC : ∀ l t next below, .client next :: below <:+ stack → C l t next below → C' l t next below) :
    Placed C' stack := by
  intro f rest hsuffix
  have hdeep : ∀ {below : List (Frame σ)}, below <:+ rest → below <:+ stack := fun hbelow =>
    hbelow.trans ((List.suffix_cons f rest).trans hsuffix)
  obtain ⟨hattends, hdrives, htasks⟩ := h f rest hsuffix
  have hcalls : ∀ l t next below, .client next :: below <:+ rest → C l t next below →
      C' l t next below := fun l t next below hbelow => hC l t next below (hdeep hbelow)
  refine ⟨fun l hl => (hattends l hl).imp hcalls, fun l hl => ?_, htasks⟩
  rcases hdrives l hl with hcalled | ⟨g, rest', rfl, hg, hcalled⟩
  · exact .inl (hcalled.imp hcalls)
  · refine .inr ⟨g, rest', rfl, hg, hcalled.imp fun l t next below hbelow => ?_⟩
    exact hcalls l t next below (hbelow.trans (List.suffix_cons g rest'))

theorem Orderly.imp (h : Orderly C m)
    (hC : ∀ l t next below, .client next :: below <:+ m.stack → C l t next below → C' l t next below) :
    Orderly C' m :=
  ⟨h.placed.imp hC, h.polls⟩

theorem polling?_cons (hf : ∀ l goal, f ≠ .drive l goal) : polling? (f :: rest) = none := by
  cases f with
  | drive l goal => exact absurd rfl (hf l goal)
  | _ => rfl

namespace Rests

theorem orderly (h : Rests C stack) (hstack : m.stack = stack) : Orderly C m :=
  ⟨hstack ▸ h.placed, fun _ hl => nomatch h.free.symm.trans ((congrArg polling? hstack).symm.trans hl)⟩

theorem pop (h : Placed C (f :: rest)) (hf : ∀ l t body, f ≠ .task l t body) : Rests C rest := by
  refine ⟨h.tail, Option.eq_none_iff_forall_ne_some.mpr fun l hl => ?_⟩
  obtain ⟨t, body, heq⟩ := h.top.tasks l hl
  exact hf l t body heq

/-- A frame of no loop may lie on anything but a loop that is driven. -/
theorem push (h : Rests C rest) (hattends : f.attends? = none) (hdrives : f.drives? = none) :
    Rests C (f :: rest) := by
  refine ⟨h.placed.cons ⟨?_, ?_, ?_⟩, polling?_cons fun l goal hf => ?_⟩
  · exact fun l hl => nomatch hattends.symm.trans hl
  · exact fun l hl => nomatch hdrives.symm.trans hl
  · exact fun l hl => nomatch h.free.symm.trans hl
  · subst hf
    cases hdrives

theorem attends (h : Rests C rest) (hattends : f.attends? = some l) (hdrives : f.drives? = none)
    (hl : Called C l f.watches? rest) : Rests C (f :: rest) := by
  refine ⟨h.placed.cons ⟨?_, ?_, ?_⟩, polling?_cons fun l goal hf => ?_⟩
  · exact fun l' hl' => Option.some.inj (hattends.symm.trans hl') ▸ hl
  · exact fun l' hl' => nomatch hdrives.symm.trans hl'
  · exact fun l' hl' => nomatch h.free.symm.trans hl'
  · subst hf
    cases hdrives

theorem drives (h : Rests C rest) (hattends : f.attends? = none) (hdrives : f.drives? = some l)
    (hl : Attended C l rest) : LiesOn C f rest := by
  refine ⟨?_, ?_, ?_⟩
  · exact fun l' hl' => nomatch hattends.symm.trans hl'
  · exact fun l' hl' => Option.some.inj (hdrives.symm.trans hl') ▸ hl
  · exact fun l' hl' => nomatch h.free.symm.trans hl'

end Rests

/-! ### What a step does to the frames -/

theorem orderly_startDrive {goal : Goal} (h : Rests C m.stack) (hl : Attended C l m.stack) :
    Orderly C (m.startDrive l goal) :=
  ⟨h.placed.cons (h.drives rfl rfl hl), fun _ hl' => ⟨false, by cases hl'; rfl⟩⟩

theorem rests_startResolver (h : Rests C m.stack) (p : PendingId) :
    Rests C (m.startResolver p).stack := by
  rcases m.startResolver_cases p with ⟨-, hstart⟩ | ⟨r, control, -, hstart⟩ <;> rw [hstart]
  · exact h
  · exact h.push rfl rfl

theorem orderly_startForce (h : Rests C m.stack) (hl : Called C l none m.stack) (p : PendingId) :
    Orderly C (m.startForce l p) := by
  have hforcing : Rests C (m.push (.forcing l p)).stack := h.attends rfl rfl hl
  rw [startForce]
  split
  · exact h.orderly rfl
  split
  · exact h.orderly rfl
  split
  · exact (rests_startResolver hforcing p).orderly rfl
  · exact orderly_startDrive hforcing (hl.attended_cons rfl)

theorem rests_askRank (h : Rests C m.stack) (p : Option PendingId) :
    Rests C (m.askRank p).stack := by
  rwa [stack_askRank]

theorem rests_startRule (h : Rests C m.stack) (p : PendingId) : Rests C (m.startRule p).stack := by
  rw [startRule]
  split
  · exact h
  · exact h
  · split <;> exact h
  · exact rests_askRank (h.push rfl rfl) _

section

variable {aim : Aim}

/-- A loop that asks for the rank of a pending lies where it would force one. -/
theorem LiesOn.ask (h : LiesOn C (aim.frame l) rest)
    (hattends : f.attends? = (aim.frame l : Frame σ).attends?) (hwatches : f.watches? = none)
    (hdrives : f.drives? = (aim.frame l : Frame σ).drives?) : LiesOn C f rest := by
  have hnone : (aim.frame l : Frame σ).watches? = none := by cases aim <;> rfl
  refine ⟨fun l' hl' => ?_, hdrives ▸ h.drives, fun l' hl' => ?_⟩
  · have hcalled := h.attends l' (hattends ▸ hl')
    rwa [hwatches, ← hnone]
  · obtain ⟨t, body, heq⟩ := h.tasks l' hl'
    cases aim <;> cases heq

theorem LiesOn.of_choosing {best : Option (PendingId × Option Int)} {ps : List PendingId}
    (h : LiesOn C (.choosing l aim best p ps) rest) : LiesOn C (aim.frame l) rest := by
  cases aim <;> exact ⟨h.attends, h.drives, fun l' hl' => nomatch h.tasks l' hl'⟩

theorem LiesOn.of_charging (h : LiesOn C (.charging l aim p) rest) :
    LiesOn C (aim.frame l) rest := by
  cases aim <;> exact ⟨h.attends, h.drives, fun l' hl' => nomatch h.tasks l' hl'⟩

theorem rests_charge (h : Rests C m.stack) (hl : LiesOn C (aim.frame l) m.stack) (p : PendingId) :
    Rests C (m.charge l aim p).stack := by
  rw [charge]
  dsimp only
  split
  · exact h
  · exact rests_askRank ⟨h.placed.cons (hl.ask (by cases aim <;> rfl) rfl (by cases aim <;> rfl)), rfl⟩ _

theorem rests_pick (h : Rests C m.stack) (hl : LiesOn C (aim.frame l) m.stack)
    (best : Option (PendingId × Option Int)) (ps : List PendingId) :
    Rests C (m.pick l aim best ps).stack := by
  rcases m.pick_cases l aim best ps with
    ⟨before, p, rest, -, -, -, hpick⟩ | ⟨-, ⟨p, rank, -, hpick⟩ | ⟨-, hpick⟩⟩ <;> rw [hpick]
  · exact rests_askRank ⟨h.placed.cons (hl.ask (by cases aim <;> rfl) rfl (by cases aim <;> rfl)), rfl⟩ _
  · exact rests_charge h hl p
  · rwa [stack_noneLeft]

theorem rests_charged (h : Rests C m.stack) (hl : LiesOn C (aim.frame l) m.stack) (p : PendingId)
    (rank : Option Int) : Rests C (m.charged l aim p rank).stack := by
  let noted := { m with store := m.store.record (.forced (m.store.pendingNumber p) rank) }
  refine rests_startResolver (m := noted.push (aim.frame l)) ⟨h.placed.cons hl, ?_⟩ p
  cases aim <;> rfl

end

theorem rests_driveOn {goal : Goal} (h : Rests C m.stack) (hl : Attended C l m.stack) :
    Rests C (m.driveOn l goal).stack := by
  rw [driveOn]
  split
  · exact h
  split
  · exact h
  · exact rests_pick h (h.drives rfl rfl hl) none _

/-- A task that goes away leaves its loop polling, if that is driven below. -/
theorem orderly_polls {t : TaskId} {body : TaskBody} {polled : Bool}
    (h : Placed C (.task l t body :: rest)) (hstack : m.stack = rest)
    (hcontrol : m.control = .poll l polled) : Orderly C m := by
  subst hstack
  refine ⟨h.tail, fun l' hl' => ⟨polled, ?_⟩⟩
  obtain ⟨t', body', heq⟩ := h.top.tasks l' hl'
  cases heq
  exact hcontrol

theorem rests_rejoin : ∀ (stack : List (Frame σ)) (code : Program σ), Rests C stack →
    Rests C (rejoin code stack).2 := by
  intro stack
  induction stack with
  | nil => exact fun _ => id
  | cons f stack ih =>
    intro code h
    cases f with
    | right rule left next => exact ih _ (.pop h.placed nofun)
    | _ => exact h

theorem orderly_pause (h : Rests C stack) (m : Machine σ) (code : Program σ) :
    Orderly C (m.pause code stack) := by
  have hrejoined := rests_rejoin stack code h
  rw [pause]
  split
  · next rest hrejoin =>
    rw [hrejoin] at hrejoined
    exact ((Rests.pop hrejoined.placed fun _ _ _ h => by cases h).push rfl rfl).orderly rfl
  · next l t body rest hrejoin =>
    rw [hrejoin] at hrejoined
    exact orderly_polls hrejoined.placed (by cases body <;> rfl) rfl
  · next hrejoin =>
    rw [hrejoin] at hrejoined
    exact hrejoined.orderly rfl

theorem orderly_pollTask {polled : Bool} (h : Orderly C m) (hcontrol : m.control = .poll l polled)
    (t : TaskId) (body : TaskBody) : Orderly C (m.pollTask l t body) := by
  have hloop : ∀ l', polling? m.stack = some l' → l' = l := fun l' hl' => by
    obtain ⟨polled', hpolls⟩ := h.polls l' hl'
    cases hcontrol.symm.trans hpolls
    rfl
  have hlies : LiesOn C (.task l t body) m.stack :=
    ⟨nofun, nofun, fun l' hl' => ⟨t, body, by rw [hloop l' hl']⟩⟩
  rcases pollTask_control m l t body with ⟨hstack, hpoll⟩ | ⟨hstack, -⟩
  · exact ⟨hstack ▸ h.placed, fun l' hl' => ⟨true, by rw [hpoll, hloop l' (hstack ▸ hl')]⟩⟩
  · exact Rests.orderly ⟨h.placed.cons hlies, rfl⟩ hstack

/-- Code that calls a loop waits below the frames of the loop. -/
theorem orderly_execute {code : Program σ} (h : Rests C m.stack)
    (hC : ∀ l t next, code.Calls m.store l next t → C l t next m.stack) :
    Orderly C (m.execute code) := by
  have hclient : ∀ {next}, Rests C (.client next :: m.stack) := h.push rfl rfl
  cases code with
  | await w next =>
    rw [execute, await]
    split
    · exact h.orderly rfl
    split
    · exact orderly_pause h _ _
    · exact h.orderly rfl
  | fork rule left right next => exact (h.push (f := .left rule right next) rfl rfl).orderly rfl
  | rank p next => exact (h.push (f := .ranked next) rfl rfl).orderly rfl
  | spawn l task next => exact h.orderly rfl
  | runReady l next => exact (h.push (f := .polled next) rfl rfl).orderly rfl
  | run l next =>
    have hcalled : Called C l none (.client next :: m.stack) := ⟨next, _, rfl, hC l none next .run⟩
    exact orderly_startDrive (m := m.push (.client next)) hclient hcalled.attended
  | finish l next =>
    have hcalled : Called C l none (.client next :: m.stack) :=
      ⟨next, _, rfl, hC l none next .finish⟩
    exact orderly_startDrive (m := (m.push (.client next)).push (.finishRunning l))
      (hclient.attends rfl rfl hcalled) (hcalled.attended_cons rfl)
  | force l p next =>
    exact orderly_startForce (m := m.push (.client next)) hclient
      ⟨next, _, rfl, hC l none next (.force p)⟩ p
  | runUntil l task next =>
    have hcalled := hC l _ next (.runUntil task)
    simp only [execute, addCode, spawn]
    rcases hspawn : m.store.spawn l (.watched m.codes.size) with ⟨_ | t, s⟩
    · exact h.orderly rfl
    · obtain ⟨rfl, -⟩ := Store.spawn_ok hspawn
      have hwatched : Called C l (some (m.store.loop l).spawned) (.client next :: m.stack) :=
        ⟨next, _, rfl, hcalled⟩
      exact orderly_startDrive (hclient.attends rfl rfl hwatched) (.inr ⟨_, _, rfl, rfl, hwatched⟩)
  | _ => exact h.orderly rfl

/-- An outcome that is handed to a frame leaves the call below where it is. -/
theorem orderly_resume {r : Outcome} (h : Placed C (f :: m.stack)) (hf : ∀ l goal, f ≠ .drive l goal) :
    Orderly C (m.resume r f) := by
  by_cases htask : ∃ l t body, f = .task l t body
  · obtain ⟨l, t, body, rfl⟩ := htask
    exact orderly_polls h rfl rfl
  have hrest : Rests C m.stack := .pop h fun l t body heq => htask ⟨l, t, body, heq⟩
  cases f with
  | task l t body => exact absurd ⟨l, t, body, rfl⟩ htask
  | drive l goal => exact absurd rfl (hf l goal)
  | left rule right next =>
    cases rule with
    | join => exact (hrest.push (f := .right .join (.done r) next) rfl rfl).orderly rfl
    | race => exact hrest.orderly rfl
  | right rule left next =>
    cases rule with
    | race => exact hrest.orderly rfl
    | join =>
      cases left with
      | done a => exact hrest.orderly rfl
      | _ => exact orderly_pause hrest m _
  | choosing l aim best p ps => exact (rests_pick hrest h.top.of_choosing _ ps).orderly rfl
  | charging l aim p => exact (rests_charged hrest h.top.of_charging p _).orderly rfl
  | leftRank right => exact (rests_askRank (hrest.push rfl rfl) right).orderly rfl
  | resolving p =>
    exact hrest.orderly (resolved_stack m p r)
  | driveForcing l goal =>
    cases r with
    | error e => exact hrest.orderly rfl
    | ok slot => exact orderly_startDrive hrest (h.top.drives l rfl)
  | forcing l p =>
    cases r with
    | error e => exact hrest.orderly rfl
    | ok slot =>
      rw [resume, forceDone]
      split <;> exact hrest.orderly rfl
  | finishRunning l =>
    cases r with
    | error e => exact hrest.orderly rfl
    | ok slot =>
      have hfinishing : Rests C (Aim.finish.frame l :: m.stack) :=
        hrest.attends rfl rfl (h.top.attends l rfl)
      exact (rests_pick hrest hfinishing.placed.top none _).orderly rfl
  | finishForcing l =>
    cases r with
    | error e => exact hrest.orderly rfl
    | ok slot =>
      have hcalled : Called C l none m.stack := h.top.attends l rfl
      exact orderly_startDrive (m := m.push (.finishRunning l)) (hrest.attends rfl rfl hcalled)
        (hcalled.attended_cons rfl)
  | watching l t =>
    cases r with
    | error e => exact hrest.orderly rfl
    | ok slot =>
      rw [resume, takeOutcome]
      split <;> exact hrest.orderly rfl
  | _ => exact hrest.orderly rfl

/-- **A step keeps the frames in their places,** with the calls that it makes itself. -/
theorem step_orderly (hstep : m.step = some m') (h : Orderly C m)
    (hC : ∀ code l t next, m.control = .exec code → code.Calls m.store l next t → C l t next m.stack) :
    Orderly C m' := by
  have hrests : (∀ l polled, m.control ≠ .poll l polled) → Rests C m.stack := fun hcontrol =>
    ⟨h.placed, Option.eq_none_iff_forall_ne_some.mpr fun l hl =>
      (h.polls l hl).elim fun polled => hcontrol l polled⟩
  have hother : ∀ {f : Frame σ} {rest : List (Frame σ)}, m.stack = f :: rest →
      (∀ l t body, f ≠ .task l t body) → Rests C rest := fun hstack hf =>
    .pop (hstack ▸ h.placed) hf
  cases hcontrol : m.control with
  | exec code =>
    cases (step_exec hcontrol).symm.trans hstep
    have hfree := hrests fun _ _ hpoll => by cases hcontrol.symm.trans hpoll
    exact orderly_execute hfree fun l t next => hC code l t next hcontrol
  | rank p =>
    cases (step_rank hcontrol).symm.trans hstep
    have hfree := hrests fun _ _ hpoll => by cases hcontrol.symm.trans hpoll
    exact (rests_startRule hfree p).orderly rfl
  | poll l polled =>
    cases (step_poll hcontrol).symm.trans hstep
    rw [pollNext]
    split
    · rw [allPolled]
      split
      · next l' goal rest hstack =>
        have hplaced := h.placed
        rw [hstack] at hplaced
        have hfree := hother hstack fun _ _ _ hf => by cases hf
        exact (rests_driveOn (m := { m with stack := rest }) hfree
          (hplaced.top.drives l' rfl)).orderly rfl
      · next rest hstack =>
        exact (hother hstack fun _ _ _ hf => by cases hf).orderly rfl
      · next hstack _ =>
        have hfree : polling? m.stack = none := by
          rw [polling?]
          exact hstack
        exact Rests.orderly ⟨h.placed, hfree⟩ rfl
    · next t ready _ =>
      let x : Machine σ := { m with store := m.store.modifyLoop l fun loop => { loop with ready } }
      have hx : Orderly C x := ⟨h.placed, h.polls⟩
      dsimp only
      split
      · exact ⟨h.placed, fun l' hl' => by
          obtain ⟨polled', hpolls⟩ := h.polls l' hl'
          exact ⟨polled, by cases hcontrol.symm.trans hpolls; rfl⟩⟩
      · next body _ =>
        exact orderly_pollTask (m := { x with store := x.store.dropTask l t }) ⟨hx.placed, hx.polls⟩
          hcontrol t body
  | answer r =>
    cases hstack : m.stack with
    | nil =>
      rw [step, hcontrol] at hstep
      simp only [hstack] at hstep
      cases hstep
    | cons f rest =>
      cases (step_answer hcontrol hstack).symm.trans hstep
      have hfree := (hrests fun _ _ hpoll => by cases hcontrol.symm.trans hpoll).free
      rw [hstack] at hfree
      refine orderly_resume (m := { m with stack := rest }) (hstack ▸ h.placed) fun l goal hf => ?_
      subst hf
      cases hfree

end

/-! ### Calls along a run -/

/-- Before some step code has called a loop and was put below the frames of the call, where it has
been until now. -/
def CalledBefore (m : Machine σ) (n : Nat) (l : LoopId) (t : Option TaskId)
    (next : Outcome → Program σ) (below : List (Frame σ)) : Prop :=
  ∃ c code, c < n ∧ (m.run c).stack = below ∧ (m.run c).control = .exec code ∧
    code.Calls (m.run c).store l next t ∧ m.Stays below.length (c + 1) n

/-- **Along a run** a frame of a loop belongs to a call that was made before and has not
returned. -/
theorem run_orderly (hm : m.stack = []) (n : Nat) : Orderly (m.CalledBefore n) (m.run n) := by
  induction n with
  | zero =>
    exact Rests.orderly ⟨placed_nil, rfl⟩ hm
  | succ n ih =>
    -- a call that is still on the stack after a step has not returned
    have hlater : ∀ {below : List (Frame σ)} {c : Nat}, (c < n → m.Stays below.length (c + 1) n) →
        c ≤ n → ∀ {next}, .client next :: below <:+ (m.run (n + 1)).stack →
          m.Stays below.length (c + 1) (n + 1) := by
      intro below c hstays hc next hsuffix
      have hnow : below.length < (m.run (n + 1)).stack.length := hsuffix.length_le
      rcases Nat.lt_or_ge c n with hlt | hge
      · exact (hstays hlt).join (stays_single hnow) (Nat.le_refl _)
      · obtain rfl := Nat.le_antisymm hc hge
        exact stays_single hnow
    cases hstep : (m.run n).step with
    | none =>
      have hsame : m.run (n + 1) = m.run n := by rw [run_succ, hstep]; rfl
      have hbefore : Orderly (m.CalledBefore n) (m.run (n + 1)) := hsame ▸ ih
      refine hbefore.imp ?_
      rintro l t next below hsuffix ⟨c, code, hc, hbelow, hcode, hcalls, hstays⟩
      exact ⟨c, code, Nat.lt_succ_of_lt hc, hbelow, hcode, hcalls,
        hlater (fun _ => hstays) (Nat.le_of_lt hc) hsuffix⟩
    | some m' =>
      -- a call is one of those before, or made by this step
      let C : CallKind σ := fun l t next below => ∃ c code, c ≤ n ∧ (m.run c).stack = below ∧
        (m.run c).control = .exec code ∧ code.Calls (m.run c).store l next t ∧
          (c < n → m.Stays below.length (c + 1) n)
      have hbefore : Orderly C (m.run n) := by
        refine ih.imp ?_
        rintro l t next below - ⟨c, code, hc, hbelow, hcode, hcalls, hstays⟩
        exact ⟨c, code, Nat.le_of_lt hc, hbelow, hcode, hcalls, fun _ => hstays⟩
      have hafter : Orderly C m' := step_orderly hstep hbefore fun code l t next hcode hcalls =>
        ⟨n, code, Nat.le_refl n, rfl, hcode, hcalls, fun h => absurd h (lt_irrefl n)⟩
      rw [← run_of_step hstep] at hafter
      refine hafter.imp ?_
      rintro l t next below hsuffix ⟨c, code, hc, hbelow, hcode, hcalls, hstays⟩
      exact ⟨c, code, Nat.lt_succ_of_le hc, hbelow, hcode, hcalls, hlater hstays hc hsuffix⟩

/-! ### Calls that return -/

/-- Code calls at one step, and at another it is handed an outcome, having waited until then. -/
structure Answered (m : Machine σ) (c j : Nat) (next : Outcome → Program σ) (r : Outcome) :
    Prop where
  later : c < j
  under : m.Stays (m.run c).stack.length (c + 1) j
  handed : m.Hands j (.client next :: (m.run c).stack) r

section

variable {c c' j j' : Nat} {next next' : Outcome → Program σ} {r r' : Outcome}

/-- A call is over once it has returned. -/
theorem Answered.over (h : m.Answered c j next r) :
    (m.run (j + 1)).stack = (m.run c).stack := by
  rw [h.handed.next]
  rfl

/-- A call has returned as soon as its code is handed an outcome. -/
theorem Answered.first {n : Nat} (h : m.Answered c j next r) (hc : c < n) (hn : n ≤ j)
    (hands : m.Hands n (.client next' :: (m.run c).stack) r') : n = j := by
  refine Nat.le_antisymm hn (Nat.not_lt.mp fun hlt => ?_)
  have hunder := h.under (n + 1) (Nat.succ_le_succ (Nat.le_of_lt hc)) hlt
  rw [hands.next] at hunder
  exact lt_irrefl _ hunder

/-- A call returns once. -/
theorem Answered.unique (h : m.Answered c j next r) (h' : m.Answered c j' next' r') : j = j' := by
  have hle : ∀ {j j' next next' r r'}, m.Answered c j next r → m.Answered c j' next' r' → j' ≤ j := by
    intro j j' next next' r r' h h'
    by_contra hlt
    have hstays := h'.under (j + 1) (Nat.succ_le_succ (Nat.le_of_lt h.later)) (Nat.not_le.mp hlt)
    rw [h.over] at hstays
    exact lt_irrefl _ hstays
  exact Nat.le_antisymm (hle h' h) (hle h h')

/-- Code that is handed an outcome has made one call. -/
theorem Answered.caller (h : m.Answered c j next r) (h' : m.Answered c' j next' r') : c = c' := by
  have hsame : (m.run c).stack = (m.run c').stack :=
    (List.cons.inj (h.handed.1.symm.trans h'.handed.1)).2
  have hle : ∀ {c c' next next' r r'}, m.Answered c j next r → m.Answered c' j next' r' →
      (m.run c).stack = (m.run c').stack → c' ≤ c := by
    intro c c' next next' r r' h h' hsame
    by_contra hlt
    have hstays := h.under c' (Nat.not_le.mp hlt) (Nat.le_of_lt h'.later)
    rw [hsame] at hstays
    exact lt_irrefl _ hstays
  exact Nat.le_antisymm (hle h' h hsame.symm) (hle h h' hsame)

end

end Machine

end ValueInference
