/-
What one step of a machine does.

A step changes the store by what code asks for and by the loops' own notes, and it pushes and pops
frames.  Every step is one of eight moves, and whatever the moves keep, every run keeps.

* **`Store.Quiet`** — changes of the store that move no task and start or end no resolver;
* **`Machine.asides`** — what the code waits for that tasks under way have put aside;
* **`Machine.Move`** — what a step may do;
* **`Machine.moves`** — every step is such a move;
* **`Machine.Reachable`** — the machines that a run can come to.
-/
import ValueInference.Schedule.Machine
import ValueInference.Proofs.Pendings
import Mathlib.Logic.Relation

namespace ValueInference

/-- The pending whose resolver is under way. -/
def Frame.resolving? {σ : Type} : Frame σ → Option PendingId
  | .resolving p => some p
  | _ => none

/-- The task that is under way. -/
def Frame.task? {σ : Type} : Frame σ → Option Waiter
  | .task l t _ => some ⟨l, t⟩
  | _ => none

/-- A frame of neither a task nor a resolver, and without code that waits. -/
def Frame.Plain {σ : Type} : Frame σ → Prop
  | .task _ _ _ | .resolving _ => False
  | .right _ (.done _) _ => True
  | .right _ _ _ => False
  | _ => True

/-! ### What code waits for -/

/-- The pendings that a wait is for. -/
def Wait.sources : Wait → List PendingId
  | .pending p => [p]
  | .slot v => v.pendings

/-- The pendings that suspended code waits for. -/
def Program.sources {σ : Type} : Program σ → List PendingId
  | .await w _ => w.sources
  | .fork _ left right _ => left.sources ++ right.sources
  | _ => []

/-- The pendings that the code waits for that a frame has put aside. -/
def Frame.sources {σ : Type} : Frame σ → List PendingId
  | .right _ aside _ => aside.sources
  | _ => []

@[simp] theorem Wait.sources_left (w : Wait) (p : PendingId) : (w.left p).sources = [p] := by
  cases w <;> rfl

theorem Frame.Plain.sources {σ : Type} {f : Frame σ} (h : f.Plain) : f.sources = [] := by
  cases f with
  | right rule left next =>
    cases left with
    | done r => rfl
    | _ => exact h.elim
  | _ => rfl

namespace Store

/-- One change of the store that moves no task and starts or ends no resolver: what code asks for,
a task that waits, or a note in a loop about anything but its tasks. -/
inductive QuietStep (s : Store) : Store → Prop where
  | change (c : Change) : QuietStep s (c.apply s)
  | register (w : Waiter) (p : PendingId) (before : s.isOpen p = true) :
      QuietStep s (s.register w p)
  | note (l : LoopId) (f : LoopState → LoopState) (tasks : ∀ loop, (f loop).tasks = loop.tasks)
      (spawned : ∀ loop, (f loop).spawned = loop.spawned)
      (config : ∀ loop, (f loop).config = loop.config)
      (ready : ∀ loop, (f loop).ready = loop.ready) : QuietStep s (s.modifyLoop l f)

/-- The second store comes from the first by quiet changes. -/
def Quiet : Store → Store → Prop := Relation.ReflTransGen QuietStep

variable {s t u : Store} {p q : PendingId}

theorem Quiet.refl (s : Store) : s.Quiet s := Relation.ReflTransGen.refl

theorem Quiet.change (s : Store) (c : Change) : s.Quiet (c.apply s) := .single (.change c)

theorem Quiet.trans (h : s.Quiet t) (h' : t.Quiet u) : s.Quiet u :=
  Relation.ReflTransGen.trans h h'

/-- Whatever each quiet step keeps, quiet changes keep. -/
theorem Quiet.keeps {P : Store → Prop} (h : s.Quiet t) (hs : P s)
    (hstep : ∀ {s t : Store}, s.QuietStep t → P s → P t) : P t := by
  induction h with
  | refl => exact hs
  | tail _ hlast ih => exact hstep hlast ih

theorem quiet_of_evolves (h : Evolves s t) : s.Quiet t := by
  induction h with
  | refl => exact .refl s
  | step c _ ih => exact ih.tail (.change c)

theorem Quiet.register (w : Waiter) (hp : s.isOpen p = true) : s.Quiet (s.register w p) :=
  .single (.register w p hp)

end Store

namespace Machine

variable {σ : Type} {m m' m₁ : Machine σ}

/-- The pendings whose resolvers are under way, innermost first. -/
def resolvers (m : Machine σ) : List PendingId := m.stack.filterMap Frame.resolving?

theorem mem_resolvers {p : PendingId} : p ∈ m.resolvers ↔ .resolving p ∈ m.stack := by
  rw [resolvers, List.mem_filterMap]
  constructor
  · rintro ⟨f, hf, hp⟩
    cases f with
    | resolving q =>
      obtain rfl : q = p := Option.some.inj hp
      exact hf
    | _ => exact nomatch hp
  · exact fun h => ⟨_, h, rfl⟩

/-- The tasks under way, innermost first. -/
def underway (m : Machine σ) : List Waiter := m.stack.filterMap Frame.task?

theorem mem_underway {w : Waiter} :
    w ∈ m.underway ↔ ∃ body, .task w.loop w.task body ∈ m.stack := by
  rw [underway, List.mem_filterMap]
  constructor
  · rintro ⟨f, hf, hw⟩
    cases f with
    | task l t body =>
      obtain rfl := Option.some.inj hw
      exact ⟨body, hf⟩
    | _ => exact nomatch hw
  · rintro ⟨body, hf⟩
    exact ⟨_, hf, rfl⟩

/-- The pendings that the pieces of code wait for that were put aside, with their tasks. -/
def asidesOf : List (Frame σ) → List (Waiter × PendingId)
  | [] => []
  | f :: stack => (f.sources.flatMap fun p => (waiter? stack).toList.map (·, p)) ++ asidesOf stack

/-- The pendings that tasks under way wait for in code that they have put aside. -/
def asides (m : Machine σ) : List (Waiter × PendingId) := asidesOf m.stack

theorem asidesOf_cons_plain {f : Frame σ} (hf : f.sources = []) (stack : List (Frame σ)) :
    asidesOf (f :: stack) = asidesOf stack := by
  rw [asidesOf, hf]
  rfl

theorem mem_asidesOf_of_suffix {stack stack' : List (Frame σ)} {a : Waiter × PendingId}
    (h : stack <:+ stack') (ha : a ∈ asidesOf stack) : a ∈ asidesOf stack' := by
  obtain ⟨above, rfl⟩ := h
  induction above with
  | nil => exact ha
  | cons f above ih => exact List.mem_append_right _ ih

theorem mem_stack_of_waiter? {w : Waiter} {stack : List (Frame σ)} (h : waiter? stack = some w) :
    ∃ body, .task w.loop w.task body ∈ stack := by
  induction stack with
  | nil => exact nomatch h
  | cons f stack ih =>
    cases f with
    | task l t body =>
      cases h
      exact ⟨body, List.mem_cons_self⟩
    | left _ _ _ | right _ _ _ =>
      obtain ⟨body, hmem⟩ := ih h
      exact ⟨body, List.mem_cons_of_mem _ hmem⟩
    | _ => exact nomatch h

/-! ### Code that is put together again -/

theorem rejoin_suffix (stack : List (Frame σ)) : ∀ code : Program σ,
    (rejoin code stack).2 <:+ stack := by
  induction stack with
  | nil => exact fun _ => List.suffix_rfl
  | cons f stack ih =>
    intro code
    cases f with
    | right rule left next => exact (ih _).trans (List.suffix_cons _ _)
    | _ => exact List.suffix_rfl

/-- Only pieces of code are put together: the task stays, and so do the resolvers under way. -/
theorem rejoin_below (stack : List (Frame σ)) : ∀ code : Program σ,
    waiter? (rejoin code stack).2 = waiter? stack ∧
      (rejoin code stack).2.filterMap Frame.resolving? = stack.filterMap Frame.resolving? := by
  induction stack with
  | nil => exact fun _ => ⟨rfl, rfl⟩
  | cons f stack ih =>
    intro code
    cases f with
    | right rule left next => exact ih _
    | _ => exact ⟨rfl, rfl⟩

/-- Code that is put together waits for what its pieces wait for. -/
theorem mem_sources_rejoin {w : Waiter} {p : PendingId} (stack : List (Frame σ)) :
    ∀ code : Program σ, waiter? stack = some w → p ∈ (rejoin code stack).1.sources →
      p ∈ code.sources ∨ (w, p) ∈ asidesOf stack := by
  induction stack with
  | nil => exact fun _ _ hp => .inl hp
  | cons f stack ih =>
    intro code hw hp
    cases f with
    | right rule left next =>
      rcases ih _ hw hp with hp | haside
      · refine (List.mem_append.mp hp).symm.imp_right fun hp => List.mem_append_left _ ?_
        rw [show waiter? stack = some w from hw]
        exact List.mem_flatMap.mpr ⟨p, hp, List.mem_cons_self⟩
      · exact .inr (List.mem_append_right _ haside)
    | _ => exact .inl hp

theorem sources_rejoin_ne_nil (stack : List (Frame σ)) : ∀ code : Program σ,
    code.sources ≠ [] → (rejoin code stack).1.sources ≠ [] := by
  induction stack with
  | nil => exact fun _ => id
  | cons f stack ih =>
    intro code hne
    cases f with
    | right rule left next =>
      exact ih _ fun hnil => hne (List.append_eq_nil_iff.mp hnil).2
    | _ => exact hne

/-! ### Moves -/

/-- The store changes quietly, no task gets under way or puts code aside, the same resolvers are
under way, code keeps its number, and only tasks under way are registered to be woken. -/
structure Calm (m m' : Machine σ) : Prop where
  store : m.store.Quiet m'.store
  stack : ∀ f ∈ m'.stack, f.Plain ∨ f ∈ m.stack
  underway : m'.underway.Sublist m.underway
  asides : ∀ a ∈ m'.asides, a ∈ m.asides
  resolvers : m'.resolvers = m.resolvers
  codes : m.codes.toList <+: m'.codes.toList
  waiters : ∀ p, ∀ w ∈ m'.store.waiters p,
    w ∈ m.store.waiters p ∨ ∃ body, .task w.loop w.task body ∈ m.stack

/-- Code of a task waits, on a stack and with a store: it meets an open pending, with which the task
is registered, or it is the right one of two pieces that are joined, and only the left one is not
over. -/
inductive Waits (m : Machine σ) : Program σ → List (Frame σ) → Store → Prop where
  | asks {w : Wait} {next : Outcome → Program σ} {p : PendingId} {t : Waiter}
      (control : m.control = .exec (.await w next)) (ask : m.store.ask w = .inl p)
      (task : waiter? m.stack = some t) :
      Waits m (.await (w.left p) next) m.stack (m.store.register t p)
  | joins {r : Outcome} {left : Program σ} {next : Fork.join.Answer → Program σ}
      {stack : List (Frame σ)} (stacked : m.stack = .right .join left next :: stack)
      (control : m.control = .answer r) (undone : ∀ a, left ≠ .done a) :
      Waits m (.fork .join left (.done r) next) stack m.store

/-- Code of a task waits, and the second machine has all pieces off the stack for which it waits. -/
def Pauses (m : Machine σ) (code : Program σ) (m₁ : Machine σ) : Prop :=
  ∃ code₀ stack s, m.Waits code₀ stack s ∧ code = (rejoin code₀ stack).1 ∧
    m₁ = { m with store := s, stack := (rejoin code₀ stack).2 }

/-- What a step may do. -/
inductive Move (m : Machine σ) : Machine σ → Prop where
  | calm {m' : Machine σ} (h : m.Calm m') : Move m m'
  /-- A task of client code is added to a table. -/
  | spawned {m' : Machine σ} {l : LoopId} {body : TaskBody} {task : Program σ}
      (code : body = .code m.codes.size ∨ body = .watched m.codes.size)
      (h : Calm { m with codes := m.codes.push task, store := (m.store.spawn l body).2 } m') :
      Move m m'
  /-- The resolver of a pending starts.  What a deferred merge is taken for is known at once. -/
  | resolving {m₁ m' : Machine σ} {p : PendingId} {res : Resolver} (h : m.Calm m₁)
      (begin : m₁.store.beginResolving p = (some res, m'.store))
      (stack : m'.stack = .resolving p :: m₁.stack) (codes : m'.codes = m₁.codes)
      (control : ∀ left right, res = .operands left right →
        m'.control = .answer (m'.store.resolveOperands left right)) : Move m m'
  /-- A resolver has an outcome. -/
  | resolved {p : PendingId} {r : Outcome} {rest : List (Frame σ)}
      (stack : m.stack = .resolving p :: rest) (control : m.control = .answer r) :
      Move m ({ m with stack := rest }.resolved p r)
  /-- A loop passes over a number in its queue that no task of its table has. -/
  | skipped {l : LoopId} {polled : Bool} {t : TaskId} {ready : List TaskId}
      (control : m.control = .poll l polled) (head : (m.store.loop l).ready = t :: ready)
      (absent : ((m.store.modifyLoop l fun loop => { loop with ready }).loop l).tasks.lookup t =
        none) :
      Move m { m with
        store := m.store.modifyLoop l fun loop => { loop with ready }
        control := .poll l polled }
  /-- A loop polls a task of its table. -/
  | polled {l : LoopId} {polled : Bool} {t : TaskId} {ready : List TaskId} {body : TaskBody}
      {s : Store} (control : m.control = .poll l polled)
      (head : (m.store.loop l).ready = t :: ready)
      (queue : s = m.store.modifyLoop l fun loop => { loop with ready })
      (lookup : (s.loop l).tasks.lookup t = some body) :
      Move m ({ m with store := s.dropTask l t }.pollTask l t body)
  /-- Code of a task waits, and the other one of two pieces has its turn. -/
  | turned {m₁ m' : Machine σ} {code right : Program σ} {rule : Fork}
      {next : rule.Answer → Program σ} {rest : List (Frame σ)} (h : m.Pauses code m₁)
      (stack : m₁.stack = .left rule right next :: rest) (store : m'.store = m₁.store)
      (stack' : m'.stack = .right rule code next :: rest) (codes : m'.codes = m₁.codes)
      (control : m'.control = .exec right) : Move m m'
  /-- A task waits. -/
  | suspended {m₁ m' : Machine σ} {code : Program σ} {l : LoopId} {t : TaskId} {body : TaskBody}
      {rest : List (Frame σ)} (h : m.Pauses code m₁) (stack : m₁.stack = .task l t body :: rest)
      (store : m'.store = m₁.store.putTask l t body) (stack' : m'.stack = rest)
      (codes : m'.codes = (m₁.saveCode body code).codes) (control : m'.control = .poll l true) :
      Move m m'

namespace Calm

theorem trans {m₂ : Machine σ} (h : m.Calm m₁) (h' : m₁.Calm m₂) : m.Calm m₂ where
  store := h.store.trans h'.store
  stack f hf := (h'.stack f hf).elim .inl (h.stack f)
  underway := h'.underway.trans h.underway
  asides a ha := h.asides a (h'.asides a ha)
  resolvers := h'.resolvers.trans h.resolvers
  codes := h.codes.trans h'.codes
  waiters p w hw := by
    rcases h'.waiters p w hw with hw | ⟨body, hbody⟩
    · exact h.waiters p w hw
    · exact (h.stack _ hbody).elim False.elim fun hold => .inr ⟨body, hold⟩

theorem changed (hstore : m.store.Quiet m'.store) (hstack : m'.stack = m.stack)
    (hcodes : m'.codes = m.codes)
    (hwaiters : ∀ p, ∀ w ∈ m'.store.waiters p, w ∈ m.store.waiters p) : m.Calm m' where
  store := hstore
  stack _ hf := .inr (hstack ▸ hf)
  underway := by rw [Machine.underway, hstack, Machine.underway]
  asides a ha := by rwa [Machine.asides, hstack] at ha
  resolvers := by rw [Machine.resolvers, hstack, Machine.resolvers]
  codes := hcodes ▸ List.prefix_rfl
  waiters p w hw := .inl (hwaiters p w hw)

/-- Going on in another way is calm. -/
theorem go (hstore : m'.store = m.store) (hstack : m'.stack = m.stack)
    (hcodes : m'.codes = m.codes) : m.Calm m' :=
  changed (hstore ▸ .refl _) hstack hcodes fun _ _ hw => hstore ▸ hw

/-- Code gets a number. -/
theorem coded (m : Machine σ) (code : Program σ) : m.Calm (m.addCode code).2 where
  store := .refl _
  stack _ hf := .inr hf
  underway := .refl _
  asides _ := id
  resolvers := rfl
  waiters _ _ hw := .inl hw
  codes := by
    show m.codes.toList <+: (m.codes.push code).toList
    rw [Array.toList_push]
    exact List.prefix_append _ _

theorem push (m : Machine σ) (f : Frame σ) (hf : f.Plain) : m.Calm (m.push f) where
  store := .refl _
  stack g hg := by
    rcases List.mem_cons.mp hg with rfl | hg
    · exact .inl hf
    · exact .inr hg
  underway := by
    cases f with
    | task l t body => exact hf.elim
    | _ => exact .refl _
  asides a ha := by
    rw [Machine.asides, Machine.push, asidesOf_cons_plain hf.sources] at ha
    exact ha
  resolvers := by
    cases f with
    | task l t body => exact hf.elim
    | resolving p => exact hf.elim
    | _ => rfl
  codes := List.prefix_rfl
  waiters _ _ hw := .inl hw

/-- Frames other than those of resolvers may be taken off the stack. -/
theorem drop {rest : List (Frame σ)} (hsuffix : rest <:+ m.stack)
    (hresolvers : rest.filterMap Frame.resolving? = m.resolvers) :
    m.Calm { m with stack := rest } where
  store := .refl _
  stack _ hg := .inr (hsuffix.subset hg)
  underway := hsuffix.sublist.filterMap _
  asides _ ha := mem_asidesOf_of_suffix hsuffix ha
  resolvers := hresolvers
  codes := List.prefix_rfl
  waiters _ _ hw := .inl hw

theorem pop {f : Frame σ} {rest : List (Frame σ)} (h : m.stack = f :: rest)
    (hf : f.resolving? = none) : m.Calm { m with stack := rest } :=
  drop (h ▸ List.suffix_cons f rest) (by rw [Machine.resolvers, h, List.filterMap_cons_none hf])

theorem answer (m : Machine σ) (r : Outcome) : m.Calm (m.answer r) := go rfl rfl rfl

theorem exec (m : Machine σ) (code : Program σ) : m.Calm (m.exec code) := go rfl rfl rfl

theorem record (m : Machine σ) (d : Diagnostic) : m.Calm { m with store := m.store.record d } :=
  changed (.change m.store (.record d)) rfl rfl fun _ _ => id

theorem note (m : Machine σ) (l : LoopId) (f : LoopState → LoopState)
    (tasks : ∀ loop, (f loop).tasks = loop.tasks)
    (spawned : ∀ loop, (f loop).spawned = loop.spawned)
    (config : ∀ loop, (f loop).config = loop.config)
    (ready : ∀ loop, (f loop).ready = loop.ready) :
    m.Calm { m with store := m.store.modifyLoop l f } :=
  changed (.single (.note l f tasks spawned config ready)) rfl rfl fun _ _ => id

theorem deadlocked (m : Machine σ) (l : LoopId) : m.Calm (m.deadlocked l) :=
  (record m _).trans (answer _ _)

theorem startDrive (m : Machine σ) (l : LoopId) (goal : Goal) : m.Calm (m.startDrive l goal) :=
  (push m (.drive l goal) trivial).trans (go rfl rfl rfl)

theorem forceDone (m : Machine σ) (l : LoopId) (p : PendingId) : m.Calm (m.forceDone l p) := by
  rw [Machine.forceDone]
  split
  · exact answer m _
  · exact deadlocked m l

theorem taskDone (m : Machine σ) (l : LoopId) (t : TaskId) (body : TaskBody) (r : Outcome) :
    m.Calm (m.taskDone l t body r) := by
  refine (note m l _ (fun loop => ?_) (fun loop => ?_) (fun loop => ?_) fun loop => ?_).trans
    (go rfl rfl rfl)
  all_goals split <;> rfl

theorem takeOutcome (m : Machine σ) (l : LoopId) (t : TaskId) : m.Calm (m.takeOutcome l t) := by
  rw [Machine.takeOutcome]
  split
  · exact deadlocked m l
  · refine (note m l (fun loop => { loop with
      outcomes := loop.outcomes.filter fun e => e.1 ≠ t }) ?_ ?_ ?_ ?_).trans (answer _ _)
    all_goals exact fun _ => rfl

theorem askRank (m : Machine σ) (p : Option PendingId) : m.Calm (m.askRank p) := by
  cases p with
  | none => exact answer m _
  | some p => exact go rfl rfl rfl

theorem startRule (m : Machine σ) (p : PendingId) : m.Calm (m.startRule p) := by
  rw [Machine.startRule]
  split
  · exact answer m _
  · exact answer m _
  · split
    · exact exec m _
    · exact answer m _
  · exact (push m (.leftRank _) trivial).trans (askRank _ _)

end Calm

/-- Code that waits has put nothing aside yet, but its task is registered. -/
theorem Pauses.calm {code : Program σ} (h : m.Pauses code m₁) : m.Calm m₁ := by
  obtain ⟨code₀, stack, s, hwaits, -, rfl⟩ := h
  obtain ⟨-, hresolvers⟩ := rejoin_below stack code₀
  cases hwaits with
  | @asks w next p t control ask task =>
    have hregister : m.Calm { m with store := m.store.register t p } :=
      { store := .register t (Store.canWait_iff.mp (Store.ask_open ask)).2
        stack := fun f hf => .inr hf
        underway := .refl _
        asides := fun a => id
        resolvers := rfl
        codes := List.prefix_rfl
        waiters := fun q v hv => (Store.mem_waiters_of_register hv).imp_right fun
          | rfl => mem_stack_of_waiter? task }
    exact hregister.trans (.drop (rejoin_suffix _ _) hresolvers)
  | @joins r left next stack stacked _ _ =>
    refine .drop ((rejoin_suffix _ _).trans (stacked ▸ List.suffix_cons _ _)) ?_
    rw [hresolvers, Machine.resolvers, stacked]
    rfl

/-! ### Forcing -/

theorem move_startResolver (h : m.Calm m₁) (p : PendingId) : m.Move (m₁.startResolver p) := by
  rw [startResolver]
  rcases hbegin : m₁.store.beginResolving p with ⟨_ | res, s⟩
  · exact .calm (h.trans (.answer m₁ _))
  cases res with
  | operands left right =>
    refine .resolving h hbegin rfl rfl fun left' right' heq => ?_
    obtain ⟨rfl, rfl⟩ : left = left' ∧ right = right' := by simpa using heq
    rfl
  | code i =>
    simp only
    split
    · exact .resolving h hbegin rfl rfl fun _ _ heq => nomatch heq
    · exact .resolving h hbegin rfl rfl fun _ _ heq => nomatch heq

theorem move_charged (h : m.Calm m₁) (l : LoopId) (aim : Aim) (p : PendingId) (rank : Option Int) :
    m.Move (m₁.charged l aim p rank) := by
  have hframe : (aim.frame l : Frame σ).Plain := by cases aim <;> trivial
  exact move_startResolver ((h.trans (.record m₁ _)).trans (.push _ _ hframe)) p

theorem move_startForce (h : m.Calm m₁) (l : LoopId) (p : PendingId) :
    m.Move (m₁.startForce l p) := by
  rw [startForce]
  split
  · exact .calm (h.trans (.answer m₁ _))
  split
  · exact .calm ((h.trans (.record m₁ _)).trans (.answer _ _))
  split
  · exact move_startResolver (h.trans (.push m₁ (.forcing l p) trivial)) p
  · exact .calm ((h.trans (.push m₁ (.forcing l p) trivial)).trans (.startDrive _ _ _))

theorem calm_noneLeft (m : Machine σ) (l : LoopId) (aim : Aim) : m.Calm (m.noneLeft l aim) := by
  cases aim with
  | drive goal => exact .deadlocked m l
  | finish =>
    rw [noneLeft]
    split
    · exact .answer m _
    · exact (Calm.record m _).trans (.answer _ _)

theorem calm_charge (m : Machine σ) (l : LoopId) (aim : Aim) (p : PendingId) :
    m.Calm (m.charge l aim p) := by
  rw [charge]
  dsimp only
  split
  · exact .deadlocked m l
  · have hcounted := Calm.note m l (fun loop => { loop with forced := loop.forced + 1 })
      (fun _ => rfl) (fun _ => rfl) (fun _ => rfl) fun _ => rfl
    exact (hcounted.trans (.push _ (.charging l aim p) trivial)).trans (.askRank _ _)

/-- Going through pendings is calm: it ends where a pending is asked for its rank. -/
theorem calm_pick (m : Machine σ) (l : LoopId) (aim : Aim)
    (best : Option (PendingId × Option Int)) (ps : List PendingId) :
    m.Calm (m.pick l aim best ps) := by
  induction ps with
  | nil =>
    rw [pick.eq_def]
    dsimp only
    split
    · exact calm_charge m l aim _
    · exact calm_noneLeft m l aim
  | cons p ps ih =>
    rw [pick]
    split
    · exact (Calm.push m (.choosing l aim best p ps) trivial).trans (.askRank _ _)
    · exact ih

theorem calm_choose (m : Machine σ) (l : LoopId) (aim : Aim) : m.Calm (m.choose l aim) :=
  calm_pick m l aim none _

theorem calm_driveOn (m : Machine σ) (l : LoopId) (goal : Goal) : m.Calm (m.driveOn l goal) := by
  rw [driveOn]
  split
  · next e errors _ =>
    have htold := Calm.note m l (fun loop => { loop with errors }) (fun _ => rfl) (fun _ => rfl)
      (fun _ => rfl) fun _ => rfl
    exact htold.trans (.answer _ _)
  split
  · exact .answer m _
  · exact calm_choose m l _

/-! ### The kinds of steps -/

/-- Code of a task that waits leaves the turn to another one, or its task is suspended. -/
theorem move_pause {code : Program σ} {stack : List (Frame σ)} {s : Store}
    (h : m.Waits code stack s) : m.Move ({ m with store := s }.pause code stack) := by
  have hpauses : ∀ {code' : Program σ} {stack' : List (Frame σ)},
      rejoin code stack = (code', stack') → m.Pauses code' { m with store := s, stack := stack' } :=
    fun hrejoin => ⟨code, stack, s, h, by rw [hrejoin], by rw [hrejoin]⟩
  rw [pause]
  split
  · next hrejoin => exact .turned (hpauses hrejoin) rfl rfl rfl rfl rfl
  · next body _ hrejoin =>
    -- whether the task's code is kept shows neither in the store nor on the stack
    refine .suspended (hpauses hrejoin) rfl ?_ ?_ ?_ ?_
    all_goals cases body <;> rfl
  · next hrejoin => exact .calm ((hpauses hrejoin).calm.trans (.answer _ _))

theorem move_await {w : Wait} {next : Outcome → Program σ}
    (hcontrol : m.control = .exec (.await w next)) : m.Move (m.await w next) := by
  rw [await]
  split
  · exact .calm (.exec m _)
  next p hask =>
  split
  · next t htask => exact move_pause (.asks hcontrol hask htask)
  · exact .calm (.answer m _)

theorem move_execute {code : Program σ} (hcontrol : m.control = .exec code) :
    m.Move (m.execute code) := by
  cases code with
  | done outcome => exact .calm (.answer m outcome)
  | update x next =>
    have hevolves := x.evolves m.store
    exact .calm (.changed (Store.quiet_of_evolves hevolves) rfl rfl fun p =>
      Store.waiters_evolves hevolves)
  | client f next => exact .calm (.go rfl rfl rfl)
  | await w next => exact move_await hcontrol
  | fork rule left right next =>
    exact .calm ((Calm.push m (.left rule right next) trivial).trans (.exec _ _))
  | spawn l task next => exact .spawned (.inl rfl) (.exec _ _)
  | pending l resolver rule next =>
    let opening : Change := .openPending l (some (.code m.codes.size)) (.code m.rules.size)
    have hopened := Store.Quiet.change m.store opening
    exact .calm ((Calm.coded m resolver).trans (.changed hopened rfl rfl fun _ =>
      Store.waiters_change opening))
  | rank p next => exact .calm ((Calm.push m (.ranked next) trivial).trans (.go rfl rfl rfl))
  | runReady l next => exact .calm ((Calm.push m (.polled next) trivial).trans (.go rfl rfl rfl))
  | run l next => exact .calm ((Calm.push m (.client next) trivial).trans (.startDrive _ _ _))
  | finish l next =>
    have hcalled := (Calm.push m (.client next) trivial).trans (.push _ (.finishRunning l) trivial)
    exact .calm (hcalled.trans (.startDrive _ _ _))
  | force l p next => exact move_startForce (.push m (.client next) trivial) l p
  | runUntil l task next =>
    refine @Move.spawned _ m _ l _ task (.inr rfl) ?_
    simp only [execute, addCode, spawn]
    rcases m.store.spawn l (.watched m.codes.size) with ⟨_ | t, s⟩
    · exact .exec _ _
    · exact ((Calm.push _ (.client next) trivial).trans (.push _ (.watching l t) trivial)).trans
        (.startDrive _ _ _)

theorem move_pollNext {l : LoopId} {polled : Bool} (hcontrol : m.control = .poll l polled) :
    m.Move (m.pollNext l polled) := by
  rw [pollNext]
  split
  · rw [allPolled]
    split
    · next hstack => exact .calm ((Calm.pop hstack rfl).trans (calm_driveOn _ _ _))
    · next hstack => exact .calm ((Calm.pop hstack rfl).trans (.exec _ _))
    · exact .calm (.answer m _)
  next t ready hready =>
  simp only
  split
  · next habsent => exact .skipped hcontrol hready habsent
  · next hlookup => exact .polled hcontrol hready rfl hlookup

theorem move_resume {r : Outcome} {f : Frame σ} {rest : List (Frame σ)}
    (hstack : m.stack = f :: rest) (hcontrol : m.control = .answer r) :
    m.Move ({ m with stack := rest }.resume r f) := by
  have hpop := Calm.pop hstack
  cases f with
  | client next => exact .calm ((hpop rfl).trans (.exec _ _))
  | polled next => exact .calm ((hpop rfl).trans (.exec _ _))
  | ranked next => exact .calm ((hpop rfl).trans (.exec _ _))
  | left rule right next =>
    cases rule with
    | join =>
      have hturned := (hpop rfl).trans (.push _ (.right .join (.done r) next) trivial)
      exact .calm (hturned.trans (.exec _ _))
    | race => exact .calm ((hpop rfl).trans (.exec _ _))
  | right rule left next =>
    cases rule with
    | race => exact .calm ((hpop rfl).trans (.exec _ _))
    | join =>
      cases left with
      | done a => exact .calm ((hpop rfl).trans (.exec _ _))
      | _ => exact move_pause (.joins hstack hcontrol nofun)
  | choosing l aim best p ps => exact .calm ((hpop rfl).trans (calm_pick _ l aim _ ps))
  | charging l aim p => exact move_charged (hpop rfl) l aim p _
  | leftRank right =>
    exact .calm ((hpop rfl).trans ((Calm.push _ (.rightRank r) trivial).trans (.askRank _ _)))
  | rightRank left => exact .calm ((hpop rfl).trans (.answer _ _))
  | task l t body => exact .calm ((hpop rfl).trans (.taskDone _ l t body r))
  | drive l goal => exact .calm ((hpop rfl).trans (.answer _ _))
  | resolving p => exact .resolved hstack hcontrol
  | driveForcing l goal =>
    cases r with
    | error e => exact .calm ((hpop rfl).trans (.answer _ _))
    | ok slot => exact .calm ((hpop rfl).trans (.startDrive _ l goal))
  | forcing l p =>
    cases r with
    | error e => exact .calm ((hpop rfl).trans (.answer _ _))
    | ok slot => exact .calm ((hpop rfl).trans (.forceDone _ l p))
  | finishRunning l =>
    cases r with
    | error e => exact .calm ((hpop rfl).trans (.answer _ _))
    | ok slot => exact .calm ((hpop rfl).trans (calm_choose _ l .finish))
  | finishForcing l =>
    cases r with
    | error e => exact .calm ((hpop rfl).trans (.answer _ _))
    | ok slot =>
      have hcalled := (hpop rfl).trans (.push _ (.finishRunning l) trivial)
      exact .calm (hcalled.trans (.startDrive _ l _))
  | watching l t =>
    cases r with
    | error e => exact .calm ((hpop rfl).trans (.answer _ _))
    | ok slot => exact .calm ((hpop rfl).trans (.takeOutcome _ l t))

/-- **Every step is a move.** -/
theorem moves (h : m.step = some m') : m.Move m' := by
  rw [step] at h
  split at h
  · next code hcontrol =>
    cases h
    exact move_execute hcontrol
  · next hcontrol =>
    cases h
    exact move_pollNext hcontrol
  · next p hcontrol =>
    cases h
    exact .calm (.startRule m p)
  · next hcontrol =>
    split at h
    · exact nomatch h
    next hstack =>
    cases h
    exact move_resume hstack hcontrol

/-! ### What the moves do to the store -/

/-- A task that is polled waits and goes back to its place, or it is under way. -/
theorem pollTask_cases (m : Machine σ) (l : LoopId) (t : TaskId) (body : TaskBody) :
    (∃ s body', m.store.Quiet s ∧ (m.pollTask l t body).store = s.putTask l t body' ∧
      (m.pollTask l t body).stack = m.stack) ∨
    m.store.Quiet (m.pollTask l t body).store ∧
      (m.pollTask l t body).stack = .task l t body :: m.stack := by
  cases body with
  | code i => exact .inr ⟨.refl _, rfl⟩
  | watched i => exact .inr ⟨.refl _, rfl⟩
  | merge d =>
    rw [pollTask, pollMerge]
    split
    · next p hpoll =>
      have hopen := (Store.canWait_iff.mp (Store.poll_open hpoll).2).2
      exact .inl ⟨_, _, .register ⟨l, t⟩ hopen, rfl, rfl⟩
    · exact .inr ⟨.refl _, rfl⟩
    split
    · next p hpoll =>
      have hopen := (Store.canWait_iff.mp (Store.poll_open hpoll).2).2
      exact .inl ⟨_, _, .register ⟨l, t⟩ hopen, rfl, rfl⟩
    · exact .inr ⟨.refl _, rfl⟩
    · refine .inr ⟨?_, rfl⟩
      exact Store.quiet_of_evolves ((Infer.mergeDeferred l d _ _).run.evolves m.store)

theorem resolved_ok (m : Machine σ) (p : PendingId) (slot : Slot) :
    (m.resolved p (.ok slot)).store = m.store ∨
      (m.resolved p (.ok slot)).store = (m.store.setResult p slot).2 := by
  rw [resolved]
  split
  · refine .inr ?_
    rcases m.store.setResult p slot with ⟨_ | _, s⟩ <;> rfl
  · exact .inl rfl

/-- What a resolver's outcome does to the store. -/
theorem resolved_store (m : Machine σ) (p : PendingId) (r : Outcome) :
    m.store.Quiet (m.resolved p r).store ∨
      ∃ e, r = .error e ∧ (m.resolved p r).store = m.store.fail p e := by
  cases r with
  | error e => exact .inr ⟨e, rfl, rfl⟩
  | ok slot =>
    refine .inl ?_
    obtain h | h := m.resolved_ok p slot
    · rw [h]
      exact .refl _
    · rw [h]
      exact .change m.store (.setResult p slot)

theorem resolved_stack (m : Machine σ) (p : PendingId) (r : Outcome) :
    (m.resolved p r).stack = m.stack := by
  cases r with
  | error e => rfl
  | ok slot =>
    rw [resolved]
    split
    · rcases m.store.setResult p slot with ⟨_ | _, s⟩ <;> rfl
    · rfl

/-! ### Runs -/

/-- The machines that a run of some code on a new store can come to. -/
inductive Reachable : Machine σ → Prop where
  | start (client : σ) (code : Program σ) : Reachable (start client code)
  | step {m m' : Machine σ} : Reachable m → m.step = some m' → Reachable m'

theorem run_succ (fuel : Nat) (m : Machine σ) :
    m.run (fuel + 1) = ((m.run fuel).step).getD (m.run fuel) := by
  induction fuel generalizing m with
  | zero =>
    rw [run, run]
    cases m.step <;> rfl
  | succ fuel ih =>
    rw [run]
    cases h : m.step with
    | none => simp [run, h]
    | some m₁ => rw [show m.run (fuel + 1) = m₁.run fuel by rw [run, h]]; exact ih m₁

theorem run_add (i k : Nat) (m : Machine σ) : m.run (i + k) = (m.run i).run k := by
  induction k with
  | zero => rfl
  | succ k ih => rw [Nat.add_succ, run_succ, ih, ← run_succ]

/-- Whatever holds at first and is kept by each step holds at the end of a run. -/
theorem run_keeps {P : Machine σ → Prop} (fuel : Nat) (hm : P m)
    (hstep : ∀ i < fuel, P (m.run i) → ∀ m', (m.run i).step = some m' → P m') :
    P (m.run fuel) := by
  induction fuel with
  | zero => exact hm
  | succ fuel ih =>
    have hbefore := ih fun i hi => hstep i (Nat.lt_succ_of_lt hi)
    rw [run_succ]
    cases h : (m.run fuel).step with
    | none => exact hbefore
    | some m' => exact hstep fuel (Nat.lt_succ_self fuel) hbefore m' h

theorem Reachable.run (h : m.Reachable) (fuel : Nat) : (m.run fuel).Reachable :=
  run_keeps fuel h fun _ _ hm _ hstep => .step hm hstep

end Machine

end ValueInference
