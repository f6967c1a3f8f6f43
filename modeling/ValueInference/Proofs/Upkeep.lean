/-
What steps do to the store.

A machine looks after the store: it records what happens, makes notes about its loops, registers
tasks to be woken, adds tasks and pendings of client code, starts resolvers, and fails pendings.
None of that brings in a slot.  Slots come into the store in three ways: client code runs a
computation, a resolver returns, and a merge that was put off takes place.

* **`Store.Upkeep`** — what a machine does to the store by itself;
* **`Machine.Affects`** — what a step may do to the store, apart from errors and outcomes of tasks;
* **`Machine.affects_execute`**, **`Machine.affects_poll`**, **`Machine.affects_resume`** — steps by
  what comes next.
-/
import ValueInference.Proofs.Driving

namespace ValueInference

namespace Store

variable {s t u : Store}

/-- One thing that a machine does to the store by itself. -/
inductive Chore (s : Store) : Store → Prop where
  | record (d : Diagnostic) : Chore s (s.record d)
  /-- A note in a loop about anything but errors and outcomes. -/
  | note (l : LoopId) (f : LoopState → LoopState)
      (kept : ∀ loop, (f loop).errors = loop.errors ∧ (f loop).outcomes = loop.outcomes) :
      Chore s (s.modifyLoop l f)
  | register (w : Waiter) (p : PendingId) : Chore s (s.register w p)
  | spawn (l : LoopId) (body : TaskBody) : Chore s (s.spawn l body).2
  | openPending (l : LoopId) (resolver : Option Resolver) (priority : Priority) :
      Chore s (s.openPending l resolver priority).2
  | take (p : PendingId) : Chore s (s.taken p)
  | fail (p : PendingId) (e : InferError) : Chore s (s.fail p e)

/-- What a machine does to the store by itself. -/
def Upkeep : Store → Store → Prop := Relation.ReflTransGen Chore

namespace Upkeep

theorem refl (s : Store) : s.Upkeep s := Relation.ReflTransGen.refl

theorem one (h : s.Chore t) : s.Upkeep t := .single h

theorem trans (h : s.Upkeep t) (h' : t.Upkeep u) : s.Upkeep u := Relation.ReflTransGen.trans h h'

theorem record (s : Store) (d : Diagnostic) : s.Upkeep (s.record d) := one (.record d)

theorem note (s : Store) (l : LoopId) {f : LoopState → LoopState}
    (kept : ∀ loop, (f loop).errors = loop.errors ∧ (f loop).outcomes = loop.outcomes) :
    s.Upkeep (s.modifyLoop l f) :=
  one (.note l f kept)

theorem dropTask (s : Store) (l : LoopId) (t : TaskId) : s.Upkeep (s.dropTask l t) :=
  note s l fun _ => ⟨rfl, rfl⟩

theorem putTask (s : Store) (l : LoopId) (t : TaskId) (body : TaskBody) :
    s.Upkeep (s.putTask l t body) :=
  note s l fun _ => ⟨rfl, rfl⟩

end Upkeep

end Store

namespace Machine

variable {σ : Type} {m m' : Machine σ}

open Store (Upkeep)

/-! ### Requests and answers of loops -/

theorem upkeep_startResolver (m : Machine σ) (p : PendingId) :
    m.store.Upkeep (m.startResolver p).store := by
  rcases m.startResolver_cases p with ⟨-, hstart⟩ | ⟨r, control, -, hstart⟩ <;> rw [hstart]
  · exact .refl _
  · exact .one (.take p)

theorem upkeep_startForce (m : Machine σ) (l : LoopId) (p : PendingId) :
    m.store.Upkeep (m.startForce l p).store := by
  rw [startForce]
  split
  · exact .refl _
  split
  · exact .record _ _
  split
  · exact upkeep_startResolver (m.push (.forcing l p)) p
  · exact .refl _

theorem upkeep_askRank (m : Machine σ) (p : Option PendingId) :
    m.store.Upkeep (m.askRank p).store := by
  cases p <;> exact .refl _

theorem upkeep_startRule (m : Machine σ) (p : PendingId) :
    m.store.Upkeep (m.startRule p).store := by
  rw [startRule]
  split
  · exact .refl _
  · exact .refl _
  · split <;> exact .refl _
  · exact upkeep_askRank (m.push (.leftRank _)) _

section

variable (m : Machine σ) (l : LoopId) (aim : Aim)

theorem upkeep_deadlocked : m.store.Upkeep (m.deadlocked l).store := .record _ _

theorem upkeep_noneLeft : m.store.Upkeep (m.noneLeft l aim).store := by
  cases aim with
  | drive goal => exact upkeep_deadlocked m l
  | finish =>
    rw [noneLeft]
    split
    · exact .refl _
    · exact .record _ _

theorem upkeep_charge (p : PendingId) : m.store.Upkeep (m.charge l aim p).store := by
  rw [charge]
  dsimp only
  split
  · exact upkeep_deadlocked m l
  · exact .note m.store l fun _ => ⟨rfl, rfl⟩

theorem upkeep_pick (best : Option (PendingId × Option Int)) (ps : List PendingId) :
    m.store.Upkeep (m.pick l aim best ps).store := by
  rcases m.pick_cases l aim best ps with
    ⟨before, p, rest, -, -, -, hpick⟩ | ⟨-, ⟨p, rank, -, hpick⟩ | ⟨-, hpick⟩⟩ <;> rw [hpick]
  · exact .refl _
  · exact upkeep_charge m l aim p
  · exact upkeep_noneLeft m l aim

theorem upkeep_charged (p : PendingId) (rank : Option Int) :
    m.store.Upkeep (m.charged l aim p rank).store := by
  let noted := { m with store := m.store.record (.forced (m.store.pendingNumber p) rank) }
  exact (Upkeep.record m.store _).trans (upkeep_startResolver (noted.push (aim.frame l)) p)

end

theorem upkeep_pause (m : Machine σ) (code : Program σ) (stack : List (Frame σ)) :
    m.store.Upkeep (m.pause code stack).store := by
  rw [pause]
  split
  · exact .refl _
  · next l t body rest _ =>
    have hsaved : ∀ code, ({ m with stack := rest }.saveCode body code).store = m.store := by
      cases body <;> exact fun _ => rfl
    rw [suspend, hsaved]
    exact .putTask m.store l t body
  · exact .refl _

theorem upkeep_await (m : Machine σ) (w : Wait) (next : Outcome → Program σ) :
    m.store.Upkeep (m.await w next).store := by
  rw [await]
  split
  · exact .refl _
  split
  · next p _ _ t _ =>
    have hregistered : m.store.Upkeep (m.store.register t p) := .one (.register t p)
    exact hregistered.trans (upkeep_pause { m with store := m.store.register t p } _ _)
  · exact .refl _

/-! ### What a step does to the store -/

/-- What a step may do to the store: upkeep; or it runs a computation of client code, takes over
what a resolver returns, or lets a merge take place that was put off. -/
inductive Affects (m : Machine σ) : Store → Prop where
  | upkeep {s : Store} (h : m.store.Upkeep s) : Affects m s
  | update {α : Type} {x : Update α} {next : α → Program σ}
      (control : m.control = .exec (.update x next)) : Affects m (x.run m.store).2
  | resolved {p : PendingId} {slot : Slot} {rest : List (Frame σ)}
      (stack : m.stack = .resolving p :: rest) (control : m.control = .answer (.ok slot)) :
      Affects m (m.store.setResult p slot).2
  | merged {l : LoopId} {t : TaskId} {d : Deferral} {s : Store} {left right : Slot}
      (polls : m.polls? = some ⟨l, t⟩)
      (table : (m.store.loop l).tasks.lookup t = some (.merge d)) (h : m.store.Upkeep s)
      (nodes : s.nodes = m.store.nodes) (pendings : s.pendings = m.store.pendings)
      (tokens : s.tokens = m.store.tokens)
      (known : s.poll d.left = .inr (.ok left)) (known' : s.poll d.right = .inr (.ok right)) :
      Affects m ((Infer.mergeDeferred l d left right).run.run s).2

theorem affects_execute {code : Program σ} (hcontrol : m.control = .exec code) :
    m.Affects (m.execute code).store := by
  cases code with
  | update x next => exact .update hcontrol
  | await w next => exact .upkeep (upkeep_await m w next)
  | spawn l task next => exact .upkeep (.one (.spawn l (.code m.codes.size)))
  | pending l resolver rule next =>
    exact .upkeep (.one (.openPending l (some (.code m.codes.size)) (.code m.rules.size)))
  | force l p next => exact .upkeep (upkeep_startForce (m.push (.client next)) l p)
  | runUntil l task next =>
    have hspawned : m.store.Upkeep (m.store.spawn l (.watched m.codes.size)).2 :=
      .one (.spawn l (.watched m.codes.size))
    refine .upkeep ?_
    simp only [execute, addCode, spawn]
    rcases hspawn : m.store.spawn l (.watched m.codes.size) with ⟨_ | t, s⟩
    all_goals
      rw [hspawn] at hspawned
      exact hspawned
  | _ => exact .upkeep (.refl _)

/-- A task that is polled is executed later, unless it is a merge that was put off. -/
theorem affects_poll {l : LoopId} {t : TaskId} {ready : List TaskId} {body : TaskBody}
    {polled : Bool} (hcontrol : m.control = .poll l polled)
    (hready : (m.store.loop l).ready = t :: ready)
    (hbody : (m.store.loop l).tasks.lookup t = some body) :
    m.Affects ({ m with
      store := (m.store.modifyLoop l fun loop => { loop with ready }).dropTask l t }.pollTask
        l t body).store := by
  let taken := m.store.modifyLoop l fun loop => { loop with ready }
  let s := taken.dropTask l t
  have htaken : m.store.Upkeep taken := .note m.store l fun _ => ⟨rfl, rfl⟩
  have hs : m.store.Upkeep s := htaken.trans (.dropTask taken l t)
  cases body with
  | code i => exact .upkeep hs
  | watched i => exact .upkeep hs
  | merge d =>
    have hwait : ∀ p d', m.Affects
        ({ m with store := s.register ⟨l, t⟩ p }.suspend l t (.merge d')).store := fun p d' =>
      .upkeep ((hs.trans (.one (.register _ _))).trans (.putTask _ l t _))
    rw [pollTask, pollMerge]
    split
    · exact hwait _ _
    · exact .upkeep hs
    next left hleft =>
    split
    · exact hwait _ _
    · exact .upkeep hs
    next right hright =>
    refine .merged ?_ hbody hs rfl rfl rfl hleft hright
    rw [polls?, hcontrol]
    simp only [hready, hbody]
    rfl

/-- Whatever is handed an outcome, apart from a task and a loop that runs for one. -/
theorem affects_resume {f : Frame σ} {rest : List (Frame σ)} {r : Outcome}
    (hstack : m.stack = f :: rest) (hcontrol : m.control = .answer r)
    (htask : ∀ l t body, f ≠ .task l t body) (hwatching : ∀ l t, f ≠ .watching l t) :
    m.Affects ({ m with stack := rest }.resume r f).store := by
  let below : Machine σ := { m with stack := rest }
  cases f with
  | task l t body => exact absurd rfl (htask l t body)
  | watching l t => exact absurd rfl (hwatching l t)
  | left rule right next => cases rule <;> exact .upkeep (.refl _)
  | right rule left next =>
    cases rule with
    | race => exact .upkeep (.refl _)
    | join =>
      cases left with
      | done a => exact .upkeep (.refl _)
      | _ => exact .upkeep (upkeep_pause below _ rest)
  | choosing l aim best p ps => exact .upkeep (upkeep_pick below l aim _ ps)
  | charging l aim p => exact .upkeep (upkeep_charged below l aim p _)
  | leftRank right => exact .upkeep (upkeep_askRank (below.push (.rightRank r)) right)
  | resolving p =>
    cases r with
    | error e => exact .upkeep (.one (.fail p e))
    | ok slot =>
      rw [resume]
      rcases below.resolved_ok p slot with h | h <;> rw [h]
      · exact .upkeep (.refl _)
      · exact .resolved hstack hcontrol
  | forcing l p =>
    cases r with
    | error e => exact .upkeep (.refl _)
    | ok slot =>
      rw [resume, forceDone]
      split
      · exact .upkeep (.refl _)
      · exact .upkeep (upkeep_deadlocked below l)
  | finishRunning l =>
    cases r with
    | error e => exact .upkeep (.refl _)
    | ok slot => exact .upkeep (upkeep_pick below l .finish none _)
  | driveForcing l goal => cases r <;> exact .upkeep (.refl _)
  | finishForcing l => cases r <;> exact .upkeep (.refl _)
  | _ => exact .upkeep (.refl _)

end Machine

end ValueInference
