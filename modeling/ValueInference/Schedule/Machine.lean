/-
Loops: cooperative scheduling of tasks, and forcing of pendings.

A task runs until it completes or waits for an open pending.  When every task of a loop is
suspended, the loop forces a pending by running its resolver: among the open pendings that have a
resolver that is not running and that some task waits for, the one of the highest rank, and of
those the one registered first.  A pending without a rank comes after every ranked one.  Without
such a pending, or when the loop has forced as many as it may, the loop is deadlocked.

The rank of a pending is told by code of the client, which runs each time that the rank is asked
for: when the loop compares the pending with others, and again when the loop has counted it.

Tasks, resolvers and rules may call loops themselves, so the machine keeps a stack: of code that
called a loop, of tasks and their forks under way, of resolvers and rules under way, and of what a
loop goes on with.

* **`Machine.step`** — one step; no step is left when the whole code has an outcome;
* **`Machine.run`** — steps, at most as many as the fuel says.
-/
import ValueInference.Schedule.Loop

namespace ValueInference

/-- What a loop is driven for. -/
inductive Goal where
  /-- That its tasks have completed. -/
  | idle
  | closed (p : PendingId)
  /-- That a watched task has completed. -/
  | outcome (t : TaskId)

/-- What a loop forces a pending for. -/
inductive Aim where
  /-- To go on to a goal. -/
  | drive (goal : Goal)
  /-- To leave none. -/
  | finish

/-- What goes on after something that was called. -/
inductive Frame (σ : Type) : Type 1 where
  /-- Code that called a loop. -/
  | client (next : Outcome → Program σ)
  /-- Code that asked a loop to poll its ready tasks. -/
  | polled (next : Bool → Program σ)
  /-- Code that asked for a rank. -/
  | ranked (next : Option Int → Program σ)
  /-- The left one of two pieces of code under way. -/
  | left (rule : Fork) (right : Program σ) (next : rule.Answer → Program σ)
  /-- The right one of two pieces of code under way, with what the left one goes on with. -/
  | right (rule : Fork) (left : Program σ) (next : rule.Answer → Program σ)
  /-- A task under way. -/
  | task (l : LoopId) (t : TaskId) (body : TaskBody)
  /-- A loop that polls its ready tasks on the way to a goal. -/
  | drive (l : LoopId) (goal : Goal)
  /-- A loop that compares the rank of a pending with the best one so far; the rest comes after. -/
  | choosing (l : LoopId) (aim : Aim) (best : Option (PendingId × Option Int)) (p : PendingId)
      (rest : List PendingId)
  /-- A loop that has counted a pending and notes its rank. -/
  | charging (l : LoopId) (aim : Aim) (p : PendingId)
  /-- A deferred merge whose left operand is asked for its rank. -/
  | leftRank (right : Option PendingId)
  /-- A deferred merge whose right operand is asked for its rank. -/
  | rightRank (left : Outcome)
  /-- A loop that forces a pending on the way to a goal. -/
  | driveForcing (l : LoopId) (goal : Goal)
  /-- A resolver under way. -/
  | resolving (p : PendingId)
  /-- A pending that is forced by a caller. -/
  | forcing (l : LoopId) (p : PendingId)
  /-- A loop that runs before what is left is forced. -/
  | finishRunning (l : LoopId)
  /-- A loop that forces what is left. -/
  | finishForcing (l : LoopId)
  /-- A loop that runs for the sake of a watched task. -/
  | watching (l : LoopId) (t : TaskId)

/-- What the machine does next. -/
inductive Control (σ : Type) : Type 1 where
  | exec (code : Program σ)
  /-- Hands an outcome to the top of the stack. -/
  | answer (outcome : Outcome)
  /-- Polls the next ready task of a loop; the flag tells whether one was polled before. -/
  | poll (l : LoopId) (polled : Bool)
  /-- Asks for the rank of a pending. -/
  | rank (p : PendingId)

/-- The frame in which a pending is forced. -/
def Aim.frame {σ : Type} (l : LoopId) : Aim → Frame σ
  | .drive goal => .driveForcing l goal
  | .finish => .finishForcing l

/-- A machine: the store, the client's state, the client's code and rules by their numbers, and
what is under way. -/
structure Machine (σ : Type) where
  store : Store
  client : σ
  codes : Array (Program σ) := #[]
  rules : Array (Program σ) := #[]
  stack : List (Frame σ) := []
  control : Control σ

namespace Machine

variable {σ : Type}

/-- The outcome of what has nothing to say. -/
def unit : Outcome := .ok .anything

/-- Whether a rank is above another; having none is lowest. -/
def above : Option Int → Option Int → Bool
  | some a, some b => b < a
  | some _, none => true
  | none, _ => false

/-- Goes on by executing code. -/
def exec (m : Machine σ) (code : Program σ) : Machine σ :=
  { m with control := .exec code }

/-- Goes on by handing an outcome to the top of the stack. -/
def answer (m : Machine σ) (outcome : Outcome) : Machine σ :=
  { m with control := .answer outcome }

def push (m : Machine σ) (f : Frame σ) : Machine σ :=
  { m with stack := f :: m.stack }

/-- Answers that a loop cannot go on. -/
def deadlocked (m : Machine σ) (l : LoopId) : Machine σ :=
  let (e, s) := m.store.deadlock l
  { m with store := s }.answer (.error e)

/-- Polls the tasks of a loop until none is ready. -/
def startPolling (m : Machine σ) (l : LoopId) : Machine σ :=
  { m with control := .poll l false }

/-- Drives a loop to a goal. -/
def startDrive (m : Machine σ) (l : LoopId) (goal : Goal) : Machine σ :=
  (m.push (.drive l goal)).startPolling l

/-- Runs the resolver of a pending, if it has one. -/
def startResolver (m : Machine σ) (p : PendingId) : Machine σ :=
  match m.store.beginResolving p with
  | (none, _) => m.answer unit
  | (some r, s) =>
    let m := { m with store := s }.push (.resolving p)
    match r with
    | .operands left right => m.answer (m.store.resolveOperands left right)
    | .code i =>
      match m.codes[i]? with
      | some code => m.exec code
      | none => m.answer unit

/-- Takes over the outcome of a resolver.  A pending that was resolved while its resolver ran
keeps its result; one whose resolver has failed fails. -/
def resolved (m : Machine σ) (p : PendingId) : Outcome → Machine σ
  | .ok slot =>
    if m.store.isOpen p then
      match m.store.setResult p slot with
      | (.ok _, s) => { m with store := s }.answer unit
      | (.error e, s) => { m with store := s }.answer (.error e)
    else m.answer unit
  | .error e =>
    { m with store := m.store.fail p e }.answer
      (.error (.resolverFailed (m.store.pendingNumber p) e))

/-- Puts a suspended task back and polls the next one. -/
def suspend (m : Machine σ) (l : LoopId) (t : TaskId) (body : TaskBody) : Machine σ :=
  { m with store := m.store.putTask l t body, control := .poll l true }

/-- Stores the code that a suspended task goes on with. -/
def saveCode (m : Machine σ) (body : TaskBody) (code : Program σ) : Machine σ :=
  match body with
  | .merge _ => m
  | .code i | .watched i => { m with codes := m.codes.setIfInBounds i code }

/-- The task in whose name code waits: the one under way, below the forks of its code. -/
def waiter? : List (Frame σ) → Option Waiter
  | .task l t _ :: _ => some ⟨l, t⟩
  | .left _ _ _ :: stack | .right _ _ _ :: stack => waiter? stack
  | _ => none

/-- Code that waits, as part of the forks whose left pieces wait already or are over. -/
def rejoin (code : Program σ) : List (Frame σ) → Program σ × List (Frame σ)
  | .right rule left next :: stack => rejoin (.fork rule left code next) stack
  | stack => (code, stack)

/-- Leaves code of a task that waits, to go on with `code` when the task is polled next.  The right
one of two pieces of code has its turn after the left one; a task without any is suspended. -/
def pause (m : Machine σ) (code : Program σ) (stack : List (Frame σ)) : Machine σ :=
  match rejoin code stack with
  | (code, .left rule right next :: stack) =>
    { m with stack := .right rule code next :: stack, control := .exec right }
  | (code, .task l t body :: stack) => ({ m with stack }.saveCode body code).suspend l t body
  | (_, stack) => { m with stack }.answer (.error (.deadlock []))

/-- Waits, in the name of the task under way.  Code that is not part of a task cannot wait. -/
def await (m : Machine σ) (w : Wait) (next : Outcome → Program σ) : Machine σ :=
  match m.store.ask w with
  | .inr r => m.exec (next r)
  | .inl p =>
    match waiter? m.stack with
    | some t => { m with store := m.store.register t p }.pause (.await (w.left p) next) m.stack
    | none => m.answer (.error (.deadlock [m.store.pendingNumber p]))

/-- Registers code, and gives its number. -/
def addCode (m : Machine σ) (code : Program σ) : Nat × Machine σ :=
  (m.codes.size, { m with codes := m.codes.push code })

/-- Adds a task to a loop. -/
def spawn (m : Machine σ) (l : LoopId) (body : TaskBody) :
    Except InferError TaskId × Machine σ :=
  let (r, s) := m.store.spawn l body
  (r.mapError .invalidConstruction, { m with store := s })

/-- Resolves a pending now: by its resolver if it has one, else by driving the loop. -/
def startForce (m : Machine σ) (l : LoopId) (p : PendingId) : Machine σ :=
  match m.store.outcome? p with
  | some r => m.answer r
  | none =>
    if m.store.isResolving p then
      -- the resolver of the pending needs the pending itself
      let blocked := [m.store.pendingNumber p]
      { m with store := m.store.record (.deadlock blocked) }.answer (.error (.deadlock blocked))
    else if m.store.hasResolver p then (m.push (.forcing l p)).startResolver p
    else (m.push (.forcing l p)).startDrive l (.closed p)

/-- Asks for the rank of a pending, if there is one. -/
def askRank (m : Machine σ) : Option PendingId → Machine σ
  | some p => { m with control := .rank p }
  | none => m.answer unit

/-- Runs the rule of a pending.  A deferred merge asks for the ranks of the pendings that it waits
for, one after the other. -/
def startRule (m : Machine σ) (p : PendingId) : Machine σ :=
  match m.store.pendings[p]?.map Pending.priority with
  | none | some .unranked => m.answer unit
  | some (.code j) =>
    match m.rules[j]? with
    | some code => m.exec code
    | none => m.answer unit
  | some (.highest left right) => (m.push (.leftRank right)).askRank left

/-- Executes the next request of code. -/
def execute (m : Machine σ) : Program σ → Machine σ
  | .done outcome => m.answer outcome
  | .update x next =>
    let (a, s) := x.run m.store
    { m with store := s }.exec (next a)
  | .client f next =>
    let (a, c) := f m.client
    { m with client := c }.exec (next a)
  | .await w next => m.await w next
  | .fork rule left right next => (m.push (.left rule right next)).exec left
  | .spawn l task next =>
    let (i, m) := m.addCode task
    let (r, m) := m.spawn l (.code i)
    m.exec (next r)
  | .pending l resolver rule next =>
    let (i, m) := m.addCode resolver
    let j := m.rules.size
    let (r, s) := m.store.openPending l (some (.code i)) (.code j)
    { m with store := s, rules := m.rules.push rule }.exec (next (r.mapError .invalidConstruction))
  | .rank p next => (m.push (.ranked next)).askRank (some p)
  | .runReady l next => (m.push (.polled next)).startPolling l
  | .run l next => (m.push (.client next)).startDrive l .idle
  | .finish l next => ((m.push (.client next)).push (.finishRunning l)).startDrive l .idle
  | .force l p next => (m.push (.client next)).startForce l p
  | .runUntil l task next =>
    let (i, m) := m.addCode task
    match m.spawn l (.watched i) with
    | (.error e, m) => m.exec (next (.error e))
    | (.ok t, m) => ((m.push (.client next)).push (.watching l t)).startDrive l (.outcome t)

/-- Polls a deferred merge.  It waits for its left operand first, and keeps what it got. -/
def pollMerge (m : Machine σ) (l : LoopId) (t : TaskId) (d : Deferral) : Machine σ :=
  let wait := fun p d => { m with store := m.store.register ⟨l, t⟩ p }.suspend l t (.merge d)
  let complete := fun outcome => (m.push (.task l t (.merge d))).answer outcome
  match m.store.poll d.left with
  | .inl p => wait p { d with left := .pending p }
  | .inr (.error e) => complete (.error e)
  | .inr (.ok left) =>
    match m.store.poll d.right with
    | .inl p => wait p { d with left := left, right := .pending p }
    | .inr (.error e) => complete (.error e)
    | .inr (.ok right) =>
      let (r, s) := (Infer.mergeDeferred l d left right).run.run m.store
      ({ m with store := s }.push (.task l t (.merge d))).answer (r.map fun _ => .anything)

/-- Polls a task. -/
def pollTask (m : Machine σ) (l : LoopId) (t : TaskId) : TaskBody → Machine σ
  | .merge d => m.pollMerge l t d
  | .code i => (m.push (.task l t (.code i))).exec (m.codes[i]?.getD (.done unit))
  | .watched i => (m.push (.task l t (.watched i))).exec (m.codes[i]?.getD (.done unit))

/-- Notes that a task has completed.  The outcome of a watched task is kept for its caller; the
error of any other is kept until a caller of the loop is told. -/
def taskDone (m : Machine σ) (l : LoopId) (t : TaskId) (body : TaskBody) (r : Outcome) :
    Machine σ :=
  let s := m.store.modifyLoop l fun loop =>
    match body, r with
    | .watched _, r => { loop with outcomes := loop.outcomes ++ [(t, r)] }
    | _, .error e => { loop with errors := loop.errors ++ [e] }
    | _, .ok _ => loop
  { m with store := s, control := .poll l true }

/-- Whether a loop has reached its goal. -/
def goalReached (m : Machine σ) (l : LoopId) : Goal → Bool
  | .idle => false
  | .closed p => !m.store.isOpen p
  | .outcome t => ((m.store.loop l).outcomes.lookup t).isSome

/-- Whether a loop can force a pending: it is open, has a resolver that is not running, and, unless
the loop is to leave none, a task waits for it. -/
def eligible (m : Machine σ) (aim : Aim) (p : PendingId) : Bool :=
  m.store.isOpen p && !m.store.isResolving p && m.store.hasResolver p &&
    match aim with
    | .drive _ => m.store.hasWaiters p
    | .finish => true

/-- Ends without a pending that can be forced: a loop that is to leave none tells which ones it
cannot resolve. -/
def noneLeft (m : Machine σ) (l : LoopId) : Aim → Machine σ
  | .drive _ => m.deadlocked l
  | .finish =>
    match (m.store.loopPendings l m.store.isOpen).map m.store.pendingNumber with
    | [] => m.answer unit
    | unresolved =>
      { m with store := m.store.record (.deadlock unresolved) }.answer
        (.error (.deadlock unresolved))

/-- Counts a pending that a loop is about to force and asks for its rank again, unless the loop has
forced as many as it may. -/
def charge (m : Machine σ) (l : LoopId) (aim : Aim) (p : PendingId) : Machine σ :=
  let loop := m.store.loop l
  if loop.config.maxForced ≤ loop.forced then m.deadlocked l
  else
    let s := m.store.modifyLoop l fun loop => { loop with forced := loop.forced + 1 }
    ({ m with store := s }.push (.charging l aim p)).askRank (some p)

/-- Goes through pendings to find the one that a loop forces: of those that it can force the first
of the highest rank.  A pending is asked for its rank when its turn comes, if it can be forced
then. -/
def pick (m : Machine σ) (l : LoopId) (aim : Aim) (best : Option (PendingId × Option Int)) :
    List PendingId → Machine σ
  | [] =>
    match best with
    | some (p, _) => m.charge l aim p
    | none => m.noneLeft l aim
  | p :: ps =>
    if m.eligible aim p then (m.push (.choosing l aim best p ps)).askRank (some p)
    else m.pick l aim best ps

/-- Chooses among the pendings that are registered with a loop now. -/
def choose (m : Machine σ) (l : LoopId) (aim : Aim) : Machine σ :=
  m.pick l aim none (m.store.loop l).pendings

/-- The better of a pending and the best one before it. -/
def better (best : Option (PendingId × Option Int)) (p : PendingId) (rank : Option Int) :
    PendingId × Option Int :=
  match best with
  | none => (p, rank)
  | some (q, r) => if above rank r then (p, rank) else (q, r)

/-- Notes the rank of a pending that was counted, and runs its resolver. -/
def charged (m : Machine σ) (l : LoopId) (aim : Aim) (p : PendingId) (rank : Option Int) :
    Machine σ :=
  let s := m.store.record (.forced (m.store.pendingNumber p) rank)
  ({ m with store := s }.push (aim.frame l)).startResolver p

/-- Goes on to a goal when no task of the loop is ready: tells the caller of the first error,
stops at the goal or when no task is left, and forces a pending otherwise. -/
def driveOn (m : Machine σ) (l : LoopId) (goal : Goal) : Machine σ :=
  let loop := m.store.loop l
  match loop.errors with
  | e :: errors =>
    { m with store := m.store.modifyLoop l fun loop => { loop with errors } }.answer (.error e)
  | [] =>
    if m.goalReached l goal || loop.tasks.isEmpty then m.answer unit
    else m.choose l (.drive goal)

/-- Goes on when no task of a loop is ready. -/
def allPolled (m : Machine σ) (polled : Bool) : Machine σ :=
  match m.stack with
  | .drive l goal :: stack => { m with stack }.driveOn l goal
  | .polled next :: stack => { m with stack }.exec (next polled)
  | _ => m.answer unit

/-- Polls the next ready task of a loop.  A task that is under way or has completed is passed
over. -/
def pollNext (m : Machine σ) (l : LoopId) (polled : Bool) : Machine σ :=
  match (m.store.loop l).ready with
  | [] => m.allPolled polled
  | t :: ready =>
    let m := { m with store := m.store.modifyLoop l fun loop => { loop with ready } }
    match (m.store.loop l).tasks.lookup t with
    | none => { m with control := .poll l polled }
    | some body => { m with store := m.store.dropTask l t }.pollTask l t body

/-- The outcome of a pending that was forced. -/
def forceDone (m : Machine σ) (l : LoopId) (p : PendingId) : Machine σ :=
  match m.store.outcome? p with
  | some r => m.answer r
  | none => m.deadlocked l

/-- Hands the outcome of a watched task to the caller that runs the loop for it. -/
def takeOutcome (m : Machine σ) (l : LoopId) (t : TaskId) : Machine σ :=
  match (m.store.loop l).outcomes.lookup t with
  | none => m.deadlocked l
  | some r =>
    let s := m.store.modifyLoop l fun loop =>
      { loop with outcomes := loop.outcomes.filter fun e => e.1 ≠ t }
    { m with store := s }.answer r

/-- Goes on when the left one of two pieces of code has an outcome. -/
def leftDone (m : Machine σ) (r : Outcome) (right : Program σ) :
    (rule : Fork) → (rule.Answer → Program σ) → Machine σ
  | .join, next => (m.push (.right .join (.done r) next)).exec right
  | .race, next => m.exec (next (.inl r))

/-- Goes on when the right one of two pieces of code has an outcome. -/
def rightDone (m : Machine σ) (r : Outcome) (left : Program σ) :
    (rule : Fork) → (rule.Answer → Program σ) → Machine σ
  | .join, next =>
    match left with
    | .done a => m.exec (next (a, r))
    | left => m.pause (.fork .join left (.done r) next) m.stack
  | .race, next => m.exec (next (.inr r))

/-- Hands an outcome to what waits for it. -/
def resume (m : Machine σ) (r : Outcome) : Frame σ → Machine σ
  | .client next => m.exec (next r)
  | .polled next => m.exec (next true)
  | .ranked next => m.exec (next (rankOf r))
  | .left rule right next => m.leftDone r right rule next
  | .right rule left next => m.rightDone r left rule next
  | .choosing l aim best p rest => m.pick l aim (some (better best p (rankOf r))) rest
  | .charging l aim p => m.charged l aim p (rankOf r)
  | .leftRank right => (m.push (.rightRank r)).askRank right
  | .rightRank left => m.answer (if above (rankOf r) (rankOf left) then r else left)
  | .task l t body => m.taskDone l t body r
  | .drive _ _ => m.answer r
  | .resolving p => m.resolved p r
  | .driveForcing l goal =>
    match r with
    | .error e => m.answer (.error e)
    | .ok _ => m.startDrive l goal
  | .forcing l p =>
    match r with
    | .error e => m.answer (.error e)
    | .ok _ => m.forceDone l p
  | .finishRunning l =>
    match r with
    | .error e => m.answer (.error e)
    | .ok _ => m.choose l .finish
  | .finishForcing l =>
    match r with
    | .error e => m.answer (.error e)
    | .ok _ => (m.push (.finishRunning l)).startDrive l .idle
  | .watching l t =>
    match r with
    | .error e => m.answer (.error e)
    | .ok _ => m.takeOutcome l t

/-- One step, if one is left. -/
def step (m : Machine σ) : Option (Machine σ) :=
  match m.control with
  | .exec code => some (m.execute code)
  | .poll l polled => some (m.pollNext l polled)
  | .rank p => some (m.startRule p)
  | .answer r =>
    match m.stack with
    | [] => none
    | f :: stack => some ({ m with stack }.resume r f)

/-- At most `fuel` steps. -/
def run : Nat → Machine σ → Machine σ
  | 0, m => m
  | fuel + 1, m =>
    match m.step with
    | none => m
    | some m => run fuel m

/-- A machine that is about to execute some code on a new store. -/
def start (client : σ) (code : Program σ) : Machine σ :=
  { store := {}, client, control := .exec code }

end Machine

end ValueInference
