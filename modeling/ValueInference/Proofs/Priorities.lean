/-
Priority alone decides the order of independent pendings.

Take some pendings of a loop whose rules always tell the same rank and whose resolvers only return.
If tasks wait for them and nothing else is left that the loop could force, running the loop starts
their resolvers in the order of the ranks, and of the numbers where ranks are the same; so does
finishing a loop without tasks.  In what order the tasks came, and in what order they are queued,
does not matter.

Between two rounds the machine is as it was when the loop was called, apart from the pendings that
are resolved by then, the tasks that have completed, the queue and those who wait.

* **`Program.Gives`** — code that only returns;
* **`Machine.Independent`** — what is assumed of the pendings and of the tasks;
* **`Machine.Midway`** — what is the same as at the call, with the pendings that are left;
* **`Machine.Midway.polls`** — polling keeps this, and starts no resolver;
* **`Machine.passes_pick`** — the loop asks for the ranks of what is left, and takes the first of
  the highest one;
* **`Machine.passes_charge`** — a pending is forced;
* **`Machine.independent_by_priority`** — the order in which the resolvers start.
-/
import ValueInference.Proofs.Reports
import ValueInference.Proofs.Choosing

namespace ValueInference

/-! ### Code that only returns -/

/-- Code that reads and writes the client's own state at most, and gives a slot with a property. -/
inductive Program.Gives {σ : Type} (P : Slot → Prop) : Program σ → Prop where
  | done {slot : Slot} (good : P slot) : Gives P (.done (.ok slot))
  | client {α : Type} {f : σ → α × σ} {next : α → Program σ} (later : ∀ a, Gives P (next a)) :
      Gives P (.client f next)

namespace Store

variable {s t : Store} {l : LoopId} {p q : PendingId} {slot : Slot} {ps rem : List PendingId}

/-- A slot that a pending can be resolved to: it is known, and no pending itself. -/
def Settles (s : Store) (slot : Slot) : Prop := slot.pendings = [] ∧ s.knowsSlot slot = true

theorem settles_of_nodes (h : t.nodes = s.nodes) : t.Settles = s.Settles := by
  funext slot
  refine propext (and_congr_right fun hnone => ?_)
  rw [knowsSlot, h, hnone, knowsSlot, hnone]
  rfl

theorem setResult_of_settles (h : s.Settles slot) (hopen : s.isOpen p = true)
    (hp : p < s.pendings.size) : s.setResult p slot = (.ok (), s.close p (.resolved slot)) := by
  have hne : slot ≠ .pending p := by
    rintro rfl
    exact nomatch h.1
  simp [setResult, hopen, hne, h.2, hp]

theorem size_modifyLoop (s : Store) (l : LoopId) (f : LoopState → LoopState) :
    (s.modifyLoop l f).loops.size = s.loops.size :=
  Array.size_modify

theorem loop_modifyLoop_self (hl : l < s.loops.size) (f : LoopState → LoopState) :
    (s.modifyLoop l f).loop l = f (s.loop l) :=
  (loop_modifyLoop s l l f).trans (if_pos ⟨rfl, hl⟩)

/-- A task that is ready is taken out of the queue and of its table. -/
theorem loop_dequeue (hl : l < s.loops.size) (n : TaskId) (ready : List TaskId) :
    let u := (s.modifyLoop l fun loop => { loop with ready }).dropTask l n
    l < u.loops.size ∧ u.loop l =
      { s.loop l with ready, tasks := (s.loop l).tasks.filter fun e => e.1 ≠ n } := by
  have hsize : l < (s.modifyLoop l fun loop => { loop with ready }).loops.size := by
    rwa [size_modifyLoop]
  refine ⟨by rwa [dropTask, size_modifyLoop], ?_⟩
  rw [dropTask, loop_modifyLoop_self hsize, loop_modifyLoop_self hl]

/-- Of a loop only the queue changes where a pending is closed. -/
theorem loop_close (s : Store) (p : PendingId) (status : PendingStatus) (l : LoopId) :
    ∃ ready, (s.close p status).loop l = { s.loop l with ready } := by
  have hwakes : ∀ (ws : List Waiter) (s : Store),
      ∃ ready, (ws.foldl wake s).loop l = { s.loop l with ready } := by
    intro ws
    induction ws with
    | nil => exact fun s => ⟨_, rfl⟩
    | cons w ws ih =>
      intro s
      obtain ⟨ready, hlater⟩ := ih (s.wake w)
      refine ⟨ready, hlater.trans ?_⟩
      rw [wake, loop_modifyLoop, LoopState.schedule]
      repeat' split
      all_goals rfl
  exact hwakes _ _

/-- The entry of a pending, apart from who waits for it. -/
def bare (s : Store) (p : PendingId) : Option Pending :=
  s.pendings[p]?.map fun c => { c with waiters := [] }

theorem pendingStatus_eq_bare (s : Store) (p : PendingId) :
    s.pendingStatus p = ((s.bare p).map Pending.status).getD .unresolved := by
  rw [bare, Option.map_map]
  rfl

theorem resolver?_eq_bare (s : Store) (p : PendingId) :
    s.resolver? p = (s.bare p).bind Pending.resolver := by
  rw [bare, Option.bind_map]
  rfl

theorem priority_eq_bare (s : Store) (p : PendingId) :
    s.pendings[p]?.map Pending.priority = (s.bare p).map Pending.priority := by
  rw [bare, Option.map_map]
  rfl

theorem bare_register (s : Store) (w : Waiter) (q p : PendingId) :
    (s.register w q).bare p = s.bare p := by
  by_cases hqp : q = p
  · subst hqp
    rw [bare, pending_register_self, Option.map_map, bare]
    congr 1
    funext c
    simp only [Function.comp_apply]
    split <;> rfl
  · rw [bare, register, pending_of_ne hqp, bare]

/-- The entries of the pendings are as they were, apart from who waits for those given, and the ones
that are not left any more are resolved. -/
structure Resolves (s : Store) (ps rem : List PendingId) (t : Store) : Prop where
  nodes : t.nodes = s.nodes
  addresses : t.addresses = s.addresses
  others : ∀ q, q ∉ ps → t.pendings[q]? = s.pendings[q]?
  left : ∀ p ∈ rem, t.bare p = s.bare p
  resolved : ∀ p ∈ ps, p ∉ rem → ∃ slot, t.pendingStatus p = .resolved slot

namespace Resolves

theorem of_pendings {u : Store} (h : s.Resolves ps rem t) (hnodes : u.nodes = t.nodes)
    (hpendings : u.pendings = t.pendings) : s.Resolves ps rem u where
  nodes := hnodes.trans h.nodes
  addresses := by rw [Store.addresses, hpendings]; exact h.addresses
  others q hq := by rw [hpendings]; exact h.others q hq
  left p hp := by rw [bare, hpendings]; exact h.left p hp
  resolved p hp hgone := by
    rw [pendingStatus_of_pendings hpendings]
    exact h.resolved p hp hgone

theorem register (h : s.Resolves ps rem t) (w : Waiter) (hp : p ∈ ps) :
    s.Resolves ps rem (t.register w p) where
  nodes := h.nodes
  addresses := by
    rw [Store.register, addresses_modifyPending]
    · exact h.addresses
    all_goals
      intro c
      split <;> rfl
  others q hq := by
    rw [Store.register, pending_of_ne (by rintro rfl; exact hq hp)]
    exact h.others q hq
  left q hq := by rw [bare_register, h.left q hq]
  resolved q hq hgone := by
    rw [pendingStatus_register]
    exact h.resolved q hq hgone

/-- What is not left any more is closed. -/
theorem closed (h : s.Resolves ps rem t) (hp : p ∈ ps) (hgone : p ∉ rem) : t.isOpen p = false := by
  obtain ⟨slot, hslot⟩ := h.resolved p hp hgone
  rw [isOpen, hslot]

/-- A pending that is left is as it was. -/
theorem fresh (h : s.Resolves ps rem t) (hp : p ∈ rem)
    (hfresh : ∃ c, s.pendings[p]? = some c ∧ c.loop = l ∧ c.status = .unresolved) :
    p < t.pendings.size ∧ t.pendingStatus p = .unresolved := by
  obtain ⟨c, hc, -, hstatus⟩ := hfresh
  have hcell := h.left p hp
  constructor
  · by_contra hge
    rw [bare, bare, hc, Array.getElem?_eq_none (Nat.not_lt.mp hge)] at hcell
    exact nomatch hcell
  · rw [pendingStatus_eq_bare, hcell, ← pendingStatus_eq_bare, pendingStatus, hc]
    exact hstatus

/-- A pending that is left is forced, and then it is resolved. -/
theorem forced (h : s.Resolves ps rem t) (hsub : rem.Sublist ps) (hnodup : rem.Nodup) (hp : p ∈ rem)
    (hlt : p < t.pendings.size) (l : LoopId) (d : Diagnostic) (slot : Slot) :
    s.Resolves ps (rem.erase p) ((((t.counted l).record d).taken p).close p (.resolved slot)) := by
  have hothers : ∀ q, q ≠ p →
      ((((t.counted l).record d).taken p).close p (.resolved slot)).pendings[q]? =
        t.pendings[q]? := by
    intro q hne
    rw [pending_close_of_ne (Ne.symm hne), taken, pending_of_ne (Ne.symm hne)]
    rfl
  refine ⟨?_, ?_, fun q hq => ?_, fun q hq => ?_, fun q hq hgone => ?_⟩
  · rw [nodes_close]
    exact h.nodes
  · obtain ⟨loops, hclose⟩ := (((t.counted l).record d).taken p).close_eq p (.resolved slot)
    rw [hclose]
    refine (addresses_modifyPending (s := ((t.counted l).record d).taken p) ?_ ?_).trans
      ((addresses_modifyPending (s := (t.counted l).record d) ?_ ?_).trans h.addresses)
    all_goals exact fun _ => rfl
  · rw [hothers q (by rintro rfl; exact hq (hsub.subset hp))]
    exact h.others q hq
  · obtain ⟨hne, hq⟩ := hnodup.mem_erase_iff.mp hq
    rw [bare, hothers q hne]
    exact h.left q hq
  · by_cases heq : q = p
    · subst heq
      refine ⟨slot, pendingStatus_close ?_⟩
      rwa [taken, modifyPending, Array.size_modify]
    · rw [pendingStatus, hothers q heq]
      exact h.resolved q hq fun hmem => hgone (hnodup.mem_erase_iff.mpr ⟨heq, hmem⟩)

end Resolves

end Store

namespace Machine

variable {σ : Type} {m x : Machine σ} {l : LoopId} {p : PendingId} {t : TaskId} {body : TaskBody}
  {depth : Nat} {ps rem : List PendingId} {rank : PendingId → Option Int}

/-- Code that only returns comes to its outcome, and starts no resolver. -/
theorem passes_of_gives {P : Slot → Prop} {code : Program σ} (h : code.Gives P)
    (hcontrol : m.control = .exec code) (hdepth : depth < m.stack.length) :
    ∃ client slot, P slot ∧ m.Passes depth [] { m with client, control := .answer (.ok slot) } := by
  induction h generalizing m with
  | @done slot good =>
    refine ⟨m.client, slot, good, ?_⟩
    exact .of_quiet (step_exec hcontrol) hdepth (Nat.le_refl _)
  | @client _ f next _ ih =>
    obtain ⟨client, slot, good, hpasses⟩ := @ih (f m.client).1
      { m with client := (f m.client).2, control := .exec (next (f m.client).1) } rfl hdepth
    refine ⟨client, slot, good, Passes.trans (.of_quiet (step_exec hcontrol) hdepth ?_) hpasses⟩
    exact Nat.le_refl _

/-! ### Fixed ranks -/

/-- The rank of the pending is fixed: it has none, or a rule that only returns and always tells the
same. -/
def FixedRank (m : Machine σ) (p : PendingId) (rank : Option Int) : Prop :=
  match m.store.pendings[p]?.map Pending.priority with
  | none | some .unranked => rank = none
  | some (.code j) => ∃ rule, m.rules[j]? = some rule ∧ rule.Gives fun slot => rankOf (.ok slot) = rank
  | some (.highest _ _) => False

/-- A rank that is fixed stays, if the entry of the pending does. -/
theorem FixedRank.of_bare {r : Option Int} (h : m.FixedRank p r) (hrules : x.rules = m.rules)
    (hcell : x.store.bare p = m.store.bare p) : x.FixedRank p r := by
  have hsame : x.store.pendings[p]?.map Pending.priority = m.store.pendings[p]?.map Pending.priority :=
    by rw [Store.priority_eq_bare, hcell, Store.priority_eq_bare]
  rw [FixedRank, hsame, hrules]
  exact h

/-- **A fixed rank** is told, and no resolver starts. -/
theorem passes_rank {r : Option Int} (hcontrol : x.control = .rank p) (hfixed : x.FixedRank p r)
    (hdepth : depth < x.stack.length) : ∃ client slot, rankOf (.ok slot) = r ∧
      x.Passes depth [] { x with client, control := .answer (.ok slot) } := by
  have hstep := step_rank hcontrol
  have hquiet := (Settled.startRule x p).resolvers
  rw [FixedRank] at hfixed
  rw [startRule] at hstep hquiet
  split at hfixed
  · next hnone =>
    rw [hnone] at hstep hquiet
    exact ⟨x.client, .anything, hfixed.symm, .of_quiet hstep hdepth hquiet⟩
  · next hunranked =>
    rw [hunranked] at hstep hquiet
    exact ⟨x.client, .anything, hfixed.symm, .of_quiet hstep hdepth hquiet⟩
  · next j hcode =>
    obtain ⟨rule, hrule, hgives⟩ := hfixed
    rw [hcode] at hstep hquiet
    simp only [hrule] at hstep hquiet
    obtain ⟨client, slot, htold, hpasses⟩ :=
      passes_of_gives (m := x.exec rule) hgives rfl hdepth
    exact ⟨client, slot, htold, Passes.trans (.of_quiet hstep hdepth hquiet) hpasses⟩
  · exact hfixed.elim

section

variable {below : List (Frame σ)} {aim : Aim}

/-- A pending that is asked for its rank is compared with the best one before it. -/
theorem passes_choosing (l : LoopId) (aim : Aim) (best : Option (PendingId × Option Int))
    {r : Option Int} (hdepth : depth ≤ below.length) (hfixed : x.FixedRank p r) (qs : List PendingId) :
    ∃ client control,
      (({ x with stack := below }.push (.choosing l aim best p qs)).askRank (some p)).Passes depth []
        ({ x with client, stack := below, control }.pick l aim (some (better best p r)) qs) := by
  let y : Machine σ := ({ x with stack := below }.push (.choosing l aim best p qs)).askRank (some p)
  have hhere : depth < y.stack.length := Nat.lt_succ_of_le hdepth
  obtain ⟨client, slot, rfl, hpasses⟩ := passes_rank (x := y) rfl (hfixed.of_bare rfl rfl) hhere
  let z : Machine σ := { y with client, control := .answer (.ok slot) }
  let w : Machine σ := { z with stack := below }
  have hstep : z.step = some (w.pick l aim (some (better best p (rankOf (.ok slot)))) qs) := rfl
  refine ⟨client, .answer (.ok slot), hpasses.trans (.of_quiet hstep hhere ?_)⟩
  exact Nat.le_of_eq (congrArg List.length (calm_pick w l aim _ qs).resolvers)

/-- **Going through pendings** with fixed ranks, a loop takes the one that precedes the others, of
those that it can force. -/
theorem passes_pick (l : LoopId) (rank : PendingId → Option Int) (hdepth : depth ≤ below.length)
    (qs : List PendingId) :
    ∀ (best : PendingId) (x : Machine σ),
      ((best :: qs).map x.store.pendingNumber).Pairwise (· < ·) →
      (∀ q ∈ qs, x.eligible aim q = true → x.FixedRank q (rank q)) →
      ∃ p ∈ best :: qs.filter (x.eligible aim),
        (∀ q ∈ best :: qs.filter (x.eligible aim), q ≠ p → x.Precedes rank p q) ∧
        ∃ client control,
          ({ x with stack := below }.pick l aim (some (best, rank best)) qs).Passes depth []
            ({ x with client, stack := below, control }.charge l aim p) := by
  induction qs with
  | nil =>
    intro best x _ _
    refine ⟨best, List.mem_cons_self, fun q hq hne => ?_, x.client, x.control, .refl _ _⟩
    exact absurd (List.mem_singleton.mp hq) hne
  | cons q qs ih =>
    intro best x hnumbers hfixed
    rw [List.map_cons, List.map_cons, List.pairwise_cons] at hnumbers
    obtain ⟨hfirst, hlater⟩ := hnumbers
    have hskip : ((best :: qs).map x.store.pendingNumber).Pairwise (· < ·) :=
      List.pairwise_cons.mpr ⟨fun n hn => hfirst n (List.mem_cons_of_mem _ hn),
        (List.pairwise_cons.mp hlater).2⟩
    have hfixed' : ∀ q ∈ qs, x.eligible aim q = true → x.FixedRank q (rank q) := fun q hq =>
      hfixed q (List.mem_cons_of_mem _ hq)
    rw [pick, show eligible { x with stack := below } aim q = x.eligible aim q from rfl]
    by_cases heligible : x.eligible aim q = true
    swap
    · -- a pending that cannot be forced is passed over
      rw [List.filter_cons_of_neg heligible, if_neg heligible]
      exact ih best x hskip hfixed'
    rw [List.filter_cons_of_pos heligible, if_pos heligible]
    obtain ⟨client, control, hasked⟩ := passes_choosing l aim (some (best, rank best)) hdepth
      (hfixed q List.mem_cons_self heligible) qs
    -- the better of the two goes on, and what precedes it precedes the other as well
    have hgoes : ∀ better other, x.Precedes rank better other →
        ((better :: qs).map x.store.pendingNumber).Pairwise (· < ·) →
        (∀ p, p ∈ better :: qs.filter (x.eligible aim) ∨ p = other ↔
          p ∈ best :: q :: qs.filter (x.eligible aim)) →
        Machine.better (some (best, rank best)) q (rank q) = (better, rank better) →
        ∃ p ∈ best :: q :: qs.filter (x.eligible aim),
          (∀ q' ∈ best :: q :: qs.filter (x.eligible aim), q' ≠ p → x.Precedes rank p q') ∧
          ∃ client control,
            (({ x with stack := below }.push (.choosing l aim (some (best, rank best)) q qs)).askRank
              (some q)).Passes depth [] ({ x with client, stack := below, control }.charge l aim p) := by
      intro better other hprecedes hnumbers hmem heq
      rw [heq] at hasked
      obtain ⟨p, hp, hbest, client', control', hpasses⟩ :=
        ih better { x with client, control } hnumbers hfixed'
      refine ⟨p, (hmem p).mp (.inl hp), fun q' hq' hne => ?_, client', control',
        hasked.trans hpasses⟩
      rcases (hmem q').mpr hq' with hq' | rfl
      · exact hbest q' hq' hne
      · by_cases hsame : better = p
        · exact hsame ▸ hprecedes
        · exact (hbest better List.mem_cons_self hsame).trans hprecedes
    have hlt := hfirst _ List.mem_cons_self
    rcases better_cases x rank hlt with ⟨heq, hprecedes⟩ | ⟨heq, hprecedes⟩
    · refine hgoes best q hprecedes hskip (fun p => ?_) heq
      simp only [List.mem_cons]
      tauto
    · refine hgoes q best hprecedes hlater (fun p => ?_) heq
      simp only [List.mem_cons]
      tauto

end

/-! ### Independent pendings -/

/-- The pendings of a loop are independent: nothing has happened to them, their ranks are fixed and
their resolvers only return.  Each task of the loop waits for one of them, and then only returns.
No error is kept, and the loop may force as many. -/
structure Independent (m : Machine σ) (l : LoopId) (ps : List PendingId)
    (rank : PendingId → Option Int) : Prop where
  nodup : ps.Nodup
  fresh : ∀ p ∈ ps, ∃ c, m.store.pendings[p]? = some c ∧ c.loop = l ∧ c.status = .unresolved
  resolvers : ∀ p ∈ ps, ∃ i code, m.store.resolver? p = some (.code i) ∧ m.codes[i]? = some code ∧
    code.Gives m.store.Settles
  ranks : ∀ p ∈ ps, m.FixedRank p (rank p)
  tasks : ∀ e ∈ (m.store.loop l).tasks, ∃ i p next, e.2.code? = some i ∧
    m.codes[i]? = some (.await (.pending p) next) ∧ p ∈ ps ∧
      ∀ slot, (next (.ok slot)).Gives fun _ => True
  errors : (m.store.loop l).errors = []
  budget : (m.store.loop l).forced + ps.length ≤ (m.store.loop l).config.maxForced

theorem awaits_of_code {i : Nat} {next : Outcome → Program σ} (hcode : body.code? = some i)
    (hi : m.codes[i]? = some (.await (.pending p) next)) : m.awaits body = [p] := by
  rw [awaits_eq hcode, hi]
  rfl

/-- A loop on the way: no error is kept, it may force what is left, and the tasks that wait for
something that is left are in the table, with none that was not there before. -/
structure Lasts (m : Machine σ) (l : LoopId) (rem : List PendingId) (loop : LoopState) : Prop where
  errors : loop.errors = []
  budget : loop.forced + rem.length ≤ loop.config.maxForced
  known : loop.tasks ⊆ (m.store.loop l).tasks
  kept : ∀ e ∈ (m.store.loop l).tasks, ∀ p ∈ rem, m.awaits e.2 = [p] → e ∈ loop.tasks

/-- Between two rounds of a call. -/
structure Midway (m : Machine σ) (l : LoopId) (ps rem : List PendingId) (x : Machine σ) : Prop where
  reachable : x.Reachable
  codes : x.codes = m.codes
  rules : x.rules = m.rules
  sub : rem.Sublist ps
  cells : m.store.Resolves ps rem x.store
  loop : m.Lasts l rem (x.store.loop l)

/-! ### Polling -/

/-- A task that waits for a resolved pending goes on. -/
theorem await_resolved {next : Outcome → Program σ} {slot : Slot}
    (h : m.store.pendingStatus p = .resolved slot) :
    m.await (.pending p) next = m.exec (next (.ok slot)) := by
  rw [await, Store.ask, Store.outcome?, h]

/-- Code that is written over itself stays. -/
theorem setIfInBounds_same {α : Type*} {xs : Array α} {i : Nat} {a : α} (h : xs[i]? = some a) :
    xs.setIfInBounds i a = xs := by
  refine Array.ext_getElem? fun j => ?_
  rw [Array.getElem?_setIfInBounds]
  split
  · next hij =>
    subst hij
    rw [if_pos (Array.getElem?_eq_some_iff.mp h).1, h]
  · rfl

/-- A task that waits for an open pending goes back to its table, and goes on from the same
request. -/
theorem await_open {rest : List (Frame σ)} {next : Outcome → Program σ} {i : Nat}
    (hstack : m.stack = .task l t body :: rest) (hcode : body.code? = some i)
    (hwait : m.store.canWait p = true) (hi : m.codes[i]? = some (.await (.pending p) next)) :
    m.await (.pending p) next =
      { m with stack := rest, store := m.store.register ⟨l, t⟩ p }.suspend l t body := by
  have hopen : m.store.outcome? p = none := by
    rw [Store.outcome?]
    rcases Store.isOpen_iff.mp (Store.canWait_iff.mp hwait).2 with h | h <;> rw [h]
  rw [await, Store.ask, hopen]
  simp only [hwait, if_true, hstack, waiter?, pause, rejoin, Wait.left]
  cases body with
  | merge d => cases hcode
  | code j =>
    cases hcode
    rw [saveCode, setIfInBounds_same hi]
  | watched j =>
    cases hcode
    rw [saveCode, setIfInBounds_same hi]

/-- A task completes without an error. -/
theorem taskDone_ok (m : Machine σ) (l : LoopId) (t : TaskId) (body : TaskBody) (slot : Slot) :
    ∃ f : LoopState → LoopState, (∀ loop, ∃ outcomes, f loop = { loop with outcomes }) ∧
      m.taskDone l t body (.ok slot) =
        { m with store := m.store.modifyLoop l f, control := .poll l true } := by
  refine ⟨_, fun loop => ?_, rfl⟩
  cases body <;> exact ⟨_, rfl⟩

namespace Lasts

variable {loop : LoopState}

/-- The queue and the outcomes do not matter. -/
theorem of_tasks (h : m.Lasts l rem loop) {tasks : List (TaskId × TaskBody)} {ready : List TaskId}
    {outcomes : List (TaskId × Outcome)} (hknown : tasks ⊆ (m.store.loop l).tasks)
    (hkept : ∀ e ∈ loop.tasks, ∀ p ∈ rem, m.awaits e.2 = [p] → e ∈ tasks) :
    m.Lasts l rem { loop with tasks, ready, outcomes } where
  errors := h.errors
  budget := h.budget
  known := hknown
  kept e he p hp hwaits := hkept e (h.kept e he p hp hwaits) p hp hwaits

end Lasts

/-- Polling leads, without a resolver that starts, from one machine to another that is midway, with
some tasks still ready. -/
def PollsTo (m : Machine σ) (l : LoopId) (ps rem : List PendingId) (depth : Nat) (x : Machine σ)
    (ready : List TaskId) : Prop :=
  ∃ y polled, x.Passes depth [] y ∧ m.Midway l ps rem y ∧ y.stack = x.stack ∧
    y.control = .poll l polled ∧ (y.store.loop l).ready = ready

/-- A task is taken out of the queue and of its table, and is about to ask for its pending. -/
structure Asks (m : Machine σ) (l : LoopId) (ps rem : List PendingId) (depth : Nat) (x : Machine σ)
    (t : TaskId) (body : TaskBody) (ready : List TaskId) (code : Program σ) (y : Machine σ) :
    Prop where
  passes : x.Passes depth [] y
  stack : y.stack = .task l t body :: x.stack
  control : y.control = .exec code
  codes : y.codes = x.codes
  rules : y.rules = x.rules
  cells : m.store.Resolves ps rem y.store
  present : l < y.store.loops.size
  loop : y.store.loop l = { x.store.loop l with
    ready, tasks := (x.store.loop l).tasks.filter fun e => e.1 ≠ t }

namespace Midway

/-- A task of the table waits for one of the pendings, and then only returns. -/
theorem task (hx : m.Midway l ps rem x) (h : m.Independent l ps rank) {e : TaskId × TaskBody}
    (he : e ∈ (x.store.loop l).tasks) : ∃ i p next, e.2.code? = some i ∧
      x.codes[i]? = some (.await (.pending p) next) ∧ p ∈ ps ∧ m.awaits e.2 = [p] ∧
        ∀ slot, (next (.ok slot)).Gives fun _ => True := by
  obtain ⟨i, p, next, hcode, hi, hp, hgives⟩ := h.tasks e (hx.loop.known he)
  exact ⟨i, p, next, hcode, by rw [hx.codes]; exact hi, hp, awaits_of_code hcode hi, hgives⟩

/-- A task that has a number of the table is the one of that number. -/
theorem unique (hx : m.Midway l ps rem x) (h : m.Independent l ps rank) {e e' : TaskId × TaskBody}
    (he : e ∈ (x.store.loop l).tasks) (he' : e' ∈ (x.store.loop l).tasks) (heq : e'.1 = e.1) :
    e' = e := by
  obtain ⟨i, -, -, hcode, -⟩ := hx.task h he
  have hbody := hx.reachable.single.alone ⟨l, e.1⟩ e.2 e'.2 (by rw [hcode]; exact nofun) he
    (by rw [Store.Tabled, ← heq]; exact he')
  exact Prod.ext heq hbody

/-- The machine goes on to one that is midway as well. -/
theorem on {y : Machine σ} (hx : m.Midway l ps rem x) (hpasses : x.Passes depth [] y)
    (hcodes : y.codes = x.codes) (hrules : y.rules = x.rules)
    (hcells : m.store.Resolves ps rem y.store) (hloop : m.Lasts l rem (y.store.loop l)) :
    m.Midway l ps rem y :=
  ⟨hpasses.reachable hx.reachable, hcodes.trans hx.codes, hrules.trans hx.rules, hx.sub, hcells, hloop⟩

section

variable {polled : Bool} {ready : List TaskId}

/-- A task that waits for a pending that is left goes back to its table. -/
theorem suspends {y : Machine σ} {i : Nat} {next : Outcome → Program σ} (hx : m.Midway l ps rem x)
    (h : m.Independent l ps rank) (htabled : (t, body) ∈ (x.store.loop l).tasks)
    (hcode : body.code? = some i) (hi : x.codes[i]? = some (.await (.pending p) next))
    (hp : p ∈ rem) (hdepth : depth < x.stack.length)
    (hy : m.Asks l ps rem depth x t body ready (.await (.pending p) next) y) :
    m.PollsTo l ps rem depth x ready := by
  have hwait : y.store.canWait p = true := by
    obtain ⟨hlt, hstatus⟩ := hy.cells.fresh hp (h.fresh p (hx.sub.subset hp))
    exact Store.canWait_iff.mpr ⟨hlt, Store.isOpen_iff.mpr (.inl hstatus)⟩
  have hstep := step_exec hy.control
  rw [execute, await_open hy.stack hcode hwait (hy.codes ▸ hi)] at hstep
  have hpasses := hy.passes.trans (.of_quiet hstep (hy.stack ▸ Nat.lt_succ_of_lt hdepth) ?_)
  have hloop : ((y.store.register ⟨l, t⟩ p).putTask l t body).loop l = { x.store.loop l with
      ready, tasks := ((x.store.loop l).tasks.filter fun e => e.1 ≠ t) ++ [(t, body)] } := by
    have hsame : (y.store.register ⟨l, t⟩ p).loop l = y.store.loop l := rfl
    rw [Store.putTask, Store.loop_modifyLoop_self (s := y.store.register ⟨l, t⟩ p) hy.present, hsame,
      hy.loop]
  refine ⟨_, true, hpasses, hx.on hpasses hy.codes hy.rules ?_ ?_, rfl, rfl, congrArg _ hloop⟩
  · exact (hy.cells.register _ (hx.sub.subset hp)).of_pendings rfl rfl
  · refine (congrArg (m.Lasts l rem) hloop).mpr (hx.loop.of_tasks ?_ fun e he _ _ _ => ?_)
    · refine List.append_subset.mpr ⟨fun e he => ?_, fun e he => ?_⟩
      · exact hx.loop.known (List.mem_of_mem_filter he)
      · exact List.mem_singleton.mp he ▸ hx.loop.known htabled
    · by_cases heq : e.1 = t
      · exact List.mem_append_right _ (List.mem_singleton.mpr (hx.unique h htabled he heq))
      · exact List.mem_append_left _ (List.mem_filter.mpr ⟨he, decide_eq_true heq⟩)
  · exact (Settled.pop hy.stack).resolvers

/-- A task that waits for a pending that is resolved completes. -/
theorem completes {y : Machine σ} {next : Outcome → Program σ} (hx : m.Midway l ps rem x)
    (h : m.Independent l ps rank) (htabled : (t, body) ∈ (x.store.loop l).tasks)
    (hawaits : m.awaits body = [p]) (hp : p ∈ ps) (hgone : p ∉ rem)
    (hgives : ∀ slot, (next (.ok slot)).Gives fun _ => True) (hdepth : depth < x.stack.length)
    (hy : m.Asks l ps rem depth x t body ready (.await (.pending p) next) y) :
    m.PollsTo l ps rem depth x ready := by
  have hunder : depth < y.stack.length := hy.stack ▸ Nat.lt_succ_of_lt hdepth
  obtain ⟨slot, hslot⟩ := hy.cells.resolved p hp hgone
  have hstep := step_exec hy.control
  rw [execute, await_resolved hslot] at hstep
  have hpasses := hy.passes.trans (.of_quiet hstep hunder (Nat.le_refl _))
  obtain ⟨client, slot', -, hgiven⟩ :=
    passes_of_gives (m := y.exec (next (.ok slot))) (hgives slot) rfl hunder
  let z : Machine σ := { y.exec (next (.ok slot)) with client, control := .answer (.ok slot') }
  obtain ⟨f, hf, hdone⟩ := taskDone_ok { z with stack := x.stack } l t body slot'
  have hstep' : z.step = some _ :=
    (step_answer (m := z) (r := .ok slot') rfl hy.stack).trans (congrArg some hdone)
  have hpasses' := (hpasses.trans hgiven).trans
    (.of_quiet hstep' hunder (Settled.pop hy.stack).resolvers)
  obtain ⟨outcomes, houtcomes⟩ := hf (y.store.loop l)
  have hloop : (y.store.modifyLoop l f).loop l = { x.store.loop l with
      ready, outcomes, tasks := (x.store.loop l).tasks.filter fun e => e.1 ≠ t } := by
    rw [Store.loop_modifyLoop_self hy.present, houtcomes, hy.loop]
  refine ⟨_, true, hpasses', hx.on hpasses' hy.codes hy.rules ?_ ?_, rfl, rfl, congrArg _ hloop⟩
  · exact hy.cells.of_pendings rfl rfl
  · refine (congrArg (m.Lasts l rem) hloop).mpr (hx.loop.of_tasks ?_ fun e he q hq hwaits => ?_)
    · exact fun e he => hx.loop.known (List.mem_of_mem_filter he)
    · refine List.mem_filter.mpr ⟨he, decide_eq_true fun heq => hgone ?_⟩
      -- no other task has its number, and its pending is not left
      obtain rfl := hx.unique h htabled he heq
      rw [hawaits] at hwaits
      exact List.head_eq_of_cons_eq hwaits ▸ hq

/-- A task that is polled suspends again, or completes. -/
theorem poll_task (hx : m.Midway l ps rem x) (h : m.Independent l ps rank)
    (hcontrol : x.control = .poll l polled) (hready : (x.store.loop l).ready = t :: ready)
    (hlookup : (x.store.loop l).tasks.lookup t = some body) (hdepth : depth < x.stack.length) :
    m.PollsTo l ps rem depth x ready := by
  have htabled : (t, body) ∈ (x.store.loop l).tasks := mem_of_lookup hlookup
  have hl : l < x.store.loops.size := Store.Tabled.loop_lt (w := ⟨l, t⟩) htabled
  obtain ⟨i, p, next, hcode, hi, hp, hawaits, hgives⟩ := hx.task h htabled
  obtain ⟨hpresent, hloop⟩ := Store.loop_dequeue hl t ready
  have hstep := step_poll hcontrol
  rw [pollNext_eq polled hready, hlookup] at hstep
  replace hstep := hstep.trans (congrArg some (pollTask_code hcode hi))
  have hasks : m.Asks l ps rem depth x t body ready (.await (.pending p) next) _ :=
    { passes := .of_quiet hstep hdepth (Nat.le_refl _), stack := rfl, control := rfl, codes := rfl,
      rules := rfl, cells := hx.cells.of_pendings rfl rfl, present := hpresent, loop := hloop }
  by_cases hleft : p ∈ rem
  · exact hx.suspends h htabled hcode hi hleft hdepth hasks
  · exact hx.completes h htabled hawaits hp hleft hgives hdepth hasks

/-- **A poll** of the next ready task keeps what lasts, and starts no resolver. -/
theorem poll (hx : m.Midway l ps rem x) (h : m.Independent l ps rank)
    (hcontrol : x.control = .poll l polled) (hready : (x.store.loop l).ready = t :: ready)
    (hdepth : depth < x.stack.length) : m.PollsTo l ps rem depth x ready := by
  cases hlookup : (x.store.loop l).tasks.lookup t with
  | some body => exact hx.poll_task h hcontrol hready hlookup hdepth
  | none =>
    have hl := Store.loop_lt_of_ready hready
    have hbehead := Store.loop_modifyLoop_self hl fun loop => { loop with ready }
    have hstep := step_poll hcontrol
    rw [pollNext_eq polled hready, hlookup] at hstep
    have hpasses : x.Passes depth [] _ := .of_quiet hstep hdepth (Nat.le_refl _)
    refine ⟨_, polled, hpasses, hx.on hpasses rfl rfl (hx.cells.of_pendings rfl rfl) ?_, rfl, rfl, ?_⟩
    · rw [hbehead]
      exact hx.loop.of_tasks hx.loop.known fun e he _ _ _ => he
    · rw [hbehead]

/-- **Polling** until no task is ready keeps what lasts, and starts no resolver. -/
theorem polls (hx : m.Midway l ps rem x) (h : m.Independent l ps rank)
    (hcontrol : x.control = .poll l polled) (hdepth : depth < x.stack.length) :
    m.PollsTo l ps rem depth x [] := by
  generalize hready : (x.store.loop l).ready = ready
  induction ready generalizing x polled with
  | nil => exact ⟨x, polled, .refl x depth, hx, rfl, hcontrol, hready⟩
  | cons t ready ih =>
    obtain ⟨y, polled', hpasses, hy, hstack, hcontrol', hready'⟩ := hx.poll h hcontrol hready hdepth
    obtain ⟨z, polled'', hpasses', hz, hstack', hend⟩ := ih hy hcontrol' (hstack ▸ hdepth) hready'
    exact ⟨z, polled'', hpasses.trans hpasses', hz, hstack'.trans hstack, hend⟩

end

/-! ### When no task is ready -/

/-- A task that is not ready waits. -/
theorem waits (hx : m.Midway l ps rem x) (h : m.Independent l ps rank)
    (hready : (x.store.loop l).ready = []) {e : TaskId × TaskBody}
    (he : e ∈ (x.store.loop l).tasks) (hawaits : m.awaits e.2 = [p]) :
    x.store.isOpen p = true ∧ x.store.hasWaiters p = true := by
  have hidle : ¬ x.store.Queued ⟨l, e.1⟩ := by
    rw [Store.Queued, hready]
    exact List.not_mem_nil
  have hone : x.Undivided e.2 := by
    intro i rule left right next hi hfork
    obtain ⟨j, q, next', hcode, hj, -⟩ := hx.task h he
    obtain rfl : j = i := Option.some.inj (hcode.symm.trans hi)
    cases hj.symm.trans hfork
  have hheeded := (hx.reachable.heedsUndivided ⟨l, e.1⟩ e.2 he hone).resolve_left hidle
  rw [awaits_congr hx.codes, hawaits] at hheeded
  obtain ⟨hopen, hwaiter⟩ := hheeded.2 p List.mem_cons_self
  refine ⟨hopen, ?_⟩
  rw [Store.waiters] at hwaiter
  rw [Store.hasWaiters]
  cases hcell : x.store.pendings[p]? with
  | none =>
    rw [hcell] at hwaiter
    exact absurd hwaiter List.not_mem_nil
  | some c =>
    rw [hcell] at hwaiter
    have hne : c.waiters ≠ [] := List.ne_nil_of_mem hwaiter
    simpa using hne

/-- When nothing is left and no task is ready, all tasks have completed. -/
theorem tasks_eq_nil (hx : m.Midway l ps [] x) (h : m.Independent l ps rank)
    (hready : (x.store.loop l).ready = []) : (x.store.loop l).tasks = [] := by
  refine List.eq_nil_iff_forall_not_mem.mpr fun e he => ?_
  obtain ⟨i, p, next, -, -, hp, hawaits, -⟩ := hx.task h he
  have hclosed := hx.cells.closed hp List.not_mem_nil
  exact Bool.noConfusion (hclosed.symm.trans (hx.waits h hready he hawaits).1)

/-- Numbers of pendings stay, and so does the order. -/
theorem precedes_iff {q : PendingId} (hx : m.Midway l ps rem x) :
    x.Precedes rank p q ↔ m.Precedes rank p q := by
  have hnumber : x.store.pendingNumber = m.store.pendingNumber := by
    funext p
    rw [Store.pendingNumber_eq, hx.cells.addresses, ← Store.pendingNumber_eq]
  rw [Precedes, hnumber, Precedes]

theorem pendings_eq (hx : m.Midway l ps rem x) :
    (x.store.loop l).pendings = m.store.pendingsOf l := by
  rw [(hx.reachable.registered l).1, Store.pendingsOf, hx.cells.addresses, ← Store.pendingsOf]

/-- Whether a loop can force another pending is as it was. -/
theorem others {aim : Aim} (hx : m.Midway l ps rem x)
    (hothers : ∀ q c, m.store.pendings[q]? = some c → c.loop = l → q ∉ ps → m.eligible aim q = false) :
    ∀ q ∈ m.store.pendingsOf l, q ∉ ps → x.eligible aim q = false := by
  intro q hq hout
  obtain ⟨c, hc, hloop⟩ := Store.mem_pendingsOf.mp hq
  rw [← hothers q c hc hloop hout]
  simp only [eligible, Store.isOpen, Store.isResolving, Store.hasResolver, Store.hasWaiters,
    Store.pendingStatus, hx.cells.others q hout]

/-- What a loop can force is what is left, if that is eligible and nothing else is. -/
theorem eligible_iff (aim : Aim) (hx : m.Midway l ps rem x) (h : m.Independent l ps rank)
    (hwaited : ∀ goal, aim = .drive goal → ∀ p ∈ rem, x.store.hasWaiters p = true)
    (hothers : ∀ q ∈ m.store.pendingsOf l, q ∉ ps → x.eligible aim q = false) {q : PendingId} :
    q ∈ (x.store.loop l).pendings ∧ x.eligible aim q = true ↔ q ∈ rem := by
  rw [hx.pendings_eq]
  constructor
  · rintro ⟨hmem, hgood⟩
    by_contra hgone
    by_cases hq : q ∈ ps
    · simp [eligible, hx.cells.closed hq hgone] at hgood
    · exact Bool.noConfusion ((hothers q hmem hq).symm.trans hgood)
  · intro hq
    obtain ⟨c, hc, hloop, hstatus⟩ := h.fresh q (hx.sub.subset hq)
    have hnow := (hx.cells.fresh hq ⟨c, hc, hloop, hstatus⟩).2
    obtain ⟨i, code, hresolver, -⟩ := h.resolvers q (hx.sub.subset hq)
    rw [Store.resolver?_eq_bare, ← hx.cells.left q hq, ← Store.resolver?_eq_bare] at hresolver
    refine ⟨Store.mem_pendingsOf.mpr ⟨c, hc, hloop⟩, ?_⟩
    have hopen : x.store.isOpen q = true := by rw [Store.isOpen, hnow]
    have hidle : x.store.isResolving q = false := by rw [Store.isResolving, hnow]
    have hthere : x.store.hasResolver q = true := by
      rw [Store.hasResolver, ← Store.resolver?, hresolver]
      rfl
    unfold eligible
    rw [hopen, hidle, hthere]
    cases aim with
    | drive goal => exact hwaited goal rfl q hq
    | finish => rfl

/-- **The loop chooses** the first of those that are left. -/
theorem passes_choose {below : List (Frame σ)} {aim : Aim} (hx : m.Midway l ps rem x)
    (h : m.Independent l ps rank) (hne : rem ≠ []) (hdepth : depth ≤ below.length)
    (heligible : ∀ {q}, q ∈ (x.store.loop l).pendings ∧ x.eligible aim q = true ↔ q ∈ rem) :
    ∃ p ∈ rem, (∀ q ∈ rem, q ≠ p → m.Precedes rank p q) ∧ ∃ client control,
      ({ x with stack := below }.choose l aim).Passes depth []
        ({ x with client, stack := below, control }.charge l aim p) := by
  have hincreasing : ((x.store.loop l).pendings.map x.store.pendingNumber).Pairwise (· < ·) := by
    have hregistered := hx.reachable.registered
    rw [(hregistered l).1, (hregistered l).2]
    exact List.pairwise_lt_range
  have hfixed : ∀ q ∈ (x.store.loop l).pendings, x.eligible aim q = true →
      x.FixedRank q (rank q) := fun q hq hgood =>
    have hleft := heligible.mp ⟨hq, hgood⟩
    (h.ranks q (hx.sub.subset hleft)).of_bare hx.rules (hx.cells.left q hleft)
  rw [choose]
  rcases pick_cases { x with stack := below } l aim none (x.store.loop l).pendings with
    ⟨before, q, rest, hps, hbefore, hq, hpick⟩ | ⟨hnone, -⟩
  swap
  · obtain ⟨q, hq⟩ := List.exists_mem_of_ne_nil rem hne
    obtain ⟨hmem, hgood⟩ := heligible.mpr hq
    exact Bool.noConfusion ((hnone q hmem).symm.trans hgood)
  rw [hpick]
  rw [hps] at hincreasing hfixed
  obtain ⟨client, control, hasked⟩ := passes_choosing l aim none hdepth
    (hfixed q (List.mem_append_right _ List.mem_cons_self) hq) rest
  obtain ⟨p, hp, hfirst, client', control', hpasses⟩ :=
    passes_pick l rank hdepth rest q { x with client, control }
      (hincreasing.sublist ((List.sublist_append_right before _).map _))
      fun q' hq' => hfixed q' (List.mem_append_right _ (List.mem_cons_of_mem _ hq'))
  have hleft : ∀ p, p ∈ q :: rest.filter (x.eligible aim) ↔ p ∈ rem := by
    intro p
    rw [← heligible, hps]
    constructor
    · intro hp
      rcases List.mem_cons.mp hp with rfl | hp
      · exact ⟨List.mem_append_right _ List.mem_cons_self, hq⟩
      · obtain ⟨hmem, hgood⟩ := List.mem_filter.mp hp
        exact ⟨List.mem_append_right _ (List.mem_cons_of_mem _ hmem), hgood⟩
    · rintro ⟨hmem, hgood⟩
      rcases List.mem_append.mp hmem with hmem | hmem
      · exact Bool.noConfusion ((hbefore p hmem).symm.trans hgood)
      rcases List.mem_cons.mp hmem with rfl | hmem
      · exact List.mem_cons_self
      · exact List.mem_cons_of_mem _ (List.mem_filter.mpr ⟨hmem, hgood⟩)
  refine ⟨p, (hleft p).mp hp, fun q' hq' hne => ?_, client', control', hasked.trans hpasses⟩
  exact hx.precedes_iff.mp (hfirst q' ((hleft q').mpr hq') hne)

/-- What a loop keeps where it has forced a pending. -/
theorem forced {y : Machine σ} {client : σ} {d : Diagnostic} {slot : Slot} {stack : List (Frame σ)}
    {control : Control σ} (hx : m.Midway l ps rem x) (h : m.Independent l ps rank) (hp : p ∈ rem)
    (hl : l < x.store.loops.size) (hy : y.Reachable)
    (heq : y = { x with
      store := (((x.store.counted l).record d).taken p).close p (.resolved slot)
      client, stack, control }) :
    m.Midway l ps (rem.erase p) y := by
  have hnodup := h.nodup.sublist hx.sub
  have hlt := (hx.cells.fresh hp (h.fresh p (hx.sub.subset hp))).1
  obtain ⟨ready, hloop⟩ :=
    Store.loop_close (((x.store.counted l).record d).taken p) p (.resolved slot) l
  have hcounted : (((x.store.counted l).record d).taken p).loop l =
      { x.store.loop l with forced := (x.store.loop l).forced + 1 } :=
    (x.store.loop_counted l l).trans (if_pos ⟨rfl, hl⟩)
  rw [hcounted] at hloop
  subst heq
  refine ⟨hy, hx.codes, hx.rules, List.erase_sublist.trans hx.sub,
    hx.cells.forced hx.sub hnodup hp hlt l d slot, ?_⟩
  refine (congrArg (m.Lasts l _) hloop).mpr ⟨hx.loop.errors, ?_, hx.loop.known, fun e he q hq =>
    hx.loop.kept e he q (List.mem_of_mem_erase hq)⟩
  have hbudget := hx.loop.budget
  have hlength := List.length_erase_of_mem hp
  have hpos := List.length_pos_of_mem hp
  show (x.store.loop l).forced + 1 + (rem.erase p).length ≤ (x.store.loop l).config.maxForced
  omega

end Midway

/-! ### Forcing -/

/-- A resolver of client code that is there starts. -/
theorem startResolver_code {i : Nat} {code : Program σ}
    (hresolver : m.store.resolver? p = some (.code i)) (hi : m.codes[i]? = some code) :
    m.startResolver p = { m with
      store := m.store.taken p, stack := .resolving p :: m.stack, control := .exec code } := by
  rw [startResolver, Store.beginResolving_some hresolver]
  simp only [push, exec, hi]

/-- A loop with tasks that has no errors chooses a pending. -/
theorem driveOn_chooses (herrors : (m.store.loop l).errors = [])
    (htasks : (m.store.loop l).tasks ≠ []) : m.driveOn l .idle = m.choose l (.drive .idle) := by
  have hbusy : (m.store.loop l).tasks.isEmpty = false := List.isEmpty_eq_false_iff.mpr htasks
  rw [driveOn]
  simp only [herrors, goalReached, hbusy, Bool.or_self, Bool.false_eq_true, if_false]

/-- A loop without tasks and errors returns. -/
theorem driveOn_done {goal : Goal} (herrors : (m.store.loop l).errors = [])
    (htasks : (m.store.loop l).tasks = []) : m.driveOn l goal = m.answer unit := by
  rw [driveOn]
  simp only [herrors, htasks, List.isEmpty_nil, Bool.or_true, if_true]

/-- An open pending takes over the slot that its resolver gives. -/
theorem resolved_of_settles {slot : Slot} (h : m.store.Settles slot) (hopen : m.store.isOpen p = true)
    (hp : p < m.store.pendings.size) : m.resolved p (.ok slot) =
      { m with store := m.store.close p (.resolved slot) }.answer unit := by
  rw [resolved, if_pos hopen, Store.setResult_of_settles h hopen hp]

/-- **A pending is forced:** the loop counts it and asks for its rank again; its resolver starts and
returns, and it is resolved. -/
theorem passes_charge {below : List (Frame σ)} (aim : Aim) {i : Nat} {code : Program σ}
    {r : Option Int} (hbudget : (x.store.loop l).forced < (x.store.loop l).config.maxForced)
    (hrank : x.FixedRank p r)
    (hresolver : x.store.resolver? p = some (.code i)) (hi : x.codes[i]? = some code)
    (hgives : code.Gives x.store.Settles) (hdepth : depth ≤ below.length) :
    ∃ client d slot, ({ x with stack := below }.charge l aim p).Passes depth [p] { x with
      store := (((x.store.counted l).record d).taken p).close p (.resolved slot), client
      stack := aim.frame l :: below, control := .answer unit } := by
  let counted : Machine σ := { x with
    store := x.store.counted l, stack := .charging l aim p :: below, control := .rank p }
  have hcharge : ({ x with stack := below } : Machine σ).charge l aim p = counted := by
    rw [charge]
    exact if_neg (Nat.not_le.mpr hbudget)
  rw [hcharge]
  have hcharging : depth < counted.stack.length := Nat.lt_succ_of_le hdepth
  obtain ⟨client, told, htold, hasked⟩ :=
    passes_rank (x := counted) rfl (hrank.of_bare rfl rfl) hcharging
  -- the resolver starts
  let d : Diagnostic := .forced (x.store.pendingNumber p) (rankOf (.ok told))
  let s := ((x.store.counted l).record d).taken p
  let asked : Machine σ := { counted with client, control := .answer (.ok told) }
  let started : Machine σ := { x with
    store := s, client, stack := .resolving p :: aim.frame l :: below, control := .exec code }
  have hstart : asked.step = some started := by
    refine (step_answer (m := asked) rfl rfl).trans (congrArg some ?_)
    exact startResolver_code (m := { asked with
      store := (x.store.counted l).record d, stack := aim.frame l :: below }) hresolver hi
  have hinvoked : asked.invoked? = some p := by
    refine invoked?_of_stack hstart rfl ?_
    cases aim <;> exact Nat.lt_succ_self _
  have hstarted := Passes.of_step hstart hcharging
  rw [hinvoked] at hstarted
  -- it returns, and its pending is still open
  have hdepth' : depth < started.stack.length := Nat.lt_succ_of_lt (Nat.lt_succ_of_le hdepth)
  obtain ⟨client', slot, hsettles, hreturn⟩ := passes_of_gives (m := started) hgives rfl hdepth'
  obtain ⟨hp, hmarked, -⟩ := Store.pendingStatus_beginResolving
    (Store.beginResolving_some (s := (x.store.counted l).record d) hresolver)
  have hsame : s.Settles = x.store.Settles := Store.settles_of_nodes rfl
  rw [← hsame] at hsettles
  let z : Machine σ := { started with client := client', control := .answer (.ok slot) }
  have hresolved := resolved_of_settles (m := { z with stack := aim.frame l :: below }) hsettles
    (Store.isOpen_iff.mpr (.inr hmarked)) hp
  have hclose : z.step = some _ := (step_answer (m := z) rfl rfl).trans (congrArg some hresolved)
  refine ⟨client', d, slot, ((hasked.trans hstarted).trans hreturn).trans (.of_quiet hclose hdepth' ?_)⟩
  exact (Settled.pop (m := z) rfl).resolvers

/-- **Midway, the first of those that are left is chosen and forced,** and the loop goes on from
there. -/
theorem Midway.forces {f : Frame σ} {below : List (Frame σ)} {aim : Aim} (hx : m.Midway l ps rem x)
    (h : m.Independent l ps rank) (hne : rem ≠ []) (hdepth : depth ≤ below.length)
    (heligible : ∀ {q}, q ∈ (x.store.loop l).pendings ∧ x.eligible aim q = true ↔ q ∈ rem)
    (hstack : x.stack = f :: below)
    (hstep : x.step = some ({ x with stack := below }.choose l aim)) :
    ∃ p ∈ rem, (∀ q ∈ rem, q ≠ p → m.Precedes rank p q) ∧ ∃ y, x.Passes depth [p] y ∧
      m.Midway l ps (rem.erase p) y ∧ y.stack = aim.frame l :: below ∧ y.control = .answer unit := by
  obtain ⟨p, hp, hfirst, client, control, hchosen⟩ := hx.passes_choose h hne hdepth heligible
  have hhere : depth < x.stack.length := hstack ▸ Nat.lt_succ_of_le hdepth
  have hchoose : x.Passes depth [] _ := .of_quiet hstep hhere
    ((Settled.pop hstack).trans (settled_choose _ l aim)).resolvers
  have hbudget : (x.store.loop l).forced < (x.store.loop l).config.maxForced := by
    have hwithin := hx.loop.budget
    have hpos := List.length_pos_of_mem hp
    omega
  have hrank : x.FixedRank p (rank p) :=
    (h.ranks p (hx.sub.subset hp)).of_bare hx.rules (hx.cells.left p hp)
  obtain ⟨i, code, hresolver, hi, hgives⟩ := h.resolvers p (hx.sub.subset hp)
  rw [Store.resolver?_eq_bare, ← hx.cells.left p hp, ← Store.resolver?_eq_bare] at hresolver
  rw [← Store.settles_of_nodes hx.cells.nodes] at hgives
  obtain ⟨client', d, slot, hforced⟩ := passes_charge (x := { x with client, control }) aim
    hbudget (hrank.of_bare rfl rfl) hresolver (by rw [← hx.codes] at hi; exact hi) hgives hdepth
  have hpasses := (hchoose.trans hchosen).trans hforced
  refine ⟨p, hp, hfirst, _, hpasses, ?_, rfl, rfl⟩
  exact hx.forced h hp (loop_lt_of_pending (heligible.mpr hp).1) (hpasses.reachable hx.reachable) rfl


/-! ### Rounds -/

section

variable {below : List (Frame σ)}

/-- A loop is driven until its tasks have completed, with some pendings left. -/
structure Driven (m : Machine σ) (l : LoopId) (ps : List PendingId) (below : List (Frame σ))
    (rem : List PendingId) (x : Machine σ) : Prop where
  midway : m.Midway l ps rem x
  stack : x.stack = .drive l .idle :: below
  control : ∃ polled, x.control = .poll l polled

/-- A loop whose tasks have all completed returns. -/
theorem Driven.returns (hx : m.Driven l ps below rem x) (h : m.Independent l ps rank)
    (hdepth : depth ≤ below.length)
    (hover : ∀ y, m.Midway l ps rem y → (y.store.loop l).ready = [] → (y.store.loop l).tasks = []) :
    ∃ y, x.Passes depth [] y ∧ m.Midway l ps rem y ∧ y.stack = below ∧ y.control = .answer unit := by
  obtain ⟨polled, hcontrol⟩ := hx.control
  have hhere : depth < x.stack.length := hx.stack ▸ Nat.lt_succ_of_le hdepth
  obtain ⟨y, polled', hpasses, hy, hstack, hcontrol', hready⟩ := hx.midway.polls h hcontrol hhere
  rw [hx.stack] at hstack
  have hdone : driveOn { y with stack := below } l .idle = { y with stack := below }.answer unit :=
    driveOn_done hy.loop.errors (hover y hy hready)
  have hstep := (step_driveOn hcontrol' hstack hready).trans (congrArg some hdone)
  have hreturn : y.Passes depth [] _ :=
    .of_quiet hstep (hstack ▸ Nat.lt_succ_of_le hdepth) (Settled.pop hstack).resolvers
  exact ⟨_, hpasses.trans hreturn, hy.on hreturn rfl rfl hy.cells hy.loop, rfl, rfl⟩

/-- **A round of running:** the loop polls its tasks until all of them wait, and then it forces the
first pending that is left. -/
theorem Driven.round (hx : m.Driven l ps below rem x) (h : m.Independent l ps rank) (hne : rem ≠ [])
    (hdepth : depth ≤ below.length)
    (hwaited : ∀ p ∈ ps, ∃ e ∈ (m.store.loop l).tasks, m.awaits e.2 = [p])
    (hothers : ∀ q c, m.store.pendings[q]? = some c → c.loop = l → q ∉ ps → ¬ m.store.Forcible q) :
    ∃ p ∈ rem, (∀ q ∈ rem, q ≠ p → m.Precedes rank p q) ∧
      ∃ y, x.Passes depth [p] y ∧ m.Driven l ps below (rem.erase p) y := by
  obtain ⟨polled, hcontrol⟩ := hx.control
  have hhere : depth < x.stack.length := hx.stack ▸ Nat.lt_succ_of_le hdepth
  obtain ⟨y, polled', hpasses, hy, hstack, hcontrol', hready⟩ := hx.midway.polls h hcontrol hhere
  rw [hx.stack] at hstack
  -- each of those that are left has a task that waits
  have htask : ∀ p ∈ rem, ∃ e ∈ (y.store.loop l).tasks, m.awaits e.2 = [p] := by
    intro p hp
    obtain ⟨e, he, hawaits⟩ := hwaited p (hy.sub.subset hp)
    exact ⟨e, hy.loop.kept e he p hp hawaits, hawaits⟩
  have hbusy : (y.store.loop l).tasks ≠ [] := by
    obtain ⟨p, hp⟩ := List.exists_mem_of_ne_nil rem hne
    obtain ⟨e, he, -⟩ := htask p hp
    exact List.ne_nil_of_mem he
  have heligible : ∀ {q}, q ∈ (y.store.loop l).pendings ∧ y.eligible (.drive .idle) q = true ↔
      q ∈ rem := by
    refine hy.eligible_iff (.drive .idle) h (fun _ _ p hp => ?_) (hy.others fun q c hc hloop hout => ?_)
    · obtain ⟨e, he, hawaits⟩ := htask p hp
      exact (hy.waits h hready he hawaits).2
    · exact Bool.eq_false_iff.mpr (mt eligible_drive.mp (hothers q c hc hloop hout))
  have hchoose := driveOn_chooses (m := { y with stack := below }) hy.loop.errors hbusy
  have hstep := (step_driveOn hcontrol' hstack hready).trans (congrArg some hchoose)
  obtain ⟨p, hp, hfirst, z, hforced, hz, hstack', hanswer⟩ :=
    hy.forces h hne hdepth heligible hstack hstep
  -- the loop polls again
  have hagain : z.step = some ({ z with stack := below }.startDrive l .idle) :=
    step_answer hanswer hstack'
  have hnext : z.Passes depth [] _ :=
    .of_quiet hagain (hstack' ▸ Nat.lt_succ_of_le hdepth) (Settled.pop hstack').resolvers
  refine ⟨p, hp, hfirst, _, (hpasses.trans hforced).trans hnext, ?_, rfl, false, rfl⟩
  exact hz.on hnext rfl rfl hz.cells hz.loop

/-- **A round of finishing:** the loop has no tasks, and it forces the first pending that is
left. -/
theorem Driven.finishRound (hx : m.Driven l ps (.finishRunning l :: below) rem x)
    (h : m.Independent l ps rank) (hne : rem ≠ []) (hdepth : depth ≤ below.length)
    (hnone : (m.store.loop l).tasks = [])
    (hothers : ∀ q c, m.store.pendings[q]? = some c → c.loop = l → q ∉ ps →
      m.eligible .finish q = false) :
    ∃ p ∈ rem, (∀ q ∈ rem, q ≠ p → m.Precedes rank p q) ∧ ∃ y, x.Passes depth [p] y ∧
      m.Driven l ps (.finishRunning l :: below) (rem.erase p) y := by
  obtain ⟨y, hpasses, hy, hstack, hcontrol⟩ := hx.returns h (Nat.le_succ_of_le hdepth)
    fun y hy _ => List.subset_nil.mp (hnone ▸ hy.loop.known)
  have hstep : y.step = some ({ y with stack := below }.choose l .finish) :=
    step_answer hcontrol hstack
  have heligible : ∀ {q}, q ∈ (y.store.loop l).pendings ∧ y.eligible .finish q = true ↔ q ∈ rem :=
    hy.eligible_iff .finish h nofun (hy.others hothers)
  obtain ⟨p, hp, hfirst, z, hforced, hz, hstack', hanswer⟩ :=
    hy.forces h hne hdepth heligible hstack hstep
  -- the loop is driven again
  have hagain : z.step = some (({ z with stack := below }.push (.finishRunning l)).startDrive l .idle) :=
    step_answer hanswer hstack'
  have hnext : z.Passes depth [] _ :=
    .of_quiet hagain (hstack' ▸ Nat.lt_succ_of_le hdepth) (Settled.pop hstack').resolvers
  refine ⟨p, hp, hfirst, _, (hpasses.trans hforced).trans hnext, ?_, rfl, false, rfl⟩
  exact hz.on hnext rfl rfl hz.cells hz.loop

/-- When nothing is left to be forced, finishing returns. -/
theorem Driven.finishReturns (hx : m.Driven l ps (.finishRunning l :: below) [] x)
    (h : m.Independent l ps rank) (hdepth : depth ≤ below.length)
    (hothers : ∀ q c, m.store.pendings[q]? = some c → c.loop = l → q ∉ ps →
      m.eligible .finish q = false) :
    ∃ y, x.Passes depth [] y ∧ y.stack = below ∧ ∃ r, y.control = .answer r := by
  obtain ⟨y, hpasses, hy, hstack, hcontrol⟩ := hx.returns h (Nat.le_succ_of_le hdepth)
    fun y hy => hy.tasks_eq_nil h
  have hstep : y.step = some ({ y with stack := below }.choose l .finish) :=
    step_answer hcontrol hstack
  have hdepth' : depth < y.stack.length := hstack ▸ Nat.lt_succ_of_le hdepth
  have hquiet := (Settled.pop hstack).resolvers
  rcases pick_cases { y with stack := below } l .finish none (y.store.loop l).pendings with
    ⟨before, q, rest, hps, -, hq, -⟩ | ⟨-, ⟨_, _, hbest, -⟩ | ⟨-, hnone⟩⟩
  · -- there is nothing to choose
    have hmem : q ∈ (y.store.loop l).pendings := hps ▸ List.mem_append_right _ List.mem_cons_self
    exact absurd ((hy.eligible_iff .finish h nofun (hy.others hothers)).mp ⟨hmem, hq⟩) List.not_mem_nil
  · cases hbest
  · rw [choose] at hstep
    replace hstep := hstep.trans (congrArg some hnone)
    rcases noneLeft_finish_cases { y with stack := below } l with ⟨-, heq⟩ | ⟨e, s, heq⟩ <;>
      exact ⟨_, hpasses.trans (.of_quiet (hstep.trans (congrArg some heq)) hdepth' hquiet), rfl, _, rfl⟩

end

/-! ### The order -/

/-- A call returns what its loop hands on, and starts what its loop starts. -/
theorem Passes.returns {next : Outcome → Program σ} {started : List PendingId} {y : Machine σ}
    {r : Outcome} (h : x.Passes (m.stack.length + 1) started y) (hstep : m.step = some x)
    (hquiet : x.resolvers.length ≤ m.resolvers.length) (hstack : y.stack = .client next :: m.stack)
    (hcontrol : y.control = .answer r) :
    ∃ k, m.Returns next k r ∧ m.invocations (k + 1) = started := by
  obtain ⟨n, rfl, rfl, habove⟩ := h
  have hrun : ∀ i, m.run (i + 1) = x.run i := fun i => by rw [run, hstep]
  refine ⟨n, ⟨fun j hj hjn => ?_, ?_⟩, ?_⟩
  · obtain ⟨i, rfl⟩ := Nat.exists_eq_add_of_le' hj
    rw [hrun]
    exact habove i hjn
  · rw [Hands, hrun]
    exact ⟨hstack, hcontrol⟩
  · have hfirst : m.invocations 1 = [] := by
      rw [invocations_succ, run, invoked?_of_le hstep hquiet]
      rfl
    rw [Nat.add_comm, invocations_add, hfirst, hrun 0]
    rfl

/-- **Priority alone decides the order.**  Let some pendings of a loop be independent.

* If each of them is awaited by a task, and the loop could force nothing else, running the loop
  starts their resolvers in the order of their ranks, those without a rank last, and of those with
  the same rank in the order in which they were registered.  It starts no others, and succeeds.
* If the loop has no tasks, and no other open pending has a resolver that is not running, finishing
  the loop starts their resolvers in that order. -/
theorem independent_by_priority (hm : m.Reachable) (h : m.Independent l ps rank) :
    (∀ next, m.control = .exec (.run l next) →
      (∀ p ∈ ps, ∃ e ∈ (m.store.loop l).tasks, m.awaits e.2 = [p]) →
      (∀ q c, m.store.pendings[q]? = some c → c.loop = l → q ∉ ps → ¬ m.store.Forcible q) →
      ∃ k, m.Returns next k unit ∧ (m.invocations (k + 1)).Perm ps ∧
        (m.invocations (k + 1)).Pairwise (m.Precedes rank)) ∧
    (∀ next, m.control = .exec (.finish l next) → (m.store.loop l).tasks = [] →
      (∀ q c, m.store.pendings[q]? = some c → c.loop = l → q ∉ ps →
        ¬ (m.store.isOpen q = true ∧ m.store.isResolving q = false ∧
          m.store.hasResolver q = true)) →
      ∃ k r, m.Returns next k r ∧ (m.invocations (k + 1)).Perm ps ∧
        (m.invocations (k + 1)).Pairwise (m.Precedes rank)) := by
  have hstart : ∀ {x : Machine σ}, m.step = some x → x.codes = m.codes → x.rules = m.rules →
      x.store = m.store → m.Midway l ps ps x := by
    intro x hstep hcodes hrules hstore
    have hcells : m.store.Resolves ps ps m.store :=
      ⟨rfl, rfl, fun _ _ => rfl, fun _ _ => rfl, fun _ hp hgone => absurd hp hgone⟩
    exact ⟨.step hm hstep, hcodes, hrules, .refl ps, hstore ▸ hcells,
      hstore ▸ ⟨h.errors, h.budget, fun _ he => he, fun _ he _ _ _ => he⟩⟩
  constructor
  · intro next hcontrol hwaited hothers
    have hstep := step_exec hcontrol
    have hx : m.Driven l ps (.client next :: m.stack) ps _ :=
      ⟨hstart hstep rfl rfl rfl, rfl, false, rfl⟩
    have hend : ∀ x, m.Driven l ps (.client next :: m.stack) [] x →
        ∃ y, x.Passes (m.stack.length + 1) [] y ∧
          y.stack = .client next :: m.stack ∧ y.control = .answer unit := by
      intro x hx
      obtain ⟨y, hpasses, -, hend⟩ := hx.returns h (Nat.le_refl _) fun y hy => hy.tasks_eq_nil h
      exact ⟨y, hpasses, hend⟩
    obtain ⟨started, y, hpasses, ⟨hstack, hanswer⟩, hperm, hordered⟩ := passes_in_order
      (fun rem x hne hx => hx.round h hne (Nat.le_refl _) hwaited hothers) hend h.nodup hx
    obtain ⟨k, hreturns, rfl⟩ := hpasses.returns hstep (Nat.le_refl _) hstack hanswer
    exact ⟨k, hreturns, hperm, hordered⟩
  · intro next hcontrol hnone hothers
    have hstep := step_exec hcontrol
    have hineligible : ∀ q c, m.store.pendings[q]? = some c → c.loop = l → q ∉ ps →
        m.eligible .finish q = false := fun q c hc hloop hout =>
      Bool.eq_false_iff.mpr (mt eligible_finish.mp (hothers q c hc hloop hout))
    have hx : m.Driven l ps (.finishRunning l :: .client next :: m.stack) ps _ :=
      ⟨hstart hstep rfl rfl rfl, rfl, false, rfl⟩
    obtain ⟨started, y, hpasses, ⟨hstack, r, hanswer⟩, hperm, hordered⟩ := passes_in_order
      (fun rem x hne hx => hx.finishRound h hne (Nat.le_refl _) hnone hineligible)
      (fun x hx => hx.finishReturns h (Nat.le_refl _) hineligible) h.nodup hx
    obtain ⟨k, hreturns, rfl⟩ := hpasses.returns hstep (Nat.le_refl _) hstack hanswer
    exact ⟨k, r, hreturns, hperm, hordered⟩

/-- Code with three pendings, of which the second has a rank, and with tasks that wait for some of
them. -/
def rankedPendings (awaited : List PendingId) (call : Program Unit) : Program Unit :=
  let known := .done (.ok (.constant (.int 1)))
  .update (Infer.openLoop {}).run fun _ =>
    .pending 0 known (.ranked none) fun _ =>
      .pending 0 known (.ranked (some 5)) fun _ =>
        .pending 0 known (.ranked none) fun _ =>
          awaited.foldr (fun p later => .spawn 0 (.await (.pending p) .done) fun _ => later) call

/-- The pendings are independent, with tasks for all of them and without tasks. -/
theorem independent_rankedPendings {m : Machine Unit}
    (h : m = (start () (rankedPendings [2, 1, 0] (.run 0 .done))).run 7 ∨
      m = (start () (rankedPendings [] (.finish 0 .done))).run 4) :
    m.Independent 0 [0, 1, 2] fun p => if p = 1 then some 5 else none := by
  constructor
  case nodup => decide
  case fresh =>
    simp only [List.forall_mem_cons]
    rcases h with rfl | rfl <;>
      exact ⟨⟨_, rfl, rfl, rfl⟩, ⟨_, rfl, rfl, rfl⟩, ⟨_, rfl, rfl, rfl⟩, nofun⟩
  case resolvers =>
    simp only [List.forall_mem_cons]
    rcases h with rfl | rfl <;>
      exact ⟨⟨0, _, rfl, rfl, .done ⟨rfl, rfl⟩⟩, ⟨1, _, rfl, rfl, .done ⟨rfl, rfl⟩⟩,
        ⟨2, _, rfl, rfl, .done ⟨rfl, rfl⟩⟩, nofun⟩
  case ranks =>
    simp only [List.forall_mem_cons]
    rcases h with rfl | rfl <;>
      exact ⟨⟨_, rfl, .done rfl⟩, ⟨_, rfl, .done rfl⟩, ⟨_, rfl, .done rfl⟩, nofun⟩
  case tasks =>
    rcases h with rfl | rfl
    · have htasks : (((start () (rankedPendings [2, 1, 0] (.run 0 .done))).run 7).store.loop 0).tasks =
          [(0, .code 3), (1, .code 4), (2, .code 5)] := rfl
      rw [htasks]
      simp only [List.forall_mem_cons]
      exact ⟨⟨3, 2, _, rfl, rfl, by decide, fun _ => .done trivial⟩,
        ⟨4, 1, _, rfl, rfl, by decide, fun _ => .done trivial⟩,
        ⟨5, 0, _, rfl, rfl, by decide, fun _ => .done trivial⟩, nofun⟩
    · exact fun e he => absurd he List.not_mem_nil
  case errors => rcases h with rfl | rfl <;> rfl
  case budget => rcases h with rfl | rfl <;> decide

/-- Running and finishing start the resolver of the pending with a rank first, and the others in the
order in which they were registered. -/
theorem independent_by_priority_rankedPendings :
    let m := (start () (rankedPendings [2, 1, 0] (.run 0 .done))).run 7
    let m' := (start () (rankedPendings [] (.finish 0 .done))).run 4
    (∃ k, m.Returns .done k unit ∧ m.invocations (k + 1) = [1, 0, 2]) ∧
      ∃ k r, m'.Returns .done k r ∧ m'.invocations (k + 1) = [1, 0, 2] := by
  intro m m'
  have hm : m.Reachable := (Reachable.start () _).run 7
  have hm' : m'.Reachable := (Reachable.start () _).run 4
  -- there are no other pendings
  have hall : ∀ {s : Store}, s.pendings.size = 3 → ∀ q c, s.pendings[q]? = some c → q ∈ [0, 1, 2] := by
    intro s hsize q c hc
    have hlt := (Array.getElem?_eq_some_iff.mp hc).1
    rw [hsize] at hlt
    exact (List.mem_range.mpr hlt : q ∈ List.range 3)
  obtain ⟨k, hreturns, hperm, hordered⟩ :=
    (independent_by_priority hm (independent_rankedPendings (.inl rfl))).1 .done rfl
      (by
        simp only [List.forall_mem_cons]
        exact ⟨⟨(2, .code 5), .tail _ (.tail _ (.head _)), rfl⟩, ⟨(1, .code 4), .tail _ (.head _), rfl⟩,
          ⟨(0, .code 3), .head _, rfl⟩, nofun⟩)
      fun q c hc _ hout => absurd (hall rfl q c hc) hout
  obtain ⟨k', r, hreturns', hperm', hordered'⟩ :=
    (independent_by_priority hm' (independent_rankedPendings (.inr rfl))).2 .done rfl rfl
      fun q c hc _ hout => absurd (hall rfl q c hc) hout
  refine ⟨⟨k, hreturns, ?_⟩, k', r, hreturns', ?_⟩
  · exact eq_of_precedes hordered (by decide +kernel) (hperm.trans (by decide))
  · exact eq_of_precedes hordered' (by decide +kernel) (hperm'.trans (by decide))

end Machine

end ValueInference
