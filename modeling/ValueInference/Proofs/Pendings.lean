/-
What changes of a store do to its pendings.

A change leaves a pending as it was, opens it, or resolves it while it is open.  Only a task that
waits is registered with a pending, and only with an open one.

* **`Store.CellMove`**, **`Store.change_cell`** — what a change may do to a pending;
* **`Store.PendingMove`** — what that means for its result, and for the way that it gets one;
* **`Store.poll_open`**, **`Store.ask_open`** — what code waits for is open.
-/
import ValueInference.Schedule.Loop
import ValueInference.Proofs.Sound

namespace ValueInference

namespace Store

variable {s t u : Store} {p q : PendingId} {w : Waiter}

/-- A form that is placed is there already, or a node is added for it. -/
theorem place_eq (s : Store) (k : Kind) : (s.place k).2 = s ∨
    ∃ contents node, (s.place k).2 = { s with contents, nodes := s.nodes.push node } := by
  rw [place]
  split
  · simp only
    split
    · exact .inl rfl
    · exact .inr ⟨_, _, rfl⟩
  split
  · exact .inr ⟨_, _, rfl⟩
  · exact .inr ⟨_, _, rfl⟩

/-- A form that is built is there already, or a node is added for it, unless it has a fault. -/
theorem build_eq (s : Store) (k : Kind) : (s.build k).2 = s ∨
    ∃ contents node, (s.build k).2 = { s with contents, nodes := s.nodes.push node } := by
  rw [build]
  split
  · exact .inl rfl
  · exact place_eq s k

/-! ### Pendings -/

/-- How a pending gets its result when it is forced. -/
def resolver? (s : Store) (p : PendingId) : Option Resolver := s.pendings[p]?.bind Pending.resolver

theorem pendingStatus_of_pendings (h : t.pendings = s.pendings) :
    t.pendingStatus p = s.pendingStatus p := by
  rw [pendingStatus, h, pendingStatus]

theorem resolver?_of_pendings (h : t.pendings = s.pendings) : t.resolver? p = s.resolver? p := by
  rw [resolver?, h, resolver?]

theorem isOpen_iff : s.isOpen p = true ↔
    s.pendingStatus p = .unresolved ∨ s.pendingStatus p = .resolving := by
  rw [isOpen]
  cases s.pendingStatus p <;> simp

theorem result?_eq_some {slot : Slot} :
    s.result? p = some slot ↔ s.pendingStatus p = .resolved slot := by
  rw [result?]
  cases s.pendingStatus p <;> simp

theorem result?_of_isOpen (h : s.isOpen p = true) : s.result? p = none := by
  rcases isOpen_iff.mp h with h | h <;> rw [result?, h]

theorem pendingStatus_of_absent (h : s.pendings.size ≤ p) : s.pendingStatus p = .unresolved := by
  rw [pendingStatus, Array.getElem?_eq_none h]
  rfl

theorem lt_of_result? {slot : Slot} (h : s.result? p = some slot) : p < s.pendings.size := by
  by_contra hge
  rw [result?_eq_some, pendingStatus_of_absent (Nat.not_lt.mp hge)] at h
  exact nomatch h

/-- A change of one pending leaves the others. -/
theorem pending_of_ne {f : Pending → Pending} (h : p ≠ q) :
    (s.modifyPending p f).pendings[q]? = s.pendings[q]? := by
  rw [modifyPending, Array.getElem?_modify, if_neg h]

theorem pending_modify_self {f : Pending → Pending} :
    (s.modifyPending p f).pendings[p]? = s.pendings[p]?.map f := by
  rw [modifyPending, Array.getElem?_modify, if_pos rfl]

theorem close_eq (s : Store) (p : PendingId) (status : PendingStatus) : ∃ loops,
    s.close p status = { s.modifyPending p fun c =>
      { c with status, resolver := none, waiters := [] } with loops } :=
  wakeAll_eq _ _

theorem nodes_close (status : PendingStatus) : (s.close p status).nodes = s.nodes := by
  obtain ⟨loops, hclose⟩ := s.close_eq p status
  rw [hclose]
  rfl

theorem nodes_setResult (s : Store) (p : PendingId) (slot : Slot) :
    (s.setResult p slot).2.nodes = s.nodes := by
  rw [setResult]
  repeat' split
  all_goals simp [nodes_close]

theorem size_close (status : PendingStatus) :
    (s.close p status).pendings.size = s.pendings.size := by
  obtain ⟨loops, hclose⟩ := s.close_eq p status
  rw [hclose]
  exact Array.size_modify

theorem pending_close_of_ne {status : PendingStatus} (h : p ≠ q) :
    (s.close p status).pendings[q]? = s.pendings[q]? := by
  obtain ⟨loops, hclose⟩ := s.close_eq p status
  rw [hclose]
  exact pending_of_ne h

theorem pendingStatus_close {status : PendingStatus} (hp : p < s.pendings.size) :
    (s.close p status).pendingStatus p = status := by
  obtain ⟨loops, hclose⟩ := s.close_eq p status
  rw [hclose, pendingStatus]
  show ((s.modifyPending p _).pendings[p]?.map Pending.status).getD _ = _
  rw [pending_modify_self, Array.getElem?_eq_getElem hp]
  rfl

theorem resolver?_close {status : PendingStatus} : (s.close p status).resolver? p = none := by
  obtain ⟨loops, hclose⟩ := s.close_eq p status
  rw [hclose, resolver?]
  show (s.modifyPending p _).pendings[p]?.bind _ = _
  rw [pending_modify_self]
  cases s.pendings[p]? <;> rfl

theorem lt_of_waiters (h : w ∈ s.waiters p) : p < s.pendings.size := by
  by_contra hge
  rw [waiters, Array.getElem?_eq_none (Nat.not_lt.mp hge)] at h
  exact absurd h List.not_mem_nil

theorem waiters_of_pending (h : t.pendings[p]? = s.pendings[p]?) :
    t.waiters p = s.waiters p := by
  rw [waiters, h, waiters]

theorem isOpen_of_pending (h : t.pendings[p]? = s.pendings[p]?) : t.isOpen p = s.isOpen p := by
  rw [isOpen, pendingStatus, h, isOpen, pendingStatus]

theorem waiters_close {status : PendingStatus} : (s.close p status).waiters p = [] := by
  obtain ⟨loops, hclose⟩ := s.close_eq p status
  rw [hclose, waiters]
  show ((s.modifyPending p _).pendings[p]?.map Pending.waiters).getD [] = []
  rw [pending_modify_self]
  cases s.pendings[p]? <;> rfl

/-! ### Changes -/

/-- What a change may do to the entry of a pending. -/
inductive CellMove (s t : Store) (p : PendingId) : Prop where
  | same (cell : t.pendings[p]? = s.pendings[p]?)
  | opened (fresh : s.pendings.size ≤ p) (c : Pending) (cell : t.pendings[p]? = some c)
      (status : c.status = .unresolved) (waiters : c.waiters = [])
  | resolved (slot : Slot) (known : p < s.pendings.size) (before : s.isOpen p = true)
      (closes : t = s.close p (.resolved slot))

theorem CellMove.of_pendings (h : t.pendings = s.pendings) : s.CellMove t p := .same (h ▸ rfl)

theorem openPending_cell (l : LoopId) (resolver : Option Resolver) (priority : Priority) :
    s.CellMove (s.openPending l resolver priority).2 p := by
  rw [openPending]
  split
  · exact .of_pendings rfl
  split
  · exact .of_pendings rfl
  rcases Nat.lt_trichotomy p s.pendings.size with hlt | rfl | hgt
  · exact .same (Array.getElem?_push_lt hlt ▸ (Array.getElem?_eq_getElem hlt).symm ▸ rfl)
  · exact .opened (Nat.le_refl _) _ Array.getElem?_push_size rfl rfl
  · refine .same ?_
    rw [Array.getElem?_eq_none (Nat.le_of_lt hgt)]
    exact Array.getElem?_eq_none (by rw [Array.size_push]; exact hgt)

theorem setResult_cell (q : PendingId) (slot : Slot) : s.CellMove (s.setResult q slot).2 p := by
  rw [setResult]
  split
  · exact .of_pendings rfl
  next hopen =>
  split
  · exact .of_pendings rfl
  split
  · exact .of_pendings rfl
  next hknown =>
  have hq : q < s.pendings.size := by
    simp only [Bool.not_eq_true, Bool.not_eq_false', Bool.and_eq_true, decide_eq_true_eq] at hknown
    exact hknown.2
  by_cases hqp : q = p
  · subst hqp
    exact .resolved slot hq (by simpa using hopen) rfl
  · exact .same (pending_close_of_ne hqp)

theorem nodes_spawn (s : Store) (l : LoopId) (body : TaskBody) :
    (s.spawn l body).2.nodes = s.nodes := by
  rw [spawn]
  repeat' split
  all_goals rfl

theorem pendings_spawn (s : Store) (l : LoopId) (body : TaskBody) :
    (s.spawn l body).2.pendings = s.pendings := by
  rw [spawn]
  repeat' split
  all_goals rfl

/-- **A change** leaves the entry of a pending as it was, adds it, or closes it. -/
theorem change_cell (c : Change) : s.CellMove (c.apply s) p := by
  cases c with
  | build k =>
    refine .of_pendings ?_
    show (s.build k).2.pendings = s.pendings
    obtain h | ⟨contents, node, h⟩ := s.build_eq k
    all_goals rw [h]
  | complete n k =>
    refine .of_pendings ?_
    show (s.complete n k).2.pendings = s.pendings
    rw [complete]
    repeat' split
    all_goals rfl
  | openPending l resolver priority => exact openPending_cell l resolver priority
  | spawn l d => exact .of_pendings (pendings_spawn s l (.merge d))
  | setResult q slot => exact setResult_cell q slot
  | _ => exact .of_pendings rfl

/-- What a change may do to a pending, and to the way that it gets its result. -/
inductive PendingMove (s t : Store) (p : PendingId) : Prop where
  | same (status : t.pendingStatus p = s.pendingStatus p)
      (resolver : t.resolver? p = s.resolver? p)
  | opened (fresh : s.pendings.size ≤ p) (status : t.pendingStatus p = .unresolved)
  | resolved (slot : Slot) (before : s.isOpen p = true)
      (status : t.pendingStatus p = .resolved slot) (resolver : t.resolver? p = none)

theorem PendingMove.of_pending (h : t.pendings[p]? = s.pendings[p]?) : s.PendingMove t p := by
  refine .same ?_ ?_
  · rw [pendingStatus, h, pendingStatus]
  · rw [resolver?, h, resolver?]

theorem PendingMove.of_pendings (h : t.pendings = s.pendings) : s.PendingMove t p :=
  .of_pending (h ▸ rfl)

theorem CellMove.pendingMove (h : s.CellMove t p) : s.PendingMove t p := by
  cases h with
  | same cell => exact .of_pending cell
  | opened fresh c cell status _ =>
    refine .opened fresh ?_
    rw [pendingStatus, cell]
    exact status
  | resolved slot known before closes =>
    exact .resolved slot before (closes ▸ pendingStatus_close known) (closes ▸ resolver?_close)

/-- A change adds no task to be woken. -/
theorem waiters_change (c : Change) : ∀ w ∈ (c.apply s).waiters p, w ∈ s.waiters p := by
  intro w hw
  cases change_cell (s := s) (p := p) c with
  | same cell => rwa [waiters_of_pending cell] at hw
  | opened _ cell' cell _ hnone =>
    rw [waiters, cell] at hw
    change w ∈ cell'.waiters at hw
    rw [hnone] at hw
    exact absurd hw List.not_mem_nil
  | resolved slot _ _ closes =>
    rw [closes, waiters_close] at hw
    exact absurd hw List.not_mem_nil

theorem waiters_evolves (h : Evolves s t) : ∀ w ∈ t.waiters p, w ∈ s.waiters p := by
  induction h with
  | refl => exact fun w => id
  | step c _ ih => exact fun w hw => ih w (waiters_change c w hw)

/-! ### Registering tasks -/

theorem pending_register_self (s : Store) (w : Waiter) (p : PendingId) :
    (s.register w p).pendings[p]? = s.pendings[p]?.map fun c =>
      if w ∈ c.waiters then c else { c with waiters := c.waiters ++ [w] } :=
  pending_modify_self

theorem pendingStatus_register (s : Store) (w : Waiter) (q p : PendingId) :
    (s.register w q).pendingStatus p = s.pendingStatus p := by
  by_cases hqp : q = p
  · subst hqp
    rw [pendingStatus, pending_register_self, pendingStatus]
    cases s.pendings[q]? with
    | none => rfl
    | some c =>
      show (if w ∈ c.waiters then c else _).status = c.status
      split <;> rfl
  · rw [pendingStatus, register, pending_of_ne hqp, pendingStatus]

theorem isOpen_register (v : Waiter) (q : PendingId) : (s.register v q).isOpen p = s.isOpen p := by
  rw [isOpen, pendingStatus_register, isOpen]

theorem resolver?_register (s : Store) (w : Waiter) (q p : PendingId) :
    (s.register w q).resolver? p = s.resolver? p := by
  by_cases hqp : q = p
  · subst hqp
    rw [resolver?, pending_register_self, resolver?]
    cases s.pendings[q]? with
    | none => rfl
    | some c =>
      show (if w ∈ c.waiters then c else _).resolver = c.resolver
      split <;> rfl
  · rw [resolver?, register, pending_of_ne hqp, resolver?]

theorem register_pending (w : Waiter) (q : PendingId) : s.PendingMove (s.register w q) p :=
  .same (s.pendingStatus_register w q p) (s.resolver?_register w q p)

/-- Only the task that is registered is added to those to be woken. -/
theorem mem_waiters_of_register {v : Waiter} (hw : w ∈ (s.register v q).waiters p) :
    w ∈ s.waiters p ∨ w = v := by
  by_cases hqp : q = p
  · subst hqp
    rw [waiters, pending_register_self] at hw
    rw [waiters]
    cases hcell : s.pendings[q]? with
    | none => rw [hcell] at hw; exact .inl hw
    | some c =>
      rw [hcell] at hw
      change w ∈ (if v ∈ c.waiters then c else { c with waiters := c.waiters ++ [v] }).waiters at hw
      split at hw
      · exact .inl hw
      · exact (List.mem_append.mp hw).imp_right List.mem_singleton.mp
  · rw [register, waiters_of_pending (pending_of_ne hqp)] at hw
    exact .inl hw

/-! ### Waiting -/

theorem canWait_iff : s.canWait p = true ↔ p < s.pendings.size ∧ s.isOpen p = true := by
  rw [canWait, Bool.and_eq_true, decide_eq_true_eq]

theorem poll_open {v : Slot} (h : s.poll v = .inl p) :
    s.resolve v = .pending p ∧ s.canWait p = true := by
  rw [Store.poll] at h
  split at h
  · next heq =>
    repeat' split at h
    · exact nomatch h
    · next hwait =>
      cases h
      exact ⟨heq, hwait⟩
    · exact nomatch h
  · exact nomatch h

/-- The pending that a wait meets is open. -/
theorem ask_open {w : Wait} (h : s.ask w = .inl p) : s.canWait p = true := by
  cases w with
  | pending q =>
    rw [ask] at h
    repeat' split at h
    · cases h
    · next hwait =>
      cases h
      exact hwait
    · cases h
  | slot slot => exact (poll_open h).2

end Store

end ValueInference
