/-
Forcing a pending more than once.

A pending that is closed keeps its outcome, and whoever forces it later is handed that outcome at
once.  The call that closes it is another matter.  It hands on what its resolver or the loop ended
with: a resolver that fails is reported as the failure of the pending, with the error as its cause,
while the pending itself keeps the bare error; and where there is no resolver and the loop is run
instead, the error that ended the run is handed on even if the pending was resolved meanwhile.

* **`Store.Seals`** — closed pendings keep their outcomes;
* **`Machine.Move.seals`** — every step does that, except for a resolver that fails late;
* **`Machine.Forced`** — what a call may hand on that forces a pending;
* **`Machine.forced_again`** — what is handed on later.
-/
import ValueInference.Proofs.Callers

namespace ValueInference

namespace Store

variable {s t u : Store} {p q : PendingId} {P : PendingId → Prop}

/-! ### Outcomes of closed pendings -/

/-- Some pendings, if they are closed, keep their outcomes. -/
def Seals (P : PendingId → Prop) (s t : Store) : Prop :=
  ∀ p, P p → s.isOpen p = true ∨ t.pendingStatus p = s.pendingStatus p

theorem Seals.refl (s : Store) : Seals P s s := fun _ _ => .inr rfl

theorem Seals.trans (h : Seals P s t) (h' : Seals P t u) : Seals P s u := by
  intro p hp
  rcases h p hp with hopen | hsame
  · exact .inl hopen
  rcases h' p hp with hopen | hsame'
  · rw [isOpen, hsame, ← isOpen] at hopen
    exact .inl hopen
  · exact .inr (hsame'.trans hsame)

theorem Seals.of_pendings (h : t.pendings = s.pendings) : Seals P s t :=
  fun _ _ => .inr (pendingStatus_of_pendings h)

theorem Quiet.seals (h : s.Quiet t) : Seals P s t := by
  induction h with
  | refl => exact .refl s
  | tail _ hlast ih => exact ih.trans fun p _ => (hlast.pending p).open_or_same

/-- A resolver starts on an open pending. -/
theorem Idle.seals_beginResolving {res : Resolver} (hs : s.Idle)
    (h : s.beginResolving p = (some res, t)) : Seals P s t := by
  obtain ⟨hres, rfl⟩ := beginResolving_eq h
  intro q _
  by_cases hpq : p = q
  · subst hpq
    exact .inl (isOpen_iff.mpr (.inl (hs p (by rw [hres]; exact nofun))))
  · rw [pendingStatus, pending_of_ne hpq]
    exact .inr rfl

theorem outcome?_of_status (h : t.pendingStatus p = s.pendingStatus p) :
    t.outcome? p = s.outcome? p := by
  rw [outcome?, h, outcome?]

/-- What is closed has an outcome. -/
theorem outcome?_of_closed (h : s.isOpen p = false) : ∃ r, s.outcome? p = some r := by
  rw [isOpen] at h
  rw [outcome?]
  cases hstatus : s.pendingStatus p with
  | unresolved | resolving => simp [hstatus] at h
  | resolved slot => exact ⟨_, rfl⟩
  | failed e => exact ⟨_, rfl⟩

theorem closed_of_outcome? {r : Except InferError Slot} (h : s.outcome? p = some r) :
    s.isOpen p = false := by
  rw [outcome?] at h
  rw [isOpen]
  cases hstatus : s.pendingStatus p with
  | unresolved | resolving => simp [hstatus] at h
  | _ => rfl

theorem pendingNumber_close (status : PendingStatus) :
    (s.close p status).pendingNumber q = s.pendingNumber q := by
  have haddresses : (s.close p status).addresses = s.addresses := by
    obtain ⟨loops, hclose⟩ := s.close_eq p status
    rw [hclose]
    exact addresses_modifyPending (fun _ => rfl) fun _ => rfl
  rw [pendingNumber_eq, haddresses, ← pendingNumber_eq]

theorem outcome?_of_open (h : s.isOpen p = true) : s.outcome? p = none := by
  cases hr : s.outcome? p with
  | none => rfl
  | some r => cases h.symm.trans (closed_of_outcome? hr)

end Store

namespace Machine

variable {σ : Type} {m m' : Machine σ} {l l' : LoopId} {p : PendingId} {P : PendingId → Prop}

/-- **A step** lets closed pendings keep their outcomes, apart from one whose resolver fails
late. -/
theorem Move.seals (h : m.Move m') (hm : m.store.Idle)
    (hlate : ∀ p, P p → m.lateFailure? ≠ some p) : Store.Seals P m.store m'.store := by
  refine h.store_induction (motive := fun s => Store.Seals P m.store s) (.refl _) ?_ ?_ ?_ ?_
  · exact fun hs _ hpendings => hs.trans (.of_pendings hpendings)
  · exact fun hs hquiet => hs.trans hquiet.seals
  · exact fun hquiet hs hbegin => hs.trans ((hm.quiet hquiet).seals_beginResolving hbegin)
  · intro p e hopen q hq
    by_cases hpq : p = q
    · exact .inl (hpq ▸ hopen (hlate p (hpq ▸ hq)))
    · rw [Store.fail, Store.pendingStatus, Store.pending_close_of_ne hpq]
      exact .inr rfl

/-- Along a run an outcome stays, unless the pending's resolver fails late. -/
theorem outcome?_run (hm : m.Reachable) {r : Outcome} (hr : m.store.outcome? p = some r) (k : Nat)
    (hlate : ∀ i < k, (m.run i).lateFailure? ≠ some p) : (m.run k).store.outcome? p = some r := by
  refine run_keeps (P := fun m' => m'.store.outcome? p = some r) k hr fun i hi ih m' hstep => ?_
  have hseals := (moves hstep).seals (P := (· = p)) (hm.run i).idle fun q hq => hq ▸ hlate i hi
  rcases hseals p rfl with hopen | hsame
  · cases hopen.symm.trans (Store.closed_of_outcome? ih)
  · rw [Store.outcome?_of_status hsame, ih]

/-- An outcome stays for good if no resolver of the pending is under way. -/
theorem outcome?_lasts (hm : m.Reachable) {r : Outcome} (hr : m.store.outcome? p = some r)
    (hnone : p ∉ m.resolvers) (k : Nat) : (m.run k).store.outcome? p = some r := by
  suffices h : (m.run k).store.outcome? p = some r ∧ p ∉ (m.run k).resolvers from h.1
  refine run_keeps (P := fun m' => m'.store.outcome? p = some r ∧ p ∉ m'.resolvers) k ⟨hr, hnone⟩ ?_
  intro i _ ⟨hr, hnone⟩ m' hstep
  have hclosed := Store.closed_of_outcome? hr
  have hmove := moves hstep
  constructor
  · have hlate : (m.run i).lateFailure? ≠ some p := by
      intro hfails
      rw [lateFailure?] at hfails
      split at hfails
      · next q rest e hstack _ =>
        split at hfails
        · cases hfails
        · cases hfails
          exact hnone (mem_resolvers.mpr (hstack ▸ List.mem_cons_self))
      · cases hfails
    have hseals := hmove.seals (P := (· = p)) (hm.run i).idle fun q hq => hq ▸ hlate
    rcases hseals p rfl with hopen | hsame
    · cases hopen.symm.trans hclosed
    · rw [Store.outcome?_of_status hsame, hr]
  · rcases hmove.resolvers_cases with heq | ⟨q, heq, -⟩ | ⟨q, heq, -⟩
    · rwa [heq]
    · -- a resolver starts on an open pending only
      obtain ⟨q', hstarts⟩ := hmove.starts (by rw [heq]; exact Nat.lt_succ_self _)
      have hopen := (hstarts.fresh (hm.run i).idle).2
      rw [hstarts.resolvers]
      refine fun hp => (List.mem_cons.mp hp).elim ?_ hnone
      rintro rfl
      cases hopen.symm.trans hclosed
    · rw [heq] at hnone
      exact fun hp => hnone (List.mem_cons_of_mem q hp)

/-! ### Calls that force a pending -/

section

variable {c j k : Nat} {next next' : Outcome → Program σ} {r r' : Outcome}

theorem Answered.of_run {n : Nat} (h : (m.run n).Answered c j next r) :
    m.Answered (n + c) (n + j) next r where
  later := Nat.add_lt_add_left h.later n
  under i hi hj := by
    obtain ⟨d, rfl⟩ := Nat.exists_eq_add_of_le (Nat.le_trans (Nat.le_add_right n (c + 1)) hi)
    rw [run_add, run_add]
    exact h.under d (by omega) (by omega)
  handed := by
    rw [Hands, run_add, run_add]
    exact h.handed

/-- The first outcome that comes back to the code that called is what the call returns. -/
theorem Answered.eq_of_hands (h : m.Answered c j next r) (hc : c < k) (hk : k ≤ j)
    (hhands : m.Hands k (.client next' :: (m.run c).stack) r') : k = j ∧ r = r' := by
  obtain rfl := h.first hc hk hhands
  cases h.handed.2.symm.trans hhands.2
  exact ⟨rfl, rfl⟩

/-- A call that forces a closed pending returns its outcome at once. -/
theorem answered_of_outcome? (hforce : (m.run c).control = .exec (.force l p next))
    (hr : (m.run c).store.outcome? p = some r) : m.Answered c (c + 1) next r := by
  have hnext : m.run (c + 1) = ((m.run c).push (.client next)).answer r := by
    rw [run_of_step (step_exec hforce), execute, startForce]
    simp only [show ((m.run c).push (.client next)).store = (m.run c).store from rfl, hr]
  have hhands : m.Hands (c + 1) (.client next :: (m.run c).stack) r :=
    ⟨by rw [hnext]; rfl, by rw [hnext]; rfl⟩
  refine ⟨Nat.lt_succ_self c, stays_single ?_, hhands⟩
  rw [hhands.1]
  exact Nat.lt_succ_self _

/-- A call that forces a pending passes an error on, and otherwise returns the outcome of the
pending, if it is closed by then. -/
theorem Answered.of_forcing (h : m.Answered c j next r)
    (hclosed : (m.run j).store.isOpen p = false) (hc : c < k) (hk : k < j)
    (hhands : m.Hands k (.forcing l p :: .client next :: (m.run c).stack) r') :
    (m.run j).store.outcome? p = some r ∨
      (m.run j).store = (m.run k).store ∧ ∃ e, r' = .error e ∧ r = .error e := by
  have hnext := hhands.next
  cases r' with
  | error e =>
    have hback : m.Hands (k + 1) (.client next :: (m.run c).stack) (.error e) :=
      ⟨by rw [hnext]; rfl, by rw [hnext]; rfl⟩
    obtain ⟨rfl, rfl⟩ := h.eq_of_hands (Nat.lt_succ_of_lt hc) hk hback
    exact .inr ⟨by rw [hnext]; rfl, e, rfl, rfl⟩
  | ok slot =>
    rw [resume, forceDone] at hnext
    split at hnext
    · next r₀ hr₀ =>
      have hback : m.Hands (k + 1) (.client next :: (m.run c).stack) r₀ :=
        ⟨by rw [hnext]; rfl, by rw [hnext]; rfl⟩
      obtain ⟨rfl, rfl⟩ := h.eq_of_hands (Nat.lt_succ_of_lt hc) hk hback
      refine .inl ?_
      rw [hnext]
      exact hr₀
    · next hnone =>
      -- a pending that is still open then is open when the call returns
      have hback : ∃ e, m.Hands (k + 1) (.client next :: (m.run c).stack) (.error e) :=
        ⟨_, by rw [hnext]; rfl, by rw [hnext]; rfl⟩
      obtain ⟨e, hback⟩ := hback
      obtain ⟨rfl, -⟩ := h.eq_of_hands (Nat.lt_succ_of_lt hc) hk hback
      rw [hnext] at hclosed
      obtain ⟨r₀, hr₀⟩ := Store.outcome?_of_closed hclosed
      cases hnone.symm.trans hr₀

/-- What a call hands on that forces a pending, by the outcome that the pending has when the call
returns. -/
inductive Forced (before after : Store) (p : PendingId) (r : Outcome) : Outcome → Prop where
  /-- The outcome of the pending. -/
  | outcome : Forced before after p r r
  /-- Its resolver has failed, and the pending keeps the bare error. -/
  | failure {e : InferError} (own : before.hasResolver p = true) (bare : r = .error e) :
      Forced before after p r (.error (.resolverFailed (after.pendingNumber p) e))
  /-- The loop was run for want of a resolver, and this is how the run ended. -/
  | run {e : InferError} (open_before : before.isOpen p = true) (none : before.hasResolver p = false) :
      Forced before after p r (.error e)

/-- A resolver's result that is refused leaves the pending open. -/
theorem resolved_answers (m : Machine σ) (p : PendingId) (slot : Slot) :
    ∃ r₀, (m.resolved p (.ok slot)).control = .answer r₀ ∧
      ∀ e, r₀ = .error e → (m.resolved p (.ok slot)).store.isOpen p = true := by
  rw [resolved]
  by_cases hopen : m.store.isOpen p = true
  swap
  · rw [if_neg hopen]
    exact ⟨unit, rfl, fun e he => by cases he⟩
  rw [if_pos hopen, Store.setResult]
  simp only [hopen, Bool.not_true, Bool.false_eq_true, if_false]
  split
  · next hset =>
    split at hset
    · cases hset
    split at hset
    · cases hset
    · exact ⟨unit, rfl, fun e he => by cases he⟩
  · next e s hset =>
    refine ⟨.error e, rfl, fun _ _ => ?_⟩
    split at hset
    · cases hset
      exact hopen
    split at hset
    · cases hset
      exact hopen
    · cases hset

/-- The resolver of a pending returns to the call that forces the pending. -/
theorem Answered.of_resolving (hm : m.Reachable) (h : m.Answered c j next r)
    (hclosed : (m.run j).store.isOpen p = false) (hc : c < k) (hk : k < j)
    (hhands : m.Hands k (.resolving p :: .forcing l p :: .client next :: (m.run c).stack) r') :
    (m.run j).store.outcome? p = some r ∨ ∃ e, (m.run j).store.outcome? p = some (.error e) ∧
      r = .error (.resolverFailed ((m.run j).store.pendingNumber p) e) := by
  have hp : p < (m.run k).store.pendings.size :=
    (hm.run k).numbered.frames (.resolving p) (hhands.1 ▸ List.mem_cons_self)
  have hnext := hhands.next
  let before : Machine σ := { m.run k with stack := .forcing l p :: .client next :: (m.run c).stack }
  have hstack : (m.run (k + 1)).stack = .forcing l p :: .client next :: (m.run c).stack := by
    rw [hnext]
    exact resolved_stack before p r'
  -- the forcing frame is not what the call returns to, so the call goes on
  have hk' : k + 1 < j := by
    refine Nat.lt_of_le_of_ne hk fun heq => ?_
    have hlength := congrArg List.length (hstack.symm.trans (heq ▸ h.handed.1))
    simp only [List.length_cons] at hlength
    omega
  cases r' with
  | error e =>
    have hfailed : m.Hands (k + 1) (.forcing l p :: .client next :: (m.run c).stack)
        (.error (.resolverFailed ((m.run k).store.pendingNumber p) e)) :=
      ⟨hstack, by rw [hnext]; rfl⟩
    rcases h.of_forcing hclosed (Nat.lt_succ_of_lt hc) hk' hfailed with hsame | ⟨hstore, e', he', hr⟩
    · exact .inl hsame
    · cases he'
      have hfail : (m.run j).store = (m.run k).store.close p (.failed e) := by
        rw [hstore, hnext]
        rfl
      rw [hfail, Store.pendingNumber_close, Store.outcome?, Store.pendingStatus_close hp]
      exact .inr ⟨e, rfl, hr⟩
  | ok slot =>
    obtain ⟨r₀, hcontrol, hopen⟩ := resolved_answers before p slot
    have hpassed : m.Hands (k + 1) (.forcing l p :: .client next :: (m.run c).stack) r₀ :=
      ⟨hstack, by rw [hnext]; exact hcontrol⟩
    rcases h.of_forcing hclosed (Nat.lt_succ_of_lt hc) hk' hpassed with hsame | ⟨hstore, e, he, -⟩
    · exact .inl hsame
    · have hstill : (m.run j).store.isOpen p = true := by
        rw [hstore, hnext]
        exact hopen e he
      cases hstill.symm.trans hclosed

/-- **What the call returns that closes a pending:** its outcome, or the failure of its resolver, or
how the run of the loop ended. -/
theorem Answered.forced (hm : m.Reachable) (h : m.Answered c j next r)
    (hforce : (m.run c).control = .exec (.force l p next))
    (hclosed : (m.run j).store.isOpen p = false) :
    ∃ r₀, (m.run j).store.outcome? p = some r₀ ∧ Forced (m.run c).store (m.run j).store p r₀ r := by
  have hnext := run_of_step (step_exec hforce)
  rw [execute, startForce] at hnext
  split at hnext
  · next r₀ hr₀ =>
    -- the pending is closed already
    have hanswered := answered_of_outcome? hforce hr₀
    obtain ⟨rfl, rfl⟩ := h.eq_of_hands (Nat.lt_succ_self c) h.later hanswered.handed
    refine ⟨r, ?_, .outcome⟩
    rw [hnext]
    exact hr₀
  next hnone =>
  have hopen : (m.run c).store.isOpen p = true := by
    by_contra hnot
    obtain ⟨r₀, hr₀⟩ := Store.outcome?_of_closed (Bool.eq_false_iff.mpr hnot)
    cases hnone.symm.trans hr₀
  split at hnext
  · -- the resolver of the pending is under way, and the pending stays open
    have hback : ∃ e, m.Hands (c + 1) (.client next :: (m.run c).stack) (.error e) :=
      ⟨_, by rw [hnext]; rfl, by rw [hnext]; rfl⟩
    obtain ⟨e, hback⟩ := hback
    obtain ⟨rfl, -⟩ := h.eq_of_hands (Nat.lt_succ_self c) h.later hback
    rw [hnext] at hclosed
    cases hopen.symm.trans hclosed
  -- whatever is put on the code that called is gone when the call returns
  have hgone : ∀ (f : Frame σ) (above : List (Frame σ)),
      ¬ f :: above ++ .client next :: (m.run c).stack <:+ (m.run j).stack := by
    intro f above hsuffix
    have hlength := hsuffix.length_le
    rw [h.handed.1] at hlength
    simp only [List.length_append, List.length_cons] at hlength
    omega
  split at hnext
  · next hresolver =>
    obtain ⟨res, hres⟩ := Option.isSome_iff_exists.mp hresolver
    have hstack : (m.run (c + 1)).stack =
        .resolving p :: .forcing l p :: .client next :: (m.run c).stack := by
      rcases startResolver_cases (((m.run c).push (.client next)).push (.forcing l p)) p with
        ⟨hnone, -⟩ | ⟨-, control, -, hstart⟩
      · cases hnone.symm.trans hres
      · rw [hnext, hstart]
        rfl
    obtain ⟨k, r', hck, hkj, -, htop, hr⟩ := leaves (f := .resolving p) trivial
      (hstack ▸ List.suffix_rfl) h.later (hgone _ [.forcing l p])
    rcases h.of_resolving hm hclosed hck hkj ⟨htop, hr⟩ with hsame | ⟨e, hfailed, rfl⟩
    · exact ⟨r, hsame, .outcome⟩
    · exact ⟨.error e, hfailed, .failure hresolver rfl⟩
  · next hresolver =>
    have hstack : (m.run (c + 1)).stack =
        .drive l (.closed p) :: .forcing l p :: .client next :: (m.run c).stack := by
      rw [hnext]
      rfl
    obtain ⟨k, r', hck, hkj, -, htop, hr⟩ := leaves (f := .forcing l p) trivial
      (hstack ▸ List.suffix_cons _ _) h.later (hgone _ [])
    rcases h.of_forcing hclosed hck hkj ⟨htop, hr⟩ with hsame | ⟨-, e, -, rfl⟩
    · exact ⟨r, hsame, .outcome⟩
    · obtain ⟨r₀, hr₀⟩ := Store.outcome?_of_closed hclosed
      exact ⟨r₀, hr₀, .run hopen (Bool.eq_false_iff.mpr hresolver)⟩

/-- **Forcing a pending again.**  Let a call that forces a pending return, with the pending closed
then.  It returns the outcome that the pending has from then on, except in two cases, in which it
returns an error: the resolver of the pending has failed, and the pending keeps the error without
the note that its resolver has failed; or the pending had no resolver, and the loop was run instead
and ended with an error of its own.  Every later call that forces the pending, of whatever loop,
returns at once with the outcome of the pending, unless a resolver of the pending that is still
under way fails in between.  So calls that force the pending return the same from the second on, and
from the first on if that succeeds. -/
theorem forced_again (hm : m.Reachable) (hforce : (m.run c).control = .exec (.force l p next))
    (h : m.Answered c j next r) (hclosed : (m.run j).store.isOpen p = false) :
    ∃ r₀, (m.run j).store.outcome? p = some r₀ ∧
      Forced (m.run c).store (m.run j).store p r₀ r ∧ (∀ slot, r = .ok slot → r₀ = r) ∧
      ∀ k l' next', j ≤ k → (m.run k).control = .exec (.force l' p next') →
        (∀ i, j ≤ i → i < k → (m.run i).lateFailure? ≠ some p) → m.Answered k (k + 1) next' r₀ := by
  obtain ⟨r₀, hr₀, hforced⟩ := h.forced hm hforce hclosed
  refine ⟨r₀, hr₀, hforced, fun slot hslot => ?_, fun k l' next' hjk hagain hlate => ?_⟩
  · cases hforced with
    | outcome => rfl
    | failure | run => cases hslot
  · obtain ⟨d, rfl⟩ := Nat.exists_eq_add_of_le hjk
    refine answered_of_outcome? hagain ?_
    rw [run_add]
    refine outcome?_run (hm.run j) hr₀ d fun i hi => ?_
    rw [← run_add]
    exact hlate (j + i) (Nat.le_add_right j i) (Nat.add_lt_add_left hi j)

end

/-- Code that forces a pending twice, whose resolver fails. -/
def forcedTwice : Program Unit :=
  .update (Infer.openLoop {}).run fun _ =>
    .pending 0 (.done (.error (.invalidConstruction (.custom "boom")))) (.ranked none) fun _ =>
      .force 0 0 fun _ => .force 0 0 .done

/-- The first call reports that the resolver has failed, and the second one the bare error. -/
theorem forced_again_forcedTwice :
    let m := start () forcedTwice
    let boom := InferError.invalidConstruction (.custom "boom")
    m.Answered 2 6 (fun _ => .force 0 0 .done) (.error (.resolverFailed 0 boom)) ∧
      m.Answered 7 8 .done (.error boom) := by
  intro m boom
  have hstack : (m.run 2).stack = [] := rfl
  have hfirst : m.Answered 2 6 (fun _ => .force 0 0 .done) (.error (.resolverFailed 0 boom)) := by
    refine ⟨by decide, fun i hi hle => ?_, rfl, rfl⟩
    rw [hstack]
    obtain rfl | rfl | rfl | rfl : i = 3 ∨ i = 4 ∨ i = 5 ∨ i = 6 := by omega
    all_goals exact Nat.succ_pos _
  obtain ⟨r₀, hr₀, -, -, hlater⟩ := forced_again (p := 0) (.start () forcedTwice) rfl hfirst (by decide)
  obtain rfl : r₀ = .error boom := Option.some.inj (hr₀.symm.trans rfl)
  refine ⟨hfirst, hlater 7 0 .done (by decide) rfl fun i hi hle => ?_⟩
  obtain rfl : i = 6 := by omega
  decide

end Machine

end ValueInference
