/-
Runs of client code that brings in sets as they are made.

A possibility set has a token, which stands for its candidates.  Client code that hands a set on as
it got it never gives one token to different candidates, and then every store along a run is
attained: whatever is known of attained stores holds at each step.  What client code hands over is
what its computations change, what its resolvers return, and what merges that were put off are
about.  Besides these, steps make no changes or ones that bring in nothing.

* **`Store.Upkeep.attained`** — what a machine does to the store by itself keeps it attained;
* **`Infer.Harmless`** — computations that bring in nothing, and **`Infer.harmless_mergeSlots`**;
* **`Infer.KnownMerge.admits`**, **`Infer.continues_mergeDeferred`** — merges of admitted slots give
  admitted ones;
* **`Machine.Admissible`** — what client code hands over at a step is admitted;
* **`Machine.step_attained`**, **`Machine.run_attained`**, **`Machine.run_sound`** — steps and runs
  of such code keep to attained stores.
-/
import ValueInference.Proofs.Attained
import ValueInference.Proofs.Errors
import ValueInference.Proofs.Widening

namespace ValueInference

namespace Store

variable {s t u : Store} {v w : Slot}

/-! ### Attained stores -/

theorem Continues.attained (h : s.Continues t) (hs : s.Attained) : t.Attained := by
  induction h with
  | refl => exact hs
  | step c _ hc ih => exact .step c ih hc

/-- What a loop keeps of its tasks is no concern of the nodes and the results. -/
theorem Stalls.of_loops {loops : Array LoopState} (h : t = { s with loops }) : s.Stalls t :=
  h ▸ ⟨rfl, rfl, rfl, rfl, rfl, fun _ _ => id⟩

theorem Chore.attained (h : s.Chore t) (hs : s.Attained) : t.Attained := by
  cases h with
  | record d => exact .step (.record d) hs trivial
  | note l f kept => exact .stall hs (.of_loops rfl)
  | register w p =>
    refine .stall hs (stalls_modifyPending (fun c => ?_) fun c v hv => ?_)
    · split <;> rfl
    · split at hv <;> exact hv
  | spawn l body =>
    refine .stall hs ?_
    rw [Store.spawn]
    repeat' split
    all_goals exact .of_loops rfl
  | openPending l resolver priority => exact .step (.openPending l resolver priority) hs trivial
  | take p => exact .stall hs (stalls_modifyPending (fun _ => rfl) fun _ _ hv => by cases hv)
  | fail p e => exact .stall hs (stalls_fail e)

theorem Upkeep.attained (h : s.Upkeep t) (hs : s.Attained) : t.Attained := by
  induction h with
  | refl => exact hs
  | tail _ h ih => exact h.attained ih

/-! ### Admitted slots -/

/-- What may be brought in depends on the nodes, the pendings and the tokens. -/
theorem AdmitsSlot.of_same (h : s.AdmitsSlot v) (hnodes : t.nodes = s.nodes)
    (hpendings : t.pendings = s.pendings) (htokens : t.tokens = s.tokens) : t.AdmitsSlot v := by
  intro p hp
  have hheld : ∀ q, t.HoldsSet q → s.HoldsSet q := fun q hq => by
    rcases hq with ⟨n, hn⟩ | ⟨r, hr⟩
    · rw [kind, hnodes] at hn
      exact .inl ⟨n, hn⟩
    · rw [result?_of_pendings hpendings] at hr
      exact .inr ⟨r, hr⟩
  exact ⟨htokens ▸ (h p hp).issued, (h p hp).distinct,
    fun q hq => (h p hp).coherent q (hheld q hq)⟩

/-- What an admitted slot stands for is admitted: the slot itself, or a result. -/
theorem AdmitsSlot.resolve (h : s.AdmitsSlot v) (hs : s.Sound) : s.AdmitsSlot (s.resolve v) := by
  cases v with
  | pending p =>
    have hheld : s.HoldsSlot (.pending p) := fun _ hq => by cases hq
    exact fun q hq => hs.sets q (hheld.resolved hq)
  | possibilities p => exact (s.resolve_self (.possibilities p) rfl).symm ▸ h
  | constant c => exact (s.resolve_self (.constant c) rfl).symm ▸ h
  | anything => exact (s.resolve_self .anything rfl).symm ▸ h

theorem AdmitsSlot.nodup (h : s.AdmitsSlot v) : (Infer.candidatesOf v).Nodup := by
  cases v with
  | possibilities p => exact (h p rfl).distinct
  | constant c => exact List.nodup_singleton _
  | _ => exact List.nodup_nil

end Store

/-! ### Merges of admitted slots -/

namespace Infer

variable {α β : Type} {s t : Store} {v w x : Slot} {l : LoopId} {d : Deferral}

/-- A computation that brings in nothing, on whatever store. -/
def Harmless (x : Infer α) : Prop := ∀ s : Store, s.Continues (x.outcome s).2

namespace Harmless

theorem pure (a : α) : Harmless (Pure.pure a) := fun _ => .refl

theorem throw (e : InferError) : Harmless (MonadExcept.throw e : Infer α) := fun _ => .refl

/-- **A sequence is harmless** if its parts are. -/
theorem bind {x : Infer α} {f : α → Infer β} (hx : Harmless x) (hf : ∀ a, Harmless (f a)) :
    Harmless (x >>= f) := by
  intro s
  have h := hx s
  rw [outcome_bind]
  rcases hrun : x.outcome s with ⟨e | a, t⟩ <;> rw [hrun] at h
  · exact h
  · exact h.trans (hf a t)

theorem store_bind {f : Store → Infer α} (hf : ∀ s, Harmless (f s)) : Harmless (store >>= f) :=
  fun s => hf s s

theorem report (d : Diagnostic) : Harmless (report d) := fun _ => .step (.record d) .refl trivial

theorem possibilities (cs : List Candidate) : Harmless (possibilities cs) :=
  fun _ => .step (.token) .refl trivial

theorem openPending (l : LoopId) (resolver : Option Resolver) (priority : Priority) :
    Harmless (openPending l resolver priority) :=
  fun _ => .step (.openPending l resolver priority) .refl trivial

theorem spawn (l : LoopId) (d : Deferral) : Harmless (spawn l d) :=
  fun _ => .step (.spawn l d) .refl trivial

end Harmless

theorem harmless_deferMerge (scope : MergeScope) (forced : Bool) (v w : Slot) :
    Harmless (deferMerge scope forced v w) := by
  rw [deferMerge]
  split
  · exact .throw _
  · exact .store_bind fun s => (Harmless.openPending _ _ _).bind fun p =>
      (Harmless.spawn _ _).bind fun _ => .pure _

theorem harmless_mergeCandidates (scope : MergeScope) (forced : Bool) (a b v w : Slot) :
    Harmless (mergeCandidates scope forced a b v w) := by
  refine .store_bind fun s => ?_
  dsimp only
  split
  · exact .pure _
  split
  · exact .throw _
  split
  · exact .pure _
  split
  · exact (Harmless.report _).bind fun _ => .pure _
  · exact (Harmless.possibilities _).bind fun _ => .pure _

/-- **A merge of slots** brings in nothing: it may hand out a set, or put the merge off. -/
theorem harmless_mergeSlots (scope : MergeScope) (forced : Bool) (v w : Slot) :
    Harmless (mergeSlots scope forced v w) := by
  refine .store_bind fun s => ?_
  dsimp only
  repeat' split
  all_goals first
    | exact .pure _
    | exact .throw _
    | exact harmless_deferMerge _ _ _ _
    | exact harmless_mergeCandidates _ _ _ _ _ _
    | exact (Harmless.report _).bind fun _ => .pure _

/-- **What a merge of admitted slots gives** is admitted: one of them, or a set with a new token. -/
theorem KnownMerge.admits {r : Except InferError Slot × Store} (h : KnownMerge s v w r)
    (hs : s.Sound) (hv : s.AdmitsSlot v) (hw : s.AdmitsSlot w) (hx : r.1 = .ok x) :
    r.2.AdmitsSlot x := by
  cases h with
  | error e => cases hx
  | left =>
    cases hx
    exact hv
  | right =>
    cases hx
    exact hw
  | union =>
    cases hx
    rintro p ⟨⟩
    exact hs.admits_new (Store.nodup_addCandidates hv.nodup)
  | _ =>
    cases hx
    intro p hp
    cases hp

/-- **A merge that was put off** makes admitted changes once its operands are known. -/
theorem continues_mergeDeferred (hs : s.Sound) (hv : s.AdmitsSlot v) (hw : s.AdmitsSlot w)
    (hknown : v.pendings = []) (hknown' : w.pendings = []) :
    s.Continues ((mergeDeferred l d v w).outcome s).2 := by
  have hmerge := harmless_mergeSlots (s.mergeScope (some l)) d.forced v w s
  have hresult := mergeSlots_known (s := s) (s.mergeScope (some l)) d.forced hknown hknown'
  rw [mergeDeferred, outcome_store_bind]
  rcases hrun : (mergeSlots (s.mergeScope (some l)) d.forced v w).outcome s with ⟨e | x, t⟩
  all_goals rw [hrun] at hmerge hresult
  · rwa [outcome_bind_of_error hrun]
  refine hmerge.trans ?_
  rw [outcome_bind_of_ok hrun, outcome_store_bind]
  split
  · next existing _ =>
    rw [outcome_discard]
    exact harmless_mergeSlots _ _ existing x t
  · exact .step (.setResult d.out x) .refl (hresult.admits hs hv hw rfl)

end Infer

/-! ### Runs -/

namespace Machine

variable {σ : Type} {m m' : Machine σ}

/-- What client code hands over at the next step is admitted: what a computation brings in, the slot
that a resolver returns, and the operands of a merge that was put off. -/
structure Admissible (m : Machine σ) : Prop where
  update : ∀ {α : Type} {x : Update α} {next : α → Program σ},
    m.control = .exec (.update x next) → m.store.Continues (x.run m.store).2
  resolved : ∀ {p : PendingId} {slot : Slot} {rest : List (Frame σ)},
    m.stack = .resolving p :: rest → m.control = .answer (.ok slot) → m.store.AdmitsSlot slot
  merged : ∀ {l : LoopId} {t : TaskId} {d : Deferral}, m.polls? = some ⟨l, t⟩ →
    (m.store.loop l).tasks.lookup t = some (.merge d) →
      m.store.AdmitsSlot d.left ∧ m.store.AdmitsSlot d.right

theorem Affects.attained {s : Store} (h : m.Affects s) (hm : m.store.Attained)
    (hadmissible : m.Admissible) : s.Attained := by
  cases h with
  | upkeep h => exact h.attained hm
  | update control => exact (hadmissible.update control).attained hm
  | resolved stack control =>
    exact .step (.setResult _ _) hm (hadmissible.resolved stack control)
  | @merged l t d s left right polls table h nodes pendings tokens known known' =>
    have hs := h.attained hm
    obtain ⟨hleft, hright⟩ := hadmissible.merged polls table
    obtain ⟨hresolve, hl⟩ := poll_ok known
    obtain ⟨hresolve', hr⟩ := poll_ok known'
    refine (Infer.continues_mergeDeferred hs.whole.sound ?_ ?_ hl hr).attained hs
    · exact hresolve ▸ (hleft.of_same nodes pendings tokens).resolve hs.whole.sound
    · exact hresolve' ▸ (hright.of_same nodes pendings tokens).resolve hs.whole.sound

/-- **A step** of admissible code leaves an attained store. -/
theorem step_attained (hm : m.store.Attained) (hadmissible : m.Admissible)
    (hstep : m.step = some m') : m'.store.Attained := by
  cases step_reporting hstep with
  | kept haffects => exact haffects.attained hm hadmissible
  | told => exact .stall hm (.of_loops rfl)
  | done => exact .stall hm (.of_loops rfl)
  | taken => exact .stall hm (.of_loops rfl)

/-- **A run** of admissible code leaves an attained store. -/
theorem run_attained (hm : m.store.Attained) (k : Nat) (h : ∀ i < k, (m.run i).Admissible) :
    (m.run k).store.Attained := by
  refine run_keeps (P := fun m' => m'.store.Attained) k hm ?_
  intro i hi ih m' hstep
  exact step_attained ih (h i hi) hstep

/-- The stores along a run of admissible code are sound. -/
theorem run_sound (hm : m.store.Attained) {k : Nat} (h : ∀ i < k, (m.run i).Admissible) :
    ∀ i ≤ k, (m.run i).store.Sound := fun i hi =>
  (run_attained hm i fun j hj => h j (Nat.lt_of_lt_of_le hj hi)).whole.sound

end Machine

end ValueInference
