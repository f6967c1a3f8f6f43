/-
Deferred merges, along every run.

A merge that meets an open pending is put off.  A task waits for both operands, and a new pending
stands for the result.  That pending may be forced before the task is through; it is then taken for
what is known of one operand, and the merge has to be covered by that.

* **`Infer.mergeDeferred_ok`** — what the task does once both operands are known;
* **`Store.Postpones`** — a store in which the task, the pending and its resolver are about the
  operands of the merge;
* **`Machine.Postpones.step`** — every step keeps this;
* **`Machine.deferred_merge_sound`** — so the result covers both operands, and it is that of the
  merge itself if the pending was not resolved before.
-/
import ValueInference.Proofs.Becoming
import ValueInference.Proofs.KnownSlots
import ValueInference.Proofs.Tables

namespace ValueInference

/-- A merge that was put off: the task of a loop does it, under the loop's limits. -/
structure Postponed extends Deferral where
  loop : LoopId
  task : TaskId
  config : Config

/-- The frames of the task, and of the resolver of the pending. -/
def Postponed.Concerns {σ : Type} (d : Postponed) (f : Frame σ) : Prop :=
  (∃ body, f = .task d.loop d.task body) ∨ f = .resolving d.out

namespace Store

variable {s t : Store} {d : Postponed} {p : PendingId} {v w e : Slot}

theorem mergeScope_loop (s : Store) (l : LoopId) :
    s.mergeScope (some l) = ⟨some l, (s.loop l).config⟩ := by
  show MergeScope.mk _ ((s.loops[l]?.map LoopState.config).getD {}) = _
  rw [loop]
  cases s.loops[l]? <;> rfl

/-! ### Results of pendings -/

/-- A pending that has a result after steps that did not close it had the result before. -/
theorem Persists.result (h : s.Persists t) (hkeep : s.isOpen p = true → t.isOpen p = true)
    (he : t.result? p = some e) : s.result? p = some e := by
  by_cases hopen : s.isOpen p = true
  · rw [result?_of_isOpen (hkeep hopen)] at he
    cases he
  rcases isOpen_eq_false_iff.mp (Bool.eq_false_iff.mpr hopen) with ⟨w, hw⟩ | hfailed
  · rcases (h p).1 w hw with hw' | hfailed
    · rwa [hw, ← hw']
    · obtain ⟨x, hx⟩ := error?_isSome_iff.mp hfailed
      rw [result?, hx] at he
      cases he
  · obtain ⟨x, hx⟩ := error?_isSome_iff.mp ((h p).2 hfailed)
    rw [result?, hx] at he
    cases he

theorem result?_of_pendings (h : t.pendings = s.pendings) : t.result? p = s.result? p :=
  result?_of_status (pendingStatus_of_pendings h)

theorem isOpen_of_pendings (h : t.pendings = s.pendings) : t.isOpen p = s.isOpen p := by
  rw [isOpen, pendingStatus_of_pendings h, isOpen]

theorem result?_setResult (h : (s.setResult p v).1 = .ok ()) :
    (s.setResult p v).2.result? p = some v := by
  rw [setResult] at h ⊢
  split at h
  · cases h
  split at h
  · cases h
  split at h
  · cases h
  next hopen hself hknown =>
  rw [if_neg hopen, if_neg hself, if_neg hknown, result?_eq_some]
  refine pendingStatus_close ?_
  simp only [Bool.not_eq_true, Bool.not_eq_false', Bool.and_eq_true, decide_eq_true_eq] at hknown
  exact hknown.2

/-- What a pending may have as its result after it was to be resolved. -/
theorem result?_of_setResult (h : (s.setResult p v).2.result? p = some e) :
    s.result? p = some e ∨ e = v := by
  rcases hok : (s.setResult p v).1 with x | u
  · refine .inl ?_
    rw [setResult] at h hok
    repeat' split at hok
    · next hopen => rwa [if_pos hopen] at h
    · next hopen hself => rwa [if_neg hopen, if_pos hself] at h
    · next hopen hself hknown => rwa [if_neg hopen, if_neg hself, if_pos hknown] at h
    · cases hok
  · rw [result?_setResult hok] at h
    exact .inr (Option.some.inj h).symm

theorem result?_of_fail {q : PendingId} {x : InferError}
    (h : (s.fail q x).result? p = some e) : s.result? p = some e := by
  by_cases hqp : q = p
  · subst hqp
    have hlt : q < s.pendings.size := size_close (s := s) (.failed x) ▸ lt_of_result? h
    rw [result?_eq_some, fail, pendingStatus_close hlt] at h
    cases h
  · rwa [result?_eq_some, pendingStatus, fail, pending_close_of_ne hqp, ← pendingStatus,
      ← result?_eq_some] at h

/-- Quiet changes give no new resolver to a pending that exists. -/
theorem Quiet.resolver? (h : s.Quiet t) (hp : p < s.pendings.size) {r : Resolver}
    (hr : t.resolver? p = some r) : s.resolver? p = some r := by
  induction h with
  | refl => exact hr
  | @tail t u hst hstep ih =>
    refine ih ?_
    cases hstep.pending p with
    | same _ resolver => rwa [resolver] at hr
    | opened fresh _ =>
      exact absurd (Nat.lt_of_lt_of_le hp (Quiet.size_le hst)) (Nat.not_lt.mpr fresh)
    | resolved _ _ _ resolver =>
      rw [resolver] at hr
      exact nomatch hr

/-! ### What a store knows of a deferred merge -/

/-- What the operands of a deferred merge have become. -/
def Operands (s : Store) (d : Postponed) (v w : Slot) : Prop :=
  s.Becomes d.left v ∧ s.Becomes d.right w

/-- What a deferred merge may be taken for before it takes place: nothing known, or an operand. -/
def Early (s : Store) (d : Postponed) (e : Slot) : Prop :=
  e = .anything ∨ e.pendings = [] ∧ (s.Becomes d.left e ∨ s.Becomes d.right e)

/-- The task of a deferred merge and the resolver of its pending are about its operands.  As long
as the task has not been done, the pending is open or taken for an operand. -/
structure Postpones (s : Store) (d : Postponed) : Prop where
  loop : d.loop < s.loops.size
  config : (s.loop d.loop).config = d.config
  task : d.task < (s.loop d.loop).spawned
  out : d.out < s.pendings.size
  entry : ∀ body, (d.task, body) ∈ (s.loop d.loop).tasks →
    ∃ v w, body = .merge { d.toDeferral with left := v, right := w } ∧ s.Operands d v w
  resolver : ∀ r, s.resolver? d.out = some r → ∃ v w, r = .operands v w ∧ s.Operands d v w
  early : ∀ body, (d.task, body) ∈ (s.loop d.loop).tasks →
    ∀ e, s.result? d.out = some e → s.Early d e

theorem Operands.later (h : s.Operands d v w) (hst : s.Persists t) : t.Operands d v w :=
  ⟨h.1.later hst, h.2.later hst⟩

theorem Early.known (h : s.Early d e) : e.pendings = [] := by
  rcases h with rfl | ⟨h, -⟩
  · rfl
  · exact h

theorem Early.later (h : s.Early d e) (hst : s.Persists t) : t.Early d e :=
  h.imp_right fun ⟨hknown, hbecomes⟩ =>
    ⟨hknown, hbecomes.imp (fun h => h.later hst) fun h => h.later hst⟩

namespace Postpones

/-- What a store knows of a deferred merge it still knows where tables only grow and the pending
is resolved early at most. -/
theorem later (h : s.Postpones d) (hst : s.Persists t) (htable : s.TableGrows t d.loop)
    (hsize : s.pendings.size ≤ t.pendings.size)
    (hresolver : ∀ r, t.resolver? d.out = some r → s.resolver? d.out = some r)
    (hresult : ∀ body, (d.task, body) ∈ (t.loop d.loop).tasks →
      ∀ e, t.result? d.out = some e → s.result? d.out = some e ∨ s.Early d e) :
    t.Postpones d := by
  have hentry : ∀ body, (d.task, body) ∈ (t.loop d.loop).tasks →
      (d.task, body) ∈ (s.loop d.loop).tasks := by
    intro body hbody
    rcases htable.tasks _ hbody with hold | ⟨hnew, -⟩
    · exact hold
    · exact absurd h.task (Nat.not_lt.mpr hnew)
  obtain ⟨hloop, hconfig⟩ := htable.config h.loop
  constructor
  · exact hloop
  · exact hconfig.trans h.config
  · exact Nat.lt_of_lt_of_le h.task htable.spawned
  · exact Nat.lt_of_lt_of_le h.out hsize
  · intro body hbody
    obtain ⟨v, w, hd, hvw⟩ := h.entry body (hentry body hbody)
    exact ⟨v, w, hd, hvw.later hst⟩
  · intro r hr
    obtain ⟨v, w, hd, hvw⟩ := h.resolver r (hresolver r hr)
    exact ⟨v, w, hd, hvw.later hst⟩
  · intro body hbody e he
    rcases hresult body hbody e he with hold | hearly
    · exact (h.early body (hentry body hbody) e hold).later hst
    · exact hearly.later hst

theorem quiet (h : s.Postpones d) (hst : s.Quiet t)
    (hresult : ∀ body, (d.task, body) ∈ (t.loop d.loop).tasks →
      ∀ e, t.result? d.out = some e → s.result? d.out = some e ∨ s.Early d e) :
    t.Postpones d :=
  h.later hst.persists (hst.table d.loop) hst.size_le (fun _ hr => hst.resolver? h.out hr) hresult

/-- Quiet changes that do not resolve the pending. -/
theorem quiet_of_open (h : s.Postpones d) (hst : s.Quiet t)
    (hkeep : s.isOpen d.out = true → t.isOpen d.out = true) : t.Postpones d :=
  h.quiet hst fun _ _ _ he => .inl (hst.persists.result hkeep he)

/-- Changes of loops alone. -/
theorem of_pendings (h : s.Postpones d) (htable : s.TableGrows t d.loop)
    (hpendings : t.pendings = s.pendings) : t.Postpones d := by
  refine h.later (persists_of_pendings hpendings) htable (Nat.le_of_eq (by rw [hpendings]))
    (fun r hr => ?_) fun _ _ e he => ?_
  · rwa [resolver?_of_pendings hpendings] at hr
  · rw [result?_of_pendings hpendings] at he
    exact .inl he

/-- A task that is put back into its table: another one, or that of the merge. -/
theorem put (h : s.Postpones d) (l : LoopId) (n : TaskId) (body : TaskBody)
    (hbody : l = d.loop → n = d.task →
      (∃ v w, body = .merge { d.toDeferral with left := v, right := w } ∧ s.Operands d v w) ∧
        ∀ e, s.result? d.out = some e → s.Early d e) :
    (s.putTask l n body).Postpones d := by
  have hloop := loop_putTask s l d.loop n body
  have hst : s.Persists (s.putTask l n body) := persists_of_pendings rfl
  have hentry : ∀ body', (d.task, body') ∈ ((s.putTask l n body).loop d.loop).tasks →
      (d.task, body') ∈ (s.loop d.loop).tasks ∨ (l = d.loop ∧ n = d.task ∧ body' = body) := by
    intro body' hbody'
    refine (mem_putTask s l d.loop n body hbody').imp_right fun ⟨hl, he⟩ => ?_
    cases he
    exact ⟨hl, rfl, rfl⟩
  constructor
  · exact Nat.lt_of_lt_of_eq h.loop Array.size_modify.symm
  · exact hloop.2.trans h.config
  · exact Nat.lt_of_lt_of_eq h.task hloop.1.symm
  · exact h.out
  · intro body' hbody'
    rcases hentry body' hbody' with hold | ⟨hl, hn, rfl⟩
    · obtain ⟨v, w, hd, hvw⟩ := h.entry body' hold
      exact ⟨v, w, hd, hvw.later hst⟩
    · obtain ⟨v, w, hd, hvw⟩ := (hbody hl hn).1
      exact ⟨v, w, hd, hvw.later hst⟩
  · intro r hr
    obtain ⟨v, w, hd, hvw⟩ := h.resolver r hr
    exact ⟨v, w, hd, hvw.later hst⟩
  · intro body' hbody' e he
    rcases hentry body' hbody' with hold | ⟨hl, hn, -⟩
    · exact (h.early body' hold e he).later hst
    · exact ((hbody hl hn).2 e he).later hst

/-- A task is taken from its table to be polled. -/
theorem dropped (h : s.Postpones d) {u : Store} {l : LoopId} {n : TaskId} {ready : List TaskId}
    (hqueue : u = s.modifyLoop l fun loop => { loop with ready }) :
    u.Postpones d ∧ (u.dropTask l n).Postpones d ∧ (u.dropTask l n).pendings = s.pendings := by
  subst hqueue
  have hu := h.of_pendings (.note s l d.loop (fun loop => { loop with ready }) (fun _ => rfl)
    (fun _ => rfl) fun _ => rfl) rfl
  exact ⟨hu, hu.of_pendings (.dropTask _ l d.loop n) rfl, rfl⟩

/-- The resolver of some pending starts. -/
theorem beginResolving (h : s.Postpones d) (hs : s.Idle) {r : Resolver}
    (hbegin : s.beginResolving p = (some r, t)) : t.Postpones d := by
  obtain ⟨hres, hstore⟩ := beginResolving_eq hbegin
  have hst := hs.persists_beginResolving hbegin
  refine h.later hst (hstore ▸ .of_loops rfl) ?_ (fun r' hr' => ?_) fun _ _ e he => .inl ?_
  · rw [hstore]
    exact Nat.le_of_eq Array.size_modify.symm
  · by_cases hp : p = d.out
    · subst hp
      rw [hstore, resolver?, pending_modify_self] at hr'
      cases hcell : s.pendings[d.out]? with
      | none =>
        rw [hcell] at hr'
        cases hr'
      | some c =>
        rw [hcell] at hr'
        cases hr'
    · rwa [hstore, resolver?, pending_of_ne hp, ← resolver?] at hr'
  · refine hst.result (fun hopen => ?_) he
    by_cases hp : p = d.out
    · subst hp
      rw [isOpen_iff, hstore, pendingStatus, pending_modify_self,
        Array.getElem?_eq_getElem h.out]
      exact .inr rfl
    · rwa [hstore, isOpen, pendingStatus, pending_of_ne hp, ← pendingStatus, ← isOpen]

/-- Some pending fails. -/
theorem fail (h : s.Postpones d) (q : PendingId) (x : InferError) : (s.fail q x).Postpones d := by
  refine h.later (s.persists_fail q x) (.close s q _ d.loop) ?_ (fun r hr => ?_)
    fun _ _ e he => .inl (result?_of_fail he)
  · exact Nat.le_of_eq (size_close _).symm
  · by_cases hq : q = d.out
    · subst hq
      rw [Store.fail, resolver?_close] at hr
      cases hr
    · rwa [resolver?, Store.fail, pending_close_of_ne hq, ← resolver?] at hr

end Postpones

/-- What a forced pending is taken for is an operand, or nothing known. -/
theorem early_of_resolveOperands (h : s.Operands d v w) (he : s.resolveOperands v w = .ok e) :
    s.Early d e := by
  have hbroad : ∀ x : Slot, x.pendings = [] → s.Becomes d.left x ∨ s.Becomes d.right x →
      s.Early d (s.broadenSlot x) := by
    intro x hx hbecomes
    rw [broadenSlot]
    split
    · exact .inl rfl
    · exact .inr ⟨hx, hbecomes⟩
  have hleft : s.Becomes d.left (s.resolve v) := h.1.trans (.resolve s v)
  have hright : s.Becomes d.right (s.resolve w) := h.2.trans (.resolve s w)
  rw [resolveOperands] at he
  split at he
  · exact nomatch he
  · next hnot =>
    cases he
    exact hbroad _ (Slot.pendings_eq_nil fun p hp => hnot p hp) (.inr hright)
  · next hnot _ =>
    cases he
    exact hbroad _ (Slot.pendings_eq_nil fun p hp => hnot p hp) (.inl hleft)

end Store

/-! ### The merge itself -/

namespace Infer

variable {s t u : Store} {d : Postponed} {l : LoopId} {c : Deferral} {v w x : Slot}

/-- A fault that is carried on as an error. -/
theorem outcome_ofFault_ok {α : Type} {f : Store → Except Fault α × Store} {change : Change}
    {hf : ∀ s, (f s).2 = change.apply s} {a : α}
    (h : (ofFault (Update.answer f change hf)).outcome s = (.ok a, t)) : f s = (.ok a, t) := by
  have hpair : ((f s).1.mapError InferError.invalidConstruction, (f s).2) = (.ok a, t) := h
  obtain ⟨hok, rfl⟩ := Prod.mk.inj hpair
  refine Prod.ext ?_ rfl
  cases hfs : (f s).1 with
  | error fault =>
    rw [hfs] at hok
    exact nomatch hok
  | ok b =>
    rw [hfs] at hok
    cases hok
    rfl

theorem quiet_of_outcome {α : Type} {y : Infer α} {r : Except InferError α}
    (h : y.outcome s = (r, t)) : s.Quiet t := by
  have hquiet : s.Quiet (y.outcome s).2 := Store.quiet_of_evolves (y.run.evolves s)
  rwa [h] at hquiet

theorem outcome_discard {α : Type} (x : Infer α) (s : Store) :
    (discard x).outcome s = ((x.outcome s).1.map fun _ => (), (x.outcome s).2) := by
  rcases hx : x.outcome s with ⟨e | a, t⟩
  · show (x >>= fun _ => pure ()).outcome s = _
    rw [outcome_bind_of_error hx]
    rfl
  · show (x >>= fun _ => pure ()).outcome s = _
    rw [outcome_bind_of_ok hx]
    rfl

/-- **A deferred merge takes place** once its operands are known.  Its result is that of the merge;
if the pending was resolved before, what it was taken for covers that. -/
theorem mergeDeferred_ok (hv : v.pendings = []) (hw : w.pendings = [])
    (hold : ∀ old, s.result? c.out = some old → old.pendings = [])
    (h : (mergeDeferred l c v w).outcome s = (.ok (), t)) :
    ∃ merged s', ((mergeSlots (s.mergeScope (some l)) c.forced v w).outcome s).1 = .ok merged ∧
      s.SlotMerged s' v w merged ∧ t.nodes = s.nodes ∧
      (s.result? c.out = none ∧ t.result? c.out = some merged ∨
        ∃ old, s.result? c.out = some old ∧ t.result? c.out = some old ∧
          s.SlotCovers old merged) := by
  rw [mergeDeferred, outcome_store_bind, outcome_bind_ok] at h
  obtain ⟨merged, s', hmerge, h⟩ := h
  have hmerged := mergeSlots_merged hv hw hmerge
  refine ⟨merged, s', by rw [hmerge], hmerged, ?_⟩
  have hresult : s'.result? c.out = s.result? c.out := Store.result?_of_pendings hmerged.pendings
  rw [outcome_store_bind, hresult] at h
  cases hout : s.result? c.out with
  | none =>
    rw [hout] at h
    have hset : s'.setResult c.out merged = (.ok (), t) := h
    have ht : t = (s'.setResult c.out merged).2 := by rw [hset]
    refine ⟨?_, .inl ⟨rfl, ?_⟩⟩
    · rw [ht, Store.nodes_setResult, hmerged.nodes]
    · rw [ht]
      exact Store.result?_setResult (by rw [hset])
  | some old =>
    have hknown := hold old hout
    rw [hout] at h
    simp only [outcome_discard] at h
    have hyields : Yields true (mergeSlots (s.mergeScope (some l)) true old merged) s'
        (s'.SlotCovers old merged) old :=
      mergeSlots_yields _ (not_pending_of_known hknown) (not_pending_of_known hmerged.known)
    have hcovers : s'.SlotCovers old merged := by
      by_contra hnot
      obtain ⟨e, he⟩ := hyields.2 rfl hnot
      rw [he] at h
      exact nomatch h
    rw [hyields.1 hcovers] at h
    cases h
    refine ⟨hmerged.nodes, .inr ⟨old, rfl, hresult.trans hout, ?_⟩⟩
    exact (Store.slotCovers_congr hmerged.nodes hknown hmerged.known).mp hcovers

/-- A merge of slots that binds no pending leaves the pendings as they are. -/
theorem mergeSlots_pendings {scope : MergeScope} {forced : Bool}
    (h : (mergeSlots scope forced v w).outcome s = (.ok x, t)) :
    t.pendings = s.pendings ∨
      (deferMerge scope forced (s.resolve v) (s.resolve w)).outcome s = (.ok x, t) := by
  have hcandidates : ∀ ra rb, (mergeCandidates scope forced v w ra rb).outcome s = (.ok x, t) →
      t.pendings = s.pendings := by
    intro ra rb h
    rw [mergeCandidates, outcome_store_bind] at h
    dsimp only at h
    repeat' split at h
    all_goals cases h <;> rfl
  rw [mergeSlots, outcome_store_bind] at h
  dsimp only at h
  generalize s.resolve v = ra at *
  generalize s.resolve w = rb at *
  repeat' split at h
  all_goals
    first
    | exact .inr h
    | exact .inl (hcandidates _ _ h)
    | cases h <;> exact .inl rfl

/-- A merge that is put off registers a pending and a task. -/
theorem deferMerge_ok {scope : MergeScope} {forced : Bool} (hl : scope.loop = some l)
    (h : (deferMerge scope forced v w).outcome s = (.ok x, t)) :
    ∃ out n s', s.openPending l (some (.operands v w)) (.highest (s.waitsOn v) (s.waitsOn w)) =
        (.ok out, s') ∧ s'.spawn l (.merge ⟨v, w, out, forced⟩) = (.ok n, t) ∧ x = .pending out := by
  rw [deferMerge, hl] at h
  dsimp only at h
  rw [outcome_store_bind, outcome_bind_ok] at h
  obtain ⟨out, s', hopen, h⟩ := h
  rw [outcome_bind_ok] at h
  obtain ⟨n, t', hspawn, h⟩ := h
  cases h
  exact ⟨out, n, s', outcome_ofFault_ok hopen, outcome_ofFault_ok hspawn, rfl⟩

end Infer

/-- **A merge that binds a new pending** leaves a store that knows of it. -/
theorem Store.postpones_of_mergeSlots {s t : Store} {l : LoopId} {forced : Bool} {a b : Slot}
    {r : PendingId} (hs : s.Numbered)
    (h : (Infer.mergeSlots (s.mergeScope (some l)) forced a b).outcome s = (.ok (.pending r), t))
    (hnew : s.pendings.size ≤ r) (hbound : r < t.pendings.size) :
    t.Postpones ⟨⟨a, b, r, forced⟩, l, (s.loop l).spawned, (s.loop l).config⟩ := by
  have hdefer : (Infer.deferMerge (s.mergeScope (some l)) forced (s.resolve a)
      (s.resolve b)).outcome s = (.ok (.pending r), t) := by
    refine (Infer.mergeSlots_pendings h).resolve_left fun hsame => ?_
    rw [hsame] at hbound
    exact absurd hbound (Nat.not_lt.mpr hnew)
  have hpersists := (Infer.quiet_of_outcome hdefer).persists
  obtain ⟨out, n, s', hopen, hspawn, heq⟩ := Infer.deferMerge_ok rfl hdefer
  cases heq
  obtain ⟨rfl, ⟨cell, hcells, hresolver, hstatus⟩, hloop, ps, hloop'⟩ := openPending_ok hopen
  obtain ⟨rfl, hsame, hlt, ready, hloop''⟩ := spawn_ok hspawn
  have hcell : t.pendings[s.pendings.size]? = some cell := by
    rw [hsame, hcells, Array.getElem?_push_size]
  have hoperands : t.Operands ⟨⟨a, b, s.pendings.size, forced⟩, l, (s.loop l).spawned,
      (s.loop l).config⟩ (s.resolve a) (s.resolve b) :=
    ⟨(Becomes.resolve s a).later hpersists, (Becomes.resolve s b).later hpersists⟩
  rw [hloop'] at hloop''
  constructor
  · exact hlt
  · rw [hloop'']
  · rw [hloop'']
    exact Nat.lt_succ_self _
  · exact hbound
  · intro body hbody
    rw [hloop''] at hbody
    rcases List.mem_append.mp hbody with hold | hbody
    · exact absurd (hs l _ hold) (Nat.lt_irrefl _)
    · cases List.mem_singleton.mp hbody
      exact ⟨_, _, rfl, hoperands⟩
  · intro r hr
    rw [resolver?, hcell] at hr
    have hr' : cell.resolver = some r := hr
    rw [hresolver] at hr'
    cases hr'
    exact ⟨_, _, rfl, hoperands⟩
  · intro body _ e he
    have hopen : t.pendingStatus s.pendings.size = .unresolved := by
      rw [pendingStatus, hcell]
      exact hstatus
    rw [result?_eq_some, hopen] at he
    cases he

/-! ### Machines -/

namespace Machine

variable {σ : Type} {m m' m₁ : Machine σ} {d : Postponed}

/-- The pending whose resolver is on top of the stack. -/
def topResolver? (m : Machine σ) : Option PendingId :=
  match m.stack with
  | .resolving p :: _ => some p
  | _ => none

/-- The task that is on top of the stack. -/
def topTask? (m : Machine σ) : Option (LoopId × TaskId) :=
  match m.stack with
  | .task l t _ :: _ => some (l, t)
  | _ => none

/-- The task that has just been completed without an error. -/
def completed? (m : Machine σ) : Option (LoopId × TaskId) :=
  match m.control with
  | .answer (.ok _) => m.topTask?
  | _ => none

/-- In a step from the first machine to the second, the pending of a deferred merge is closed by
its resolver or by the task of the merge, if at all. -/
def ClosesDuly (l : LoopId) (t : TaskId) (p : PendingId) (m m' : Machine σ) : Prop :=
  m.store.isOpen p = true → m'.store.isOpen p = false →
    m.topResolver? = some p ∨ m'.topTask? = some (l, t)

instance (l : LoopId) (t : TaskId) (p : PendingId) (m m' : Machine σ) :
    Decidable (ClosesDuly l t p m m') :=
  inferInstanceAs (Decidable (_ → _ → _))

theorem topResolver?_eq_some {p : PendingId} (h : m.topResolver? = some p) :
    .resolving p ∈ m.stack := by
  rw [topResolver?] at h
  split at h
  · next heq =>
    cases h
    exact heq ▸ List.mem_cons_self
  · exact nomatch h

theorem topTask?_eq_some {l : LoopId} {t : TaskId} (h : m.topTask? = some (l, t)) :
    ∃ body rest, m.stack = .task l t body :: rest := by
  rw [topTask?] at h
  split at h
  · next heq =>
    cases h
    exact ⟨_, _, heq⟩
  · exact nomatch h

/-- The pending stays open in a step in which neither its resolver nor the task is on top. -/
theorem ClosesDuly.keeps (h : ClosesDuly d.loop d.task d.out m m') (hm : ∀ f ∈ m.stack, ¬ d.Concerns f)
    (hm' : ∀ f ∈ m'.stack, ¬ d.Concerns f) (hopen : m.store.isOpen d.out = true) :
    m'.store.isOpen d.out = true := by
  by_contra hclosed
  rcases h hopen (Bool.eq_false_iff.mpr hclosed) with hr | ht
  · exact hm _ (topResolver?_eq_some hr) (.inr rfl)
  · obtain ⟨body, rest, hstack⟩ := topTask?_eq_some ht
    exact hm' _ (hstack ▸ List.mem_cons_self) (.inl ⟨body, rfl⟩)

theorem not_concerns_of_plain {f : Frame σ} (hf : f.Plain) : ¬ d.Concerns f := by
  rintro (⟨body, rfl⟩ | rfl) <;> exact hf

/-- **A machine knows of a deferred merge** what its store does.  The task of the merge and the
resolver of its pending are done in one go, and the resolver takes the merge for an operand. -/
structure Postpones (m : Machine σ) (d : Postponed) : Prop where
  store : m.store.Postpones d
  frames : (∀ f ∈ m.stack, ¬ d.Concerns f) ∨
    ∃ f rest r, m.stack = f :: rest ∧ d.Concerns f ∧ (∀ g ∈ rest, ¬ d.Concerns g) ∧
      m.control = .answer r ∧ (f = .resolving d.out → ∀ e, r = .ok e → m.store.Early d e)

/-! ### Polling the task -/

theorem poll_ok {s : Store} {v w : Slot} (h : s.poll v = .inr (.ok w)) :
    s.resolve v = w ∧ w.pendings = [] := by
  rw [Store.poll] at h
  split at h
  · repeat' split at h
    all_goals cases h
  · next hnot =>
    cases h
    exact ⟨rfl, Slot.pendings_eq_nil fun p hp => hnot p hp⟩

/-- What is under way after a deferred merge was polled that did not have to wait. -/
structure MergePolled (m m' : Machine σ) (l : LoopId) (t : TaskId) (c : Deferral) (r : Outcome) :
    Prop where
  stack : m'.stack = .task l t (.merge c) :: m.stack
  control : m'.control = .answer r
  store : m.store.Quiet m'.store
  waiters : ∀ p, ∀ w ∈ m'.store.waiters p, w ∈ m.store.waiters p
  merged : ∀ x, r = .ok x → ∃ v w, m.store.resolve c.left = v ∧ m.store.resolve c.right = w ∧
    v.pendings = [] ∧ w.pendings = [] ∧
      (Infer.mergeDeferred l c v w).outcome m.store = (.ok (), m'.store)

/-- A deferred merge that is polled waits for one operand, the left one first, or has an
outcome. -/
theorem pollMerge_cases (m : Machine σ) (l : LoopId) (t : TaskId) (c : Deferral) :
    (∃ p v w, m.store.Becomes c.left v ∧ m.store.Becomes c.right w ∧ m.store.canWait p = true ∧
      (v = .pending p ∨ v.pendings = [] ∧ w = .pending p) ∧
      (m.pollMerge l t c).store =
        (m.store.register ⟨l, t⟩ p).putTask l t (.merge { c with left := v, right := w }) ∧
      (m.pollMerge l t c).stack = m.stack) ∨
    ∃ r, MergePolled m (m.pollMerge l t c) l t c r := by
  rw [pollMerge]
  dsimp only
  split
  · next p hleft =>
    obtain ⟨hp, hwait⟩ := Store.poll_open hleft
    exact .inl ⟨p, .pending p, c.right, hp ▸ .resolve m.store c.left, .refl _ _, hwait, .inl rfl,
      rfl, rfl⟩
  · next e _ => exact .inr ⟨.error e, rfl, rfl, .refl _, fun _ _ => id, by simp⟩
  next v hleft =>
  obtain ⟨hv, hknown⟩ := poll_ok hleft
  split
  · next p hright =>
    obtain ⟨hp, hwait⟩ := Store.poll_open hright
    exact .inl ⟨p, v, .pending p, hv ▸ .resolve m.store c.left, hp ▸ .resolve m.store c.right, hwait,
      .inr ⟨hknown, rfl⟩, rfl, rfl⟩
  · next e _ => exact .inr ⟨.error e, rfl, rfl, .refl _, fun _ _ => id, by simp⟩
  next w hright =>
  obtain ⟨hw, hknown'⟩ := poll_ok hright
  have hevolves := (Infer.mergeDeferred l c v w).run.evolves m.store
  refine .inr ⟨_, rfl, rfl, Store.quiet_of_evolves hevolves, fun _ => Store.waiters_evolves hevolves,
    fun x hx => ⟨v, w, hv, hw, hknown, hknown', ?_⟩⟩
  have hmap : ((Infer.mergeDeferred l c v w).outcome m.store).1.map (fun _ => .anything) =
      (.ok x : Outcome) := hx
  refine Prod.ext ?_ rfl
  show ((Infer.mergeDeferred l c v w).outcome m.store).1 = .ok ()
  cases hrun : ((Infer.mergeDeferred l c v w).outcome m.store).1 with
  | error e =>
    rw [hrun] at hmap
    cases hmap
  | ok u => rfl

/-! ### The steps -/

theorem Calm.not_concerns (hcalm : m.Calm m') (hm : ∀ f ∈ m.stack, ¬ d.Concerns f) :
    ∀ f ∈ m'.stack, ¬ d.Concerns f :=
  fun f hf => (hcalm.stack f hf).elim not_concerns_of_plain (hm f)

theorem Calm.postpones (hcalm : m.Calm m') (h : m.store.Postpones d)
    (hm : ∀ f ∈ m.stack, ¬ d.Concerns f)
    (hkeep : m.store.isOpen d.out = true → m'.store.isOpen d.out = true) : m'.Postpones d where
  store := h.quiet_of_open hcalm.store hkeep
  frames := .inl (hcalm.not_concerns hm)

theorem resolved_postpones {p : PendingId} {r : Outcome} (h : m.store.Postpones d)
    (hm : ∀ f ∈ m.stack, ¬ d.Concerns f)
    (hearly : p = d.out → ∀ e, r = .ok e → m.store.Early d e)
    (hkeep : p ≠ d.out → m.store.isOpen d.out = true →
      (m.resolved p r).store.isOpen d.out = true) : (m.resolved p r).Postpones d := by
  have hframes : ∀ f ∈ (m.resolved p r).stack, ¬ d.Concerns f := by
    rw [resolved_stack]
    exact hm
  refine ⟨?_, .inl hframes⟩
  obtain hquiet | ⟨x, -, hstore⟩ := resolved_store m p r
  · by_cases hp : p = d.out
    · subst hp
      cases r with
      | error x =>
        show (m.store.fail d.out x).Postpones d
        exact h.fail d.out x
      | ok e =>
        obtain hsame | hset := resolved_ok m d.out e
        · rwa [hsame]
        · refine h.quiet hquiet fun _ _ e' he' => ?_
          rw [hset] at he'
          rcases Store.result?_of_setResult he' with hold | rfl
          · exact .inl hold
          · exact .inr (hearly rfl e' rfl)
    · exact h.quiet_of_open hquiet (hkeep hp)
  · rw [hstore]
    exact h.fail p x

/-- The task or the resolver gets its outcome. -/
theorem Postpones.step_top {f : Frame σ} {rest : List (Frame σ)} {r : Outcome}
    (h : m.store.Postpones d) (hstack : m.stack = f :: rest) (hf : d.Concerns f)
    (hrest : ∀ g ∈ rest, ¬ d.Concerns g) (hcontrol : m.control = .answer r)
    (hearly : f = .resolving d.out → ∀ e, r = .ok e → m.store.Early d e)
    (hstep : m.step = some m') (hduly : ClosesDuly d.loop d.task d.out m m') : m'.Postpones d := by
  rw [step, hcontrol, hstack] at hstep
  cases hstep
  rcases hf with ⟨body, rfl⟩ | rfl
  · have hcalm := Calm.taskDone { m with stack := rest } d.loop d.task body r
    refine hcalm.postpones h hrest fun hopen => ?_
    have hframes : ∀ g ∈ (taskDone { m with stack := rest } d.loop d.task body r).stack,
        ¬ d.Concerns g := fun g hg => (hcalm.stack g hg).elim not_concerns_of_plain (hrest g)
    by_contra hclosed
    rcases hduly hopen (Bool.eq_false_iff.mpr hclosed) with hr | ht
    · rw [topResolver?, hstack] at hr
      cases hr
    · obtain ⟨body', rest', hstack'⟩ := topTask?_eq_some ht
      exact hframes _ (hstack' ▸ List.mem_cons_self) (.inl ⟨body', rfl⟩)
  · exact resolved_postpones h hrest (fun _ => hearly rfl) fun hne => absurd rfl hne

/-- A task of some loop is polled. -/
theorem Postpones.step_poll {l : LoopId} {t : TaskId} {ready : List TaskId} {body : TaskBody}
    {s : Store} (h : m.store.Postpones d) (hm : ∀ f ∈ m.stack, ¬ d.Concerns f)
    (hqueue : s = m.store.modifyLoop l fun loop => { loop with ready })
    (hlookup : (s.loop l).tasks.lookup t = some body)
    (hduly : ClosesDuly d.loop d.task d.out m ({ m with store := s.dropTask l t }.pollTask l t body)) :
    ({ m with store := s.dropTask l t }.pollTask l t body).Postpones d := by
  obtain ⟨hs, hdrop, hpendings⟩ := h.dropped (n := t) hqueue
  by_cases hlt : l = d.loop ∧ t = d.task
  · obtain ⟨rfl, rfl⟩ := hlt
    have hmem := mem_of_lookup hlookup
    obtain ⟨v, w, rfl, hvw⟩ := hs.entry body hmem
    rcases pollMerge_cases { m with store := s.dropTask d.loop d.task } d.loop d.task
      { d.toDeferral with left := v, right := w } with
      ⟨p, v', w', hv', hw', hwait, -, hstore, hstack⟩ | ⟨r, hpolled⟩
    · -- the task goes back with what its operands have become
      refine ⟨?_, .inl fun f hf => hm f (hstack ▸ hf)⟩
      have hquiet := Store.Quiet.register ⟨d.loop, d.task⟩ (Store.canWait_iff.mp hwait).2
      have hlater : s.Persists (s.dropTask d.loop d.task) := Store.persists_of_pendings rfl
      have hstatus : ∀ q, ((s.dropTask d.loop d.task).register ⟨d.loop, d.task⟩ p).pendingStatus q =
          s.pendingStatus q := fun q => Store.pendingStatus_register _ _ _ _
      show (pollMerge _ _ _ _).store.Postpones d
      rw [hstore]
      refine (hdrop.quiet_of_open hquiet fun hopen => ?_).put _ _ _ fun _ _ =>
        ⟨⟨v', w', rfl, ?_, ?_⟩, fun e he => ?_⟩
      · rwa [Store.isOpen, hstatus, ← Store.isOpen]
      · exact ((hvw.1.later hlater).trans hv').later hquiet.persists
      · exact ((hvw.2.later hlater).trans hw').later hquiet.persists
      · rw [Store.result?_of_status (hstatus d.out)] at he
        exact (hs.early _ hmem e he).later (hlater.trans hquiet.persists)
    · -- the task is not in its table, and no new task has its number
      have hnone : ∀ body, (d.task, body) ∉ ((s.dropTask d.loop d.task).loop d.loop).tasks :=
        fun body hbody => (Store.mem_dropTask s _ _ _ hbody).2 ⟨rfl, rfl⟩
      refine ⟨hdrop.quiet hpolled.store fun body' hbody' => ?_, .inr ?_⟩
      · rcases (hpolled.store.table d.loop).tasks _ hbody' with hold | ⟨hnew, -⟩
        · exact absurd hold (hnone body')
        · exact absurd hdrop.task (Nat.not_lt.mpr hnew)
      · exact ⟨_, _, r, hpolled.stack, .inl ⟨_, rfl⟩, hm, hpolled.control, by simp⟩
  · have hopen_eq : (s.dropTask l t).isOpen d.out = m.store.isOpen d.out :=
      Store.isOpen_of_pendings hpendings
    rcases pollTask_cases { m with store := s.dropTask l t } l t body with
      ⟨s', body', hquiet, hstore, hstack⟩ | ⟨hquiet, hstack⟩
    · have hframes : ∀ f ∈ ({ m with store := s.dropTask l t }.pollTask l t body).stack,
          ¬ d.Concerns f := fun f hf => hm f (hstack ▸ hf)
      refine ⟨?_, .inl hframes⟩
      rw [hstore]
      refine (hdrop.quiet_of_open hquiet fun hopen => ?_).put l t body' fun hl ht =>
        absurd ⟨hl, ht⟩ hlt
      have hkept := hduly.keeps hm hframes (hopen_eq ▸ hopen)
      rw [hstore] at hkept
      exact hkept
    · have hframes : ∀ f ∈ ({ m with store := s.dropTask l t }.pollTask l t body).stack,
          ¬ d.Concerns f := by
        intro f hf
        rw [hstack] at hf
        rcases List.mem_cons.mp hf with rfl | hf
        · rintro (⟨body', heq⟩ | heq)
          · cases heq
            exact hlt ⟨rfl, rfl⟩
          · cases heq
        · exact hm f hf
      refine ⟨hdrop.quiet_of_open hquiet fun hopen => ?_, .inl hframes⟩
      exact hduly.keeps hm hframes (hopen_eq ▸ hopen)

theorem completed?_eq_some {l : LoopId} {t : TaskId} (hdone : m.completed? = some (l, t)) :
    ∃ body rest x, m.stack = .task l t body :: rest ∧ m.control = .answer (.ok x) := by
  rw [completed?] at hdone
  split at hdone
  · next x hcontrol =>
    obtain ⟨body, rest, hstack⟩ := topTask?_eq_some hdone
    exact ⟨body, rest, x, hstack, hcontrol⟩
  · exact nomatch hdone

/-- **Every step** keeps what is known of a deferred merge, if the pending is closed duly. -/
theorem Postpones.step (h : m.Postpones d) (hm : m.store.Idle) (hstep : m.step = some m')
    (hduly : ClosesDuly d.loop d.task d.out m m') : m'.Postpones d := by
  rcases h.frames with hnone | ⟨f, rest, r, hstack, hf, hrest, hcontrol, hearly⟩
  swap
  · exact step_top h.store hstack hf hrest hcontrol hearly hstep hduly
  -- no frame concerns the merge, so only a step that takes up its resolver or its task touches it
  cases moves hstep with
  | calm hcalm => exact hcalm.postpones h.store hnone (hduly.keeps hnone (hcalm.not_concerns hnone))
  | @spawned _ l body _ _ hcalm =>
    have hframes : ∀ f ∈ m'.stack, ¬ d.Concerns f := hcalm.not_concerns hnone
    have hpendings := Store.pendings_spawn m.store l body
    refine hcalm.postpones (h.store.of_pendings (.spawn m.store l body d.loop) hpendings) hnone ?_
    intro hopen
    exact hduly.keeps hnone hframes ((Store.isOpen_of_pendings hpendings) ▸ hopen)
  | @resolving m₁ _ p res hcalm hbegin hstack _ hcontrol =>
    have hidle := hm.quiet hcalm.store
    have hpersists := hidle.persists_beginResolving hbegin
    have h₁ : m₁.Postpones d := by
      refine hcalm.postpones h.store hnone fun hopen => ?_
      by_contra hclosed
      have hclosed' := hpersists.closed (Bool.eq_false_iff.mpr hclosed)
      rcases hduly hopen hclosed' with hr | ht
      · exact hnone _ (topResolver?_eq_some hr) (.inr rfl)
      · rw [topTask?, hstack] at ht
        exact nomatch ht
    have hnone₁ : ∀ f ∈ m₁.stack, ¬ d.Concerns f := hcalm.not_concerns hnone
    refine ⟨h₁.store.beginResolving hidle hbegin, ?_⟩
    rw [hstack]
    by_cases hp : p = d.out
    · subst hp
      obtain ⟨v, w, rfl, hvw⟩ := h₁.store.resolver res (Store.beginResolving_eq hbegin).1
      refine .inr ⟨_, _, _, rfl, .inr rfl, hnone₁, hcontrol v w rfl, fun _ e he => ?_⟩
      exact Store.early_of_resolveOperands (hvw.later hpersists) he
    · refine .inl fun f hf => ?_
      rcases List.mem_cons.mp hf with rfl | hf
      · rintro (⟨body, heq⟩ | heq)
        · exact nomatch heq
        · cases heq
          exact hp rfl
      · exact hnone₁ f hf
  | @resolved p r rest hstack _ =>
    have hrest : ∀ f ∈ rest, ¬ d.Concerns f :=
      fun f hf => hnone f (hstack ▸ List.mem_cons_of_mem _ hf)
    have hp : p ≠ d.out := fun hp => hnone (.resolving p) (hstack ▸ List.mem_cons_self) (.inr (hp ▸ rfl))
    have hframes : ∀ f ∈ (resolved { m with stack := rest } p r).stack, ¬ d.Concerns f := by
      rw [resolved_stack]
      exact hrest
    exact resolved_postpones h.store hrest (fun heq => absurd heq hp)
      fun _ => hduly.keeps hnone hframes
  | @skipped l _ _ ready _ _ _ =>
    refine ⟨h.store.of_pendings (.note m.store l d.loop (fun loop => { loop with ready }) ?_ ?_ ?_) rfl,
      .inl hnone⟩
    all_goals exact fun _ => rfl
  | polled _ _ hqueue hlookup => exact step_poll h.store hnone hqueue hlookup hduly
  | turned hpauses hstack hstore hstack' _ _ =>
    have hrest : ∀ f ∈ m'.stack, ¬ d.Concerns f := by
      intro f hf
      rcases List.mem_cons.mp (hstack' ▸ hf) with rfl | hf
      · rintro (⟨body, heq⟩ | heq) <;> exact nomatch heq
      · exact hpauses.calm.not_concerns hnone f (hstack ▸ List.mem_cons_of_mem _ hf)
    have hquiet : m.store.Quiet m'.store := hstore ▸ hpauses.calm.store
    exact ⟨h.store.quiet_of_open hquiet (hduly.keeps hnone hrest), .inl hrest⟩
  | @suspended _ _ _ l t body rest hpauses hstack hstore hstack' _ _ =>
    have hnone₁ := hpauses.calm.not_concerns hnone
    have hrest : ∀ f ∈ m'.stack, ¬ d.Concerns f :=
      fun f hf => hnone₁ f (hstack ▸ List.mem_cons_of_mem _ (hstack' ▸ hf))
    refine ⟨?_, .inl hrest⟩
    rw [hstore]
    refine (h.store.quiet_of_open hpauses.calm.store fun hopen => ?_).put l t body fun hl ht => ?_
    · have hkept := hduly.keeps hnone hrest hopen
      rw [hstore] at hkept
      exact hkept
    · refine absurd (.inl ⟨body, ?_⟩) (hnone₁ (.task l t body) (hstack ▸ List.mem_cons_self))
      rw [hl, ht]

/-- A deferred merge takes place when its task is polled with both operands known. -/
theorem MergePolled.sound {v w x : Slot} (h : m.store.Postpones d)
    (hvw : m.store.Operands d v w)
    (hearly : ∀ e, m.store.result? d.out = some e → m.store.Early d e)
    (hpolled : MergePolled m m' d.loop d.task { d.toDeferral with left := v, right := w }
      (.ok x)) :
    ∃ v w slot, m'.store.Operands d v w ∧ v.pendings = [] ∧ w.pendings = [] ∧
      m'.store.result? d.out = some slot ∧ slot.pendings = [] ∧
      (m'.store.resolve d.left = v → m'.store.resolve d.right = w →
        m'.store.SlotCovers slot v ∧ m'.store.SlotCovers slot w) ∧
      (m.store.isOpen d.out = true →
        ((Infer.mergeSlots ⟨some d.loop, d.config⟩ d.forced v w).outcome m.store).1 =
          .ok slot) := by
  have hpersists := hpolled.store.persists
  obtain ⟨v', w', hleft, hright, hv', hw', hdone⟩ := hpolled.merged x rfl
  have hoperands : m.store.Operands d v' w' :=
    ⟨hvw.1.trans (hleft ▸ .resolve m.store v), hvw.2.trans (hright ▸ .resolve m.store w)⟩
  obtain ⟨merged, s', hmerge, hmerged, hnodes, hresult⟩ :=
    Infer.mergeDeferred_ok hv' hw' (fun old hold => (hearly old hold).known) hdone
  have hcovers : ∀ {u u' : Slot}, u.pendings = [] → u'.pendings = [] →
      m.store.SlotCovers u u' → m'.store.SlotCovers u u' :=
    fun hu hu' => (Store.slotCovers_congr hnodes hu hu').mpr
  rw [Store.mergeScope_loop, h.config] at hmerge
  refine ⟨v', w', ?_⟩
  rcases hresult with ⟨-, hslot⟩ | ⟨old, hold, hslot, hcovered⟩
  · refine ⟨merged, hoperands.later hpersists, hv', hw', hslot, hmerged.known, fun _ _ => ?_,
      fun _ => hmerge⟩
    exact ⟨hcovers hmerged.known hv' hmerged.left, hcovers hmerged.known hw' hmerged.right⟩
  · have hknown := (hearly old hold).known
    refine ⟨old, hoperands.later hpersists, hv', hw', hslot, hknown, fun hv hw => ?_,
      fun hopen => ?_⟩
    · rcases (hearly old hold).later hpersists with rfl | ⟨-, hbecomes⟩
      · have hself := Store.resolve_self m'.store .anything rfl
        exact ⟨.inl hself, .inl hself⟩
      -- what the pending was taken for is one of the operands
      have holds : old = v' ∨ old = w' :=
        hbecomes.imp (fun hb => hb.eq_of_known hv' hknown hv) fun hb => hb.eq_of_known hw' hknown hw
      obtain ⟨hl, hr⟩ := hmerged.covered old holds hcovered
      exact ⟨hcovers hknown hv' hl, hcovers hknown hw' hr⟩
    · rw [Store.result?_of_isOpen hopen] at hold
      exact nomatch hold

/-- **The task of a deferred merge is completed without an error** when both operands are known.
The pending then holds a slot that covers both, and if it was open before, that is what the merge
gives. -/
theorem Postpones.completed (h : m.Postpones d) (hstep : m.step = some m')
    (hdone : m'.completed? = some (d.loop, d.task)) :
    ∃ v w slot, m'.store.Operands d v w ∧ v.pendings = [] ∧ w.pendings = [] ∧
      m'.store.result? d.out = some slot ∧ slot.pendings = [] ∧
      (m'.store.resolve d.left = v → m'.store.resolve d.right = w →
        m'.store.SlotCovers slot v ∧ m'.store.SlotCovers slot w) ∧
      (m.store.isOpen d.out = true →
        ((Infer.mergeSlots ⟨some d.loop, d.config⟩ d.forced v w).outcome m.store).1 = .ok slot) := by
  obtain ⟨body, rest, x, hstack, hcontrol⟩ := completed?_eq_some hdone
  -- the task was not under way before this step
  have htop : .task d.loop d.task body ∈ m'.stack := hstack ▸ List.mem_cons_self
  have hconcerns : d.Concerns (.task d.loop d.task body : Frame σ) := .inl ⟨body, rfl⟩
  rcases h.frames with hnone | ⟨f, rest', r, hstack', hf, hrest, hcontrol', -⟩
  swap
  · rw [Machine.step, hcontrol', hstack'] at hstep
    cases hstep
    rcases hf with ⟨body', rfl⟩ | rfl
    · cases hcontrol
    · refine absurd hconcerns (hrest _ ?_)
      rwa [resume, resolved_stack] at htop
  have hnot : ∀ {fs : List (Frame σ)}, (∀ f ∈ fs, f.Plain ∨ f ∈ m.stack) →
      .task d.loop d.task body ∉ fs := fun hfs hmem =>
    (hfs _ hmem).elim id fun hold => hnone _ hold hconcerns
  cases moves hstep with
  | calm hcalm => exact absurd htop (hnot hcalm.stack)
  | spawned _ hcalm => exact absurd htop (hnot hcalm.stack)
  | resolving hcalm _ hstack' _ _ =>
    rw [hstack'] at hstack
    cases hstack
  | @resolved p r rest' hstack' _ =>
    rw [resolved_stack] at htop
    exact absurd htop (hnot fun f hf => .inr (hstack' ▸ List.mem_cons_of_mem _ hf))
  | skipped _ _ _ => exact absurd htop (hnot fun f hf => .inr hf)
  | turned _ _ _ hstack' _ _ => cases hstack.symm.trans hstack'
  | suspended hpauses hstack' _ hrest _ _ =>
    rw [hrest] at htop
    refine absurd htop (hnot fun f hf => hpauses.calm.stack f ?_)
    exact hstack' ▸ List.mem_cons_of_mem _ hf
  | @polled l _ t _ body' s _ _ hqueue hlookup =>
    obtain ⟨hs, hdrop, hpendings⟩ := h.store.dropped (n := t) hqueue
    by_cases hlt : l = d.loop ∧ t = d.task
    · obtain ⟨rfl, rfl⟩ := hlt
      have hmem := mem_of_lookup hlookup
      obtain ⟨v, w, rfl, hvw⟩ := hs.entry body' hmem
      have hlater : s.Persists (s.dropTask d.loop d.task) := Store.persists_of_pendings rfl
      rcases pollMerge_cases { m with store := s.dropTask d.loop d.task } d.loop d.task
        { d.toDeferral with left := v, right := w } with ⟨_, _, _, -, -, -, -, -, hstack'⟩ | ⟨r, hpolled⟩
      · have hmem' : .task d.loop d.task body ∈ m.stack := hstack' ▸ htop
        exact absurd hconcerns (hnone _ hmem')
      · obtain rfl : r = .ok x := by simpa using hpolled.control.symm.trans hcontrol
        obtain ⟨v', w', slot, hoperands, hv', hw', hslot, hknown, hcovers, hexact⟩ :=
          hpolled.sound hdrop (hvw.later hlater) fun e he => (hs.early _ hmem e he).later hlater
        refine ⟨v', w', slot, hoperands, hv', hw', hslot, hknown, hcovers, fun hopen => ?_⟩
        rw [← hexact ((Store.isOpen_of_pendings hpendings).trans hopen)]
        refine (Infer.mergeSlots_congr ?_ ?_ hv' hw').symm
        · rw [hqueue]
          rfl
        · rw [hqueue]
          rfl
    · rcases pollTask_cases { m with store := s.dropTask l t } l t body' with
        ⟨_, _, -, -, hstack'⟩ | ⟨-, hstack'⟩
      · exact absurd hconcerns (hnone _ (hstack' ▸ htop))
      · rw [hstack'] at hstack
        cases hstack
        exact absurd ⟨rfl, rfl⟩ hlt

/-! ### Runs -/

/-- A completed task has still to be noted by its loop. -/
theorem step_of_completed? {l : LoopId} {t : TaskId} (hdone : m.completed? = some (l, t)) :
    m.step ≠ none := by
  obtain ⟨body, rest, x, hstack, hcontrol⟩ := completed?_eq_some hdone
  rw [Machine.step, hcontrol]
  simp [hstack]

/-- **A run** keeps what is known of a deferred merge, if the pending is closed duly. -/
theorem Postpones.run (h : m.Postpones d) (hm : m.Reachable) (k : Nat)
    (hduly : ∀ i < k, ClosesDuly d.loop d.task d.out (m.run i) (m.run (i + 1))) :
    (m.run k).Postpones d := by
  refine run_keeps (P := fun m' => m'.Postpones d) k h fun i hi hpost m' hstep => ?_
  have hnext := hduly i hi
  rw [run_succ, hstep] at hnext
  exact hpost.step (hm.run i).idle hstep hnext

/-- Code that merges two slots and binds a new pending leaves a machine that knows of the merge,
with no frame that is about it. -/
theorem postpones_of_update (hm : m.Reachable) {α : Type} {x : Update α} {next : α → Program σ}
    (hcode : m.control = .exec (.update x next)) {s₀ s₁ : Store} (hbefore : Evolves m.store s₀)
    {l : LoopId} {forced : Bool} {a b : Slot} {r : PendingId}
    (hmerge : (Infer.mergeSlots (s₀.mergeScope (some l)) forced a b).outcome s₀ =
      (.ok (.pending r), s₁))
    (hbinds : s₀.pendings.size ≤ r ∧ r < s₁.pendings.size)
    (hafter : Evolves s₁ (x.run m.store).2)
    (hd : d = ⟨⟨a, b, r, forced⟩, l, (s₀.loop l).spawned, (s₀.loop l).config⟩)
    (hduly : ClosesDuly d.loop d.task d.out m (m.run 1)) :
    (m.run 1).Postpones d ∧ ∀ f ∈ (m.run 1).stack, ¬ d.Concerns f := by
  have hrun : m.run 1 = m.execute (.update x next) := by rw [Machine.run, Machine.step, hcode]; rfl
  have hstore : (m.run 1).store = (x.run m.store).2 := by rw [hrun]; rfl
  have hstack : (m.run 1).stack = m.stack := by rw [hrun]; rfl
  have hquiet := Store.quiet_of_evolves hbefore
  have hnew : m.store.pendings.size ≤ d.out := by
    rw [hd]
    exact Nat.le_trans hquiet.size_le hbinds.1
  -- the task and the pending are new, so no frame is about them
  have hnone : ∀ f ∈ m.stack, ¬ d.Concerns f := by
    intro f hf hconcerns
    have hnumbered := hm.numbered.frames f hf
    rcases hconcerns with ⟨body, rfl⟩ | rfl
    · have hspawned : (m.store.loop d.loop).spawned ≤ d.task := by
        rw [hd]
        exact (hquiet.table l).spawned
      exact absurd hspawned (Nat.not_le.mpr hnumbered)
    · exact absurd hnew (Nat.not_le.mpr hnumbered)
  have hnone' : ∀ f ∈ (m.run 1).stack, ¬ d.Concerns f := hstack ▸ hnone
  have hopen : (m.run 1).store.isOpen d.out = true :=
    hduly.keeps hnone hnone' (Store.isOpen_iff.mpr (.inl (Store.pendingStatus_of_absent hnew)))
  have hs₀ : s₀.Numbered := hm.numbered.tasks.grows hquiet.table
  have h₁ : s₁.Postpones d := hd ▸ Store.postpones_of_mergeSlots hs₀ hmerge hbinds.1 hbinds.2
  have hlast : s₁.Quiet (m.run 1).store := hstore ▸ Store.quiet_of_evolves hafter
  refine ⟨⟨h₁.quiet_of_open hlast fun _ => hopen, .inl hnone'⟩, hnone'⟩

/-- **A deferred merge is sound under every order of events.**  Let code merge two slots and bind a
new pending, and let nothing but the pending's resolver and the task of the merge close it.
Whenever the task is completed without an error, the pending holds a slot that a forced merge with
what either operand was resolved to leaves as it is.  If the pending was open just before, it holds
what the merge of those gives.  An operand is resolved by then, unless it has failed since. -/
theorem deferred_merge_sound (hm : m.Reachable) {α : Type} {x : Update α} {next : α → Program σ}
    (hcode : m.control = .exec (.update x next)) {s₀ s₁ : Store} (hbefore : Evolves m.store s₀)
    {l : LoopId} {forced : Bool} {a b : Slot} {r : PendingId}
    (hmerge : (Infer.mergeSlots (s₀.mergeScope (some l)) forced a b).outcome s₀ =
      (.ok (.pending r), s₁))
    (hbinds : s₀.pendings.size ≤ r ∧ r < s₁.pendings.size)
    (hafter : Evolves s₁ (x.run m.store).2) {n : Nat}
    (hduly : ∀ i ≤ n, ClosesDuly l (s₀.loop l).spawned r (m.run i) (m.run (i + 1)))
    (hdone : (m.run (n + 1)).completed? = some (l, (s₀.loop l).spawned)) :
    let s := (m.run (n + 1)).store
    ∃ slot, s.result? r = some slot ∧
      (∀ c p, c = a ∨ c = b → s.resolve c = .pending p → (s.error? p).isSome = true) ∧
      ((∀ c p, c = a ∨ c = b → s.resolve c ≠ .pending p) →
        (∀ c scope, c = a ∨ c = b →
          (Infer.mergeSlots scope true slot (s.resolve c)).outcome s = (.ok slot, s)) ∧
        ((m.run n).store.isOpen r = true →
          ((Infer.mergeSlots (s₀.mergeScope (some l)) forced (s.resolve a) (s.resolve b)).outcome
            (m.run n).store).1 = .ok slot)) := by
  obtain ⟨d, hd⟩ : ∃ d : Postponed,
      d = ⟨⟨a, b, r, forced⟩, l, (s₀.loop l).spawned, (s₀.loop l).config⟩ := ⟨_, rfl⟩
  have hduly' : ∀ i ≤ n, ClosesDuly d.loop d.task d.out (m.run i) (m.run (i + 1)) := by
    rw [hd]
    exact hduly
  have hdone' : (m.run (n + 1)).completed? = some (d.loop, d.task) := by rw [hdone, hd]
  obtain ⟨hfirst, hnone⟩ := postpones_of_update hm hcode hbefore hmerge hbinds hafter hd
    (hduly' 0 (Nat.zero_le n))
  obtain ⟨k, rfl⟩ : ∃ k, n = k + 1 := by
    refine Nat.exists_eq_succ_of_ne_zero ?_
    rintro rfl
    obtain ⟨body, rest, v, htop, -⟩ := completed?_eq_some hdone'
    exact hnone _ (htop ▸ List.mem_cons_self) (.inl ⟨body, rfl⟩)
  have hbefore : (m.run (k + 1)).Postpones d := by
    have hlater := hfirst.run (hm.run 1) k fun i hi => ?_
    · rwa [← run_add, Nat.add_comm] at hlater
    · have hi' := hduly' (i + 1) (by omega)
      rwa [Nat.add_comm i 1, Nat.add_assoc, run_add, run_add] at hi'
  obtain ⟨m', hstep⟩ : ∃ m', (m.run (k + 1)).step = some m' := by
    refine Option.ne_none_iff_exists'.mp fun hnone => ?_
    rw [run_succ, hnone] at hdone
    exact step_of_completed? hdone hnone
  have hlast : m.run (k + 1 + 1) = m' := by rw [run_succ, hstep]; rfl
  rw [hlast] at hdone' ⊢
  obtain ⟨v, w, slot, hoperands, hv, hw, hslot, hknown, hcovers, hexact⟩ :=
    hbefore.completed hstep hdone'
  subst hd
  refine ⟨slot, hslot, ?_, fun hnot => ?_⟩
  · rintro c p (rfl | rfl) hp
    · exact hoperands.1.failed_of_pending hv hp
    · exact hoperands.2.failed_of_pending hw hp
  have ha : m'.store.resolve a = v := hoperands.1.resolve_eq hv fun p => hnot a p (.inl rfl)
  have hb : m'.store.resolve b = w := hoperands.2.resolve_eq hw fun p => hnot b p (.inr rfl)
  obtain ⟨hleft, hright⟩ := hcovers ha hb
  have hself := Infer.not_pending_of_known (s := m'.store) hknown
  rw [Store.mergeScope_loop, ha, hb]
  refine ⟨?_, hexact⟩
  rintro c scope (rfl | rfl)
  · rw [ha]
    exact (Infer.mergeSlots_yields scope hself (Infer.not_pending_of_known hv)).1 hleft
  · rw [hb]
    exact (Infer.mergeSlots_yields scope hself (Infer.not_pending_of_known hw)).1 hright

/-- A merge of a constant into a slot that is open. -/
def mergeOpen : Infer Slot := do
  Infer.mergeSlots ((← Infer.store).mergeScope (some 0)) false (.pending 0) (.constant (.int 1))

/-- Code that merges a constant into an open pending, resolves that, and runs the loop. -/
def mergingOpen : Program Unit :=
  .update (Infer.openLoop {}).run fun _ =>
    .update (Infer.hole 0).run fun _ =>
      .update mergeOpen.run fun _ =>
        .update (Infer.setResult 0 (.constant (.int 1))).run fun _ => .run 0 .done

/-- The pending that stands for the merge is bound, and then holds the constant that both operands
turned out to be. -/
theorem deferred_merge_sound_mergingOpen :
    let m := (start () mergingOpen).run 2
    let s := (m.run 4).store
    m.Reachable ∧ (mergeOpen.outcome m.store).1 = .ok (.pending 1) ∧
      (m.run 4).completed? = some (0, 0) ∧ (m.run 3).store.isOpen 1 = true ∧
      s.result? 1 = some (.constant (.int 1)) ∧
      (Infer.mergeSlots {} true (.constant (.int 1)) (s.resolve (.pending 0))).outcome s =
        (.ok (.constant (.int 1)), s) := by
  intro m s
  have hm : m.Reachable := (Reachable.start () mergingOpen).run 2
  have hmerge : (mergeOpen.outcome m.store).1 = .ok (.pending 1) := by rfl
  have hdone : (m.run (3 + 1)).completed? = some (0, 0) := by decide
  have hopen : (m.run 3).store.isOpen 1 = true := by decide
  have hresult : s.result? 1 = some (.constant (.int 1)) := by decide
  have hoperand : s.resolve (.pending 0) = .constant (.int 1) := by decide
  have hknown : ∀ c p, c = .pending 0 ∨ c = .constant (.int 1) → s.resolve c ≠ .pending p := by
    rintro c p (rfl | rfl)
    · rw [hoperand]
      exact nofun
    · exact Infer.not_pending_of_known rfl p
  have hcode : m.control = .exec (.update mergeOpen.run fun _ =>
      .update (Infer.setResult 0 (.constant (.int 1))).run fun _ => .run 0 .done) := by rfl
  have hbinds : (Infer.mergeSlots (m.store.mergeScope (some 0)) false (.pending 0)
      (.constant (.int 1))).outcome m.store = (.ok (.pending 1), (mergeOpen.run.run m.store).2) :=
    Prod.ext hmerge rfl
  have hnew : m.store.pendings.size ≤ 1 ∧ 1 < (mergeOpen.run.run m.store).2.pendings.size := by
    decide
  have hduly : ∀ i ≤ 3, ClosesDuly 0 0 1 (m.run i) (m.run (i + 1)) := by decide
  obtain ⟨slot, hslot, -, hsound⟩ :=
    deferred_merge_sound hm hcode .refl hbinds hnew .refl hduly hdone
  obtain rfl : slot = .constant (.int 1) := Option.some.inj (hslot.symm.trans hresult)
  exact ⟨hm, hmerge, hdone, hopen, hresult, (hsound hknown).1 (.pending 0) {} (.inl rfl)⟩

end Machine

end ValueInference
