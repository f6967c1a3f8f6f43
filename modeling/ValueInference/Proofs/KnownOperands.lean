/-
Deferred merges whose operands are both known.

The pending that stands for a deferred merge can be resolved in two ways.  Code forces it, and then
its resolver hands out the left operand, broadened; or its task is polled, and then the merge takes
place.  Both read the operands at that time.  If both are known, the two ways lead to the same slot
only if the merge gives the left operand, broadened; and a task that comes second fails unless what
was handed out covers the merge.

* **`Store.Fresh`** — a pending to which nothing has happened has kept its resolver;
* **`Infer.mergeDeferred_of_open`**, **`Infer.mergeDeferred_of_closed`** — what the task does with
  known operands, exactly;
* **`Machine.Known`** — a deferred merge whose operands are known;
* **`Machine.Known.forced`**, **`Machine.Known.polled_open`**, **`Machine.Known.polled_closed`** —
  the two ways, the second one before and after the first;
* **`Machine.deferred_merge_known`** — what comes of a deferred merge in either way.
-/
import ValueInference.Proofs.Broadened
import ValueInference.Proofs.Errors
import ValueInference.Proofs.Followed
import ValueInference.Proofs.Forcing

namespace ValueInference

namespace Store

variable {s t u : Store} {p : PendingId} {v w x : Slot}

/-! ### Pendings to which nothing has happened -/

/-- A pending that is unresolved in the second store was so in the first one, with the same
resolver. -/
def Fresh (p : PendingId) (s t : Store) : Prop :=
  t.pendingStatus p = .unresolved →
    s.pendingStatus p = .unresolved ∧ t.resolver? p = s.resolver? p

theorem Fresh.refl (s : Store) : Fresh p s s := fun h => ⟨h, rfl⟩

theorem Fresh.trans (h : Fresh p s t) (h' : Fresh p t u) : Fresh p s u := by
  intro hu
  obtain ⟨ht, hresolver'⟩ := h' hu
  obtain ⟨hs, hresolver⟩ := h ht
  exact ⟨hs, hresolver'.trans hresolver⟩

theorem Fresh.of_pending (h : t.pendings[p]? = s.pendings[p]?) : Fresh p s t := by
  rw [Fresh, pendingStatus, pendingStatus, resolver?, resolver?, h]
  exact fun hs => ⟨hs, rfl⟩

theorem Quiet.fresh (h : s.Quiet t) (hp : p < s.pendings.size) : Fresh p s t := by
  induction h with
  | refl => exact .refl s
  | @tail t u hst hstep ih =>
    refine ih.trans fun hu => ?_
    cases hstep.pending p with
    | same status resolver => exact ⟨status ▸ hu, resolver⟩
    | opened fresh _ =>
      exact absurd (Nat.lt_of_lt_of_le hp (Quiet.size_le hst)) (Nat.not_lt.mpr fresh)
    | resolved _ _ status _ => cases status.symm.trans hu

theorem fresh_beginResolving {q : PendingId} {r : Resolver} (hp : p < s.pendings.size)
    (h : s.beginResolving q = (some r, t)) : Fresh p s t := by
  obtain ⟨-, rfl⟩ := beginResolving_eq h
  by_cases hqp : q = p
  · subst hqp
    intro hu
    rw [pendingStatus, pending_modify_self, Array.getElem?_eq_getElem hp] at hu
    cases hu
  · exact .of_pending (pending_of_ne hqp)

theorem fresh_close {q : PendingId} {status : PendingStatus} (hp : p < s.pendings.size)
    (hstatus : status ≠ .unresolved) : Fresh p s (s.close q status) := by
  by_cases hqp : q = p
  · subst hqp
    intro hu
    rw [pendingStatus_close hp] at hu
    exact absurd hu hstatus
  · exact .of_pending (pending_close_of_ne hqp)

/-! ### Slots that exist -/

theorem broadenSlot_known (hv : v.pendings = []) : (s.broadenSlot v).pendings = [] := by
  rcases s.broadenSlot_eq v with h | h
  · rw [h]
    rfl
  · rwa [h]

theorem knowsSlot_broadenSlot (hknown : s.knowsSlot v = true) :
    s.knowsSlot (s.broadenSlot v) = true := by
  rcases s.broadenSlot_eq v with h | h
  · rw [h]
    rfl
  · rwa [h]

theorem outcome?_eq_ok : s.outcome? p = some (.ok v) ↔ s.result? p = some v := by
  rw [outcome?, result?]
  cases s.pendingStatus p <;> simp

/-- What a known slot is broadened to does not depend on the store. -/
theorem broadenSlot_congr (hv : v.pendings = []) : t.broadenSlot v = s.broadenSlot v := by
  rw [broadenSlot, broadenSlot, t.resolve_self v hv, s.resolve_self v hv]

/-- A merge that binds a new pending mentions slots that exist, and the pending has a resolver. -/
theorem exist_of_mergeSlots {l : LoopId} {forced : Bool} {a b : Slot}
    (h : (Infer.mergeSlots (s.mergeScope (some l)) forced a b).outcome s = (.ok (.pending p), t))
    (hnew : s.pendings.size ≤ p) (hbound : p < t.pendings.size) :
    s.knowsSlot (s.resolve a) = true ∧ s.knowsSlot (s.resolve b) = true ∧
      t.resolver? p = some (.operands (s.resolve a) (s.resolve b)) := by
  have hdefer : (Infer.deferMerge (s.mergeScope (some l)) forced (s.resolve a)
      (s.resolve b)).outcome s = (.ok (.pending p), t) := by
    refine (Infer.mergeSlots_pendings h).resolve_left fun hsame => ?_
    rw [hsame] at hbound
    exact absurd hbound (Nat.not_lt.mpr hnew)
  obtain ⟨out, n, s', hopen, hspawn, heq⟩ := Infer.deferMerge_ok rfl hdefer
  cases heq
  obtain ⟨rfl, ⟨cell, hcells, hresolver, -⟩, -⟩ := openPending_ok hopen
  obtain ⟨-, hsame, -⟩ := spawn_ok hspawn
  have hknows : s.knowsResolver (some (.operands (s.resolve a) (s.resolve b))) = true := by
    rw [openPending] at hopen
    split at hopen
    · cases hopen
    split at hopen
    · cases hopen
    · next hknown => simpa using hknown
  rw [knowsResolver, Bool.and_eq_true] at hknows
  refine ⟨hknows.1, hknows.2, ?_⟩
  rw [resolver?, hsame, hcells, Array.getElem?_push_size]
  exact hresolver

/-- The nodes of a known slot are those of its candidates. -/
theorem knowsSlot_of_candidates (hx : x.pendings = []) (hv : s.knowsSlot v = true)
    (hw : s.knowsSlot w = true)
    (h : ∀ c ∈ Infer.candidatesOf x, c ∈ Infer.candidatesOf v ∨ c ∈ Infer.candidatesOf w) :
    s.knowsSlot x = true := by
  have hchildren : ∀ {v : Slot} {n}, n ∈ v.children ↔
      ∃ c ∈ Infer.candidatesOf v, n ∈ c.children := by
    intro v n
    cases v with
    | possibilities p => exact List.mem_flatMap
    | constant c => simp [Slot.children, Infer.candidatesOf, Candidate.children]
    | _ => simp [Slot.children, Infer.candidatesOf]
  refine knowsSlot_iff.mpr ⟨fun n hn => ?_, fun p hp => ?_⟩
  · obtain ⟨c, hc, hn⟩ := hchildren.mp hn
    rcases h c hc with hc | hc
    · exact (knowsSlot_iff.mp hv).1 n (hchildren.mpr ⟨c, hc, hn⟩)
    · exact (knowsSlot_iff.mp hw).1 n (hchildren.mpr ⟨c, hc, hn⟩)
  · rw [hx] at hp
    exact absurd hp List.not_mem_nil

end Store

/-! ### The merge of known operands -/

namespace Infer

variable {s t : Store} {scope : MergeScope} {forced : Bool} {v w x : Slot} {l : LoopId}
  {c : Deferral}

/-- The candidates of what a merge of known slots gives come from the operands. -/
theorem KnownMerge.candidates {r : Except InferError Slot × Store} (h : KnownMerge s v w r)
    (hx : r.1 = .ok x) : ∀ c ∈ candidatesOf x, c ∈ candidatesOf v ∨ c ∈ candidatesOf w := by
  cases h with
  | error e => cases hx
  | left =>
    cases hx
    exact fun c => .inl
  | right =>
    cases hx
    exact fun c => .inr
  | union =>
    cases hx
    exact fun c => Store.mem_of_mem_addCandidates
  | _ =>
    cases hx
    exact fun c hc => absurd hc List.not_mem_nil

/-- **The task of a deferred merge whose pending is open** resolves the pending to what the merge
gives, or fails with the error of the merge and leaves it open. -/
theorem mergeDeferred_of_open (hv : v.pendings = []) (hw : w.pendings = [])
    (hkv : s.knowsSlot v = true) (hkw : s.knowsSlot w = true) (hopen : s.isOpen c.out = true)
    (hout : c.out < s.pendings.size) :
    (∃ e, ((mergeSlots (s.mergeScope (some l)) c.forced v w).outcome s).1 = .error e ∧
      (mergeDeferred l c v w).outcome s = (.error e, s)) ∨
    ∃ x t, ((mergeSlots (s.mergeScope (some l)) c.forced v w).outcome s).1 = .ok x ∧
      (mergeDeferred l c v w).outcome s = (.ok (), t) ∧ t.result? c.out = some x := by
  rcases hmerge : (mergeSlots (s.mergeScope (some l)) c.forced v w).outcome s with ⟨e | x, t⟩
  · have hknown := mergeSlots_known (s := s) (s.mergeScope (some l)) c.forced hv hw
    rw [hmerge] at hknown
    cases hknown
    refine .inl ⟨e, rfl, ?_⟩
    rw [mergeDeferred, outcome_store_bind, outcome_bind_of_error hmerge]
  · have hmerged := mergeSlots_merged hv hw hmerge
    have hcandidates := (mergeSlots_known (s.mergeScope (some l)) c.forced hv hw).candidates
      (congrArg Prod.fst hmerge)
    have hset : ∃ u, t.setResult c.out x = (.ok (), u) := by
      have hx : t.knowsSlot x = true := by
        have hkx := Store.knowsSlot_of_candidates hmerged.known hkv hkw hcandidates
        rw [Store.knowsSlot_iff] at hkx ⊢
        rw [hmerged.nodes, hmerged.pendings]
        exact hkx
      have hne : x ≠ .pending c.out := by
        rintro rfl
        cases hmerged.known
      rw [Store.setResult]
      rw [Store.isOpen_of_pendings hmerged.pendings, hopen, hx, hmerged.pendings]
      simp [hne, hout]
    obtain ⟨u, hset⟩ := hset
    refine .inr ⟨x, u, rfl, ?_, ?_⟩
    · rw [mergeDeferred, outcome_store_bind, outcome_bind_of_ok hmerge, outcome_store_bind,
        Store.result?_of_pendings hmerged.pendings, Store.result?_of_isOpen hopen]
      exact hset
    · have hresult := Store.result?_setResult (s := t) (p := c.out) (v := x) (by rw [hset])
      rwa [hset] at hresult

/-- **The task of a deferred merge whose pending was resolved before** leaves the result, and
succeeds if and only if the merge does and the result covers what it gives. -/
theorem mergeDeferred_of_closed (hv : v.pendings = []) (hw : w.pendings = []) {old : Slot}
    (hold : s.result? c.out = some old) (hknown : old.pendings = []) :
    ((mergeDeferred l c v w).outcome s).2.result? c.out = some old ∧
      (((mergeDeferred l c v w).outcome s).1 = .ok () ↔
        ∃ x, ((mergeSlots (s.mergeScope (some l)) c.forced v w).outcome s).1 = .ok x ∧
          s.SlotCovers old x) := by
  rcases hmerge : (mergeSlots (s.mergeScope (some l)) c.forced v w).outcome s with ⟨e | x, t⟩
  · have hmerged := mergeSlots_known (s := s) (s.mergeScope (some l)) c.forced hv hw
    rw [hmerge] at hmerged
    cases hmerged
    rw [mergeDeferred, outcome_store_bind, outcome_bind_of_error hmerge]
    refine ⟨hold, fun h => ?_, ?_⟩
    · cases h
    · rintro ⟨_, h, -⟩
      cases h
  have hmerged := mergeSlots_merged hv hw hmerge
  have hresult : t.result? c.out = some old :=
    (Store.result?_of_pendings hmerged.pendings).trans hold
  have hyields : Yields true (mergeSlots (s.mergeScope (some l)) true old x) t
      (t.SlotCovers old x) old :=
    mergeSlots_yields _ (not_pending_of_known hknown) (not_pending_of_known hmerged.known)
  have hcovers := Store.slotCovers_congr hmerged.nodes hknown hmerged.known
  rw [mergeDeferred, outcome_store_bind, outcome_bind_of_ok hmerge, outcome_store_bind, hresult]
  simp only [outcome_discard]
  by_cases hcovered : t.SlotCovers old x
  · rw [hyields.1 hcovered]
    exact ⟨hresult, fun _ => ⟨x, rfl, hcovers.mp hcovered⟩, fun _ => rfl⟩
  · obtain ⟨e, he⟩ := hyields.2 rfl hcovered
    rw [he]
    refine ⟨hresult, fun h => ?_, ?_⟩
    · cases h
    · rintro ⟨y, hy, hcovered'⟩
      cases hy
      exact absurd (hcovers.mpr hcovered') hcovered

end Infer

/-! ### Machines -/

namespace Machine

variable {σ : Type} {m m' : Machine σ} {d : Postponed} {v w : Slot} {l : LoopId} {t : TaskId}
  {p : PendingId} {rest : List (Frame σ)}

/-- A step that leaves a pending unresolved found it so, with the same resolver. -/
theorem Move.fresh (h : m.Move m') (hp : p < m.store.pendings.size) :
    Store.Fresh p m.store m'.store := by
  refine (h.store_induction (motive := fun s => Store.Fresh p m.store s ∧ p < s.pendings.size)
    ⟨.refl _, hp⟩ ?_ ?_ ?_ ?_).1
  · exact fun hs _ hpendings =>
      ⟨hs.1.trans (.of_pending (congrArg (·[p]?) hpendings)), hpendings ▸ hs.2⟩
  · exact fun hs hquiet =>
      ⟨hs.1.trans (hquiet.fresh hs.2), Nat.lt_of_lt_of_le hs.2 hquiet.size_le⟩
  · intro s t q res _ hs hbegin
    refine ⟨hs.1.trans (Store.fresh_beginResolving hs.2 hbegin), ?_⟩
    obtain ⟨-, rfl⟩ := Store.beginResolving_eq hbegin
    exact Nat.lt_of_lt_of_eq hs.2 Array.size_modify.symm
  · exact fun q e _ =>
      ⟨Store.fresh_close hp nofun, Nat.lt_of_lt_of_eq hp (Store.size_close _).symm⟩

/-- A pending that is unresolved after a run was so before, with the same resolver. -/
theorem run_fresh (hm : m.Reachable) (hp : p < m.store.pendings.size) (k : Nat) :
    Store.Fresh p m.store (m.run k).store := by
  refine run_keeps (P := fun m' => Store.Fresh p m.store m'.store) k (.refl _) ?_
  intro i _ ih m' hstep
  exact ih.trans ((moves hstep).fresh (Nat.lt_of_lt_of_le hp (hm.later i).size_le))

/-! ### Polling the task -/

/-- What a step does that polls a task. -/
theorem step_polls (h : m.polls? = some ⟨l, t⟩) : ∃ ready body,
    (m.store.loop l).tasks.lookup t = some body ∧
      m.step = some ({ m with
        store := (m.store.modifyLoop l fun loop => { loop with ready }).dropTask l t }.pollTask
          l t body) := by
  rw [polls?] at h
  split at h
  · next l' polled hcontrol =>
    split at h
    · next t' ready hready =>
      split at h
      · next hsome =>
        cases h
        obtain ⟨body, hbody⟩ := Option.isSome_iff_exists.mp hsome
        refine ⟨ready, body, hbody, ?_⟩
        rw [step_poll hcontrol, pollNext_eq polled hready]
        simp only [hbody]
      · cases h
    · cases h
  · cases h

theorem poll_of_resolve {s : Store} {x : Slot} (h : s.resolve x = v) (hv : v.pendings = []) :
    s.poll x = .inr (.ok v) := by
  rw [Store.poll, h]
  split
  · cases hv
  · rfl

/-- A deferred merge that is polled with known operands takes place. -/
theorem pollMerge_known {c : Deferral} (hleft : m.store.resolve c.left = v)
    (hright : m.store.resolve c.right = w) (hv : v.pendings = []) (hw : w.pendings = []) :
    let done := (Infer.mergeDeferred l c v w).outcome m.store
    m.pollMerge l t c =
      ({ m with store := done.2 }.push (.task l t (.merge c))).answer
        (done.1.map fun _ => .anything) := by
  rw [pollMerge]
  simp only [poll_of_resolve hleft hv, poll_of_resolve hright hw]
  rfl

/-- A deferred merge whose operands are known, and exist. -/
structure Known (m : Machine σ) (d : Postponed) (v w : Slot) : Prop where
  postpones : m.Postpones d
  left : m.store.resolve d.left = v
  right : m.store.resolve d.right = w
  known_left : v.pendings = []
  known_right : w.pendings = []
  exists_left : m.store.knowsSlot v = true
  exists_right : m.store.knowsSlot w = true

/-- What the merge of the operands gives under the limits of its loop. -/
def mergedOperands (m : Machine σ) (d : Postponed) (v w : Slot) : Outcome :=
  ((Infer.mergeSlots ⟨some d.loop, d.config⟩ d.forced v w).outcome m.store).1

/-- What is under way after the task of a deferred merge was polled with known operands: the merge
took place in a store that differs from the one before in its loops only. -/
structure TookPlace (m m' : Machine σ) (d : Postponed) (c : Deferral) (s : Store) (v w : Slot) :
    Prop where
  out : c.out = d.out
  merged : ((Infer.mergeSlots (s.mergeScope (some d.loop)) c.forced v w).outcome s).1 =
    m.mergedOperands d v w
  pendings : s.pendings = m.store.pendings
  nodes : s.nodes = m.store.nodes
  stack : m'.stack = .task d.loop d.task (.merge c) :: m.stack
  control : m'.control =
    .answer (((Infer.mergeDeferred d.loop c v w).outcome s).1.map fun _ => .anything)
  store : m'.store = ((Infer.mergeDeferred d.loop c v w).outcome s).2

namespace Known

theorem polled (h : m.Known d v w) (hpolls : m.polls? = some ⟨d.loop, d.task⟩) :
    ∃ m' c s, m.step = some m' ∧ TookPlace m m' d c s v w := by
  obtain ⟨ready, body, hbody, hstep⟩ := step_polls hpolls
  obtain ⟨x, y, rfl, hx, hy⟩ := h.postpones.store.entry body (mem_of_lookup hbody)
  let s := (m.store.modifyLoop d.loop fun loop => { loop with ready }).dropTask d.loop d.task
  obtain ⟨hdropped, hpendings⟩ : s.Postpones d ∧ s.pendings = m.store.pendings :=
    (h.postpones.store.dropped rfl).2
  have hresolve : s.resolve = m.store.resolve := Store.resolve_congr hpendings
  have hleft : s.resolve x = v := by
    rw [hresolve, hx.resolve_congr (by rw [h.left]; exact h.known_left), h.left]
  have hright : s.resolve y = w := by
    rw [hresolve, hy.resolve_congr (by rw [h.right]; exact h.known_right), h.right]
  let c : Deferral := { d.toDeferral with left := x, right := y }
  have hdone := pollMerge_known (m := { m with store := s }) (l := d.loop) (t := d.task) (c := c)
    hleft hright h.known_left h.known_right
  refine ⟨_, c, s, hstep, rfl, ?_, hpendings, rfl, ?_, ?_, ?_⟩
  · rw [Store.mergeScope_loop, hdropped.config]
    exact Infer.mergeSlots_congr rfl rfl h.known_left h.known_right
  all_goals
    rw [pollTask, hdone]
    rfl

/-- **The task of a deferred merge whose pending is open** fails with the error of the merge, or it
is completed and the pending has what the merge gives. -/
theorem polled_open (h : m.Known d v w) (hpolls : m.polls? = some ⟨d.loop, d.task⟩)
    (hopen : m.store.isOpen d.out = true) : ∃ m', m.step = some m' ∧
      ((∃ e, m.mergedOperands d v w = .error e ∧ m'.failed? d.loop = some e ∧
        m'.store.isOpen d.out = true) ∨
      ∃ slot, m.mergedOperands d v w = .ok slot ∧ m'.completed? = some (d.loop, d.task) ∧
        m'.store.result? d.out = some slot) := by
  obtain ⟨m', c, s, hstep, hdone⟩ := h.polled hpolls
  refine ⟨m', hstep, ?_⟩
  have hknows : ∀ {x : Slot}, m.store.knowsSlot x = true → s.knowsSlot x = true := fun hx => by
    rw [Store.knowsSlot_iff] at hx ⊢
    rwa [hdone.nodes, hdone.pendings]
  have hopen' : s.isOpen c.out = true := by
    rw [hdone.out, Store.isOpen_of_pendings hdone.pendings, hopen]
  have hout : c.out < s.pendings.size := by
    rw [hdone.out, hdone.pendings]
    exact h.postpones.store.out
  rcases Infer.mergeDeferred_of_open (l := d.loop) h.known_left h.known_right (hknows h.exists_left)
    (hknows h.exists_right) hopen' hout with ⟨e, hmerged, hrun⟩ | ⟨slot, t, hmerged, hrun, hresult⟩
  · refine .inl ⟨e, hdone.merged.symm.trans hmerged, ?_, ?_⟩
    · rw [failed?, hdone.stack, hdone.control, hrun]
      exact if_pos rfl
    · rw [hdone.store, hrun, ← hdone.out]
      exact hopen'
  · refine .inr ⟨slot, hdone.merged.symm.trans hmerged, ?_, ?_⟩
    · rw [completed?, hdone.control, hrun, topTask?, hdone.stack]
      rfl
    · rw [hdone.store, hrun, ← hdone.out]
      exact hresult

/-- **The task of a deferred merge whose pending was resolved before** is completed if and only if
the merge succeeds and the result covers what it gives; otherwise it fails.  The result stays. -/
theorem polled_closed (h : m.Known d v w) (hpolls : m.polls? = some ⟨d.loop, d.task⟩) {old : Slot}
    (hold : m.store.result? d.out = some old) (hknown : old.pendings = []) :
    ∃ m', m.step = some m' ∧ m'.store.result? d.out = some old ∧
      (m'.completed? = some (d.loop, d.task) ↔
        ∃ slot, m.mergedOperands d v w = .ok slot ∧ m.store.SlotCovers old slot) ∧
      (m'.completed? = some (d.loop, d.task) ∨ ∃ e, m'.failed? d.loop = some e) := by
  obtain ⟨m', c, s, hstep, hdone⟩ := h.polled hpolls
  have hold' : s.result? c.out = some old := by
    rw [hdone.out, Store.result?_of_pendings hdone.pendings, hold]
  obtain ⟨hresult, hiff⟩ := Infer.mergeDeferred_of_closed (l := d.loop) h.known_left h.known_right
    hold' hknown
  have hcovers : ∀ {slot : Slot}, m.mergedOperands d v w = .ok slot →
      (s.SlotCovers old slot ↔ m.store.SlotCovers old slot) := by
    intro slot hslot
    have hpair : (Infer.mergeSlots ⟨some d.loop, d.config⟩ d.forced v w).outcome m.store =
        (.ok slot, _) := Prod.ext hslot rfl
    exact Store.slotCovers_congr hdone.nodes hknown
      (Infer.mergeSlots_merged h.known_left h.known_right hpair).known
  have hcompleted : m'.completed? = some (d.loop, d.task) ↔
      ((Infer.mergeDeferred d.loop c v w).outcome s).1 = .ok () := by
    rw [completed?, hdone.control, topTask?, hdone.stack]
    cases ((Infer.mergeDeferred d.loop c v w).outcome s).1 <;> simp [Except.map]
  refine ⟨m', hstep, ?_, ?_, ?_⟩
  · rw [hdone.store, ← hdone.out]
    exact hresult
  · rw [hcompleted, hiff, hdone.merged]
    exact exists_congr fun slot => and_congr_right hcovers
  · rw [hcompleted]
    cases hrun : ((Infer.mergeDeferred d.loop c v w).outcome s).1 with
    | ok u => exact .inl rfl
    | error e =>
      refine .inr ⟨e, ?_⟩
      rw [failed?, hdone.stack, hdone.control, hrun]
      exact if_pos rfl

end Known

/-! ### Forcing the pending -/

theorem resolveOperands_known {s : Store} {x y : Slot} (hx : s.resolve x = v) (hy : s.resolve y = w)
    (hv : v.pendings = []) (hw : w.pendings = []) :
    s.resolveOperands x y = .ok (s.broadenSlot v) := by
  rw [Store.resolveOperands, hx, hy]
  split
  · cases hv
  · cases hv
  · rfl

/-- Code that forces a pending with a resolver of its own that nothing has happened to starts the
resolver. -/
theorem run_force {x y : Slot} {next : Outcome → Program σ}
    (hstatus : m.store.pendingStatus p = .unresolved)
    (hresolver : m.store.resolver? p = some (.operands x y))
    (hforce : m.control = .exec (.force l p next)) :
    m.run 1 = { m with
      store := m.store.taken p
      stack := .resolving p :: .forcing l p :: .client next :: m.stack
      control := .answer ((m.store.taken p).resolveOperands x y) } := by
  have houtcome : m.store.outcome? p = none :=
    Store.outcome?_of_open (Store.isOpen_iff.mpr (.inl hstatus))
  have hidle : m.store.isResolving p = false := by rw [Store.isResolving, hstatus]
  have hhas : m.store.hasResolver p = true := by
    rw [Store.hasResolver, ← Store.resolver?, hresolver]
    rfl
  have hbegin : ((m.push (.client next)).push (.forcing l p)).store.beginResolving p =
      (some (.operands x y), m.store.taken p) := Store.beginResolving_some hresolver
  have hnext : m.run 1 = m.execute (.force l p next) :=
    run_of_step (m := m) (i := 0) (step_exec hforce)
  rw [hnext, execute, startForce]
  simp only [show (m.push (.client next)).store = m.store from rfl, houtcome, hidle, hhas,
    Bool.false_eq_true, if_false, if_true, startResolver, hbegin]
  rfl

/-- A result that a pending can take is taken over, and handed to the call that forced it. -/
theorem run_resolving {e : Slot} {next : Outcome → Program σ}
    (hhands : m.Hands 0 (.resolving p :: .forcing l p :: .client next :: rest) (.ok e))
    (hopen : m.store.isOpen p = true) (hp : p < m.store.pendings.size) (he : e.pendings = [])
    (hknows : m.store.knowsSlot e = true) :
    (m.run 1).stack = .forcing l p :: .client next :: rest ∧
      m.Hands 2 (.client next :: rest) (.ok e) ∧ (m.run 1).store.result? p = some e ∧
      (m.run 2).store.result? p = some e := by
  have hset : m.store.setResult p e = (.ok (), m.store.close p (.resolved e)) := by
    have hne : e ≠ .pending p := by
      rintro rfl
      exact nomatch he
    rw [Store.setResult]
    simp [hopen, hne, hknows, hp]
  have houtcome : (m.store.close p (.resolved e)).outcome? p = some (.ok e) := by
    rw [Store.outcome?, Store.pendingStatus_close hp]
  have hfirst : m.run 1 = { m with
      store := m.store.close p (.resolved e)
      stack := .forcing l p :: .client next :: rest
      control := .answer unit } := by
    rw [hhands.next, resume, resolved]
    simp only [show m.run 0 = m from rfl, hopen, if_true, hset]
    rfl
  have hhands' : m.Hands 1 (.forcing l p :: .client next :: rest) unit :=
    ⟨by rw [hfirst], by rw [hfirst]⟩
  have hsecond : m.run 2 = { m with
      store := m.store.close p (.resolved e)
      stack := .client next :: rest
      control := .answer (.ok e) } := by
    rw [hhands'.next, hfirst]
    simp only [resume, unit, forceDone, houtcome]
    rfl
  have hresult : (m.store.close p (.resolved e)).result? p = some e := by
    rw [Store.result?_eq_some, Store.pendingStatus_close hp]
  refine ⟨by rw [hfirst], ⟨by rw [hsecond], by rw [hsecond]⟩, ?_, ?_⟩
  · rw [hfirst]
    exact hresult
  · rw [hsecond]
    exact hresult

namespace Known

/-- **A deferred merge whose pending is forced**, and to which nothing has happened, is taken for
its left operand, broadened. -/
theorem forced (h : m.Known d v w) (hstatus : m.store.pendingStatus d.out = .unresolved)
    (hresolver : m.store.resolver? d.out ≠ none) {next : Outcome → Program σ}
    (hforce : m.control = .exec (.force l d.out next)) :
    m.Answered 0 3 next (.ok (m.store.broadenSlot v)) ∧
      (m.run 1).store.isOpen d.out = true ∧ (m.run 1).topResolver? = some d.out ∧
      (m.run 2).store.result? d.out = some (m.store.broadenSlot v) ∧
      (m.run 3).store.result? d.out = some (m.store.broadenSlot v) := by
  obtain ⟨r, hr⟩ := Option.ne_none_iff_exists'.mp hresolver
  obtain ⟨x, y, rfl, hx, hy⟩ := h.postpones.store.resolver r hr
  -- the store once the resolver was taken: only the mark of the pending is new
  let s := m.store.taken d.out
  have hbegin := Store.beginResolving_some hr
  have hopen : s.isOpen d.out = true :=
    Store.isOpen_iff.mpr (.inr (Store.pendingStatus_beginResolving hbegin).2.1)
  have hsize : s.pendings.size = m.store.pendings.size := Array.size_modify
  have hresult : ∀ p, s.result? p = m.store.result? p := by
    intro p
    by_cases hp : p = d.out
    · rw [hp, Store.result?_of_isOpen hopen,
        Store.result?_of_isOpen (Store.isOpen_iff.mpr (.inl hstatus))]
    · exact Store.result?_of_status (by
        rw [Store.pendingStatus, (Store.pendingStatus_beginResolving hbegin).2.2 p hp]
        rfl)
  have hresolve : ∀ z, s.resolve z = m.store.resolve z := fun z => by
    rw [Store.resolve, Store.resolve, hsize, Store.follow_congr hresult]
  have hleft : s.resolve x = v := by
    rw [hresolve, hx.resolve_congr (by rw [h.left]; exact h.known_left), h.left]
  have hright : s.resolve y = w := by
    rw [hresolve, hy.resolve_congr (by rw [h.right]; exact h.known_right), h.right]
  have hstart := run_force hstatus hr hforce
  rw [resolveOperands_known hleft hright h.known_left h.known_right,
    Store.broadenSlot_congr (t := m.store.taken d.out) (s := m.store) h.known_left] at hstart
  have hhands : (m.run 1).Hands 0 (.resolving d.out :: .forcing l d.out :: .client next :: m.stack)
      (.ok (m.store.broadenSlot v)) := by
    rw [hstart]
    exact ⟨rfl, rfl⟩
  have hopen' : (m.run 1).store.isOpen d.out = true := by
    rw [hstart]
    exact hopen
  obtain ⟨hstack, hhands', hresult₂, hresult₃⟩ := run_resolving hhands hopen'
    (by rw [hstart]; exact hsize ▸ h.postpones.store.out) (Store.broadenSlot_known h.known_left)
    (by
      have hknows := Store.knowsSlot_broadenSlot h.exists_left
      rw [Store.knowsSlot_iff] at hknows ⊢
      rw [hstart]
      exact ⟨hknows.1, fun q hq => hsize.symm ▸ hknows.2 q hq⟩)
  rw [← run_add] at hstack hresult₂ hresult₃
  refine ⟨⟨by decide, fun i hi hi' => ?_, ?_⟩, hopen', topResolver?_of_stack hhands.1, hresult₂,
    hresult₃⟩
  · -- the frame of the caller is at the bottom of all three stacks
    change m.stack.length < (m.run i).stack.length
    obtain rfl | rfl | rfl : i = 1 ∨ i = 2 ∨ i = 3 := by omega
    · rw [show (m.run 1).stack = _ from hhands.1]
      simp only [List.length_cons]
      omega
    · rw [show (m.run 2).stack = _ from hstack]
      simp only [List.length_cons]
      omega
    · rw [run_add 1 2, show ((m.run 1).run 2).stack = _ from hhands'.1]
      simp only [List.length_cons]
      omega
  · rw [Hands, run_add 1 2]
    exact hhands'

/-- After that the pending keeps what it was taken for. -/
theorem after_force (h : m.Known d v w) (hm : m.Reachable)
    (hstatus : m.store.pendingStatus d.out = .unresolved)
    (hresolver : m.store.resolver? d.out ≠ none) {next : Outcome → Program σ}
    (hforce : m.control = .exec (.force l d.out next)) {k : Nat} (hk : 3 ≤ k) :
    (m.run k).store.outcome? d.out = some (.ok (m.store.broadenSlot v)) ∧
      (m.run k).Postpones d := by
  obtain ⟨hanswered, hopen, htop, hresult₂, hresult₃⟩ := h.forced hstatus hresolver hforce
  constructor
  · -- code is under way, so neither the task nor the resolver is
    have hframes : ∀ f ∈ m.stack, ¬ d.Concerns f := by
      refine h.postpones.frames.resolve_right ?_
      rintro ⟨f, rest, outcome, -, -, -, hcontrol, -⟩
      cases hforce.symm.trans hcontrol
    have hnone : d.out ∉ (m.run 3).resolvers := by
      rw [mem_resolvers, hanswered.handed.1]
      intro hmem
      rcases List.mem_cons.mp hmem with heq | hmem
      · cases heq
      · exact hframes _ hmem (.inr rfl)
    obtain ⟨j, rfl⟩ := Nat.exists_eq_add_of_le hk
    rw [run_add]
    exact outcome?_lasts (hm.run 3) (Store.outcome?_eq_ok.mpr hresult₃) hnone j
  · refine h.postpones.run hm k fun i _ hwas hcloses => ?_
    -- the resolver is on top when the pending is closed, and it stays closed
    obtain rfl | rfl | hlate : i = 0 ∨ i = 1 ∨ 2 ≤ i := by omega
    · cases hopen.symm.trans hcloses
    · exact .inl htop
    · obtain ⟨i, rfl⟩ := Nat.exists_eq_add_of_le hlate
      have hclosed : (m.run 2).store.isOpen d.out = false :=
        Store.isOpen_eq_false_iff.mpr (.inl ⟨_, hresult₂⟩)
      have hstill := run_closed (hm.run 2) hclosed i
      rw [← run_add] at hstill
      cases hwas.symm.trans hstill

end Known

/-! ### Deferred merges along a run -/

section

variable {α : Type} {x : Update α} {next : α → Program σ} {s₀ s₁ : Store} {forced : Bool}
  {a b : Slot} {r : PendingId} {n : Nat}

/-- Once code has bound a pending for the merge of two slots, and while nothing happens to the
pending, the merge is known of, and the pending has its resolver. -/
theorem known_of_update (hm : m.Reachable) (hcode : m.control = .exec (.update x next))
    (hbefore : Evolves m.store s₀)
    (hmerge : (Infer.mergeSlots (s₀.mergeScope (some l)) forced a b).outcome s₀ =
      (.ok (.pending r), s₁))
    (hbinds : s₀.pendings.size ≤ r ∧ r < s₁.pendings.size)
    (hafter : Evolves s₁ (x.run m.store).2)
    (hd : d = ⟨⟨a, b, r, forced⟩, l, (s₀.loop l).spawned, (s₀.loop l).config⟩)
    (hn : 0 < n) (hstatus : (m.run n).store.pendingStatus r = .unresolved)
    (ha : (m.run n).store.resolve a = v) (hb : (m.run n).store.resolve b = w)
    (hv : v.pendings = []) (hw : w.pendings = []) :
    (m.run n).Known d v w ∧ (m.run n).store.resolver? r ≠ none := by
  have hrun : m.run 1 = m.execute (.update x next) := by rw [Machine.run, Machine.step, hcode]; rfl
  have hstore : (m.run 1).store = (x.run m.store).2 := by rw [hrun]; rfl
  have hquiet : s₁.Quiet (m.run 1).store := hstore ▸ Store.quiet_of_evolves hafter
  obtain ⟨k, rfl⟩ : ∃ k, n = 1 + k := Nat.exists_eq_add_of_le hn
  -- a pending that nothing has happened to was open all the time
  have hopen : ∀ i ≤ k, (m.run (1 + i)).store.isOpen r = true := by
    intro i hi
    by_contra hclosed
    have hstill := run_closed (hm.run (1 + i)) (Bool.eq_false_iff.mpr hclosed) (k - i)
    rw [← run_add, show 1 + i + (k - i) = 1 + k by omega, Store.isOpen, hstatus] at hstill
    cases hstill
  have hduly : ∀ i ≤ k, ClosesDuly d.loop d.task d.out (m.run i) (m.run (i + 1)) := by
    intro i hi _ hclosed
    have hstays := hopen i hi
    rw [Nat.add_comm 1 i] at hstays
    rw [hd] at hclosed
    cases hstays.symm.trans hclosed
  obtain ⟨hfirst, -⟩ := postpones_of_update hm hcode hbefore hmerge hbinds hafter hd
    (hduly 0 (Nat.zero_le k))
  have hpost : (m.run (1 + k)).Postpones d := by
    rw [run_add]
    refine hfirst.run (hm.run 1) k fun i hi => ?_
    rw [← run_add, ← run_add, ← Nat.add_assoc, Nat.add_comm 1 i]
    exact hduly (i + 1) hi
  -- the operands existed when the merge was put off
  have hmerged := Infer.quiet_of_outcome hmerge
  obtain ⟨hknows, hknows', hresolver⟩ := Store.exist_of_mergeSlots hmerge hbinds.1 hbinds.2
  have hlater : s₀.Before (m.run (1 + k)).store := by
    rw [run_add]
    exact (hmerged.trans hquiet).later.trans ((hm.run 1).later k)
  have hexists : ∀ {c u}, s₀.knowsSlot (s₀.resolve c) = true →
      (m.run (1 + k)).store.resolve c = u → u.pendings = [] →
        (m.run (1 + k)).store.knowsSlot u = true := by
    intro c u hc hu hknown
    have hsame := ((Store.Becomes.resolve s₀ c).later hlater.persists).resolve_congr
      (by rw [hu]; exact hknown)
    rw [← hu, ← hsame]
    exact (hm.run (1 + k)).informed.knowsSlot_resolve (hlater.knowsSlot hc)
  refine ⟨⟨hpost, hd ▸ ha, hd ▸ hb, hv, hw, hexists hknows ha hv, hexists hknows' hb hw⟩, ?_⟩
  have hfresh : Store.Fresh r s₁ (m.run (1 + k)).store := by
    rw [run_add]
    exact (hquiet.fresh hbinds.2).trans
      (run_fresh (hm.run 1) (Nat.lt_of_lt_of_le hbinds.2 hquiet.size_le) k)
  rw [(hfresh hstatus).2, hresolver]
  exact Option.some_ne_none _

/-- **A deferred merge whose operands are known before its pending is closed.**  Let code merge two
slots and bind a new pending, and let both operands be known while nothing has happened to it.

If code forces the pending then, it is handed the left operand, broadened, and so is the pending for
good, whatever the merge gives.  The task, when it is polled later, fails unless the merge succeeds
and is covered by what was handed out.

If the task is polled then, it fails with the error of the merge and leaves the pending open, or it
is completed and the pending has what the merge gives. -/
theorem deferred_merge_known (hm : m.Reachable) (hcode : m.control = .exec (.update x next))
    (hbefore : Evolves m.store s₀)
    (hmerge : (Infer.mergeSlots (s₀.mergeScope (some l)) forced a b).outcome s₀ =
      (.ok (.pending r), s₁))
    (hbinds : s₀.pendings.size ≤ r ∧ r < s₁.pendings.size)
    (hafter : Evolves s₁ (x.run m.store).2)
    (hn : 0 < n) (hstatus : (m.run n).store.pendingStatus r = .unresolved)
    (ha : (m.run n).store.resolve a = v) (hb : (m.run n).store.resolve b = w)
    (hv : v.pendings = []) (hw : w.pendings = []) :
    let task : TaskId := (s₀.loop l).spawned
    let merged := fun k =>
      ((Infer.mergeSlots (s₀.mergeScope (some l)) forced v w).outcome (m.run k).store).1
    let early := (m.run n).store.broadenSlot v
    (∀ l' caller, (m.run n).control = .exec (.force l' r caller) →
      m.Answered n (n + 3) caller (.ok early) ∧
        ∀ k, n + 3 ≤ k → (m.run k).store.outcome? r = some (.ok early) ∧
          ((m.run k).store.resolve a = v → (m.run k).store.resolve b = w →
            (m.run k).polls? = some ⟨l, task⟩ →
              ((m.run (k + 1)).completed? = some (l, task) ↔
                ∃ slot, merged k = .ok slot ∧ (m.run k).store.SlotCovers early slot) ∧
              ((m.run (k + 1)).completed? = some (l, task) ∨
                ∃ e, (m.run (k + 1)).failed? l = some e))) ∧
      ((m.run n).polls? = some ⟨l, task⟩ →
        (∃ e, merged n = .error e ∧ (m.run (n + 1)).failed? l = some e ∧
          (m.run (n + 1)).store.isOpen r = true) ∨
        ∃ slot, merged n = .ok slot ∧ (m.run (n + 1)).completed? = some (l, task) ∧
          (m.run (n + 1)).store.result? r = some slot) := by
  intro task merged early
  let d : Postponed := ⟨⟨a, b, r, forced⟩, l, (s₀.loop l).spawned, (s₀.loop l).config⟩
  obtain ⟨hknown, hresolver⟩ := known_of_update (d := d) hm hcode hbefore hmerge hbinds hafter rfl
    hn hstatus ha hb hv hw
  have hmerged : ∀ k, (m.run k).mergedOperands d v w = merged k := by
    intro k
    simp only [merged, Store.mergeScope_loop]
    rfl
  constructor
  · intro l' caller hforce
    have hanswered := (hknown.forced hstatus hresolver hforce).1.of_run
    refine ⟨by simpa using hanswered, fun k hk => ?_⟩
    obtain ⟨j, rfl⟩ := Nat.exists_eq_add_of_le (Nat.le_of_add_right_le hk)
    have hlater := (hm.run n).later j
    have hafter := hknown.after_force (hm.run n) hstatus hresolver hforce (k := j) (by omega)
    rw [← run_add] at hlater hafter
    obtain ⟨houtcome, hpost⟩ := hafter
    refine ⟨houtcome, fun hak hbk hpolls => ?_⟩
    have hthen : (m.run (n + j)).Known d v w :=
      ⟨hpost, hak, hbk, hv, hw, hlater.knowsSlot hknown.exists_left,
        hlater.knowsSlot hknown.exists_right⟩
    obtain ⟨m', hstep, -, hiff, hends⟩ := hthen.polled_closed hpolls
      (Store.outcome?_eq_ok.mp houtcome) (Store.broadenSlot_known hv)
    rw [run_of_step hstep, ← hmerged]
    exact ⟨hiff, hends⟩
  · intro hpolls
    obtain ⟨m', hstep, hcases⟩ := hknown.polled_open hpolls (Store.isOpen_iff.mpr (.inl hstatus))
    rw [run_of_step hstep, ← hmerged]
    exact hcases

end

/-- Resolves the open pending to one of two constants. -/
def resolveOpen : Infer Unit := do
  let set ← Infer.possibilitiesOf [.constant (.int 2), .constant (.int 3)]
  Infer.setResult 0 (.possibilities set)

/-- Code that merges a constant into an open pending, resolves that, forces what stands for the
merge, and runs the loop. -/
def forcingMerge : Program Unit :=
  .update (Infer.openLoop {}).run fun _ =>
    .update (Infer.hole 0).run fun _ =>
      .update mergeOpen.run fun _ =>
        .update resolveOpen.run fun _ => .force 0 1 fun _ => .run 0 .done

/-- The caller is handed the two constants that are known of the left operand, while the merge gives
three, and the task fails. -/
theorem deferred_merge_known_forcingMerge :
    let m := (start () forcingMerge).run 2
    let left := Slot.possibilities ⟨0, [.constant (.int 2), .constant (.int 3)]⟩
    m.Reachable ∧ m.Answered 2 5 (fun _ => .run 0 .done) (.ok left) ∧
      ((Infer.mergeSlots (m.store.mergeScope (some 0)) false left (.constant (.int 1))).outcome
          (m.run 2).store).1 =
        .ok (.possibilities ⟨1, [.constant (.int 2), .constant (.int 3), .constant (.int 1)]⟩) ∧
      (m.run 7).polls? = some ⟨0, 0⟩ ∧ ((m.run 8).failed? 0).isSome = true ∧
      ∀ k, 5 ≤ k → (m.run k).store.outcome? 1 = some (.ok left) := by
  intro m left
  have hm : m.Reachable := (Reachable.start () forcingMerge).run 2
  have hmerge : (mergeOpen.outcome m.store).1 = .ok (.pending 1) := by rfl
  have hcode : m.control = .exec (.update mergeOpen.run fun _ =>
      .update resolveOpen.run fun _ => .force 0 1 fun _ => .run 0 .done) := by rfl
  have hbinds : (Infer.mergeSlots (m.store.mergeScope (some 0)) false (.pending 0)
      (.constant (.int 1))).outcome m.store = (.ok (.pending 1), (mergeOpen.run.run m.store).2) :=
    Prod.ext hmerge rfl
  have hnew : m.store.pendings.size ≤ 1 ∧ 1 < (mergeOpen.run.run m.store).2.pendings.size := by
    decide
  have hstatus : (m.run 2).store.pendingStatus 1 = .unresolved := by rfl
  have hleft : (m.run 2).store.resolve (.pending 0) = left := by decide +kernel
  have hright : (m.run 2).store.resolve (.constant (.int 1)) = .constant (.int 1) := by rfl
  have hforce : (m.run 2).control = .exec (.force 0 1 fun _ => .run 0 .done) := by rfl
  have hearly : (m.run 2).store.broadenSlot left = left := by decide +kernel
  obtain ⟨hanswered, hafter⟩ := (deferred_merge_known hm hcode .refl hbinds hnew .refl (by decide)
    hstatus hleft hright rfl rfl).1 0 _ hforce
  rw [hearly] at hanswered hafter
  refine ⟨hm, hanswered, ?_, ?_, ?_, fun k hk => (hafter k hk).1⟩
  · exact congrArg Prod.fst (Infer.outcome_of_toOption (by decide +kernel))
  · decide +kernel
  · decide +kernel

end Machine

end ValueInference
