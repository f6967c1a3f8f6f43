/-
Wake-ups, and where one is lost.

Code of a task that waits is registered to be woken at once, but it may be one of two pieces of the
task's code: it is put aside then, the other piece has its turn, and the task goes back to its table
only when that waits too.  A pending that is closed in the meantime queues the task.  If the loop is
driven before the task is back, it takes the number off the queue and finds no such task, and the
wake-up is lost.  Nothing else loses one.

* **`Machine.awaits`** — the pendings that a suspended task still waits for;
* **`Machine.loses?`** — the task whose wake-up the next step loses;
* **`Machine.Heeds`**, **`Machine.Move.heeds`** — a task with code that waits is queued, or every
  pending that it waits for is open and is to wake it, as long as no step loses its wake-up;
* **`Machine.Reachable.heedsUndivided`** — and always if it waits for one thing at a time;
* **`Machine.wakeups_kept`** — so a task is polled again when one of them is closed.
-/
import ValueInference.Proofs.Single

namespace ValueInference

/-- A deferred merge waits for its left operand first. -/
def Deferral.sources (d : Deferral) : List PendingId :=
  match d.left with
  | .pending p => [p]
  | _ => d.right.pendings

namespace Store

variable {s t : Store} {l : LoopId} {p : PendingId} {w : Waiter}

/-- What is queued does not change where a task is put back. -/
theorem ready_putTask (s : Store) (l l' : LoopId) (t : TaskId) (body : TaskBody) :
    ((s.putTask l t body).loop l').ready = (s.loop l').ready := by
  rw [putTask, loop_modifyLoop]
  split <;> rfl

/-- What is queued does not change where a task is taken out of its table. -/
theorem ready_dropTask (s : Store) (l l' : LoopId) (t : TaskId) :
    ((s.dropTask l t).loop l').ready = (s.loop l').ready := by
  rw [dropTask, loop_modifyLoop]
  split <;> rfl

/-- A task that is put back is heeded if its pendings heed it; the others stay heeded. -/
theorem Heeds.put {f : TaskBody → List PendingId} (h : s.Heeds f w) {n : TaskId} {body : TaskBody}
    (hbody : w = ⟨l, n⟩ → s.Heeded w (f body)) : (s.putTask l n body).Heeds f w := by
  have hst : s.Tends (s.putTask l n body) w := .of_pendings rfl fun hqueued => by
    rwa [Queued, ready_putTask]
  intro body' hw
  refine Heeded.later ?_ hst
  rcases mem_putTask s l w.loop n body hw with hold | ⟨hl, he⟩
  · exact h body' hold
  · obtain ⟨htask, rfl⟩ := Prod.mk.inj he
    exact hbody (by rw [hl, ← htask])

/-- What is known of each pending is known of all. -/
theorem heeded_of_each {ps : List PendingId} (hne : ps ≠ []) (h : ∀ p ∈ ps, s.Heeded w [p]) :
    s.Heeded w ps := by
  by_cases hqueued : s.Queued w
  · exact .inl hqueued
  · exact .inr ⟨hne, fun p hp => ((h p hp).resolve_left hqueued).2 p List.mem_cons_self⟩

theorem heeded_of_waits (hopen : s.isOpen p = true) (hw : w ∈ s.waiters p) : s.Heeded w [p] :=
  .inr ⟨List.cons_ne_nil p [], fun q hq => by rw [List.mem_singleton.mp hq]; exact ⟨hopen, hw⟩⟩

/-- Putting a task back leaves the others in line. -/
theorem InLine.put {w : Waiter} {body : TaskBody} {ahead : List TaskId}
    (h : s.InLine w body ahead) (l : LoopId) (t : TaskId) (body' : TaskBody) :
    (s.putTask l t body').InLine w body ahead := by
  obtain ⟨htable, hready⟩ := h
  rw [InLine, ready_putTask]
  exact ⟨htable.put l t body', hready⟩

/-- Taking out another task leaves a task in line. -/
theorem InLine.drop {w : Waiter} {body : TaskBody} {ahead ready : List TaskId} {l : LoopId}
    {t : TaskId} (h : s.InLine w body ahead) (head : (s.loop l).ready = t :: ready)
    (hne : w ≠ ⟨l, t⟩) :
    ((s.modifyLoop l fun loop => { loop with ready }).dropTask l t).InLine w body ahead := by
  obtain ⟨htable, hready⟩ := h.behead head hne
  rw [InLine, ready_dropTask]
  exact ⟨htable.drop hne, hready⟩

end Store

namespace Machine

variable {σ : Type} {m m' m₁ : Machine σ} {w : Waiter} {p : PendingId} {body : TaskBody}
  {i : Nat}

/-! ### What a task waits for -/

/-- The pendings that a suspended task still waits for. -/
def awaits (m : Machine σ) : TaskBody → List PendingId
  | .merge d => d.sources
  | .code i | .watched i => (m.codes[i]?.map Program.sources).getD []

theorem awaits_eq {i : Nat} (h : body.code? = some i) :
    m.awaits body = (m.codes[i]?.map Program.sources).getD [] := by
  cases body with
  | merge d => exact nomatch h
  | code j =>
    cases h
    rfl
  | watched j =>
    cases h
    rfl

/-- Code that keeps its number is read as before. -/
theorem awaits_of_codes (h : m.codes.toList <+: m'.codes.toList) (body : TaskBody) :
    m'.awaits body = m.awaits body ∨ m.awaits body = [] := by
  rcases hcode : body.code? with _ | i
  · cases body with
    | merge d => exact .inl rfl
    | code i => exact nomatch hcode
    | watched i => exact nomatch hcode
  rw [awaits_eq hcode, awaits_eq hcode]
  rcases hi : m.codes[i]? with _ | code
  · exact .inr rfl
  · left
    rw [getElem?_codes h hi]

theorem awaits_congr (h : m'.codes = m.codes) : m'.awaits = m.awaits := by
  funext body
  cases body with
  | merge d => rfl
  | code i => rw [awaits, awaits, h]
  | watched i => rw [awaits, awaits, h]

theorem codes_saveCode {code : Program σ} (hcode : body.code? = some i) :
    (m.saveCode body code).codes = m.codes.setIfInBounds i code := by
  cases body with
  | merge d => exact nomatch hcode
  | code j =>
    cases hcode
    rfl
  | watched j =>
    cases hcode
    rfl

/-- The code of a task that suspends is what it waits with; no other code changes. -/
theorem awaits_saveCode {code : Program σ} (hcode : body.code? = some i) (hi : i < m.codes.size)
    (hm' : m'.codes = (m.saveCode body code).codes) :
    (∀ body' : TaskBody, body'.code? = some i → m'.awaits body' = code.sources) ∧
      ∀ body' : TaskBody, body'.code? ≠ some i → m'.awaits body' = m.awaits body' := by
  have hcodes : m'.codes = m.codes.setIfInBounds i code := hm'.trans (codes_saveCode hcode)
  refine ⟨fun body' hbody' => ?_, fun body' hbody' => ?_⟩
  · rw [awaits_eq hbody', hcodes, Array.getElem?_setIfInBounds_self_of_lt hi]
    rfl
  · rcases hj : body'.code? with _ | j
    · cases body' with
      | merge d => rfl
      | code j => exact nomatch hj
      | watched j => exact nomatch hj
    · have hij : i ≠ j := fun heq => hbody' (heq ▸ hj)
      rw [awaits_eq hj, awaits_eq hj, hcodes, Array.getElem?_setIfInBounds_ne hij]

/-! ### Code that is put aside -/

theorem waiter?_of_aside {stack : List (Frame σ)} (h : (w, p) ∈ asidesOf stack) :
    ∃ f rest, f :: rest <:+ stack ∧ p ∈ f.sources ∧ waiter? rest = some w := by
  induction stack with
  | nil => exact absurd h List.not_mem_nil
  | cons f stack ih =>
    rcases List.mem_append.mp h with h | h
    · obtain ⟨q, hq, h⟩ := List.mem_flatMap.mp h
      obtain ⟨v, hv, heq⟩ := List.mem_map.mp h
      obtain ⟨rfl, rfl⟩ := Prod.mk.inj heq
      exact ⟨f, stack, List.suffix_rfl, hq, Option.mem_toList.mp hv⟩
    · obtain ⟨g, rest, hsuffix, hp, hw⟩ := ih h
      exact ⟨g, rest, hsuffix.trans (List.suffix_cons f stack), hp, hw⟩

/-- Only tasks under way have put code aside. -/
theorem underway_of_aside (h : (w, p) ∈ m.asides) : w ∈ m.underway := by
  obtain ⟨f, rest, hsuffix, -, hw⟩ := waiter?_of_aside h
  obtain ⟨body, hbody⟩ := mem_stack_of_waiter? hw
  exact mem_underway.mpr ⟨body, hsuffix.subset (List.mem_cons_of_mem f hbody)⟩

theorem loop_lt_of_aside (hm : m.Numbered) (h : (w, p) ∈ m.asides) :
    w.loop < m.store.loops.size := by
  obtain ⟨body, hbody⟩ := mem_underway.mp (underway_of_aside h)
  have hnumber : w.task < (m.store.loop w.loop).spawned := hm.frames _ hbody
  by_contra hge
  rw [Store.loop_of_absent (Nat.not_lt.mp hge)] at hnumber
  exact Nat.not_lt_zero _ hnumber

/-- Code that a frame has put aside is over, or waits for something. -/
def Sourced (m : Machine σ) : Prop :=
  ∀ rule left next, .right rule left next ∈ m.stack → (∃ a, left = .done a) ∨ left.sources ≠ []

theorem Calm.sourced (h : m.Calm m') (hm : m.Sourced) : m'.Sourced := by
  intro rule left next hf
  rcases h.stack _ hf with hplain | hold
  · cases left with
    | done a => exact .inl ⟨a, rfl⟩
    | _ => exact hplain.elim
  · exact hm rule left next hold

theorem Sourced.pauses (hm : m.Sourced) {code : Program σ} (h : m.Pauses code m₁) :
    code.sources ≠ [] := by
  obtain ⟨code₀, stack, s, hwaits, rfl, -⟩ := h
  refine sources_rejoin_ne_nil stack code₀ ?_
  cases hwaits with
  | @asks x next q _ _ _ _ =>
    show (x.left q).sources ≠ []
    rw [Wait.sources_left]
    exact List.cons_ne_nil q []
  | @joins r left next _ hstack _ hundone =>
    have hleft := hm .join left next (hstack ▸ List.mem_cons_self)
    refine fun hnil => hleft.elim (fun ⟨a, ha⟩ => hundone a ha) fun hne => hne ?_
    exact (List.append_eq_nil_iff.mp hnil).1

/-- **Every step** puts aside only code that waits for something. -/
theorem Move.sourced (h : m.Move m') (hm : m.Sourced) : m'.Sourced := by
  cases h with
  | calm h => exact h.sourced hm
  | spawned _ h => exact h.sourced hm
  | resolving h _ hstack _ _ =>
    intro rule left next hf
    rw [hstack] at hf
    exact h.sourced hm rule left next ((List.mem_cons.mp hf).resolve_left nofun)
  | @resolved p r rest hstack _ =>
    intro rule left next hf
    rw [resolved_stack] at hf
    exact hm rule left next (hstack ▸ List.mem_cons_of_mem _ hf)
  | skipped => exact hm
  | @polled l _ t _ body s _ _ _ _ =>
    intro rule left next hf
    rcases pollTask_cases { m with store := s.dropTask l t } l t body with
      ⟨_, _, -, -, hstack⟩ | ⟨-, hstack⟩
    · exact hm rule left next (hstack ▸ hf)
    · rw [hstack] at hf
      exact hm rule left next ((List.mem_cons.mp hf).resolve_left nofun)
  | turned h hstack _ hstack' _ _ =>
    intro rule left next hf
    rw [hstack'] at hf
    rcases List.mem_cons.mp hf with heq | hf
    · cases heq
      exact .inr (hm.pauses h)
    · exact h.calm.sourced hm rule left next (hstack ▸ List.mem_cons_of_mem _ hf)
  | suspended h hstack _ hstack' _ _ =>
    intro rule left next hf
    exact h.calm.sourced hm rule left next (hstack ▸ List.mem_cons_of_mem _ (hstack' ▸ hf))

theorem Reachable.sourced (h : m.Reachable) : m.Sourced := by
  induction h with
  | start client code => exact fun _ _ _ hf => absurd hf List.not_mem_nil
  | step _ hstep ih => exact (moves hstep).sourced ih

/-! ### Every task is heeded -/

/-- The task whose wake-up the next step loses: its number leaves the queue while code that it has
put aside waits for a pending that is closed, or that is not to wake it. -/
def loses? (m : Machine σ) : Option Waiter :=
  match m.control with
  | .poll l _ =>
    match (m.store.loop l).ready with
    | t :: _ =>
      if ∀ a ∈ m.asides, a.1 = ⟨l, t⟩ → m.store.isOpen a.2 = true ∧ a.1 ∈ m.store.waiters a.2 then
        none
      else some ⟨l, t⟩
    | [] => none
  | _ => none

/-- The task is heeded in its table, and so is all code that it has put aside. -/
structure Heeds (m : Machine σ) (w : Waiter) : Prop where
  tabled : m.store.Heeds m.awaits w
  asides : ∀ p, (w, p) ∈ m.asides → m.store.Heeded w [p]

theorem Heeds.grows {P : TaskBody → Prop} (h : m.Heeds w) (hm : m.Numbered)
    (hgrows : Store.QueueGrows P m.store m'.store w.loop)
    (hst : w.loop < m.store.loops.size → m.store.Tends m'.store w)
    (hcodes : ∀ body, m'.awaits body = m.awaits body ∨ m.awaits body = [])
    (hasides : ∀ a ∈ m'.asides, a ∈ m.asides) : m'.Heeds w where
  tabled := (h.tabled.later hgrows hst).congr hcodes
  asides p hp := (h.asides p (hasides _ hp)).later (hst (loop_lt_of_aside hm (hasides _ hp)))

theorem Calm.heeds (h : m.Calm m') (hm : m.Numbered) (hw : m.Heeds w) : m'.Heeds w :=
  hw.grows hm (h.store.queue w.loop) h.store.tends (awaits_of_codes h.codes) h.asides

/-- The pendings that code waits for heed its task, with all that it has put aside. -/
theorem Heeds.pauses (hw : m.Heeds w) (hm : m.Numbered) {code : Program σ}
    (h : m.Pauses code m₁) (htask : waiter? m₁.stack = some w) :
    ∀ p ∈ code.sources, m₁.store.Heeded w [p] := by
  intro p hp
  have hcalm := h.calm
  obtain ⟨code₀, stack, s, hwaits, rfl, rfl⟩ := h
  have hbelow : waiter? stack = some w := (rejoin_below stack code₀).1 ▸ htask
  have hlater : (w, p) ∈ m.asides → s.Heeded w [p] := fun haside =>
    (hw.asides p haside).later (hcalm.store.tends (loop_lt_of_aside hm haside))
  cases hwaits with
  | @asks x next q v _ hask hv =>
    rcases mem_sources_rejoin m.stack _ hbelow hp with hown | haside
    · obtain rfl : p = q := by
        have hsource : p ∈ (x.left q).sources := hown
        rwa [Wait.sources_left, List.mem_singleton] at hsource
      obtain rfl := Option.some.inj (hv.symm.trans hbelow)
      obtain ⟨hlt, hopen⟩ := Store.canWait_iff.mp (Store.ask_open hask)
      exact Store.heeded_of_waits ((Store.isOpen_register _ _).trans hopen)
        (Store.mem_waiters_register_self hlt)
    · exact hlater haside
  | @joins r left next _ hstack _ _ =>
    refine hlater ?_
    rw [Machine.asides, hstack]
    rcases mem_sources_rejoin stack _ hbelow hp with hown | haside
    · -- the right piece is over, so the left one waits for it
      have hleft := (List.mem_append.mp hown).resolve_right List.not_mem_nil
      refine List.mem_append_left _ (List.mem_flatMap.mpr ⟨p, hleft, ?_⟩)
      rw [hbelow]
      exact List.mem_cons_self
    · exact List.mem_append_right _ haside

/-- A number that no task of its table has leaves the queue. -/
theorem Heeds.skip (hw : m.Heeds w) {l : LoopId} {polled : Bool} {t : TaskId} {ready : List TaskId}
    (control : m.control = .poll l polled) (head : (m.store.loop l).ready = t :: ready)
    (absent : ((m.store.modifyLoop l fun loop => { loop with ready }).loop l).tasks.lookup t = none)
    (hkept : m.loses? ≠ some w) (control' : Control σ) :
    Heeds { m with
      store := m.store.modifyLoop l fun loop => { loop with ready }
      control := control' } w := by
  refine ⟨fun body htable => ?_, fun p hp => ?_⟩
  · have hold := Store.tabled_behead.mp htable
    exact (hw.tabled body hold).later (.behead head (Store.ne_of_absent hold absent))
  · by_cases hwt : w = ⟨l, t⟩
    · -- the pendings that the task waits for are open and are to wake it
      subst hwt
      rw [loses?, control] at hkept
      simp only [head] at hkept
      split at hkept
      · next hwaits =>
        obtain ⟨hopen, hwaiter⟩ := hwaits _ hp rfl
        exact Store.heeded_of_waits hopen hwaiter
      · exact absurd rfl hkept
    · exact (hw.asides p hp).later (.behead head hwt)

/-- A task of the table leaves it, and the queue. -/
theorem Heeds.drop (hw : m.Heeds w) (hs : m.Single) {l : LoopId} {t : TaskId} {ready : List TaskId}
    {s : Store} (head : (m.store.loop l).ready = t :: ready)
    (queue : s = m.store.modifyLoop l fun loop => { loop with ready })
    (lookup : (s.loop l).tasks.lookup t = some body) :
    Heeds { m with store := s.dropTask l t } w := by
  subst queue
  have hst : w ≠ ⟨l, t⟩ → m.store.Tends
      ((m.store.modifyLoop l fun loop => { loop with ready }).dropTask l t) w := fun hne =>
    (Store.Tends.behead head hne).trans <| .of_pendings rfl fun hqueued => by
      rwa [Store.Queued, Store.ready_dropTask]
  refine ⟨fun body' htable => ?_, fun p hp => (hw.asides p hp).later (hst ?_)⟩
  · obtain ⟨hmem, hne⟩ := Store.mem_dropTask _ l w.loop t htable
    refine (hw.tabled body' (Store.tabled_behead.mp hmem)).later (hst fun heq => hne ?_)
    exact heq ▸ ⟨rfl, rfl⟩
  · -- a task of the table has put nothing aside
    rintro rfl
    have htabled : m.store.Tabled ⟨l, t⟩ body := Store.tabled_behead.mp (mem_of_lookup lookup)
    exact hs.apart _ (underway_of_aside hp) body htabled

/-- A deferred merge that is polled and waits is registered with what it waits for. -/
theorem pollMerge_waits (m : Machine σ) (l : LoopId) (t : TaskId) (d : Deferral) :
    (∃ p d', m.store.Quiet (m.store.register ⟨l, t⟩ p) ∧ d'.sources = [p] ∧
      (m.store.register ⟨l, t⟩ p).Heeded ⟨l, t⟩ [p] ∧
      (m.pollMerge l t d).store = (m.store.register ⟨l, t⟩ p).putTask l t (.merge d') ∧
      (m.pollMerge l t d).stack = m.stack) ∨
    m.store.Quiet (m.pollMerge l t d).store ∧
      (m.pollMerge l t d).stack = .task l t (.merge d) :: m.stack := by
  rcases pollMerge_cases m l t d with ⟨p, v, v', -, -, hwait, hfor, hstore, hstack⟩ | ⟨r, hpolled⟩
  · obtain ⟨hlt, hopen⟩ := Store.canWait_iff.mp hwait
    refine .inl ⟨p, _, .register ⟨l, t⟩ hopen, ?_, ?_, hstore, hstack⟩
    · rcases hfor with rfl | ⟨hv, rfl⟩
      · rfl
      · cases v with
        | pending q => exact nomatch hv
        | _ => rfl
    · exact Store.heeded_of_waits ((Store.isOpen_register _ _).trans hopen)
        (Store.mem_waiters_register_self hlt)
  · exact .inr ⟨hpolled.store, hpolled.stack⟩

/-- A deferred merge that is polled and waits is heeded. -/
theorem Heeds.pollTask (hw : m.Heeds w) (hm : m.Numbered) (l : LoopId) (t : TaskId)
    (body : TaskBody) : (m.pollTask l t body).Heeds w := by
  have hpush : ∀ {body : TaskBody} {code : Program σ},
      ((m.push (.task l t body)).exec code).Heeds w := fun {_ _} => ⟨hw.tabled, hw.asides⟩
  cases body with
  | code i => exact hpush
  | watched i => exact hpush
  | merge d =>
    have hcodes : (m.pollTask l t (.merge d)).codes = m.codes := codes_pollTask m l t _
    rcases m.pollMerge_waits l t d with ⟨p, d', hregister, hsources, hheeded, hstore, hstack⟩ |
      ⟨hquiet, hstack⟩
    · refine ⟨?_, fun q hq => ?_⟩
      · rw [awaits_congr hcodes, Machine.pollTask, hstore]
        refine (hw.tabled.later (hregister.queue w.loop) hregister.tends).put ?_
        rintro rfl
        rwa [awaits, hsources]
      · rw [Machine.asides, Machine.pollTask, hstack] at hq
        rw [Machine.pollTask, hstore]
        refine ((hw.asides q hq).later (hregister.tends (loop_lt_of_aside hm hq))).later ?_
        exact .of_pendings rfl fun hqueued => by rwa [Store.Queued, Store.ready_putTask]
    · refine hw.grows hm (hquiet.queue w.loop) hquiet.tends
        (fun body => .inl (congrFun (awaits_congr hcodes) body)) fun a ha => ?_
      rwa [Machine.asides, Machine.pollTask, hstack, asidesOf_cons_plain rfl] at ha

/-- **Every step** leaves a task heeded, unless it loses the task's wake-up. -/
theorem Move.heeds (h : m.Move m') (hm : m.Reachable) (hkept : m.loses? ≠ some w)
    (hw : m.Heeds w) : m'.Heeds w := by
  have hnumbered := hm.numbered
  cases h with
  | calm h => exact h.heeds hnumbered hw
  | @spawned _ l body task _ h =>
    refine h.heeds (hnumbered.spawned l body task) ?_
    exact hw.grows (P := fun _ => True) hnumbered (.spawn m.store l w.loop trivial)
      (fun _ => .spawn m.store l body w) (awaits_of_codes (Calm.coded m task).codes) fun _ => id
  | resolving h hbegin hstack hcodes _ =>
    obtain ⟨-, hstore⟩ := Store.beginResolving_eq hbegin
    refine (h.heeds hnumbered hw).grows (P := fun _ => True) (h.numbered hnumbered)
      (hstore ▸ .of_loops rfl) (fun _ => .beginResolving hbegin)
      (fun body => .inl (congrFun (awaits_congr hcodes) body)) fun a ha => ?_
    rwa [Machine.asides, hstack, asidesOf_cons_plain rfl] at ha
  | @resolved p r rest hstack _ =>
    have hcodes := codes_resolved { m with stack := rest } p r
    refine hw.grows hnumbered (queue_resolved { m with stack := rest } p r w.loop) (fun hl => ?_)
      (fun body => .inl (congrFun (awaits_congr hcodes) body)) fun a ha => ?_
    · obtain h | ⟨e, -, h⟩ := resolved_store { m with stack := rest } p r
      · exact h.tends hl
      · exact h ▸ .close m.store p _ hl
    · rw [Machine.asides, resolved_stack] at ha
      exact mem_asidesOf_of_suffix (hstack ▸ List.suffix_cons _ rest) ha
  | skipped control head absent => exact hw.skip control head absent hkept _
  | @polled l _ t ready body s _ head queue lookup =>
    refine Heeds.pollTask (hw.drop hm.single head queue lookup) ?_ l t body
    exact hnumbered.dropped queue
  | turned h hstack hstore hstack' hcodes _ =>
    have hw₁ := h.calm.heeds hnumbered hw
    refine ⟨?_, fun p hp => ?_⟩
    · rw [hstore, awaits_congr hcodes]
      exact hw₁.tabled
    rw [Machine.asides, hstack'] at hp
    rw [hstore]
    rcases List.mem_append.mp hp with hp | hp
    · obtain ⟨q, hq, hp⟩ := List.mem_flatMap.mp hp
      obtain ⟨v, hv, heq⟩ := List.mem_map.mp hp
      obtain ⟨rfl, rfl⟩ := Prod.mk.inj heq
      refine hw.pauses hnumbered h ?_ q hq
      rw [hstack]
      exact Option.mem_toList.mp hv
    · refine hw₁.asides p ?_
      rw [Machine.asides, hstack]
      exact List.mem_append_right _ hp
  | @suspended m₁ _ code l t body rest h hstack hstore hstack' hcodes _ =>
    have hw₁ := h.calm.heeds hnumbered hw
    have howned := (Move.calm h.calm).owned hm.owned
    obtain ⟨i, hi⟩ := hm.merged.code? h hstack
    have hframe := hstack ▸ List.mem_cons_self
    obtain ⟨hsame, hothers⟩ := awaits_saveCode hi (howned.bound ⟨l, t⟩ body i (.inr hframe) hi) hcodes
    have hwaits : w = ⟨l, t⟩ → m₁.store.Heeded w code.sources := by
      rintro rfl
      refine Store.heeded_of_each (hm.sourced.pauses h) (hw.pauses hnumbered h ?_)
      rw [hstack]
      rfl
    refine ⟨?_, fun p hp => ?_⟩
    · rw [hstore]
      refine Store.Heeds.put (fun body' htable => ?_) fun hwt => hsame body hi ▸ hwaits hwt
      by_cases hbody' : body'.code? = some i
      · -- the code is that of the task itself
        rw [hsame body' hbody']
        exact hwaits (howned.unique _ _ _ _ _ (.inl htable) (.inr hframe) hbody' hi)
      · rw [hothers body' hbody']
        exact hw₁.tabled body' htable
    · rw [Machine.asides, hstack'] at hp
      have hp₁ : (w, p) ∈ m₁.asides := by
        rw [Machine.asides, hstack]
        exact List.mem_append_right _ hp
      rw [hstore]
      refine (hw₁.asides p hp₁).later (.of_pendings rfl fun hqueued => ?_)
      rwa [Store.Queued, Store.ready_putTask]

/-- **A run** leaves a task heeded as long as no step loses its wake-up. -/
theorem Heeds.run (hw : m.Heeds w) (hm : m.Reachable) (k : Nat)
    (hkept : ∀ i < k, (m.run i).loses? ≠ some w) : (m.run k).Heeds w :=
  run_keeps k hw fun i hi hw' _ hstep => (moves hstep).heeds (hm.run i) (hkept i hi) hw'

theorem heeds_start (client : σ) (code : Program σ) (w : Waiter) :
    (start client code).Heeds w :=
  ⟨fun _ hw => absurd hw List.not_mem_nil, fun _ hp => absurd hp List.not_mem_nil⟩

/-! ### Tasks that wait for one thing -/

/-- The task of the body is a deferred merge, or its code is not put together from pieces. -/
def Undivided (m : Machine σ) (body : TaskBody) : Prop :=
  ∀ i rule left right next, body.code? = some i → m.codes[i]? ≠ some (.fork rule left right next)

/-- The task is heeded in its table, if its code is not put together from pieces. -/
def HeedsUndivided (m : Machine σ) (w : Waiter) : Prop :=
  ∀ body, m.store.Tabled w body → m.Undivided body → m.store.Heeded w (m.awaits body)

theorem HeedsUndivided.grows {P : TaskBody → Prop} (h : m.HeedsUndivided w)
    (hgrows : Store.QueueGrows P m.store m'.store w.loop)
    (hst : w.loop < m.store.loops.size → m.store.Tends m'.store w)
    (hcodes : m.codes.toList <+: m'.codes.toList) : m'.HeedsUndivided w := by
  intro body hw hone
  rcases hgrows.tabled_cases hw with hold | ⟨hnew, -⟩
  · have hbefore : m.Undivided body := fun i rule left right next hi hfork =>
      hone i rule left right next hi (getElem?_codes hcodes hfork)
    have hheeded := (h body hold hbefore).later (hst hold.loop_lt)
    rcases awaits_of_codes hcodes body with heq | hnil
    · rwa [heq]
    · -- what waits for nothing is heeded only if it is queued
      rw [hnil] at hheeded
      exact .inl (hheeded.resolve_right fun hwaits => hwaits.1 rfl)
  · exact .inl hnew

theorem Calm.heedsUndivided (h : m.Calm m') (hw : m.HeedsUndivided w) : m'.HeedsUndivided w :=
  hw.grows (h.store.queue w.loop) h.store.tends h.codes

/-- Code that is put together from no pieces waits for one thing, with which its task is
registered. -/
theorem Pauses.heeded {code : Program σ} (h : m.Pauses code m₁)
    (hone : ∀ rule left right next, code ≠ .fork rule left right next)
    (htask : waiter? m₁.stack = some w) : m₁.store.Heeded w code.sources := by
  have hjoined : ∀ (stack : List (Frame σ)) (rule : Fork) (left right : Program σ)
      (next : rule.Answer → Program σ), ∃ rule' left' right' next',
        (rejoin (.fork rule left right next) stack).1 = .fork rule' left' right' next' := by
    intro stack
    induction stack with
    | nil => exact fun _ _ _ _ => ⟨_, _, _, _, rfl⟩
    | cons f stack ih =>
      intro rule left right next
      cases f with
      | right rule' left' next' => exact ih rule' left' _ next'
      | _ => exact ⟨_, _, _, _, rfl⟩
  obtain ⟨code₀, stack, s, hwaits, rfl, rfl⟩ := h
  have hbelow : waiter? stack = some w := (rejoin_below stack code₀).1 ▸ htask
  cases hwaits with
  | joins _ _ _ =>
    obtain ⟨rule, left, right, next, heq⟩ := hjoined stack .join _ _ _
    exact absurd heq (hone rule left right next)
  | @asks x next p v _ hask hv =>
    -- a right piece would have been put together with its left one
    have htop : ∀ rule left next' rest, m.stack ≠ .right rule left next' :: rest := by
      intro rule left next' rest hstack
      obtain ⟨rule', left', right', next'', heq⟩ := hjoined rest rule left _ next'
      refine hone rule' left' right' next'' ?_
      rw [hstack]
      exact heq
    have hsame : (rejoin (.await (x.left p) next) m.stack).1 = .await (x.left p) next := by
      rw [rejoin]
      exact fun rule left next' rest => htop rule left next' rest
    obtain rfl := Option.some.inj (hv.symm.trans hbelow)
    obtain ⟨hlt, hopen⟩ := Store.canWait_iff.mp (Store.ask_open hask)
    rw [hsame, Program.sources, Wait.sources_left]
    exact Store.heeded_of_waits ((Store.isOpen_register _ _).trans hopen)
      (Store.mem_waiters_register_self hlt)

theorem HeedsUndivided.pollTask (hw : m.HeedsUndivided w) (l : LoopId) (t : TaskId)
    (body : TaskBody) : (m.pollTask l t body).HeedsUndivided w := by
  cases body with
  | code i => exact hw
  | watched i => exact hw
  | merge d =>
    have hcodes : (m.pollTask l t (.merge d)).codes = m.codes := codes_pollTask m l t _
    rcases m.pollMerge_waits l t d with ⟨p, d', hregister, hsources, hheeded, hstore, -⟩ | ⟨hquiet, -⟩
    · intro body htable hone
      rw [Machine.pollTask, hstore] at htable
      have hone' : m.Undivided body := by rwa [Undivided, hcodes] at hone
      rw [awaits_congr hcodes, Machine.pollTask, hstore]
      have hput : ((m.store.register ⟨l, t⟩ p)).Tends
          ((m.store.register ⟨l, t⟩ p).putTask l t (.merge d')) w := .of_pendings rfl fun hqueued => by
        rwa [Store.Queued, Store.ready_putTask]
      refine Store.Heeded.later ?_ hput
      rcases Store.mem_putTask _ l w.loop t _ htable with hold | ⟨hl, he⟩
      · exact (hw body hold hone').later (hregister.tends (Store.Tabled.loop_lt hold))
      · obtain ⟨htask, rfl⟩ := Prod.mk.inj he
        rw [awaits, hsources]
        rwa [show w = ⟨l, t⟩ by rw [hl, ← htask]]
    · exact hw.grows (hquiet.queue w.loop) hquiet.tends (hcodes ▸ List.prefix_rfl)

/-- **Every step** leaves a task heeded whose code is not put together from pieces. -/
theorem Move.heedsUndivided (h : m.Move m') (hm : m.Reachable) (hw : m.HeedsUndivided w) :
    m'.HeedsUndivided w := by
  cases h with
  | calm h => exact h.heedsUndivided hw
  | @spawned _ l body task _ h =>
    refine h.heedsUndivided ?_
    exact hw.grows (P := fun _ => True) (.spawn m.store l w.loop trivial)
      (fun _ => .spawn m.store l body w) (Calm.coded m task).codes
  | resolving h hbegin _ hcodes _ =>
    obtain ⟨-, hstore⟩ := Store.beginResolving_eq hbegin
    exact (h.heedsUndivided hw).grows (P := fun _ => True) (hstore ▸ .of_loops rfl)
      (fun _ => .beginResolving hbegin) (hcodes ▸ List.prefix_rfl)
  | @resolved p r rest _ _ =>
    refine hw.grows (queue_resolved { m with stack := rest } p r w.loop) (fun hl => ?_)
      (by rw [codes_resolved])
    obtain h | ⟨e, -, h⟩ := resolved_store { m with stack := rest } p r
    · exact h.tends hl
    · exact h ▸ .close m.store p _ hl
  | skipped control head absent =>
    intro body htable hone
    have hold := Store.tabled_behead.mp htable
    exact (hw body hold hone).later (.behead head (Store.ne_of_absent hold absent))
  | @polled l _ t ready body s _ head queue lookup =>
    subst queue
    have hdropped : HeedsUndivided { m with
        store := (m.store.modifyLoop l fun loop => { loop with ready }).dropTask l t } w := by
      intro body' htable hone
      obtain ⟨hmem, hne⟩ := Store.mem_dropTask _ l w.loop t htable
      have hwt : w ≠ ⟨l, t⟩ := fun heq => hne (heq ▸ ⟨rfl, rfl⟩)
      refine (hw body' (Store.tabled_behead.mp hmem) hone).later ?_
      refine (Store.Tends.behead head hwt).trans (.of_pendings rfl fun hqueued => ?_)
      rwa [Store.Queued, Store.ready_dropTask]
    exact hdropped.pollTask l t body
  | turned h _ hstore _ hcodes _ =>
    have hw₁ := h.calm.heedsUndivided hw
    exact hw₁.grows (P := fun _ => True) (hstore ▸ .refl _ _) (fun _ => hstore ▸ .refl _ _)
      (hcodes ▸ List.prefix_rfl)
  | @suspended m₁ _ code l t body rest h hstack hstore _ hcodes _ =>
    have hw₁ := h.calm.heedsUndivided hw
    have howned := (Move.calm h.calm).owned hm.owned
    obtain ⟨i, hi⟩ := hm.merged.code? h hstack
    have hstands : m₁.Stands ⟨l, t⟩ body := .inr (hstack ▸ List.mem_cons_self)
    have hsize := howned.bound _ _ _ hstands hi
    obtain ⟨hsame, hothers⟩ := awaits_saveCode hi hsize hcodes
    have hput : m₁.store.Tends m'.store w := .of_pendings (by rw [hstore]; rfl) fun hqueued => by
      rwa [hstore, Store.Queued, Store.ready_putTask]
    intro body' htable hone
    rw [Store.Tabled, hstore] at htable
    have hplace := Store.mem_putTask m₁.store l w.loop t body htable
    by_cases hbody' : body'.code? = some i
    · -- the code is that of the task itself
      have hwt : w = ⟨l, t⟩ := by
        rcases hplace with hold | ⟨hl, he⟩
        · exact howned.unique _ _ _ _ _ (.inl hold) hstands hbody' hi
        · rw [hl, ← (Prod.mk.inj he).1]
      have hsaved : m'.codes[i]? = some code := by
        rw [hcodes, codes_saveCode hi]
        exact Array.getElem?_setIfInBounds_self_of_lt hsize
      rw [hsame body' hbody']
      refine (h.heeded (fun rule left right next heq => ?_) ?_).later hput
      · exact hone i rule left right next hbody' (heq ▸ hsaved)
      · rw [hstack, hwt]
        rfl
    · have hold : m₁.store.Tabled w body' := hplace.resolve_right fun hnew =>
        hbody' ((Prod.mk.inj hnew.2).2 ▸ hi)
      rw [hothers body' hbody']
      refine (hw₁ body' hold fun j rule left right next hj hfork => ?_).later hput
      have hij : i ≠ j := fun heq => hbody' (heq ▸ hj)
      refine hone j rule left right next hj ?_
      rw [hcodes, codes_saveCode hi, Array.getElem?_setIfInBounds_ne hij]
      exact hfork

/-- **Along every run** a task that waits for one thing is queued, or what it waits for is open and
is to wake it. -/
theorem Reachable.heedsUndivided (h : m.Reachable) (w : Waiter) : m.HeedsUndivided w := by
  induction h with
  | start client code => exact fun _ hw => absurd hw List.not_mem_nil
  | step h hstep ih => exact (moves hstep).heedsUndivided h ih

/-! ### Tasks that are polled again -/

/-- The task that the next step polls. -/
def polls? (m : Machine σ) : Option Waiter :=
  match m.control with
  | .poll l _ =>
    match (m.store.loop l).ready with
    | t :: _ => if ((m.store.loop l).tasks.lookup t).isSome then some ⟨l, t⟩ else none
    | [] => none
  | _ => none

/-- **Every step** that does not poll a task leaves it in line. -/
theorem Move.inLine (h : m.Move m') {ahead : List TaskId} (hw : m.store.InLine w body ahead)
    (hpolls : m.polls? ≠ some w) : m'.store.InLine w body ahead := by
  cases h with
  | calm h => exact (h.store.queue w.loop).inLine hw
  | @spawned _ l body' _ _ h =>
    have hspawn : Store.QueueGrows (fun _ => True) m.store (m.store.spawn l body').2 w.loop :=
      .spawn m.store l w.loop trivial
    exact (h.store.queue w.loop).inLine (hspawn.inLine hw)
  | @resolving m₁ _ _ _ h hbegin _ _ _ =>
    obtain ⟨-, hstore⟩ := Store.beginResolving_eq hbegin
    have hsame : Store.QueueGrows (fun _ => True) m₁.store m'.store w.loop := hstore ▸ .of_loops rfl
    exact hsame.inLine ((h.store.queue w.loop).inLine hw)
  | @resolved p r rest _ _ => exact (queue_resolved { m with stack := rest } p r w.loop).inLine hw
  | skipped _ hhead habsent => exact hw.behead hhead (Store.ne_of_absent hw.1 habsent)
  | @polled l _ t ready body' s hcontrol hhead hqueue hlookup =>
    have hne : w ≠ ⟨l, t⟩ := by
      rintro rfl
      refine hpolls ?_
      have htasks : (s.loop l).tasks = (m.store.loop l).tasks := by
        rw [hqueue, Store.loop_modifyLoop]
        split <;> rfl
      rw [polls?, hcontrol]
      simp only [hhead]
      rw [← htasks, hlookup]
      rfl
    have hdrop : (s.dropTask l t).InLine w body ahead := hqueue ▸ hw.drop hhead hne
    rcases pollTask_cases { m with store := s.dropTask l t } l t body' with
      ⟨s', body'', hquiet, hstore, -⟩ | ⟨hquiet, -⟩
    · rw [hstore]
      exact ((hquiet.queue w.loop).inLine hdrop).put l t body''
    · exact (hquiet.queue w.loop).inLine hdrop
  | turned h _ hstore _ _ _ => exact hstore ▸ (h.calm.store.queue w.loop).inLine hw
  | @suspended _ _ _ l t body' _ h _ hstore _ _ _ =>
    rw [hstore]
    exact ((h.calm.store.queue w.loop).inLine hw).put l t body'

/-- A task that is in line stays in line until it is polled. -/
theorem InLine.run {ahead : List TaskId} (hw : m.store.InLine w body ahead) (k : Nat) :
    (∃ i < k, (m.run i).polls? = some w) ∨ (m.run k).store.InLine w body ahead := by
  by_cases hpolled : ∃ i < k, (m.run i).polls? = some w
  · exact .inl hpolled
  refine .inr (run_keeps (P := fun m => m.store.InLine w body ahead) k hw ?_)
  exact fun i hi hline m' hstep => (moves hstep).inLine hline fun hp => hpolled ⟨i, hi, hp⟩

/-- **No wake-up is lost, but in one way.**  As long as no loop passes over a task that is under way
with code put aside that waits for a closed pending, the task is queued whenever it is in its table,
or it waits for pendings that are all open and are all to wake it.  So if one of them is closed, the
task is queued; and whatever goes on from there, it stays in its table and in the queue, and no task
gets ahead of it, until it is polled. -/
theorem wakeups_kept (client : σ) (code : Program σ) (k : Nat) (w : Waiter)
    (hkept : ∀ i < k, ((start client code).run i).loses? ≠ some w) :
    let m := (start client code).run k
    (∀ body, m.store.Tabled w body → m.store.Queued w ∨
      m.awaits body ≠ [] ∧ ∀ p ∈ m.awaits body, m.store.isOpen p = true ∧ w ∈ m.store.waiters p) ∧
    ∀ body, m.store.Tabled w body → ∀ p ∈ m.awaits body, m.store.isOpen p = false →
      ∃ ahead rest, (m.store.loop w.loop).ready = ahead ++ w.task :: rest ∧
        ∀ n, (∃ i < n, (m.run i).polls? = some w) ∨ (m.run n).store.InLine w body ahead := by
  intro m
  have hheeds : m.Heeds w := (heeds_start client code w).run (.start client code) k hkept
  refine ⟨hheeds.tabled, fun body hw p hp hclosed => ?_⟩
  have hqueued : m.store.Queued w := by
    refine (hheeds.tabled body hw).resolve_right fun hwaits => ?_
    exact Bool.noConfusion (hclosed.symm.trans (hwaits.2 p hp).1)
  obtain ⟨ahead, rest, hready⟩ := List.append_of_mem hqueued
  exact ⟨ahead, rest, hready, InLine.run ⟨hw, ahead, rest, hready, List.suffix_rfl⟩⟩

/-- Code that waits for a pending. -/
def waitFor (p : PendingId) : Program Unit := .await (.pending p) .done

/-- Code with a task that waits for two pendings at once.  The first is resolved while the task is
suspended, and its loop is driven again. -/
def joinedTask : Program Unit :=
  .update (Infer.openLoop {}).run fun _ =>
    .update (Infer.hole 0).run fun _ =>
      .update (Infer.hole 0).run fun _ =>
        .spawn 0 (.fork .join (waitFor 0) (waitFor 1) fun _ => .done unit) fun _ =>
          .runReady 0 fun _ =>
            .update (Infer.setResult 0 (.constant (.int 1))).run fun _ =>
              .runReady 0 fun _ => .done unit

/-- The suspended task is to be woken by both pendings.  The first wakes it, and it is polled. -/
theorem wakeups_kept_joinedTask :
    let m := (start () joinedTask).run 10
    let m' := (start () joinedTask).run 11
    (m.store.Tabled ⟨0, 0⟩ (.code 0) ∧ ∀ p ∈ m.awaits (.code 0),
      m.store.isOpen p = true ∧ ⟨0, 0⟩ ∈ m.store.waiters p) ∧
    m.awaits (.code 0) = [0, 1] ∧ m'.awaits (.code 0) = [0, 1] ∧ m'.store.isOpen 0 = false ∧
      (m'.store.loop 0).ready = [0] ∧ m'.store.InLine ⟨0, 0⟩ (.code 0) [] ∧
      (m'.run 1).polls? = some ⟨0, 0⟩ := by
  intro m m'
  have hkept : ∀ i < 11, ((start () joinedTask).run i).loses? ≠ some ⟨0, 0⟩ := by decide
  have htable : m.store.Tabled ⟨0, 0⟩ (.code 0) := by
    have htasks : (m.store.loop 0).tasks = [(0, .code 0)] := by rfl
    rw [Store.Tabled, htasks]
    exact List.mem_cons_self
  have htable' : m'.store.Tabled ⟨0, 0⟩ (.code 0) := by
    have htasks : (m'.store.loop 0).tasks = [(0, .code 0)] := by rfl
    rw [Store.Tabled, htasks]
    exact List.mem_cons_self
  have hidle : ¬ m.store.Queued ⟨0, 0⟩ := by decide
  have hawaits : m'.awaits (.code 0) = [0, 1] := by rfl
  have hready : (m'.store.loop 0).ready = [0] := by rfl
  have hwaits := ((wakeups_kept () joinedTask 10 ⟨0, 0⟩ fun i hi => hkept i (by omega)).1 _
    htable).resolve_left hidle
  obtain ⟨ahead, rest, hahead, hrun⟩ := (wakeups_kept () joinedTask 11 ⟨0, 0⟩ hkept).2 (.code 0)
    htable' 0 (hawaits ▸ List.mem_cons_self) (by decide)
  have hnone : ahead = [] := by
    have hlength := congrArg List.length (hready.symm.trans hahead)
    simp only [List.length_append, List.length_cons, List.length_nil] at hlength
    exact List.eq_nil_of_length_eq_zero (by omega)
  have hline := (hrun 0).resolve_left (by simp)
  exact ⟨⟨htable, hwaits.2⟩, rfl, hawaits, by decide, hready, hnone ▸ hline, by decide⟩

/-- Code with a task that waits for a pending, and at the same time resolves it and drives the
loop. -/
def joinedDriving : Program Unit :=
  let drive := .update (Infer.setResult 0 (.constant (.int 1))).run fun _ =>
    .runReady 0 fun _ => .done unit
  .update (Infer.openLoop {}).run fun _ =>
    .update (Infer.hole 0).run fun _ =>
      .spawn 0 (.fork .join (waitFor 0) drive fun _ => .done unit) fun _ =>
        .runReady 0 fun _ => .done unit

/-- The wake-up is lost: the run is over, and the task is left in its table for good, waiting for a
pending that is resolved. -/
theorem wakeup_lost_joinedDriving :
    let m := (start () joinedDriving).run 15
    m.step.isNone ∧ (m.store.loop 0).tasks = [(0, .code 0)] ∧ (m.store.loop 0).ready = [] ∧
      m.awaits (.code 0) = [0] ∧ m.store.isOpen 0 = false ∧
      ∃ i < 15, ((start () joinedDriving).run i).loses? = some ⟨0, 0⟩ := by
  refine ⟨rfl, rfl, rfl, rfl, by decide, ?_⟩
  decide

end Machine

end ValueInference
