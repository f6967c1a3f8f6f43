/-
Contexts of several visits.

What a walk remembers may be used in walks of other values.  An entry of the memo is right later on,
if the recursion that remembers nothing comes to a replica of it, whatever has been made in the
meantime.  A value that leads to a node that an earlier visit made is left out: the visit may find
such a node for itself, where the recursion makes it anew.

* **`Rebuild.Remembers`** — what a memo entry is good for, in all later stores;
* **`Rebuild.Remembering`** — the invariant of a walk, inside of some nodes;
* **`Rebuild.answered_visit`** — a visit, if the work on the node repeats itself;
* **`Rebuild.answered_visits`** — all visits of a walk, by induction on what is below;
* **`Rebuild.Context`** — what is left by a sequence of visits;
* **`Rebuild.Context.agrees_with_recursion`** — a visit in a context and the recursion;
* **`Rebuild.Context.rebuilt_again`**, **`Rebuild.Context.rebuilt_again_unpaused`** — two walks of a
  value, one after the other, in one host or in both.
-/
import ValueInference.Proofs.Journals
import ValueInference.Proofs.Proper
import ValueInference.Proofs.Unpaused

namespace ValueInference

open Store (Stage Replay Replicas Grows)

/-- The recursion with some handlers. -/
abbrev Handlers.recursion (h : Handlers) (fuel : Nat) : Visitor (Rebuild Unit Update) :=
  h.variant.recursion fuel

/-! ### Journals and memos -/

namespace Journal

variable {journal : Journal} {memo : Memo} {n out : NodeId}

/-- The journal after the work on a node. -/
def conclude (journal : Journal) (n : NodeId) : Except InferError NodeId → Journal
  | .ok _ => journal.dispatch n
  | .error _ => journal

/-- The journal agrees with the memo: no node was handed out twice, and what was answered is what is
remembered. -/
structure Kept (journal : Journal) (memo : Memo) : Prop where
  nodup : journal.dispatched.Nodup
  dispatched : ∀ n ∈ journal.dispatched, memo.done.lookup n ≠ none
  answers : ∀ n out, (n, out) ∈ journal.answers → memo.done.lookup n = some out

namespace Kept

theorem answer (h : journal.Kept memo) (hout : memo.done.lookup n = some out) :
    (journal.answer n out).Kept memo where
  nodup := h.nodup
  dispatched := h.dispatched
  answers m a hm := by
    rcases List.mem_cons.mp hm with heq | hm
    · cases heq
      exact hout
    · exact h.answers m a hm

theorem conclude (h : journal.Kept memo) (hn : memo.done.lookup n = none)
    (r : Except InferError NodeId) : (journal.conclude n r).Kept (memo.conclude n r) := by
  cases r with
  | error e => exact ⟨h.nodup, h.dispatched, h.answers⟩
  | ok out =>
    have hother : ∀ {m a}, memo.done.lookup m = some a →
        ((memo.leave n).publish n out).done.lookup m = some a := by
      intro m a hm
      have hne : m ≠ n := by
        rintro rfl
        exact nomatch hn.symm.trans hm
      rw [Memo.lookup_publish hne]
      exact hm
    refine ⟨List.nodup_cons.mpr ⟨fun hmem => h.dispatched n hmem hn, h.nodup⟩, fun m hm => ?_,
      fun m a hm => hother (h.answers m a hm)⟩
    rcases List.mem_cons.mp hm with rfl | hm
    · rw [Memo.conclude, Memo.lookup_publish_self]
      exact nofun
    · obtain ⟨a, ha⟩ := Option.ne_none_iff_exists'.mp (h.dispatched m hm)
      rw [Memo.conclude, hother ha]
      exact nofun

end Kept

end Journal

namespace Rebuild

variable {h : Handlers} {recent made : NodeId → Prop} {b t t' u : Store} {stack : List NodeId}
  {n out v : NodeId} {fuel : Nat} {w w' : Walk Journal}

/-! ### What is remembered -/

/-- From the store the recursion comes to what is like an outcome. -/
def Recurs (h : Handlers) (made : NodeId → Prop) (fuel : Nat) (n : NodeId) (u : Store)
    (r : Except InferError NodeId) : Prop :=
  ∀ w : Walk Unit, u.Stage (((h.recursion fuel).visit n).outcome w u).2 ∧
    u.Grows (((h.recursion fuel).visit n).outcome w u).2 ∧
      Likeness.node.outcome.same made u (((h.recursion fuel).visit n).outcome w u).2 r
        (((h.recursion fuel).visit n).outcome w u).1.1

/-- A node of the store `b` has a result in the store `t`: what the recursion comes to later is like
it. -/
structure Remembers (h : Handlers) (recent : NodeId → Prop) (b t : Store) (n out : NodeId) :
    Prop where
  present : n < b.nodes.size
  out_lt : out < t.nodes.size
  again {made : NodeId → Prop} {u : Store} {fuel : Nat} : (∀ m, b.Leads n m → ¬ made m) →
    b.Affords fuel n → u.Reachable → Replay recent made t u → Recurs h made fuel n u (.ok out)

theorem Remembers.later (hn : Remembers h recent b t n out) (ht : t.Grows t') :
    Remembers h recent b t' n out where
  present := hn.present
  out_lt := hn.out_lt.trans_le ht.size_le
  again hmade hfuel hu hlater := hn.again hmade hfuel hu (hlater.earlier ht)

/-- The walk is inside of some nodes, and what it remembers is right; `b` is the store where it
began. -/
structure Remembering (h : Handlers) (recent : NodeId → Prop) (b : Store) (stack : List NodeId)
    (w : Walk Journal) (t : Store) : Prop where
  grows : b.Grows t
  inside : w.memo.inside = stack
  fresh : ∀ m ∈ stack, w.memo.done.lookup m = none
  quiet : ∀ m ph, w.memo.inProgress.lookup m ≠ some (some ph)
  remembers : ∀ n out, w.memo.done.lookup n = some out → Remembers h recent b t n out
  kept : w.own.Kept w.memo

namespace Remembering

theorem later (hw : Remembering h recent b stack w t) (ht : t.Grows t') :
    Remembering h recent b stack w t' where
  grows := hw.grows.trans ht
  inside := hw.inside
  fresh := hw.fresh
  quiet := hw.quiet
  remembers n out hn := (hw.remembers n out hn).later ht
  kept := hw.kept

theorem invariant (hrecent : ∀ m, b.nodes.size ≤ m → recent m) (stack : List NodeId) :
    Invariant b recent (Remembering h recent b stack) where
  grows hw := hw.grows
  later hw ht _ := hw.later ht
  recent := hrecent _

theorem enter (hw : Remembering h recent b stack w t) (hn : n ∉ stack)
    (hdone : w.memo.done.lookup n = none) :
    Remembering h recent b (n :: stack) { w with memo := w.memo.enter n } t := by
  have hinside : n ∉ w.memo.inside := hw.inside ▸ hn
  refine ⟨hw.grows, ?_, fun m hm => ?_, fun m ph hm => ?_, hw.remembers,
    ⟨hw.kept.nodup, hw.kept.dispatched, hw.kept.answers⟩⟩
  · rw [Memo.inside_enter hinside, hw.inside]
  · rcases List.mem_cons.mp hm with rfl | hm
    · exact hdone
    · exact hw.fresh m hm
  · exact hw.quiet m ph ((Memo.lookup_enter_eq_some hinside).mp hm)

theorem conclude {r : Except InferError NodeId} (hw : Remembering h recent b (n :: stack) w t)
    (hn : n ∉ stack) (hr : ∀ out, r = .ok out → Remembers h recent b t n out) :
    Remembering h recent b stack ⟨w.memo.conclude n r, w.own.conclude n r⟩ t := by
  have hdone := hw.fresh n List.mem_cons_self
  have hkept := hw.kept.conclude hdone r
  have hinside : (w.memo.conclude n r).inside = stack := by
    cases r <;> exact Memo.inside_leave hw.inside hn
  have hquiet : ∀ m ph, (w.memo.conclude n r).inProgress.lookup m ≠ some (some ph) := by
    intro m ph hm
    have hleft : (w.memo.leave n).inProgress.lookup m = some (some ph) := by
      cases r <;> exact hm
    exact hw.quiet m ph ((Memo.lookup_leave_eq_some hw.inside hn).mp hleft).2
  cases r with
  | error e =>
    exact ⟨hw.grows, hinside, fun m hm => hw.fresh m (List.mem_cons_of_mem _ hm), hquiet,
      hw.remembers, hkept⟩
  | ok out =>
    refine ⟨hw.grows, hinside, fun m hm => ?_, hquiet, fun m a hm => ?_, hkept⟩
    · have hne : m ≠ n := fun heq => hn (heq ▸ hm)
      exact (Memo.lookup_publish hne).trans (hw.fresh m (List.mem_cons_of_mem _ hm))
    · by_cases hne : m = n
      · subst hne
        have hself : ((w.memo.leave m).publish m out).done.lookup m = some out :=
          Memo.lookup_publish_self
        cases hself.symm.trans hm
        exact hr out rfl
      · exact hw.remembers m a ((Memo.lookup_publish hne).symm.trans hm)

theorem answer (hw : Remembering h recent b stack w t) (hn : w.memo.done.lookup n = some out) :
    Remembering h recent b stack { w with own := w.own.answer n out } t where
  grows := hw.grows
  inside := hw.inside
  fresh := hw.fresh
  quiet := hw.quiet
  remembers := hw.remembers
  kept := hw.kept.answer hn

end Remembering

/-! ### Visits -/

/-- A visit is repeated, and its result is remembered. -/
structure Answered (h : Handlers) (recent made : NodeId → Prop) (b : Store) (stack : List NodeId)
    (n : NodeId) (x : Rebuild Journal Update NodeId) (y : Rebuild Unit Update NodeId) : Prop where
  repeats : Repeats (Remembering h recent b stack) recent made x y .node
  remembered {w w' : Walk Journal} {t t' : Store} {out : NodeId} :
    Remembering h recent b stack w t → t.Reachable → x.outcome w t = ((.ok out, w'), t') →
      w'.memo.done.lookup n = some out

/-- A note of the answer. -/
theorem Answered.noted {x : Visitor (Rebuild Journal Update)} {y : Rebuild Unit Update NodeId}
    (hn : Answered h recent made b stack n (x.visit n) y) :
    Repeats (Remembering h recent b stack) recent made (x.noted.visit n) y .node := by
  intro P w t u hI ht hu
  obtain ⟨hkeeps, hstage, hgrows, hknown, hagain⟩ := hn.repeats hI ht hu
  rcases hx : (x.visit n).outcome w t with ⟨⟨e | out, w'⟩, t'⟩
  · rw [hx] at hkeeps hstage hgrows hknown hagain
    refine ⟨?_, ?_, ?_, ?_, ?_⟩
    all_goals rw [Visitor.noted, outcome_noting_of_error hx]
    exacts [hkeeps, hstage, hgrows, hknown, hagain]
  · rw [hx] at hkeeps hstage hgrows hknown hagain
    refine ⟨?_, ?_, ?_, ?_, ?_⟩
    all_goals rw [Visitor.noted, outcome_noting_of_ok hx]
    exacts [hkeeps.answer (hn.remembered hI ht hx), hstage, hgrows, hknown, hagain]

section

variable {inner : Visitor (Rebuild Journal Update)} {r : Except InferError NodeId}

/-- A visit of a node without a result. -/
theorem outcome_visit_journaled (hw : Remembering h recent b stack w t) (hn : n ∉ stack)
    (hdone : w.memo.done.lookup n = none)
    (hwork : (byForm h.variant inner.noted n).outcome { w with memo := w.memo.enter n } t =
      ((r, w'), t'))
    (hw' : Remembering h recent b (n :: stack) w' t') :
    (visit h.variant.journaled inner n).outcome w t =
      ((r, ⟨w'.memo.conclude n r, w'.own.conclude n r⟩), t') := by
  have hopen : w.memo.inProgress.lookup n = none := by
    refine lookup_eq_none_of_not_mem fun hmem => hn ?_
    rw [← hw.inside]
    exact hmem
  have hquiet := join_lookup_eq_none (hw'.quiet n)
  have hnoted : (byForm h.variant.journaled inner n).outcome { w with memo := w.memo.enter n } t =
      ((r, { w' with own := w'.own.conclude n r }), t') := by
    rw [outcome_byForm_journaled]
    cases r with
    | error e => exact outcome_noting_of_error hwork
    | ok out => exact outcome_noting_of_ok hwork
  exact outcome_visit_of_fresh hdone hopen hnoted hquiet

/-- **A visit:** if the work on the node repeats itself, in whatever store it is repeated, then what
is remembered of it is right. -/
theorem answered_visit (hpresent : n < b.nodes.size) (hn : n ∉ stack)
    (hwork : ∀ made fuel, (∀ m, b.Leads n m → ¬ made m) → b.Affords fuel n →
      Repeats (Remembering h recent b (n :: stack)) recent made (byForm h.variant inner.noted n)
        ((h.recursion fuel).visit n) .node)
    (hmade : ∀ m, b.Leads n m → ¬ made m) (hfuel : b.Affords fuel n) :
    Answered h recent made b stack n (visit h.variant.journaled inner n)
      ((h.recursion fuel).visit n) := by
  refine ⟨fun P w t u hI ht hu => ?_, fun {w w'} {t t'} {out} hI ht hout => ?_⟩
  · cases hdone : w.memo.done.lookup n with
    | some out =>
      have hentry := hI.remembers n out hdone
      refine ⟨?_, ?_, ?_, ?_, fun hP => ?_⟩
      all_goals rw [outcome_visit_of_done hdone]
      · exact hI
      · exact .refl ht
      · exact .refl t
      · rintro _ ⟨⟩
        exact hentry.out_lt
      · exact hentry.again hmade hfuel (hu hP)
    | none =>
      obtain ⟨hkeeps, hstage, hgrows, hknown, hagain⟩ :=
        hwork made fuel hmade hfuel (hI.enter hn hdone) ht hu
      rcases hout : (byForm h.variant inner.noted n).outcome { w with memo := w.memo.enter n } t with
        ⟨⟨r, w'⟩, t'⟩
      rw [hout] at hkeeps hstage hgrows hknown hagain
      refine ⟨?_, ?_, ?_, ?_, ?_⟩
      all_goals rw [outcome_visit_journaled hI hn hdone hout hkeeps]
      · refine hkeeps.conclude hn fun out hr => ⟨hpresent, hknown out hr, ?_⟩
        -- the work is repeated once more, in the later store that asks
        intro made' u' fuel' hmade' hfuel' hu' hlater
        have hrun := (hwork made' fuel' hmade' hfuel' (P := True) (hI.enter hn hdone) ht
          fun _ => hu').again trivial
        rw [hout, hr] at hrun
        exact hrun hlater
      · exact hstage
      · exact hgrows
      · exact hknown
      · exact hagain
  · cases hdone : w.memo.done.lookup n with
    | some a =>
      cases (outcome_visit_of_done hdone).symm.trans hout
      exact hdone
    | none =>
      obtain ⟨hkeeps, -⟩ := hwork made fuel hmade hfuel (P := False) (u := t) (hI.enter hn hdone) ht
        fun hP => hP.elim
      rcases hwork' : (byForm h.variant inner.noted n).outcome { w with memo := w.memo.enter n } t
        with ⟨⟨r, w₁⟩, t₁⟩
      rw [hwork'] at hkeeps
      cases (outcome_visit_journaled hI hn hdone hwork' hkeeps).symm.trans hout
      exact Memo.lookup_publish_self

end

/-! ### Walks -/

section

variable {base base' k k' : Nat} (hpure : h.Pure) (hrecent : ∀ m, b.nodes.size ≤ m → recent m)

/-- Visits of a node are repeated while there are levels enough. -/
def RepeatsWithin (h : Handlers) (recent made : NodeId → Prop) (b : Store) (stack : List NodeId)
    (base base' : Nat) (n : NodeId) : Prop :=
  ∀ k k', base ≤ k → base' ≤ k' → Repeats (Remembering h recent b stack) recent made
    ((h.variant.journaled.visitor k).noted.visit n) ((h.recursion k').visit n) .node

include hpure hrecent

theorem repeats_refWithin {f : FunctionRef} (hchildren : ∀ c ∈ f.children, c < b.nodes.size ∧ ¬ made c)
    (hvisits : ∀ c ∈ f.children, RepeatsWithin h recent made b stack base base' c)
    (hk : base + f.depth < k) (hk' : base' + f.depth < k') :
    Repeats (Remembering h recent b stack) recent made
      ((h.variant.journaled.visitor k).noted.ref f) ((h.recursion k').ref f) .ref := by
  have hinv := Remembering.invariant (h := h) hrecent stack
  induction f generalizing k k' with
  | partialApp func args ih =>
    obtain ⟨k, rfl⟩ : ∃ i, k = i + 1 := ⟨k - 1, by omega⟩
    obtain ⟨k', rfl⟩ : ∃ i, k' = i + 1 := ⟨k' - 1, by omega⟩
    rw [FunctionRef.depth] at hk hk'
    refine repeats_refOf hpure hinv hchildren ⟨fun c hc => hvisits c hc k k' (by omega) (by omega),
      fun _ hslot => absurd hslot List.not_mem_nil, fun g hg => ?_⟩
    obtain rfl := List.mem_singleton.mp hg
    exact ih (fun c hc => hchildren c (List.mem_append_left _ hc))
      (fun c hc => hvisits c (List.mem_append_left _ hc)) (by omega) (by omega)
  | _ =>
    obtain ⟨k, rfl⟩ : ∃ i, k = i + 1 := ⟨k - 1, by omega⟩
    obtain ⟨k', rfl⟩ : ∃ i, k' = i + 1 := ⟨k' - 1, by omega⟩
    exact repeats_refOf hpure hinv hchildren ⟨fun c hc => hvisits c hc k k' (by omega) (by omega),
      fun _ hslot => absurd hslot List.not_mem_nil, fun _ hg => absurd hg List.not_mem_nil⟩

theorem repeats_slotWithin {old : Slot} (hn : n < b.nodes.size)
    (hold : (b.kind n).slot? = some old) (hchildren : ∀ c ∈ old.children, c < b.nodes.size ∧ ¬ made c)
    (hvisits : ∀ c ∈ old.children, RepeatsWithin h recent made b stack base base' c)
    (hk : base + (b.kind n).refDepth + 1 < k) (hk' : base' + (b.kind n).refDepth + 1 < k') :
    Repeats (Remembering h recent b stack) recent made
      ((h.variant.journaled.visitor k).noted.slot old) ((h.recursion k').slot old)
      (.slot old) := by
  obtain ⟨k, rfl⟩ : ∃ i, k = i + 1 := ⟨k - 1, by omega⟩
  obtain ⟨k', rfl⟩ : ∃ i, k' = i + 1 := ⟨k' - 1, by omega⟩
  refine repeats_slotOf hpure (Remembering.invariant hrecent stack) hold hn hchildren
    ⟨fun c hc => hvisits c hc k k' (by omega) (by omega),
      fun _ hslot => absurd hslot List.not_mem_nil, fun f hf => ?_⟩
  have hdepth : f.depth ≤ (b.kind n).refDepth := by
    refine (Kind.mem_refs ?_).2
    rw [Kind.refs, hold]
    exact hf
  exact repeats_refWithin hpure hrecent
    (fun c hc => hchildren c (Slot.mem_children_of_refs hf hc))
    (fun c hc => hvisits c (Slot.mem_children_of_refs hf hc)) (by omega) (by omega)

/-- **All visits of a walk** are answered, by induction on what is below; the walk is inside of
nodes that lead here. -/
theorem answered_visits (hb : b.Sound) (hbase : b.Affords base n) :
    ∀ {stack : List NodeId} {k : Nat}, n < b.nodes.size → (∀ m ∈ stack, b.Below n m) → base ≤ k →
      ∀ {made : NodeId → Prop} {fuel : Nat}, (∀ m, b.Leads n m → ¬ made m) → b.Affords fuel n →
        Answered h recent made b stack n ((h.variant.journaled.visitor k).visit n)
          ((h.recursion fuel).visit n) := by
  induction hbase with
  | @intro base levels n hbelow hcost ih =>
    intro stack k hn hstack hk made fuel hmade hfuel
    have hlevels : b.Affords levels n := .intro base hbelow hcost
    have hfresh : n ∉ stack := fun hmem => hlevels.acyclic (hstack n hmem)
    rw [Store.cost] at hcost
    obtain ⟨k, rfl⟩ : ∃ i, k = i + 1 := ⟨k - 1, by omega⟩
    refine answered_visit hn hfresh (fun made fuel hmade hfuel => ?_) hmade hfuel
    obtain ⟨base', hbelow', hcost'⟩ := hfuel
    rw [Store.cost] at hcost'
    obtain ⟨fuel, rfl⟩ : ∃ i, fuel = i + 1 := ⟨fuel - 1, by omega⟩
    have hchildren : ∀ c ∈ (b.kind n).children, c < b.nodes.size ∧ ¬ made c := fun c hc =>
      ⟨hb.child_lt hc, hmade c (.single hc)⟩
    have hvisits : ∀ c ∈ (b.kind n).children,
        RepeatsWithin h recent made b (n :: stack) base base' c := by
      intro c hc k k' hk hk'
      refine (ih c hc (hb.child_lt hc) (fun m hm => ?_) hk (fun m hm => hmade m (.head hc hm))
        ((hbelow' c hc).weaken hk')).noted
      rcases List.mem_cons.mp hm with rfl | hm
      · exact .single hc
      · exact .head hc (hstack m hm)
    refine repeats_byForm hpure (Remembering.invariant hrecent _) hn (hmade n .refl)
      (fun c hc => (hchildren c hc).2) ⟨fun c hc => hvisits c hc k fuel (by omega) (by omega),
        fun old hold => ?_, fun f hf => ?_⟩
    · have hold := Option.mem_toList.mp hold
      rw [Kind.children_of_slot hold] at hchildren hvisits
      exact repeats_slotWithin hpure hrecent hn hold hchildren hvisits (by omega) (by omega)
    · obtain ⟨hnodes, hdepth⟩ := Kind.mem_refs hf
      exact repeats_refWithin hpure hrecent (fun c hc => hchildren c (hnodes c hc))
        (fun c hc => hvisits c (hnodes c hc)) (by omega) (by omega)

end

/-! ### Contexts -/

/-- The nodes that a visit made, and that are not interned. -/
def MadeSince (t t' : Store) (n : NodeId) : Prop :=
  t.nodes.size ≤ n ∧ n < t'.nodes.size ∧ t'.isInterned n = false

/-- What is left by a sequence of visits, with success or without, of values that do not contain
themselves; `made` are the nodes that the visits made.  Between the visits nodes are built.  No
pending is resolved there and no placeholder completed: a handler may read what a slot stands for or
which form a node has, and the recursion does so again, where the context remembers what was read
before. -/
inductive Context (h : Handlers) : (NodeId → Prop) → Walk Journal → Store → Prop
  | start {t : Store} : t.Reachable → Context h (fun _ => False) ⟨{}, {}⟩ t
  | grow {made : NodeId → Prop} {w : Walk Journal} {t u : Store} : Context h made w t →
      t.Grows u → u.Reachable → Context h made w u
  | visit {made : NodeId → Prop} {w w' : Walk Journal} {t t' : Store} {v : NodeId}
      {r : Except InferError NodeId} : Context h made w t → t.Founded v →
      (Infer.walk h.variant.journaled v w).run t = ((r, w'), t') →
        Context h (fun n => made n ∨ MadeSince t t' n) w' t'

/-- The nodes that are recent for a visit: those that earlier visits made, and all that are new. -/
def Recent (made : NodeId → Prop) (t : Store) (n : NodeId) : Prop := made n ∨ t.nodes.size ≤ n

theorem recent_of_new (made : NodeId → Prop) (t : Store) : ∀ m, t.nodes.size ≤ m → Recent made t m :=
  fun _ => .inr

/-- What is clear of the nodes that were made is clear of all recent nodes. -/
theorem not_recent (ht : t.Sound) (hn : n < t.nodes.size) (hclear : ∀ m, t.Leads n m → ¬ made m) :
    ∀ m, t.Leads n m → ¬ Recent made t m := by
  rintro m hm (hmade | hnew)
  · exact hclear m hm hmade
  · exact absurd (Store.present_of_leads ht hn hm) (Nat.not_lt.mpr hnew)

theorem same_imp {made' : NodeId → Prop} {r r' : Except InferError NodeId}
    (hsame : Likeness.node.outcome.same made t u r r')
    (hmade : ∀ n, u.isInterned n = false → made n → made' n) :
    Likeness.node.outcome.same made' t u r r' := by
  cases r <;> cases r'
  case ok.ok => exact hsame.imp hmade
  all_goals exact hsame

theorem error_iff_of_same {r r' : Except InferError NodeId} {e : InferError}
    (hsame : Likeness.node.outcome.same made t u r r') : r = .error e ↔ r' = .error e := by
  cases r <;> cases r'
  case error.error =>
    obtain rfl : _ = _ := hsame
    rfl
  case ok.ok => exact iff_of_false nofun nofun
  all_goals exact hsame.elim

namespace Remembering

/-- A visit begins: what is new from now on is recent. -/
theorem begin (hw : Remembering h made t [] w t) : Remembering h (Recent made t) t [] w t where
  grows := hw.grows
  inside := hw.inside
  fresh := hw.fresh
  quiet := hw.quiet
  remembers n out hn := by
    have hentry := hw.remembers n out hn
    refine ⟨hentry.present, hentry.out_lt, fun hmade hfuel hu hlater => ?_⟩
    exact hentry.again hmade hfuel hu
      ⟨hlater.grows, fun m hm h => hlater.before m hm (.inl h), hlater.after⟩
  kept := hw.kept

/-- A visit ends: what it made is counted among the nodes that were made, and the rest is not. -/
theorem finish (hw : Remembering h (Recent made t) t [] w t') (ht : t.Sound) :
    Remembering h (fun n => made n ∨ MadeSince t t' n) t' [] w t' where
  grows := .refl t'
  inside := hw.inside
  fresh := hw.fresh
  quiet := hw.quiet
  remembers n out hn := by
    have hentry := hw.remembers n out hn
    have hpresent := hentry.present.trans_le hw.grows.size_le
    refine ⟨hpresent, hentry.out_lt, fun {also} {u} {fuel} halso hfuel hu hlater own => ?_⟩
    have halso : ∀ m, t.Leads n m → ¬ also m := fun m hm =>
      halso m ((hw.grows.leads_iff ht hentry.present).mpr hm)
    -- all that was recent is taken for made; the shared nodes among it do not matter
    have hclear : ∀ m, t.Leads n m → ¬ (also m ∨ m < t'.nodes.size ∧ Recent made t m) := by
      have hnot : ∀ m, t.Leads n m → ¬ made m := by
        intro m hm hmade
        have hold := (Store.present_of_leads ht hentry.present hm).trans_le hw.grows.size_le
        exact halso m hm (hlater.before m hold (.inl hmade))
      exact fun m hm hmade => not_recent ht hentry.present hnot m hm
        (hmade.resolve_left (halso m hm)).2
    obtain ⟨hstage, hgrows, hsame⟩ := hentry.again hclear
      ((hw.grows.affords_iff ht hentry.present).mp hfuel) hu
      ⟨hlater.grows, fun m hm hrecent => .inr ⟨hm, hrecent⟩, fun m hm => .inl (hlater.after m hm)⟩
      own
    refine ⟨hstage, hgrows, same_imp hsame fun m hshared hmade => ?_⟩
    rcases hmade with hmade | ⟨hm, hmade | hnew⟩
    · exact hmade
    · exact hlater.before m hm (.inl hmade)
    · refine hlater.before m hm (.inr ⟨hnew, hm, ?_⟩)
      rw [← (hlater.grows.trans hgrows).isInterned_eq hm]
      exact hshared
  kept := hw.kept

/-- Nodes are built between visits. -/
theorem grow (hw : Remembering h made t [] w t) (ht : t.Sound) (hgrows : t.Grows u) :
    Remembering h made u [] w u where
  grows := .refl u
  inside := hw.inside
  fresh := hw.fresh
  quiet := hw.quiet
  remembers n out hn := by
    have hentry := hw.remembers n out hn
    refine ⟨hentry.present.trans_le hgrows.size_le, hentry.out_lt.trans_le hgrows.size_le,
      fun halso hfuel hu' hlater => ?_⟩
    exact hentry.again (fun m hm => halso m ((hgrows.leads_iff ht hentry.present).mpr hm))
      ((hgrows.affords_iff ht hentry.present).mp hfuel) hu' (hlater.earlier hgrows)
  kept := hw.kept

end Remembering

namespace Context

/-- A visit is answered as the recursion is, if the value is clear of the nodes that count as
made. -/
theorem answered (also : NodeId → Prop) {k : Nat} (hpure : h.Pure) (ht : t.Reachable)
    (hv : t.Founded v) (hk : t.spare [] ≤ k) (hclear : ∀ n, t.Leads v n → ¬ also n) :
    Answered h (Recent made t) also t [] v
      ((h.variant.journaled.visitor t.walkDepth).visit v) ((h.recursion k).visit v) :=
  answered_visits hpure (recent_of_new made t) ht.sound hv.affords hv.present
    (fun _ hm => absurd hm List.not_mem_nil) t.spare_lt_walkDepth.le hclear (hv.affords.weaken hk)

/-- A visit keeps what is remembered right, and its result is there. -/
theorem visited {r : Except InferError NodeId} (hpure : h.Pure) (ht : t.Reachable)
    (hw : Remembering h made t [] w t) (hv : t.Founded v)
    (hwalk : (Infer.walk h.variant.journaled v w).run t = ((r, w'), t')) :
    Remembering h (Recent made t) t [] w' t' ∧ t.Stage t' ∧
      ∀ out, r = .ok out → out < t'.nodes.size := by
  have hrun : ((h.variant.journaled.visitor t.walkDepth).visit v).outcome w t = ((r, w'), t') :=
    hwalk
  obtain ⟨hkeeps, hstage, -, hknown, -⟩ := (answered (fun _ => False) hpure ht hv le_rfl
    fun _ _ => id).repeats (P := False) (u := t) hw.begin ht False.elim
  rw [hrun] at hkeeps hstage hknown
  exact ⟨hkeeps, hstage, hknown⟩

/-- **What is left by a sequence of visits** remembers what is right. -/
theorem remembering (hpure : h.Pure) (hc : Context h made w t) :
    t.Reachable ∧ Remembering h made t [] w t := by
  induction hc with
  | start ht =>
    refine ⟨ht, .refl _, rfl, nofun, fun m ph hm => ?_, fun m out hm => ?_, List.nodup_nil,
      fun n hn => absurd hn List.not_mem_nil, fun n out hn => absurd hn List.not_mem_nil⟩
    · exact nomatch hm
    · exact nomatch hm
  | grow _ hgrows hu ih => exact ⟨hu, ih.2.grow ih.1.sound hgrows⟩
  | visit _ hv hwalk ih =>
    obtain ⟨hkeeps, hstage, -⟩ := visited hpure ih.1 ih.2 hv hwalk
    exact ⟨hstage.reachable, hkeeps.finish ih.1.sound⟩

/-- A visit in a context is repeated by the recursion, in whatever later store. -/
theorem recurs {r : Except InferError NodeId} (hpure : h.Pure) (hc : Context h made w t)
    (hv : t.Founded v) (hclear : ∀ n, t.Leads v n → ¬ made n)
    (hwalk : (Infer.walk h.variant.journaled v w).run t = ((r, w'), t')) (hlater : t'.Grows u)
    (hu : u.Reachable) : Recurs h (Recent made t) u.walkDepth v u r := by
  obtain ⟨ht, hw⟩ := hc.remembering hpure
  obtain ⟨-, hstage, -⟩ := visited hpure ht hw hv hwalk
  have hrun : ((h.variant.journaled.visitor t.walkDepth).visit v).outcome w t = ((r, w'), t') :=
    hwalk
  have hgrows := hstage.grows.trans hlater
  obtain ⟨-, -, -, -, hagain⟩ := (answered (Recent made t) (k := u.walkDepth) hpure ht hv
    (hgrows.spare_le.trans u.spare_lt_walkDepth.le)
    (not_recent ht.sound hv.present hclear)).repeats (P := True) hw.begin ht fun _ => hu
  rw [hrun] at hagain
  exact hagain trivial ⟨hlater, fun _ _ => id, fun m hm => .inr (hgrows.size_le.trans hm)⟩

/-- **Visits in a context and the recursion.**  After any sequence of visits of values that do not
contain themselves, a visit of such a value, and the recursion that remembers nothing, run in any
later store: one fails if the other does, with the same error, and otherwise their results are
equal.  In all visits of the context no node was handed to the variant with success more than once,
and a node that was asked for again was answered in the same way. -/
theorem agrees_with_recursion {r r' : Except InferError NodeId} {u' : Store} (hpure : h.Pure)
    (hc : Context h made w t) (hv : t.Founded v) (hclear : ∀ n, t.Leads v n → ¬ made n)
    (hwalk : (Infer.walk h.variant.journaled v w).run t = ((r, w'), t')) (hlater : t'.Grows u)
    (hu : u.Reachable) (hrecurse : (Infer.recurse h.variant v).outcome u = (r', u')) :
    (Infer.walk h.variant v w.bare).run t = ((r, w'.bare), t') ∧
    (∀ e, r = .error e ↔ r' = .error e) ∧
    (∀ out, r = .ok out → (∃ out', r' = .ok out' ∧ u'.equal out out' = true ∧
      u'.equal out' out = true) ∧ ∀ a, (v, a) ∈ w'.own.answers → a = out) ∧
    w'.own.dispatched.Nodup ∧
    ∀ n a b, (n, a) ∈ w'.own.answers → (n, b) ∈ w'.own.answers → a = b := by
  obtain ⟨ht, hw⟩ := hc.remembering hpure
  obtain ⟨hkeeps, -⟩ := visited hpure ht hw hv hwalk
  have hrun : ((h.variant.journaled.visitor t.walkDepth).visit v).outcome w t = ((r, w'), t') :=
    hwalk
  obtain ⟨-, hremembered⟩ := answered (fun _ => False) (k := t.walkDepth) hpure ht hv
    t.spare_lt_walkDepth.le fun _ _ => id
  obtain ⟨hstage', -, hsame⟩ := hc.recurs hpure hv hclear hwalk hlater hu { own := () }
  have hrecursion : ((h.recursion u.walkDepth).visit v).outcome { own := () } u =
      ((r', (((h.recursion u.walkDepth).visit v).outcome { own := () } u).1.2), u') := by
    cases hrecurse
    rfl
  rw [hrecursion] at hstage' hsame
  have hkept := hkeeps.kept
  refine ⟨?_, fun e => ?_, fun out hout => ⟨?_, fun a ha => ?_⟩, hkept.nodup,
    fun n a b ha hb => ?_⟩
  · have hbare := (bare_visitor h t.walkDepth).visit v w t
    rw [hrun] at hbare
    exact hbare
  · exact error_iff_of_same hsame
  · subst hout
    cases r' with
    | error e => exact hsame.elim
    | ok out' =>
      have hreplicas : u'.Replicas _ out out' := hsame
      have hsound := hstage'.sound
      have hlt := hreplicas.left_lt
      have hlt' := hreplicas.right_lt
      exact ⟨out', rfl,
        Store.equal_of_common_replica (.refl u') hsound hsound hlt hlt' hreplicas (.refl hlt'),
        Store.equal_of_common_replica (.refl u') hsound hsound hlt' hlt (.refl hlt') hreplicas⟩
  · have hdone := hremembered hw.begin ht (hout ▸ hrun)
    exact Option.some.inj ((hkept.answers v a ha).symm.trans hdone)
  · exact Option.some.inj ((hkept.answers n a ha).symm.trans (hkept.answers n b hb))

/-- **A value that is rebuilt again**, in whatever later store: the second walk fails if the first
one does, with the same error, and otherwise their results are equal when it ends, and are one node
if they are interned.  Both walks are compared with the recursion from there, which makes replicas
of either result. -/
theorem rebuilt_again {r r' : Except InferError NodeId} {u' : Store} (hpure : h.Pure)
    (ht : t.Reachable) (hv : t.Founded v)
    (hfirst : (Infer.rebuild h.variant v).outcome t = (r, t')) (hlater : t'.Grows u)
    (hu : u.Reachable) (hsecond : (Infer.rebuild h.variant v).outcome u = (r', u')) :
    (∀ e, r = .error e ↔ r' = .error e) ∧
      ∀ out out', r = .ok out → r' = .ok out' → u'.equal out out' = true ∧
        u'.equal out' out = true ∧ (u'.isInterned out = true → out = out') := by
  have hjournal : ∀ {s s' : Store} {r}, (Infer.rebuild h.variant v).outcome s = (r, s') →
      ∃ w : Walk Journal, (Infer.walk h.variant.journaled v ⟨{}, {}⟩).run s = ((r, w), s') := by
    intro s s' r hrun
    have hbare := (bare_visitor h s.walkDepth).visit v ⟨{}, {}⟩ s
    have hrun' : ((((h.variant.visitor s.walkDepth).visit v).outcome ⟨{}, ()⟩ s).1.1,
        (((h.variant.visitor s.walkDepth).visit v).outcome ⟨{}, ()⟩ s).2) = (r, s') := hrun
    rw [show (⟨{}, ()⟩ : Walk Unit) = Walk.bare ⟨{}, {}⟩ from rfl, hbare] at hrun'
    cases hrun'
    exact ⟨_, rfl⟩
  obtain ⟨w, hwalk⟩ := hjournal hfirst
  obtain ⟨w', hwalk'⟩ := hjournal hsecond
  obtain ⟨-, hw⟩ := (Context.start (h := h) ht).remembering hpure
  obtain ⟨-, hw'⟩ := (Context.start (h := h) hu).remembering hpure
  obtain ⟨-, hstage, hpresent⟩ := visited hpure ht hw hv hwalk
  have hgrows := hstage.grows.trans hlater
  have hv' := hgrows.founded hv
  obtain ⟨-, hstage', hpresent'⟩ := visited hpure hu hw' hv' hwalk'
  have hu' := hstage'.reachable
  obtain ⟨hagain, hgrows', hsame⟩ := (Context.start ht).recurs hpure hv (fun _ _ => id) hwalk
    (hlater.trans hstage'.grows) hu' { own := () }
  obtain ⟨-, -, hsame'⟩ := (Context.start hu).recurs hpure hv' (fun _ _ => id) hwalk'
    (.refl u') hu' { own := () }
  generalize ((h.recursion u'.walkDepth).visit v).outcome { own := () } u' = last
    at hagain hgrows' hsame hsame'
  obtain ⟨⟨s, _⟩, u''⟩ := last
  refine ⟨fun e => (error_iff_of_same hsame).trans (error_iff_of_same hsame').symm, ?_⟩
  rintro out out' rfl rfl
  cases s with
  | error e => exact hsame.elim
  | ok again =>
    have hsound : u''.Sound := hagain.sound
    have hout : u''.Replicas (Recent (fun _ => False) t) out again := hsame
    have hout' : u''.Replicas (Recent (fun _ => False) u) out' again := hsame'
    replace hout' := hout'.imp fun n _ hn => hn.imp id hgrows.size_le.trans
    have hlt : out < u'.nodes.size :=
      (hpresent out rfl).trans_le (hlater.trans hstage'.grows).size_le
    have hlt' := hpresent' out' rfl
    refine ⟨Store.equal_of_common_replica hgrows' hu'.sound hsound hlt hlt' hout hout',
      Store.equal_of_common_replica hgrows' hu'.sound hsound hlt' hlt hout' hout,
      fun hshared => ?_⟩
    have hlast : u''.isInterned out = true := (hgrows'.isInterned_eq hlt).trans hshared
    obtain rfl := hout.eq_of_isInterned hsound hlast
    exact hout'.symm.eq_of_isInterned hsound hlast

/-- **A value that is rebuilt again by a walk that could be suspended**, in a later store: it fails
if the first walk did, with the same error, and otherwise its result is equal to the first one, and
is the same node if that is interned. -/
theorem rebuilt_again_unpaused {σ : Type} {m : Machine σ} {fuel : Nat} {r : Except InferError NodeId}
    (hpure : h.Pure) (ht : t.Reachable) (hv : t.Founded v)
    (hfirst : (Infer.rebuild h.variant v).outcome t = (r, t')) (hlater : t'.Grows m.store)
    (hm : m.store.Reachable) (hfinished : m.store.Finished v)
    (hpendings : ∀ n, m.store.Leads v n → (m.store.kind n).pendings = [])
    (hfuel : m.store.walkDepth ≤ fuel) (next : Except InferError NodeId → Program σ) :
    ∃ r' u, (m.exec (Code.walk fuel h.variant v { own := () } fun out => next out.1)).Reaches
        ({ m with store := u }.exec (next r')) ∧
      (∀ e, r = .error e ↔ r' = .error e) ∧
      ∀ out out', r = .ok out → r' = .ok out' → u.equal out out' = true ∧
        u.equal out' out = true ∧ (u.isInterned out = true → out = out') := by
  obtain ⟨-, hreaches⟩ := Machine.reaches_walk (h := h) (w := { own := () }) m hfinished hpendings
    rfl hfuel fun out => next out.1
  exact ⟨_, _, hreaches, rebuilt_again hpure ht hv hfirst hlater hm rfl⟩

end Context

/-- A scalar whose pending is resolved after the visit that broadens it: the context remembers that
nothing was to be broadened, and the recursion forgets the constant. -/
example :
    let s := (Change.openPending 0 none .unranked).apply ((Change.openLoop {}).apply {})
    let s := (Change.build (.scalar (.pending 0) (.int 64))).apply s
    let before := (Infer.walk .broaden 0 ⟨{}, ()⟩).run s
    let resolved := (Change.setResult 0 (.constant (.int 5))).apply before.2
    let visit := (Infer.walk .broaden 0 before.1.2).run resolved
    let recursion := (Infer.recurse .broaden 0).outcome visit.2
    visit.1.1.toOption.map recursion.2.render = some "S(VALUE=5, TYPE=Int[64])" ∧
      recursion.1.toOption.map recursion.2.render = some "S(TYPE=Int[64])" := by
  decide +kernel

/-! ### Boundaries -/

/-- Lists are put behind a differentiation boundary, values are taken back over one, and texts are
refused. -/
def crossings : Handlers where
  node
    | .scalar _ .string, _ =>
      some (.result (throw (.invalidConstruction (.custom "refused String"))) (.throw _))
    | .list item, n => some (.visit item List.mem_cons_self fun
      | .ok new =>
        .result ((if new = item then pure n else Infer.list new) >>= Infer.jtagged)
          (.bind (.ite (.pure n) (.make _)) fun _ => .make _)
      | .error e => .result (throw e) (.throw e))
    | .jtagged inner, _ => some (.visit inner List.mem_cons_self fun
      | .ok out => .result (pure out) (.pure out)
      | .error e => .result (throw e) (.throw e))
    | _, _ => none

theorem pure_crossings : crossings.Pure where
  node := by
    intro k n handler recent made t u hhandler ht hu hgrows hn hk hmade hchildren hrecent
    simp only [crossings] at hhandler
    split at hhandler
    case h_1 =>
      cases hhandler
      exact .result (.throw _ (.refl ht) fun _ => .refl hu)
    case h_2 _ item =>
      cases hhandler
      refine .visit fun t' u' r r' ht' hu' hr hrr => ?_
      cases r <;> cases r'
      case error.error =>
        obtain rfl : _ = _ := hrr
        exact .result (.throw _ ht' fun _ => hu')
      case ok.ok new new' =>
        have hsame : u'.Replicas made new new' := hrr
        have hnew : new < t'.nodes.size := hr new rfl
        refine .result (.bind (Q := .node) (.ite (fun _ => ?_) (fun _ => ?_) fun _ => ?_) ?_)
        · exact hsame.eq_iff hu'.sound (hchildren item List.mem_cons_self)
        · refine .pure ht' (fun _ => hu') (hn.trans_le ht'.grows.size_le) fun _ _ => .refl ?_
          exact hn.trans_le (hgrows.trans hu'.grows).size_le
        · exact .make_of_nodes ht' (fun _ => hu') hrecent (List.forall_mem_singleton.mpr hnew) rfl rfl
            fun _ => .list hsame
        · intro P a b t'' u'' ht'' _ ha hboth
          exact .make_of_nodes ht'' (fun hP => (hboth hP).2.1) hrecent
            (List.forall_mem_singleton.mpr ha) rfl rfl fun hP => .jtagged (hboth hP).2.2.2
      all_goals exact hrr.elim
    case h_3 =>
      cases hhandler
      refine .visit fun t' u' r r' ht' hu' hr hrr => ?_
      cases r <;> cases r'
      case error.error =>
        obtain rfl : _ = _ := hrr
        exact .result (.throw _ ht' fun _ => hu')
      case ok.ok out out' => exact .result (.pure ht' (fun _ => hu') (hr out rfl) fun _ _ => hrr)
      all_goals exact hrr.elim
    case h_4 => exact nomatch hhandler
  slot h := nomatch h
  ref h := nomatch h

/-- A value is complete, ends and is older than a bound if a search says so. -/
theorem older_of_everywhere (depth bound : Nat)
    (h : t.everywhere (fun n => t.isComplete n && decide (n < bound)) depth v = true) :
    t.Founded v ∧ t.Finished v ∧ ∀ n, t.Leads v n → n < bound := by
  have hparts : ∀ n, (t.isComplete n && decide (n < bound)) = true →
      t.isComplete n = true ∧ n < bound := fun n hn =>
    (Bool.and_eq_true_iff.mp hn).imp id of_decide_eq_true
  refine ⟨(Store.endsWithin_of_everywhere (fun n hn => ?_) h).founded, fun n hn => ?_, fun n hn => ?_⟩
  · exact Store.present_of_isComplete (hparts n hn).1
  · exact (hparts n (Store.leads_of_everywhere h hn)).1
  · exact (hparts n (Store.leads_of_everywhere h hn)).2

theorem outcome_parts (p : (Except InferError NodeId × Walk Journal) × Store) :
    p = ((p.1.1, p.1.2), p.2) := rfl

/-- A list of a placeholder that was completed afterwards, so that neither is interned. -/
def lateList : Store :=
  (Change.complete 0 (.type .nil)).apply ((Change.build (.list 0)).apply (Change.placeholder.apply {}))

theorem reachable_lateList : lateList.Reachable :=
  .step _ (.step _ (.step _ .start trivial) fun _ hslot => nomatch hslot) fun _ hslot => nomatch hslot

/-- Pairs of the list with a text and with itself. -/
def lateLists : Store :=
  (Change.build (.tuple [1, 1])).apply ((Change.build (.tuple [1, 2])).apply
    ((Change.build (.scalar (.constant (.string "s")) .string)).apply lateList))

theorem reachable_lateLists : lateLists.Reachable := by
  refine .step _ (.step _ (.step _ reachable_lateList ?_) fun _ hslot => nomatch hslot)
    fun _ hslot => nomatch hslot
  rintro slot ⟨⟩ p hp
  exact nomatch hp

/-- The visit of the first pair fails at the text, after the list was wrapped; the visit of the
second pair finds the list. -/
theorem agrees_with_recursion_lateLists :
    let failed := (Infer.walk crossings.variant.journaled 3 ⟨{}, {}⟩).run lateLists
    let visit := (Infer.walk crossings.variant.journaled 4 failed.1.2).run failed.2
    let recursion := (Infer.recurse crossings.variant 4).outcome visit.2
    failed.1.1.isOk = false ∧ visit.1.1.toOption = some 6 ∧ recursion.1.toOption = some 9 ∧
      recursion.2.equal 6 9 = true ∧ visit.1.2.own.dispatched.Nodup ∧
      ∀ a, (1, a) ∈ visit.1.2.own.answers → a = 5 := by
  intro failed visit recursion
  have hfirst : lateLists.Founded 3 := (older_of_everywhere 4 5 (by decide +kernel)).1
  obtain ⟨hsecond, -, hold⟩ := older_of_everywhere (t := failed.2) (v := 4) 4 5 (by decide +kernel)
  have hcontext : Context crossings (fun n => False ∨ MadeSince lateLists failed.2 n) failed.1.2
      failed.2 := .visit (.start reachable_lateLists) hfirst (outcome_parts _)
  have hclear : ∀ n, failed.2.Leads 4 n → ¬ (False ∨ MadeSince lateLists failed.2 n) := by
    have hsize : lateLists.nodes.size = 5 := by decide +kernel
    exact fun n hn hmade => absurd (hold n hn) (Nat.not_lt.mpr (hsize ▸ (hmade.resolve_left id).1))
  have hreachable : visit.2.Reachable :=
    (Context.remembering pure_crossings (.visit hcontext hsecond (outcome_parts visit))).1
  obtain ⟨-, -, hagrees, hnodup, hanswers⟩ := hcontext.agrees_with_recursion (r := visit.1.1)
    (u := visit.2) pure_crossings hsecond hclear (outcome_parts visit) (.refl _) hreachable
    (Prod.mk.eta (p := recursion)).symm
  have hvisit : visit.1.1 = .ok 6 := by decide +kernel
  have hrecursion : recursion.1 = .ok 9 := by decide +kernel
  obtain ⟨⟨out, hout, hequal, -⟩, -⟩ := hagrees 6 hvisit
  cases hrecursion.symm.trans hout
  refine ⟨by decide +kernel, ?_, ?_, hequal, hnodup, fun a ha => hanswers 1 a 5 ha ?_⟩
  · rw [hvisit]
    rfl
  · rw [hrecursion]
    rfl
  · decide +kernel

/-- **A value that leads to what an earlier visit made** need not be rebuilt as by the recursion.
The list is wrapped, and the wrapped list is then counted twice in a union, as it is.  A visit of
the union in the same context finds that its members are given for themselves, and leaves it alone;
the recursion makes them anew, and counts them once. -/
theorem differs_from_recursion :
    let first := (Infer.walk crossings.variant.journaled 1 ⟨{}, {}⟩).run lateList
    let t := (Change.build (.union [2, 2])).apply first.2
    let visit := (Infer.walk crossings.variant 3 first.1.2.bare).run t
    let recursion := (Infer.recurse crossings.variant 3).outcome visit.2
    crossings.Pure ∧ Context crossings (fun n => False ∨ MadeSince lateList first.2 n) first.1.2 t ∧
      t.Founded 3 ∧ t.Finished 3 ∧ visit.1.1 = .ok 3 ∧ recursion.1 = .ok 4 ∧
        recursion.2.equal 3 4 = false := by
  intro first t visit recursion
  have hfirst : lateList.Founded 1 := (older_of_everywhere 3 2 (by decide +kernel)).1
  have hvisited : Context crossings (fun n => False ∨ MadeSince lateList first.2 n) first.1.2
      first.2 := .visit (.start reachable_lateList) hfirst (outcome_parts _)
  have hreachable := (hvisited.remembering pure_crossings).1
  have hunion : t.Reachable := .step (.build (.union [2, 2])) hreachable fun _ hslot => nomatch hslot
  obtain ⟨hfounded, hfinished, -⟩ := older_of_everywhere (t := t) (v := 3) 5 4 (by decide +kernel)
  refine ⟨pure_crossings, .grow hvisited ?_ hunion, hfounded, hfinished, ?_, ?_, ?_⟩
  · exact ((Stage.refl hreachable).build (k := .union [2, 2]) fun _ hslot => nomatch hslot).2
  all_goals decide +kernel

end Rebuild

end ValueInference
