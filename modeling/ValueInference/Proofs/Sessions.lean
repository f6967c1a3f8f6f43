/-
Visits with one memo, some of which fail.

A *session* visits values of a store one after another and remembers what it has found out.  A visit
that fails keeps the results for the nodes that it was done with.  If these are finished, nothing
can be told from them later: a visit fails exactly if it would fail with nothing remembered, and
otherwise gives an equal value.  A failed visit may leave results over a placeholder that is never
completed, when it was halted below a node that it had met again; such results are given to later
visits, so these visits are left out here.

The variants are those that rewrite scalars and check nodes before and after.  A handler for another
form gets the nodes that it visited, and on a cycle one of them is the placeholder of the node where
the walk came in.  What such a handler makes of it depends on where that was, and so on the visits
before, even if none of them fails.

* **`Store.Session`** — a sequence of visits;
* **`Store.Session.exists_drafting`** — after each of them the invariant of walks holds again;
* **`Store.Session.visit_agrees`** — a visit fails exactly if a fresh one does, and otherwise gives
  an equal value;
* **`Store.Session.settled_of_failed`** — a failed visit leaves only finished results if no node on
  a cycle leads to one that is refused.
-/
import ValueInference.Proofs.Refusals

namespace ValueInference

namespace Store

variable {s t u : Store} {v : NodeId} {values : NodeId → Prop} {memo memo' : Memo}
  {form : Slot → Ty → Slot × Ty} {checks : Checks}
  {handler : Visitor (Rebuild Unit Update) → NodeId → Slot → Ty → Rebuild Unit Update NodeId}

/-- Visits of values of the store `s` one after another, with what is remembered of the visits
before.  Between them the store may grow. -/
inductive Session (s : Store) (V : Variant (Rebuild Unit Update)) (values : NodeId → Prop) :
    Memo → Store → Prop
  | start : Session s V values {} s
  | grow {memo : Memo} {t u : Store} : Session s V values memo t → t.Grows u → u.Reachable →
      u.InternsPlain → Session s V values memo u
  | answered {memo memo' : Memo} {t u : Store} {v out : NodeId} : Session s V values memo t →
      values v → (Infer.walk V v ⟨memo, ()⟩).run t = ((.ok out, ⟨memo', ()⟩), u) →
        Session s V values memo' u
  | failed {memo memo' : Memo} {t u : Store} {v : NodeId} {e : InferError} :
      Session s V values memo t → values v →
        (Infer.walk V v ⟨memo, ()⟩).run t = ((.error e, ⟨memo', ()⟩), u) → memo'.Settled u →
          Session s V values memo' u

namespace Session

variable (hs : s.Reachable) (hplain : s.InternsPlain)
  (hvalues : ∀ v, values v → s.Filled v ∧ s.Rewritable v ∧ s.FitsScalars v form)
  (hgives : Rebuild.GivesScalars form handler)

include hs hplain hvalues hgives

/-- **After each visit** the invariant of walks holds again. -/
theorem exists_drafting
    (h : s.Session ((Variant.ofScalars handler).checked checks) values memo t) :
    ∃ mirrors, s.Drafting (checks.plan s values form) [] ⟨mirrors, memo, t⟩ := by
  have hsubject : s.Subject (checks.plan s values form) := subject_of_rewritable hs hvalues
  induction h with
  | start => exact ⟨_, drafting_start hs hplain _⟩
  | grow _ hgrows hu huplain ih =>
    obtain ⟨mirrors, hσ⟩ := ih
    exact ⟨mirrors, hσ.of_grows hgrows hu huplain⟩
  | answered _ hv hrun ih =>
    obtain ⟨mirrors, hσ⟩ := ih
    rcases hσ.visit hsubject ⟨_, hv, .refl⟩ hgives fun _ => Iff.rfl with
      ⟨out, τ, hrun', hτ, -⟩ | ⟨e, τ, hrun', -⟩
    · cases hrun.symm.trans hrun'
      exact ⟨τ.mirrors, hτ⟩
    · cases hrun.symm.trans hrun'
  | failed _ hv hrun hsettled ih =>
    obtain ⟨mirrors, hσ⟩ := ih
    rcases hσ.visit hsubject ⟨_, hv, .refl⟩ hgives fun _ => Iff.rfl with
      ⟨out, τ, hrun', -⟩ | ⟨e, τ, hrun', hhalted⟩
    · cases hrun.symm.trans hrun'
    · -- of the drafts of a failed visit the finished ones go on
      cases hrun.symm.trans hrun'
      exact hhalted.exists_drafting hsettled

/-- A visit gives a node that serves for the value, in which the checks find nothing, or it is
halted at a node that they find. -/
theorem visit_cases (h : s.Session ((Variant.ofScalars handler).checked checks) values memo t)
    (hv : values v) :
    (∃ out τ, (Infer.walk ((Variant.ofScalars handler).checked checks) v ⟨memo, ()⟩).run t =
        ((.ok out, ⟨Scene.memo τ, ()⟩), τ.store) ∧
      s.Drafting (checks.plan s values form) [] τ ∧
        s.Serves (checks.plan s values form) τ out v ∧
          ∀ n, s.Leads v n → checks.Accept n (s.kind n)) ∨
    ∃ e τ, (Infer.walk ((Variant.ofScalars handler).checked checks) v ⟨memo, ()⟩).run t =
        ((.error e, ⟨Scene.memo τ, ()⟩), τ.store) ∧
      s.Halted (checks.plan s values form) v [] τ := by
  have hsubject : s.Subject (checks.plan s values form) := subject_of_rewritable hs hvalues
  obtain ⟨mirrors, hσ⟩ := h.exists_drafting hs hplain hvalues hgives
  refine (hσ.visit hsubject ⟨v, hv, .refl⟩ hgives fun _ => Iff.rfl).imp_left ?_
  rintro ⟨out, τ, hrun, hτ, -, hserves⟩
  exact ⟨out, τ, hrun, hτ, hserves, fun n hn =>
    not_not.mp (hτ.accepted hsubject hserves hn)⟩

/-- **A visit after failed visits**, which left nothing unfinished in the memo, fails exactly if a
visit with nothing remembered does: if the value has a node that the checks find.  Otherwise the two
results are finished and equal.  For handlers that look at what they visited this holds of values on
no cycle (`Rebuild.Context.agrees_with_recursion`), and not of all others (see below). -/
theorem visit_agrees (h : s.Session ((Variant.ofScalars handler).checked checks) values memo t)
    (hv : values v) {r r' : Except InferError NodeId} {w w' : Walk Unit} {u' : Store}
    (hvisit : (Infer.walk ((Variant.ofScalars handler).checked checks) v ⟨memo, ()⟩).run t =
      ((r, w), u))
    (hfresh : (Infer.walk ((Variant.ofScalars handler).checked checks) v ⟨{}, ()⟩).run u =
      ((r', w'), u')) :
    (r.isOk = true ↔ ∀ n, s.Leads v n → checks.Accept n (s.kind n)) ∧ r.isOk = r'.isOk ∧
      ∀ out out', r = .ok out → r' = .ok out' → u.Finished out ∧ u'.Finished out' ∧
        u'.equal out out' = true ∧ u'.equal out' out = true := by
  have hsubject : s.Subject (checks.plan s values form) := subject_of_rewritable hs hvalues
  have hwithin : (checks.plan s values form).within v := ⟨v, hv, .refl⟩
  rcases h.visit_cases hs hplain hvalues hgives hv with
    ⟨out, τ, hrun, hτ, hserves, haccept⟩ | ⟨e, τ, hrun, hhalted⟩
  · cases hvisit.symm.trans hrun
    -- the fresh visit forgets the results but not the drafts, so both results serve in its scene
    rcases hτ.forget.visit hsubject hwithin hgives fun _ => Iff.rfl with
      ⟨out', υ, hrun', hυ, hext, hserves'⟩ | ⟨e, υ, -, hhalted⟩
    · cases hfresh.symm.trans hrun'
      refine ⟨iff_of_true rfl haccept, rfl, ?_⟩
      rintro _ _ ⟨⟩ ⟨⟩
      have hlater : s.Serves (checks.plan s values form) υ out v :=
        hserves.later hext hτ.reachable.sound hυ.reachable.sound
      exact ⟨hτ.finished_of_serves hsubject hserves, hυ.finished_of_serves hsubject hserves',
        (hυ.same_of_serves hsubject hlater hserves').equal.2.2,
        (hυ.same_of_serves hsubject hserves' hlater).equal.2.2⟩
    · obtain ⟨r, -, -, hr, hlead, -⟩ := hhalted.halted
      exact absurd (haccept r hlead) hr
  · cases hvisit.symm.trans hrun
    -- this visit may leave anything in the memo, and the fresh one starts without drafts
    obtain ⟨n, trail, memo', hn, hlead, -, -, hσ⟩ := hhalted.halted
    have hstart : s.Drafting (checks.plan s values form) [] ⟨fun _ _ => False, {}, τ.store⟩ :=
      (drafting_start hs hplain _).of_grows hσ.grows hσ.reachable hσ.plain
    rcases hstart.visit hsubject hwithin hgives fun _ => Iff.rfl with
      ⟨out', υ, hrun', hυ, -, hserves'⟩ | ⟨e', υ, hrun', -⟩
    · exact absurd hn (hυ.accepted hsubject hserves' hlead)
    · cases hfresh.symm.trans hrun'
      refine ⟨iff_of_false (fun hok => nomatch hok) fun haccept => hn (haccept n hlead), rfl, ?_⟩
      rintro _ _ ⟨⟩

/-- **A failed visit leaves only finished results** if no node on a cycle leads to one that the
checks find. -/
theorem settled_of_failed
    (h : s.Session ((Variant.ofScalars handler).checked checks) values memo t) (hv : values v)
    {e : InferError}
    (hvisit : (Infer.walk ((Variant.ofScalars handler).checked checks) v ⟨memo, ()⟩).run t =
      ((.error e, ⟨memo', ()⟩), u))
    (hcycles : ∀ w m n, values w → s.Leads w m → s.Below m m → s.Leads m n →
      checks.Accept n (s.kind n)) : memo'.Settled u := by
  have hsubject : s.Subject (checks.plan s values form) := subject_of_rewritable hs hvalues
  rcases h.visit_cases hs hplain hvalues hgives hv with ⟨out, τ, hrun, -⟩ | ⟨e, τ, hrun, hhalted⟩
  · cases hvisit.symm.trans hrun
  · cases hvisit.symm.trans hrun
    refine hhalted.settled hsubject fun m n ⟨w, hw, hm⟩ hcycle hn => ?_
    exact not_not_intro (hcycles w m n hw hm hcycle hn)

end Session

/-- Lists are made anew, and become arrays where what is in them is not complete yet. -/
def arrayWhereOpen : Variant (Rebuild Unit Update) :=
  { Variant.plain with
    list := fun v _ item => do
      let new ← v.visit item
      let complete := (← Rebuild.infer Infer.store).isComplete new
      Rebuild.infer (if complete then Infer.list new else Infer.array new [none]) }

/-- A handler that looks at what it visited tells where the walk entered a cycle: of a ring of two
lists it makes an array of the one that is met last.  No visit fails here, and yet what the visit of
one list gives depends on whether the other one was visited before. -/
example :
    let s := (Change.build (.list 0)).apply (Change.placeholder.apply {})
    let s := (Change.complete 0 (.list 1)).apply s
    let before := (Infer.walk arrayWhereOpen 1 ⟨{}, ()⟩).run s
    let visit := (Infer.walk arrayWhereOpen 0 before.1.2).run before.2
    let fresh := (Infer.walk arrayWhereOpen 0 ⟨{}, ()⟩).run visit.2
    visit.1.1.toOption.map fresh.2.render = some "A(L(#rec), SHAPE=(?,))" ∧
      fresh.1.1.toOption.map fresh.2.render = some "L(A(#rec, SHAPE=(?,)))" := by
  decide +kernel

/-! ### Visits that fail -/

/-- Whatever has the type of texts is refused. -/
def refuseTexts : Checks where
  before _ k := match k with
    | .scalar _ .string => some (.invalidConstruction (.custom "refused String"))
    | _ => none
  after _ _ := none

/-- A text is refused after the list around the placeholder of their tuple was rewritten: the list
is still remembered, and given to later visits. -/
example :
    let text := Kind.scalar (.constant (.string "s")) .string
    let s := (Change.build (.list 0)).apply (Change.placeholder.apply {})
    let s := (Change.complete 0 (.tuple [1, 2])).apply ((Change.build text).apply s)
    let V := Variant.plain.checked refuseTexts
    let failed := (Infer.walk V 0 ⟨{}, ()⟩).run s
    let visit := (Infer.walk V 1 failed.1.2).run failed.2
    let fresh := (Infer.walk V 1 ⟨{}, ()⟩).run visit.2
    failed.1.1.isOk = false ∧ visit.1.1.toOption.map visit.2.render = some "L(E(INCOMPLETE))" ∧
      fresh.1.1.isOk = false := by
  decide +kernel

/-- A pair of the union on a cycle and a text. -/
def coilAndText : Store :=
  (Change.build (.tuple [0, 4])).apply
    ((Change.build (.scalar (.constant (.string "s")) .string)).apply coil)

theorem reachable_coilAndText : coilAndText.Reachable := by
  refine .step _ (.step _ reachable_coil ?_) ?_
  · rintro slot ⟨⟩ p hp
    exact nomatch hp
  · exact fun _ hslot => nomatch hslot

theorem kind_coilAndText (n : NodeId) : coilAndText.kind n = coil.kind n ∨
    coilAndText.kind n = .scalar (.constant (.string "s")) .string ∨
      coilAndText.kind n = .tuple [0, 4] := by
  match n with
  | 0 | 1 | 2 | 3 => exact .inl (by decide +kernel)
  | 4 => exact .inr (.inl (by decide +kernel))
  | 5 => exact .inr (.inr (by decide +kernel))
  | n + 6 =>
    have hsize : coil.nodes.size = 4 ∧ coilAndText.nodes.size = 6 := by decide +kernel
    left
    rw [kind_of_absent (by omega), kind_of_absent (by omega)]

theorem union_coilAndText {n : NodeId} {ms : List NodeId} (h : coilAndText.kind n = .union ms) :
    n = 0 ∧ ms = [1, 3] := by
  rcases kind_coilAndText n with hk | hk | hk
  · exact union_coil (hk.symm.trans h)
  · exact nomatch hk.symm.trans h
  · exact nomatch hk.symm.trans h

theorem filled_coilAndText : coilAndText.Filled 5 := by
  have hclosed : ∀ n ∈ List.range 6, ∀ c ∈ (coilAndText.kind n).children, c ∈ List.range 6 := by
    decide +kernel
  have hkinds : ∀ n ∈ List.range 6, coilAndText.kind n ≠ .error .incomplete := by decide +kernel
  exact fun n hn => hkinds n (mem_of_leads hclosed (by decide) hn)

theorem rewritable_coilAndText (v : NodeId) : coilAndText.Rewritable v := by
  refine rewritable_of_pair (fun _ _ => union_coilAndText) (by decide +kernel) (by decide +kernel)
    (by decide +kernel) ?_ ?_ v
  · have hclosed : ∀ n ∈ [1], ∀ c ∈ (coilAndText.kind n).children, c ∈ [1] := by decide +kernel
    exact fun hlead => absurd (mem_of_leads hclosed (by decide) hlead) (by decide)
  · intro f p hf
    rcases kind_coilAndText f with hk | hk | hk
    · rcases kind_coil f with ⟨-, hk'⟩ | ⟨-, hk'⟩ | ⟨-, b, hk'⟩ | ⟨-, hk'⟩
      all_goals exact nomatch (hk.trans hk').symm.trans hf
    · exact nomatch hk.symm.trans hf
    · exact nomatch hk.symm.trans hf

/-- The visit of the pair fails at the text, after the union was rewritten; a later visit of the
union finds the result, and a fresh one makes an equal value. -/
theorem visit_agrees_coilAndText :
    let V := (Variant.ofScalars fun _ _ _ ty => Rebuild.infer (Infer.anyOf ty)).checked refuseTexts
    let failed := (Infer.walk V 5 ⟨{}, ()⟩).run coilAndText
    let visit := (Infer.walk V 0 failed.1.2).run failed.2
    let fresh := (Infer.walk V 0 ⟨{}, ()⟩).run visit.2
    failed.1.1.isOk = false ∧ visit.1.1.toOption = some 7 ∧ fresh.1.1.toOption = some 10 ∧
      visit.2.Finished 7 ∧ fresh.2.equal 7 10 = true := by
  intro V failed visit fresh
  have hparts : ∀ {p : (Except InferError NodeId × Walk Unit) × Store} {r},
      p.1.1 = r → p = ((r, ⟨p.1.2.memo, ()⟩), p.2) := by
    rintro p _ rfl
    rfl
  have hfailed : failed.1.1 = .error (.invalidConstruction (.custom "refused String")) := by
    decide +kernel
  have hvisit : visit.1.1 = .ok 7 := by decide +kernel
  have hfresh : fresh.1.1 = .ok 10 := by decide +kernel
  have hsettled : failed.1.2.memo.Settled failed.2 := by
    have hdone : ∀ x ∈ failed.1.2.memo.done, x.2 ∈ [6, 7, 8] := by decide +kernel
    have hclosed : ∀ n ∈ [6, 7, 8], ∀ c ∈ (failed.2.kind n).children, c ∈ [6, 7, 8] := by
      decide +kernel
    have hcomplete : ∀ n ∈ [6, 7, 8], failed.2.isComplete n = true := by decide +kernel
    exact fun n out hn m hm => hcomplete m (mem_of_leads hclosed (hdone _ (mem_of_lookup hn)) hm)
  have hsession : coilAndText.Session V (coilAndText.Leads 5) failed.1.2.memo failed.2 :=
    .failed .start .refl (hparts hfailed) hsettled
  have hplain : coilAndText.InternsPlain := by
    intro n ms _ hk
    obtain ⟨-, rfl⟩ := union_coilAndText hk
    decide
  have hvalues : ∀ v, coilAndText.Leads 5 v → coilAndText.Filled v ∧ coilAndText.Rewritable v ∧
      coilAndText.FitsScalars v fun _ ty => (.anything, ty) := fun v hv =>
    ⟨filled_coilAndText.leads hv, rewritable_coilAndText v,
      fun n value ty _ _ => ⟨rfl, fun p hp => nomatch hp⟩⟩
  have hagrees := Session.visit_agrees reachable_coilAndText hplain hvalues
    (fun _ _ _ _ => .inl rfl) hsession (leads_child (by decide +kernel))
    (hparts hvisit) (hparts hfresh)
  obtain ⟨hfinished, -, hequal, -⟩ := hagrees.2.2 7 10 rfl rfl
  refine ⟨?_, ?_, ?_, hfinished, hequal⟩
  · rw [hfailed]
    rfl
  · rw [hvisit]
    rfl
  · rw [hfresh]
    rfl

end Store

end ValueInference
