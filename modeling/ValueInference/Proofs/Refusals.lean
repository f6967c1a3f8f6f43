/-
Walks that refuse nodes.

A walk may check every node that it enters, before the work on it and after it, and fail where a
check does.  What it has remembered until then stays remembered, so a failed walk leaves the
drafts that it has made.  Those that are finished are drafts for every later walk: a node is refused
by a later walk exactly if it would be refused by a walk that remembers nothing.

* **`Variant.checked`** — the variant that checks all nodes, and otherwise goes on as another one;
* **`Store.Halted`** — what a failed walk leaves;
* **`Store.walkRules_checked`** — a walk that rewrites scalars and checks all nodes ends as a walk
  that rewrites scalars, or is halted at a node that it refuses;
* **`Store.Drafting.accepted`** — nothing below what was rewritten is refused;
* **`Store.Drafting.settled`** — the finished drafts of a walk that was halted.
-/
import ValueInference.Proofs.Agreement

namespace ValueInference

/-! ### Checks -/

/-- Checks of the nodes that a walk enters, before the work on them and after it. -/
structure Checks where
  before : NodeId → Kind → Option InferError
  after : NodeId → Kind → Option InferError

/-- The checks find nothing wrong with the node. -/
def Checks.Accept (checks : Checks) (n : NodeId) (k : Kind) : Prop :=
  checks.before n k = none ∧ checks.after n k = none

namespace Rebuild

variable {α : Type} {I : Scene → Prop} {L : Scene → Scene → Prop} {F : Scene → Prop} {σ : Scene}

/-- Fails if there is an error. -/
def pass : Option InferError → Rebuild Unit Update Unit
  | none => pure ()
  | some e => throw e

/-- The work on a node, between the two checks of it. -/
def checked (checks : Checks) (n : NodeId) (k : Kind) (work : Rebuild Unit Update NodeId) :
    Rebuild Unit Update NodeId := do
  pass (checks.before n k)
  let out ← work
  pass (checks.after n k)
  return out

theorem runs_pass [Std.Refl L] {fault : Option InferError} (h : I σ) (hF : fault ≠ none → F σ) :
    Runs I L F σ (pass fault) fun τ _ => τ = σ ∧ fault = none := by
  cases fault with
  | none => exact runs_pure h ⟨rfl, rfl⟩
  | some e => exact .inr ⟨e, σ, fails_throw e _ _, hF nofun⟩

/-- **Work between checks** runs if the work does and the checks leave what may be left. -/
theorem runs_checked [Std.Refl L] [IsTrans Scene L] {checks : Checks} {n : NodeId} {k : Kind}
    {work : Rebuild Unit Update NodeId} {P : Scene → NodeId → Prop} (h : I σ)
    (hF : ¬ checks.Accept n k → ∀ τ, I τ → F τ) (hwork : Runs I L F σ work P) :
    Runs I L F σ (checked checks n k work) fun τ out => P τ out ∧ checks.Accept n k := by
  refine (runs_pass h fun hbefore => hF (fun haccept => hbefore haccept.1) σ h).bind ?_
  rintro τ - - - ⟨rfl, hbefore⟩
  refine hwork.bind fun τ out hτ _ hout => ?_
  refine (runs_pass hτ fun hafter => hF (fun haccept => hafter haccept.2) τ hτ).bind ?_
  rintro τ - - - ⟨rfl, hafter⟩
  exact runs_pure hτ ⟨hout, hbefore, hafter⟩

end Rebuild

/-- The variant that checks all nodes, and otherwise goes on as another one. -/
def Variant.checked (checks : Checks) (V : Variant (Rebuild Unit Update)) :
    Variant (Rebuild Unit Update) where
  scalar v n value ty := Rebuild.checked checks n (.scalar value ty) (V.scalar v n value ty)
  tuple v n items := Rebuild.checked checks n (.tuple items) (V.tuple v n items)
  list v n item := Rebuild.checked checks n (.list item) (V.list v n item)
  array v n item shape := Rebuild.checked checks n (.array item shape) (V.array v n item shape)
  record v n tag fields := Rebuild.checked checks n (.record tag fields) (V.record v n tag fields)
  union v n ms := Rebuild.checked checks n (.union ms) (V.union v n ms)
  tagged v n options := Rebuild.checked checks n (.tagged options) (V.tagged v n options)
  function v n options := Rebuild.checked checks n (.function options) (V.function v n options)
  jtagged v n inner := Rebuild.checked checks n (.jtagged inner) (V.jtagged v n inner)
  error v n reason := Rebuild.checked checks n (.error reason) (V.error v n reason)
  type v n ty := Rebuild.checked checks n (.type ty) (V.type v n ty)
  slot := V.slot
  ref := V.ref

namespace Rebuild

variable {checks : Checks} {V : Variant (Rebuild Unit Update)}
  {inner : Visitor (Rebuild Unit Update)} {n : NodeId} {memo : Memo} {s : Store}

/-- What is done between checks counts only for what it does where they leave it. -/
theorem run_checked_congr {k : Kind} {x y : Rebuild Unit Update NodeId}
    (h : ((ExceptT.run x).run ⟨memo, ()⟩).run s = ((ExceptT.run y).run ⟨memo, ()⟩).run s) :
    ((ExceptT.run (checked checks n k x)).run ⟨memo, ()⟩).run s =
      ((ExceptT.run (checked checks n k y)).run ⟨memo, ()⟩).run s := by
  rw [checked, checked]
  cases checks.before n k with
  | some e => rfl
  | none =>
    rw [pass, pure_bind, pure_bind, run_bind, run_bind, h]

/-- **The work on a node**, whatever its form, is done between the checks of it. -/
theorem run_byForm_checked :
    ((ExceptT.run (byForm (V.checked checks) inner n)).run ⟨memo, ()⟩).run s =
      ((ExceptT.run (checked checks n (s.kind n) (byForm V inner n))).run ⟨memo, ()⟩).run s := by
  have hstore : ∀ {f : Store → Rebuild Unit Update NodeId},
      ((ExceptT.run (infer Infer.store >>= f)).run ⟨memo, ()⟩).run s =
        ((ExceptT.run (f s)).run ⟨memo, ()⟩).run s := rfl
  rw [run_checked_congr (x := byForm V inner n) hstore, byForm, hstore]
  cases s.kind n <;> rfl

/-- What runs in a scene runs with whatever is done alike there. -/
theorem Runs.congr {I : Scene → Prop} {L : Scene → Scene → Prop} {F : Scene → Prop} {σ : Scene}
    {x y : Rebuild Unit Update NodeId} {P : Scene → NodeId → Prop} (h : Runs I L F σ x P)
    (hrun : ((ExceptT.run y).run ⟨σ.memo, ()⟩).run σ.store =
      ((ExceptT.run x).run ⟨σ.memo, ()⟩).run σ.store) : Runs I L F σ y P := by
  rcases h with ⟨a, τ, hgives, hrest⟩ | ⟨e, τ, hfails, hF⟩
  · exact .inl ⟨a, τ, hrun.trans hgives, hrest⟩
  · exact .inr ⟨e, τ, hrun.trans hfails, hF⟩

end Rebuild

/-- The finished drafts of a scene, as a walk has them that is inside of no node. -/
def Scene.settled (σ : Scene) : Scene :=
  ⟨fun x y => σ.mirrors x y ∧ σ.store.Finished x, { done := σ.memo.done }, σ.store⟩

/-- Values are rewritten, and what the checks find is refused. -/
def Checks.plan (checks : Checks) (s : Store) (values : NodeId → Prop)
    (form : Slot → Ty → Slot × Ty) : Plan :=
  ⟨fun n => ∃ v, values v ∧ s.Leads v n, fun n => ¬ checks.Accept n (s.kind n), form⟩

/-- All results that are remembered are finished. -/
def Memo.Settled (memo : Memo) (s : Store) : Prop :=
  ∀ n out, memo.done.lookup n = some out → s.Finished out

namespace Store

variable {s t : Store} {v x y n out : NodeId} {stack trail : List NodeId} {σ τ : Scene}
  {plan : Plan} {checks : Checks}
  {handler : Visitor (Rebuild Unit Update) → NodeId → Slot → Ty → Rebuild Unit Update NodeId}

/-! ### Halted walks -/

/-- What a failed walk from `v` leaves: it was halted at a node that it refuses, on a trail of which
all nodes lead to that node. -/
structure Halted (s : Store) (plan : Plan) (v : NodeId) (stack : List NodeId) (σ : Scene) :
    Prop where
  inside : σ.memo.inside = stack
  halted : ∃ r trail memo, plan.refused r ∧ s.Leads v r ∧ (∀ m ∈ trail, s.Leads m r) ∧
    memo.done = σ.memo.done ∧ s.Drafting plan trail ⟨σ.mirrors, memo, σ.store⟩

/-- A walk is halted at a node that it is inside of. -/
theorem Drafting.halt (h : s.Drafting plan (n :: stack) σ) (htrail : s.Trail v (n :: stack))
    (hn : plan.refused n) : s.Halted plan v (n :: stack) σ :=
  ⟨h.inside, n, n :: stack, σ.memo, hn, htrail.leads_mem List.mem_cons_self,
    fun _ hm => htrail.leads_top hm, rfl, h⟩

/-- A walk that was halted leaves the nodes that it is inside of. -/
theorem Halted.leave (h : s.Halted plan v (n :: stack) σ) (hn : n ∉ stack) :
    s.Halted plan v stack { σ with memo := σ.memo.leave n } :=
  ⟨Memo.inside_leave h.inside hn, h.halted⟩

/-- **A walk that rewrites scalars and checks all nodes** keeps the invariant of one that rewrites
scalars, or is halted. -/
theorem walkRules_checked (hs : s.Subject plan) (hv : plan.within v)
    (hgives : Rebuild.GivesScalars plan.form handler)
    (hrefused : ∀ n, plan.refused n ↔ ¬ checks.Accept n (s.kind n)) :
    Rebuild.WalkRules s v ((Variant.ofScalars handler).checked checks) (s.Drafting plan)
      (fun _ => Scene.Extends) (s.Halted plan v) fun _ => s.Serves plan := by
  refine walkRules_of_work hs hv (fun hn h => h.leave hn) fun {stack n base fuel σ} h hfuel hσ => ?_
  have hkind : σ.store.kind n = s.kind n := hσ.kind_eq hs h.value
  have hwork := h.runs_byForm rfl rfl hgives (fun value ty => hs.fits n value ty h.value) hfuel hσ
  -- whatever the walk has made below the node, the check finds the form that the node has in `s`
  have hhalt : ¬ checks.Accept n (σ.store.kind n) → ∀ τ, s.Drafting plan (n :: stack) τ →
      s.Halted plan v (n :: stack) τ := by
    intro hfaulty τ hτ
    rw [hkind] at hfaulty
    exact hτ.halt h.trail ((hrefused n).mpr hfaulty)
  refine ((Rebuild.runs_checked hσ hhalt hwork).congr Rebuild.run_byForm_checked).imp ?_
  rintro τ out - ⟨hout, haccept⟩
  rw [hkind] at haccept
  exact ⟨hout, fun hn => (hrefused n).mp hn haccept⟩

/-! ### Nodes that were rewritten -/

/-- A node that was rewritten is not refused, and neither was a node below it left out. -/
theorem Drafting.exists_serving (hs : s.Subject plan) (h : s.Drafting plan [] σ)
    (hxy : s.Serves plan σ x y) :
    ¬ plan.refused y ∧ ∀ d ∈ (s.kind y).children, ∃ c, s.Serves plan σ c d := by
  rcases hxy with ⟨-, w, hwy, -⟩ | ⟨-, hkept, ms, hk, hms⟩
  · have hdraft := h.drafted_of_mirror hwy
    refine ⟨h.kept w y hwy hdraft.complete, ?_⟩
    exact hdraft.rewrite.exists_image (h.reachable.sound.labelled w) (hs.reachable.formed y)
  · rw [hk]
    exact ⟨hkept, fun m hm => ⟨x, .inl (hms m hm)⟩⟩

/-- **Nothing below a node that was rewritten** is refused. -/
theorem Drafting.accepted (hs : s.Subject plan) (h : s.Drafting plan [] σ)
    (hxy : s.Serves plan σ x y) (hn : s.Leads y n) : ¬ plan.refused n := by
  have hserved : ∃ c, s.Serves plan σ c n := by
    induction hn with
    | refl => exact ⟨x, hxy⟩
    | tail _ hd ih =>
      obtain ⟨c, hc⟩ := ih
      exact (h.exists_serving hs hc).2 _ hd
  obtain ⟨c, hc⟩ := hserved
  exact (h.exists_serving hs hc).1

/-! ### What is left of a walk -/


section

variable (hx : σ.store.Finished x)

include hx

theorem passes_settled (h : plan.Passes σ x y) : plan.Passes σ.settled x y := by
  obtain ⟨hknown, z, hzy, hz⟩ := h
  have hfinished : σ.store.Finished z := by
    rcases hz with rfl | hsame
    · exact hx
    · exact hsame.left
  exact ⟨hknown.imp id fun ⟨w, hxw⟩ => ⟨w, hxw, hx⟩, z, ⟨hzy, hfinished⟩, hz⟩

theorem serves_settled (h : s.Serves plan σ x y) : s.Serves plan σ.settled x y :=
  h.imp (passes_settled hx) fun ⟨hy, hkept, ms, hk, hms⟩ =>
    ⟨hy, hkept, ms, hk, fun m hm => passes_settled hx (hms m hm)⟩

theorem aside_settled (h : s.Aside plan σ y x) : s.Aside plan σ.settled y x := by
  obtain ⟨c, hc, hxc, hback⟩ := h
  exact ⟨c, hc, passes_settled hx hxc, hback⟩

end

theorem candidateAside_settled {c : Candidate} (hc : ∀ n ∈ c.children, σ.store.Finished n)
    (h : s.CandidateAside plan σ y c) : s.CandidateAside plan σ.settled y c := by
  obtain ⟨p, hk, e, he, halike, hback⟩ := h
  exact ⟨p, hk, e, he, halike.imp fun n hn _ _ => serves_settled (hc n hn), hback⟩

/-- **A finished draft** stays one among the finished drafts. -/
theorem Drafted.settled (h : s.Drafted plan σ x y) (hx : σ.store.Finished x) :
    s.Drafted plan σ.settled x y := by
  have hbelow : ∀ m ∈ (σ.store.kind x).children, σ.store.Finished m := fun m hm => hx.child hm
  refine ⟨h.complete, h.shape, h.rewrite.imp h.shape fun m hm _ => serves_settled (hbelow m hm),
    fun ms (hk : σ.store.kind x = .union ms) => ?_,
    fun p (hk : σ.store.kind x = .function (.possibilities p)) => ?_⟩
  · have hchild : ∀ m ∈ ms, σ.store.Finished m := fun m hm => hbelow m (by rwa [hk])
    refine (h.members ms hk).imp_of_mem fun {m n} hm hn hmn => ?_
    rcases hmn with ⟨c, hc, d, hd, hmc, hnd, hshapes⟩ | ⟨haside, hapart⟩
    · exact .inl ⟨c, hc, d, hd, passes_settled (hchild m hm) hmc, passes_settled (hchild n hn) hnd,
        hshapes⟩
    · exact .inr ⟨⟨aside_settled (hchild m hm) haside.1, aside_settled (hchild n hn) haside.2⟩,
        hapart⟩
  · have hchild : ∀ c ∈ p.candidates, ∀ n ∈ c.children, σ.store.Finished n := by
      intro c hc n hn
      refine hbelow n ?_
      rw [hk]
      exact List.mem_flatMap_of_mem hc hn
    refine (h.candidates p hk).imp_of_mem fun {c d} hc hd hcd => ?_
    rcases hcd with ⟨q, hq, a, ha, b, hb, hca, hdb, hshapes⟩ | ⟨haside, hapart⟩
    · exact .inl ⟨q, hq, a, ha, b, hb, hca.imp fun n hn _ _ => serves_settled (hchild c hc n hn),
        hdb.imp fun n hn _ _ => serves_settled (hchild d hd n hn), hshapes⟩
    · exact .inr ⟨⟨candidateAside_settled (hchild c hc) haside.1,
        candidateAside_settled (hchild d hd) haside.2⟩, hapart⟩

/-- **The finished drafts of a walk** keep its invariant, if all that it remembers is finished. -/
theorem Drafting.settled (h : s.Drafting plan stack σ)
    (hdone : σ.memo.Settled σ.store) : s.Drafting plan [] σ.settled where
  reachable := h.reachable
  grows := h.grows
  plain := h.plain
  inside := rfl
  drafts x y hxy := by
    obtain ⟨hy, hx, hdraft | hawaits⟩ := h.drafts x y hxy.1
    · exact ⟨hy, hx, .inl (hdraft.settled hxy.2)⟩
    · have hcomplete := hxy.2.complete
      rw [hawaits.1] at hcomplete
      exact nomatch hcomplete
  kept x y hxy := h.kept x y hxy.1
  results n out hn := serves_settled (hdone n out hn) (h.results n out hn)
  expected n ph hn := nomatch hn
  distinct m n ph hm := nomatch hm

/-- A walk that remembers nothing goes on with the drafts. -/
theorem Drafting.forget (h : s.Drafting plan [] σ) :
    s.Drafting plan [] ⟨σ.mirrors, {}, σ.store⟩ where
  reachable := h.reachable
  grows := h.grows
  plain := h.plain
  inside := rfl
  drafts x y hxy := by
    obtain ⟨hy, hx, -⟩ := h.drafts x y hxy
    have hext : σ.Extends ⟨σ.mirrors, {}, σ.store⟩ := ⟨fun _ _ => id, .refl _⟩
    have hdraft := h.drafted_of_mirror hxy
    exact ⟨hy, hx, .inl (hdraft.later hext h.reachable.sound h.reachable.sound (.inl rfl)
      hdraft.complete rfl)⟩
  kept := h.kept
  results n out hn := nomatch hn
  expected n ph hn := nomatch hn
  distinct m n ph hm := nomatch hm

/-- **After a failed walk** its finished drafts are there for the walks to come, if all that it
remembers is finished. -/
theorem Halted.exists_drafting (h : s.Halted plan v [] σ) (hdone : σ.memo.Settled σ.store) :
    ∃ mirrors, s.Drafting plan [] ⟨mirrors, σ.memo, σ.store⟩ := by
  obtain ⟨-, trail, memo, -, -, -, hsame, hσ⟩ := h.halted
  have hsettled : memo.Settled σ.store := by rwa [Memo.Settled, hsame]
  have hmemo : σ.memo = { done := memo.done } := by
    have hempty := List.map_eq_nil_iff.mp h.inside
    rw [hsame, ← hempty]
  rw [hmemo]
  exact ⟨_, hσ.settled hsettled⟩

/-- All that a failed walk remembers is finished, if no node on a cycle leads to one that is
refused. -/
theorem Halted.settled (hs : s.Subject plan) (h : s.Halted plan v [] σ)
    (hcycles : ∀ m n, plan.within m → s.Below m m → s.Leads m n → ¬ plan.refused n) :
    σ.memo.Settled σ.store := by
  obtain ⟨r, trail, memo, hr, -, htrail, hsame, hσ⟩ := h.halted
  intro n out hn
  have hserves := hσ.results n out (by rwa [hsame])
  -- a placeholder is waited for only on a cycle, and from there the walk went on to be halted
  have hquiet : ∀ w z, Awaits ⟨σ.mirrors, memo, σ.store⟩ w z → ¬ s.Leads n z := by
    intro w z hawaits _
    have hz : z ∈ trail := hσ.inside ▸ mem_keys_of_lookup hawaits.2
    have hstands := hσ.expected z w hawaits.2
    exact hcycles z r (hσ.drafts w z hstands.mirrors).1 hstands.cycle (htrail z hz) hr
  have hfinished := hσ.finished_of_quiet hs hserves hquiet
  exact hfinished

/-! ### Visits -/

/-- **A visit with what is remembered** gives a node that serves, or is halted. -/
theorem Drafting.visit (hs : s.Subject plan) (hv : plan.within v)
    (hgives : Rebuild.GivesScalars plan.form handler)
    (hrefused : ∀ n, plan.refused n ↔ ¬ checks.Accept n (s.kind n)) (h : s.Drafting plan [] σ) :
    (∃ out τ, (Infer.walk ((Variant.ofScalars handler).checked checks) v ⟨σ.memo, ()⟩).run σ.store =
        ((.ok out, ⟨Scene.memo τ, ()⟩), τ.store) ∧
      s.Drafting plan [] τ ∧ σ.Extends τ ∧ s.Serves plan τ out v) ∨
    ∃ e τ, (Infer.walk ((Variant.ofScalars handler).checked checks) v ⟨σ.memo, ()⟩).run σ.store =
        ((.error e, ⟨Scene.memo τ, ()⟩), τ.store) ∧ s.Halted plan v [] τ := by
  have hrules := walkRules_checked hs hv hgives hrefused
  have hlevels : s.spare [] < σ.store.walkDepth :=
    Nat.lt_of_le_of_lt h.grows.spare_le σ.store.spare_lt_walkDepth
  exact hrules.visits hs.reachable.sound (hs.finished hv).present .nil rfl _ hlevels σ h

end Store

end ValueInference
