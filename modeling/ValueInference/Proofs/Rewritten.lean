/-
A walk that rewrites scalars gives a rewrite of the value.

When the walk is over nothing is left to wait for: all drafts are finished.  What equals a finished
draft has the same rewritten form, since nothing in it is matched twice; so whatever serves for a
node has its rewritten form, and no two members or candidates in it are equal.

* **`Store.Drafting.rewriteOf_of_same`** — what equals a finished draft has its rewritten form;
* **`Store.Drafting.rewriting`** — after the walk, what serves is a rewrite;
* **`Infer.rebuild_of_rewritable`** — a walk over a value that can be rewritten gives its rewrite.
-/
import ValueInference.Proofs.RedrawnWalks

namespace ValueInference

namespace Store

variable {s : Store} {x y z : NodeId} {stack : List NodeId} {σ : Scene} {plan : Plan}

/-! ### After the walk -/

/-- Forms that are alike both ways have corresponding members. -/
theorem corresponds_of_alike {R : NodeId → NodeId → Prop} {as bs : List NodeId}
    (h : (Kind.union as).Alike R (.union bs))
    (h' : (Kind.union bs).Alike (fun b a => R a b) (.union as)) :
    Corresponds (fun b a => R a b) bs as := by
  constructor
  · exact h'.2
  · exact h.2

/-- Sets that are alike both ways have corresponding candidates. -/
theorem candidates_of_alike {R : NodeId → NodeId → Prop} {q : Possibilities} {k : Kind}
    (hself : ∀ a ∈ (Kind.function (.possibilities q)).children, R a a)
    (hcoherent : (Kind.function (.possibilities q)).Coherent k)
    (h : (Kind.function (.possibilities q)).Alike R k)
    (h' : k.Alike (fun b a => R a b) (.function (.possibilities q))) :
    ∃ r, k = .function (.possibilities r) ∧
      Corresponds (Candidate.Alike fun b a => R a b) r.candidates q.candidates := by
  obtain ⟨r, rfl⟩ : ∃ r, k = .function (.possibilities r) := by
    cases k with
    | function w =>
      cases w with
      | possibilities r => exact ⟨r, rfl⟩
      | _ => exact h.elim
    | _ => exact h.elim
  refine ⟨r, rfl, ?_⟩
  -- sets with one token have the same candidates
  have hsame : q.token = r.token →
      Corresponds (Candidate.Alike fun b a => R a b) r.candidates q.candidates := by
    intro htoken
    rw [← hcoherent _ _ rfl rfl q r rfl rfl htoken]
    exact corresponds_of_forall₂ (List.forall₂_same.mpr fun c hc =>
      .refl fun a ha => hself a (List.mem_flatMap_of_mem hc ha))
  rcases h with htoken | hmatch
  · exact hsame htoken
  rcases h' with htoken | hmatch'
  · exact hsame htoken.symm
  constructor
  · exact hmatch'.2
  · intro d hd
    obtain ⟨c, hc, hdc⟩ := hmatch.2 d hd
    exact ⟨c, hc, hdc.flip⟩

namespace Drafting

section

variable (hs : s.Subject plan) (h : s.Drafting plan stack σ)

include hs h

/-- Nothing in a finished node of the walk is matched twice. -/
theorem apart_of_same (hz : plan.Known σ z) (hsame : σ.store.SameValue z x) :
    (σ.store.kind z).Apart σ.store.SameValue (σ.store.kind x) := by
  have hbelow : σ.store.BalancedBelow z := fun m hm _ =>
    h.balanced hs (h.known_leads hs hz hm) (hsame.left.leads hm)
  have hapart := (h.discernible hs hz hsame.left).apart h.reachable.sound (h.reachable.formed z) hbelow x
  refine hapart.anti ?_
  exact fun _ _ _ _ hab => hab.equal

/-- **What equals a finished draft** has the same rewritten form. -/
theorem rewriteOf_of_same (hy : plan.within y) (hz : plan.Known σ z) (hx : plan.Known σ x)
    (hsame : σ.store.SameValue z x) (hshape : (σ.store.kind z).shape = (s.kind y).shape)
    (hrewrite : σ.store.RewriteOf plan.form (s.Serves plan σ) z (s.kind y)) :
    σ.store.RewriteOf plan.form (s.Serves plan σ) x (s.kind y) := by
  have hsound := h.reachable.sound
  have halike := hsame.child hsound
  have hflip := halike.flip (h.apart_of_same hs hz hsame)
  have hserves : ∀ {a b d}, b ∈ (σ.store.kind x).children → σ.store.SameValue a b →
      s.Serves plan σ a d → s.Serves plan σ b d := fun hb hab had =>
    h.serves_of_same hs had hab (h.known_leads hs hx (leads_child hb))
  -- where parts have places the two alikenesses compose
  have hothers : ∀ {k : Kind}, k.Placed → (σ.store.kind z).Alike (s.Serves plan σ) k →
      (σ.store.kind x).Alike (s.Serves plan σ) k := by
    intro k hk hzk
    refine (hflip.comp_of_placed hzk (hzk.placed_iff.mpr hk)).imp ?_
    rintro b hb d - ⟨a, hab, had⟩
    exact hserves hb hab had
  rcases hk : s.kind y with ⟨value, ty⟩ | items | item | ⟨item, shape⟩ | ⟨tag, fields⟩ | ms |
    options | options | inner | reason | ty
  all_goals rw [hk] at hrewrite hshape
  case scalar =>
    obtain ⟨w, u, hform⟩ := Kind.exists_scalar_of_shape (hshape : _ = none)
    obtain ⟨w', u', hform'⟩ := Kind.exists_scalar_of_shape (k := σ.store.kind x) <| by
      rw [← Kind.shape_of_head (head_of_equals hsame.equal.2.2), hform]
      rfl
    have hslot := h.admits_form hs hy hk
    have hrefl : ∀ {R : NodeId → NodeId → Prop}, ∀ a ∈ (σ.store.kind z).children, R a a := by
      intro R a ha
      rw [h.reachable.children_of_scalar hform] at ha
      exact absurd ha List.not_mem_nil
    refine (hflip.comp (hsound.coherent x z) (sets_coherent hslot z) hrefl hrefl hrewrite).imp ?_
    intro b hb
    rw [h.reachable.children_of_scalar hform'] at hb
    exact absurd hb List.not_mem_nil
  case union =>
    obtain ⟨as, hform⟩ := Kind.exists_union_of_shape hshape
    have hshape' := Kind.shape_of_head (head_of_equals hsame.equal.2.2)
    rw [hform] at hshape'
    obtain ⟨bs, hform'⟩ := Kind.exists_union_of_shape hshape'.symm
    have hrewrite' : Corresponds (s.Serves plan σ) (σ.store.members z) ms := hrewrite
    rw [members, hform] at hrewrite'
    -- members correspond as sets: each direction takes one direction of the alikeness
    show Corresponds (s.Serves plan σ) (σ.store.members x) ms
    rw [members, hform']
    rw [hform, hform'] at halike hflip
    refine ((corresponds_of_alike halike hflip).comp hrewrite').imp ?_
    rintro b hb d - ⟨a, hab, had⟩
    exact hserves (by rwa [hform']) hab had
  case function =>
    by_cases hset : ∃ p, options = .possibilities p
    · obtain ⟨p, rfl⟩ := hset
      -- a set goes candidate by candidate, and the draft may list equal ones
      obtain ⟨q, hform, hpq⟩ := hrewrite
      have hself : ∀ a ∈ (σ.store.kind z).children, σ.store.SameValue a a := fun a ha =>
        have hfinished := hsame.left.child ha
        ⟨hfinished, hfinished, equalIn_refl hfinished.present⟩
      have hcoherent := hsound.coherent z x
      rw [hform] at hself hcoherent halike hflip
      obtain ⟨r, hform', hqr⟩ := candidates_of_alike hself hcoherent halike hflip
      refine ⟨r, hform', (hqr.comp hpq).imp ?_⟩
      rintro c hc e - ⟨d, hcd, hde⟩
      refine (hcd.comp hde).imp ?_
      rintro b hb d' - ⟨a, hab, had⟩
      refine hserves ?_ hab had
      rw [hform']
      exact List.mem_flatMap_of_mem hc hb
    · have hoptions : ∀ p, (Kind.function options).slot? ≠ some (.possibilities p) := fun p hp =>
        hset ⟨p, Option.some.inj hp⟩
      cases options with
      | possibilities p => exact absurd rfl (hoptions p)
      | _ => exact hothers ⟨rfl, hoptions⟩ hrewrite
  all_goals exact hothers ⟨rfl, by simp [Kind.slot?]⟩ hrewrite

end

variable (hs : s.Subject plan) (h : s.Drafting plan [] σ)

include hs h

theorem finished_of_serves (hxy : s.Serves plan σ x y) : σ.store.Finished x :=
  h.finished_of_free hs hxy fun _ hm => absurd hm List.not_mem_nil

omit hs in
/-- **After a walk**, no draft is waited for. -/
theorem drafted_of_mirror (hxy : σ.mirrors x y) : s.Drafted plan σ x y := by
  obtain ⟨-, -, hdraft | hawaits⟩ := h.drafts x y hxy
  · exact hdraft
  · have hmem := mem_keys_of_lookup hawaits.2
    rw [← Memo.inside, h.inside] at hmem
    exact absurd hmem List.not_mem_nil

/-- What passes for all members of a union is no union. -/
theorem isUnion_of_members {ms : List NodeId} (hy : plan.within y) (hk : s.kind y = .union ms)
    (hms : ∀ m ∈ ms, plan.Passes σ x m) : (σ.store.kind x).isUnion = false := by
  obtain ⟨m, hm⟩ := hs.reachable.exists_member hk
  exact h.isUnion_of_passes (hms m hm) (hs.flat hy hk m hm)

/-- **After a walk**, what serves is a rewrite. -/
theorem rewriting : s.Rewriting σ.store plan.form (s.Serves plan σ) where
  forms x y hxy := by
    rcases hxy with ⟨hx, z, hzy, hz⟩ | ⟨hy, -, ms, hk, hms⟩
    · have hdraft := h.drafted_of_mirror hzy
      rcases hz with rfl | hsame
      · exact hdraft.rewrite
      · exact h.rewriteOf_of_same hs (h.drafts z y hzy).1 (.inr ⟨y, hzy⟩) hx hsame hdraft.shape
          hdraft.rewrite
    · obtain ⟨m, hm⟩ := hs.reachable.exists_member hk
      rw [hk]
      show Corresponds (s.Serves plan σ) (σ.store.members x) ms
      rw [members_of_not_union (h.isUnion_of_members hs hy hk hms)]
      constructor
      · intro a ha
        exact ⟨m, hm, List.mem_singleton.mp ha ▸ .inl (hms m hm)⟩
      · exact fun m hm => ⟨x, List.mem_singleton.mpr rfl, .inl (hms m hm)⟩
  members x y ms hxy hk := by
    have hfinished := h.finished_of_serves hs hxy
    have hdiscernible := h.discernible hs (hxy.known hs.reachable) hfinished
    refine (hdiscernible.members x ms .refl hk).imp_of_mem fun {m n} hm hn hmn => hmn.differ ?_ ?_
    · exact h.reachable.sound.child_lt (by rwa [hk])
    · exact h.reachable.sound.child_lt (by rwa [hk])
  candidates x y p hxy hk := by
    have hfinished := h.finished_of_serves hs hxy
    have hdiscernible := h.discernible hs (hxy.known hs.reachable) hfinished
    have hpresent : ∀ c ∈ p.candidates, ∀ n ∈ c.children, n < σ.store.nodes.size := by
      intro c hc n hn
      refine h.reachable.sound.child_lt (n := x) ?_
      rw [hk]
      exact List.mem_flatMap_of_mem hc hn
    exact (hdiscernible.candidates x p .refl hk).imp_of_mem fun {c d} hc hd hcd =>
      hcd.differ h.reachable.sound (hpresent c hc) (hpresent d hd)

end Drafting

/-! ### Values that can be rewritten -/

theorem Rewritable.leads {v : NodeId} (h : s.Rewritable v) (hx : s.Leads v x) :
    s.Rewritable x where
  flat u ms hu := h.flat u ms (hx.trans hu)
  members u ms hu := h.members u ms (hx.trans hu)
  candidates f p hf := h.candidates f p (hx.trans hf)

/-- Walks may start with the values of a store that can be rewritten. -/
theorem subject_of_rewritable {values refused : NodeId → Prop} {form : Slot → Ty → Slot × Ty}
    (hs : s.Reachable)
    (h : ∀ v, values v → s.Filled v ∧ s.Rewritable v ∧ s.FitsScalars v form) :
    s.Subject ⟨fun n => ∃ v, values v ∧ s.Leads v n, refused, form⟩ where
  reachable := hs
  closed _ hn _ hc := hn.imp fun _ hv => ⟨hv.1, hv.2.tail hc⟩
  filled := fun _ ⟨v, hv, hn⟩ => (h v hv).1.leads hn
  rewritable := fun _ ⟨v, hv, hn⟩ => (h v hv).2.1.leads hn
  fits := fun n value ty ⟨v, hv, hn⟩ hk => ((h v hv).2.2 n value ty hn hk).1
  sets := fun n value ty p ⟨v, hv, hn⟩ hk => ((h v hv).2.2 n value ty hn hk).2 p

/-! ### A union on a cycle -/

/-- The union of a boolean with a pair of another one and the union itself. -/
def coil : Store :=
  (Change.complete 0 (.union [1, 3])).apply ((Change.build (.tuple [2, 0])).apply
    ((Change.build (.scalar (.constant (.bool false)) .bool)).apply
      ((Change.build (.scalar (.constant (.bool true)) .bool)).apply
        (Change.placeholder.apply {}))))

theorem reachable_coil : coil.Reachable := by
  refine .step _ (.step _ (.step _ (.step _ (.step _ .start trivial) ?_) ?_) ?_) ?_
  · rintro slot ⟨⟩ p hp
    exact nomatch hp
  · rintro slot ⟨⟩ p hp
    exact nomatch hp
  · exact fun _ hslot => nomatch hslot
  · exact fun _ hslot => nomatch hslot

theorem kind_coil (n : NodeId) : n = 0 ∧ coil.kind n = .union [1, 3] ∨
    n = 3 ∧ coil.kind n = .tuple [2, 0] ∨
      ((n = 1 ∨ n = 2) ∧ ∃ b, coil.kind n = .scalar (.constant (.bool b)) .bool) ∨
        coil.nodes.size ≤ n ∧ coil.kind n = .error .incomplete := by
  match n with
  | 0 => exact .inl ⟨rfl, by decide +kernel⟩
  | 1 => exact .inr (.inr (.inl ⟨.inl rfl, true, by decide +kernel⟩))
  | 2 => exact .inr (.inr (.inl ⟨.inr rfl, false, by decide +kernel⟩))
  | 3 => exact .inr (.inl ⟨rfl, by decide +kernel⟩)
  | n + 4 =>
    have hsize : coil.nodes.size ≤ n + 4 := by
      have hfour : coil.nodes.size = 4 := by decide +kernel
      omega
    exact .inr (.inr (.inr ⟨hsize, kind_of_absent hsize⟩))

theorem union_coil {n : NodeId} {ms : List NodeId} (h : coil.kind n = .union ms) :
    n = 0 ∧ ms = [1, 3] := by
  rcases kind_coil n with ⟨rfl, hk⟩ | ⟨-, hk⟩ | ⟨-, b, hk⟩ | ⟨-, hk⟩
  · exact ⟨rfl, Kind.union.inj (h.symm.trans hk)⟩
  all_goals exact nomatch hk.symm.trans h

theorem filled_coil : coil.Filled 0 := by
  intro n hn hk
  have hpresent := present_of_leads reachable_coil.sound (by decide +kernel) hn
  rcases kind_coil n with ⟨-, hk'⟩ | ⟨-, hk'⟩ | ⟨-, b, hk'⟩ | ⟨habsent, -⟩
  · exact nomatch hk'.symm.trans hk
  · exact nomatch hk'.symm.trans hk
  · exact nomatch hk'.symm.trans hk
  · exact absurd hpresent (Nat.not_lt.mpr habsent)

/-- A store can be rewritten if it has a single union, of two members with different shapes of which
one does not lead back, and no candidates. -/
theorem rewritable_of_pair {u m n : NodeId}
    (hunion : ∀ w ms, s.kind w = .union ms → w = u ∧ ms = [m, n])
    (hflat : (s.kind m).isUnion = false ∧ (s.kind n).isUnion = false)
    (hfilled : s.kind m ≠ .error .incomplete ∧ s.kind n ≠ .error .incomplete)
    (hshape : (s.kind m).shape ≠ (s.kind n).shape) (hback : ¬ s.Leads m u)
    (hfunctions : ∀ f p, s.kind f ≠ .function (.possibilities p)) (v : NodeId) :
    s.Rewritable v where
  flat w ms _ hk c hc := by
    obtain ⟨-, rfl⟩ := hunion w ms hk
    rcases List.mem_pair.mp hc with rfl | rfl
    · exact hflat.1
    · exact hflat.2
  members w ms _ hk := by
    obtain ⟨rfl, rfl⟩ := hunion w ms hk
    exact List.pairwise_pair.mpr (.inl (.shape ⟨hfilled, .inl hback⟩ hflat hshape))
  candidates f p _ hk := absurd hk (hfunctions f p)

/-- Of the two members only the pair leads back to the union. -/
theorem rewritable_coil (v : NodeId) : coil.Rewritable v := by
  refine rewritable_of_pair (fun _ _ => union_coil) (by decide +kernel) (by decide +kernel)
    (by decide +kernel) ?_ ?_ v
  · have hclosed : ∀ n ∈ [1], ∀ c ∈ (coil.kind n).children, c ∈ [1] := by decide +kernel
    exact fun hlead => absurd (mem_of_leads hclosed (by decide) hlead) (by decide)
  · intro f p hf
    rcases kind_coil f with ⟨-, hk⟩ | ⟨-, hk⟩ | ⟨-, b, hk⟩ | ⟨-, hk⟩
    all_goals exact nomatch hk.symm.trans hf

end Store

namespace Infer

variable {s : Store} {v : NodeId} {form : Slot → Ty → Slot × Ty}
  {handler : Visitor (Rebuild Unit Update) → NodeId → Slot → Ty → Rebuild Unit Update NodeId}

/-- **A walk that rewrites the scalars of a value**, on whatever cycles they lie, gives a complete
value that is a rewrite of it: every scalar has got the form that depends on its VALUE and TYPE,
and the members of every union are the different ones of the rewritten members. -/
theorem rebuild_of_rewritable (hs : s.Reachable) (hplain : s.InternsPlain) (hv : s.Filled v)
    (hrewritable : s.Rewritable v) (hfits : s.FitsScalars v form)
    (hgives : Rebuild.GivesScalars form handler) :
    ∃ out t R, (rebuild (.ofScalars handler) v).outcome s = (.ok out, t) ∧ s.Grows t ∧
      t.Finished out ∧ s.Rewriting t form R ∧ R out v := by
  let plan : Plan := ⟨fun n => ∃ w, w = v ∧ s.Leads w n, fun _ => False, form⟩
  have hsubject : s.Subject plan := Store.subject_of_rewritable hs fun w hw =>
    hw ▸ ⟨hv, hrewritable, hfits⟩
  have hrules : Rebuild.WalkRules s v (.ofScalars handler) (s.Drafting plan)
      (fun _ => Scene.Extends) (fun _ _ => False) fun _ => s.Serves plan := by
    refine Store.walkRules_of_work hsubject ⟨v, rfl, .refl⟩ (fun _ hnever => hnever)
      fun h hfuel hσ => ?_
    refine (h.runs_byForm rfl rfl hgives (fun value ty hk => ?_) hfuel hσ).imp
      fun _ _ _ hout => ⟨hout, id⟩
    exact hsubject.fits _ value ty h.value hk
  obtain ⟨out, τ, hrun, hτ, -, hserves⟩ :=
    (hrules.visits hs.sound hv.finished.present .nil rfl s.walkDepth s.spare_lt_walkDepth _
      (Store.drafting_start hs hplain plan)).gives
  exact ⟨out, τ.store, s.Serves plan τ, outcome_rebuild hrun, hτ.grows,
    hτ.finished_of_serves hsubject hserves, hτ.rewriting hsubject, hserves⟩

/-- Two lists that lead back to their union over different nodes are taken for each other while
these are placeholders, and one of them is lost. -/
example :
    let s := Change.placeholder.apply (Change.placeholder.apply {})
    let s := (Change.build (.list 1)).apply ((Change.build (.list 0)).apply s)
    let s := (Change.build (.scalar (.constant (.bool true)) .bool)).apply
      ((Change.build (.union [2, 3])).apply s)
    let s := (Change.complete 1 (.tuple [4])).apply ((Change.complete 0 (.tuple [1, 5])).apply s)
    let outcome := (rebuild (.ofScalars fun _ _ _ ty => Rebuild.infer (anyOf ty)) 0).outcome s
    s.equal 2 3 = false ∧ s.render 0 = "T(T(U(L(#rec), L(#rec))), S(VALUE=true, TYPE=Bool))" ∧
      outcome.1.toOption.map outcome.2.render = some "T(T(L(#rec)), S(TYPE=Bool))" := by
  decide +kernel

/-- The booleans in a union on a cycle are forgotten. -/
theorem rebuild_of_rewritable_coil :
    let forget : Slot → Ty → Slot × Ty := fun _ ty => (.anything, ty)
    ∃ out t R, (rebuild (.ofScalars fun _ _ _ ty => Rebuild.infer (anyOf ty)) 0).outcome
        Store.coil = (.ok out, t) ∧ Store.coil.Grows t ∧ t.Finished out ∧
      Store.coil.Rewriting t forget R ∧ R out 0 := by
  refine rebuild_of_rewritable Store.reachable_coil (fun n ms _ hk => ?_) Store.filled_coil
    (Store.rewritable_coil 0) (fun n value ty _ _ => ⟨rfl, fun p hp => nomatch hp⟩)
    fun _ _ _ _ => .inl rfl
  obtain ⟨-, rfl⟩ := Store.union_coil hk
  decide

end Infer

end ValueInference
