/-
What a walk that rewrites scalars makes of a form.

A form is made anew over nodes that serve for those below its node, or the node is given back if
they are the nodes below it.  Either way the walk gets a draft of the node.  A node that is made is
new, or an interned one; in both cases nothing below it that was finished leads back to it.

* **`Store.Drawn`** — a node that was made of a form;
* **`Store.exists_drawn`** — a form without a fault gives one;
* **`Store.Redrawing`** — the walk is inside of a node, below which its visits run;
* **`Store.Redrawing.not_equated`** — what serves for nodes that are apart is not taken for each
  other;
* **`Store.Redrawing.runs_rigid`** — a form over nodes alone gives a draft;
* **`Store.Redrawing.runs_scalar`** — so does a scalar, by what the handler makes of it.
-/
import ValueInference.Proofs.Drafts
import ValueInference.Proofs.Running

namespace ValueInference

namespace Kind

variable {k k' : Kind}

/-- What has no order in a form may be reordered. -/
theorem Alike.of_reordered {R : NodeId → NodeId → Prop} {k'' : Kind} (h : k'.Alike R k'')
    (hk : k.Reordered k') (hslot : k'.slot? = none) : k.Alike R k'' := by
  cases hk with
  | same => exact h
  | record tag hperm =>
    cases k'' with
    | record tag' gs => exact ⟨h.1, h.2.of_perm hperm⟩
    | _ => exact h.elim
  | union hperm =>
    cases k'' with
    | union bs => exact Matches.of_perm h hperm
    | _ => exact h.elim
  | tagged hperm =>
    cases k'' with
    | tagged bs => exact Matches.of_perm h hperm
    | _ => exact h.elim
  | scalar ty hv => exact nomatch hslot
  | function hv => exact nomatch hslot

end Kind

namespace Store

variable {s t : Store} {v x n m out : NodeId} {k : Kind} {stack : List NodeId} {σ τ : Scene}
  {plan : Plan} {F : Scene → Prop} {base fuel : Nat}

/-! ### Nodes that are made -/

/-- A node was made of a form, and interned unions still list no member twice. -/
structure Drawn (s t : Store) (k : Kind) (out : NodeId) : Prop where
  grows : s.Grows t
  reachable : t.Reachable
  plain : t.InternsPlain
  complete : t.isComplete out = true
  alike : (t.kind out).Alike (· = ·) k
  reordered : (t.kind out).Reordered k
  /-- What was finished in the form does not lead to the node. -/
  below : ∀ m ∈ k.children, s.Finished m → t.FinishedBelow out m

/-- A form over nodes alone passes the check if they exist. -/
theorem fault?_of_rigid (hrigid : k.Rigid) (hpresent : ∀ c ∈ k.children, c < s.nodes.size)
    (hlabelled : k.Labelled) (hformed : k.Formed) : s.fault? k = none := by
  have hknows : s.knows k = true := by
    refine knows_iff.mpr ⟨hpresent, fun p hp => ?_⟩
    rw [Kind.pendings, hrigid.slotless] at hp
    exact absurd hp List.not_mem_nil
  refine fault?_eq_none hknows hlabelled hformed ?_ ?_
  · rintro w ty rfl
    have hslotless := hrigid.slotless
    cases hslotless
  · rintro ms rfl
    have hsingle := hrigid.single
    cases hsingle

/-- **A form without a fault** gives a node. -/
theorem exists_drawn (hs : s.Reachable) (hplain : s.InternsPlain) (hfault : s.fault? k = none)
    (hslot : ∀ slot, k.slot? = some slot → s.AdmitsSlot slot)
    (hnodup : ∀ ms, k = .union ms → ms.Nodup) :
    ∃ out t, (Infer.make k).outcome s = (.ok out, t) ∧ s.Drawn t k out := by
  rcases hplace : s.place k with ⟨out, t⟩
  have hbuild : s.build k = (.ok out, t) := by rw [build, hfault, hplace]
  have hmake := Infer.outcome_make_of_place hfault hplace
  have hmade := make_spec hs.sound hslot hmake
  have ht : t.Reachable := by
    have hstep : ((Change.build k).apply s).Reachable := .step (.build k) hs hslot
    rwa [show (Change.build k).apply s = t from congrArg Prod.snd hbuild] at hstep
  refine ⟨out, t, hmake, ?_⟩
  rcases place_cases hs.sound.interned hplace with ⟨rfl, hinterned, -, halike⟩ | ⟨rfl, d, i, hfiled⟩
  · -- an interned node has a digest, so it is on no cycle
    have hnodup' : ∀ ms, t.kind out = .union ms → ms.Nodup := fun ms => hplain out ms hinterned
    have hacyclic : ¬ t.Below out out := fun hcycle => not_founded_of_cycle hcycle
      (hs.founded_of_digest out (hs.sound.interned out hinterned).1)
    refine ⟨.refl t, hs, hplain, ?_, halike, hmade.reordered hnodup', fun m hm hfinished => ?_⟩
    · by_contra hblank
      have hnot := (hs.sound.blank out (Bool.eq_false_iff.mpr hblank)).2
      rw [hinterned] at hnot
      cases hnot
    · refine ⟨hfinished, fun hlead => hacyclic (below_of_child_leads ?_ hlead)⟩
      obtain ⟨c, hc, rfl⟩ := (halike.flip (hs.sound.apart hslot hnodup')).exists_child
        (fun _ _ => rfl) hmade.coherent.symm m hm
      exact hc
  · have hkind : t.kind s.nodes.size = k := hfiled.kind_eq
    have hblank : s.isComplete s.nodes.size = false := isComplete_of_absent (Nat.le_refl _)
    refine ⟨hmade.grows, ht, fun n ms hn hms => ?_, hfiled.isComplete_eq, hmade.alike, ?_,
      fun m _ hfinished => ⟨hmade.grows.keeps.finished hfinished, fun hlead => ?_⟩⟩
    · by_cases hnew : n = s.nodes.size
      · subst hnew
        exact hnodup ms (hkind.symm.trans hms)
      · rw [hfiled.isInterned_of_ne hnew] at hn
        rw [hfiled.kind_of_ne hnew] at hms
        exact hplain n ms hn hms
    · rw [hkind]
      exact .same k
    · exact hfinished.not_leads hblank ((hmade.grows.keeps.leads_iff hfinished).mp hlead)

/-! ### Inside of a node -/

/-- A computation runs in a walk that is inside of the nodes on the stack. -/
abbrev Draws {α : Type} (s : Store) (plan : Plan) (F : Scene → Prop) (stack : List NodeId)
    (σ : Scene) (x : Rebuild Unit Update α) (P : Scene → α → Prop) : Prop :=
  Rebuild.Runs (s.Drafting plan stack) Scene.Extends F σ x P

/-- What the work on a node gives: a draft, or for a union on no cycle a node that passes for all
members. -/
def Redrawn (s : Store) (plan : Plan) (n : NodeId) (σ : Scene) (out : NodeId) : Prop :=
  s.Drafted plan σ out n ∨
    ¬ s.Below n n ∧ ∃ ms, s.kind n = .union ms ∧ ∀ m ∈ ms, plan.Passes σ out m

/-- The walk from `v` is inside of a node, below which its visits run. -/
structure Redrawing (s : Store) (plan : Plan) (v : NodeId) (F : Scene → Prop)
    (V : Variant (Rebuild Unit Update)) (stack : List NodeId) (n : NodeId) (base : Nat) :
    Prop where
  subject : s.Subject plan
  within : plan.within v
  trail : s.Trail v (n :: stack)
  visits : ∀ c ∈ (s.kind n).children, Rebuild.Visits V (s.Drafting plan (n :: stack))
    Scene.Extends F (s.Serves plan) base c

theorem stays_serves (s : Store) (plan : Plan) (stack : List NodeId) :
    Rebuild.Stays (s.Drafting plan stack) Scene.Extends (s.Serves plan) :=
  fun _ _ _ _ hσ hτ hext hserves => hserves.later hext hσ.reachable.sound hτ.reachable.sound

theorem Drafting.present_of_known (h : s.Drafting plan stack σ) (hs : s.Subject plan)
    (hx : plan.Known σ x) : x < σ.store.nodes.size := by
  rcases hx with hvalue | ⟨y, hxy⟩
  · exact Nat.lt_of_lt_of_le (hs.finished hvalue).present h.grows.size_le
  · exact (h.drafts x y hxy).2.1

/-- **A node that is made** keeps the invariant. -/
theorem Drafting.of_drawn (h : s.Drafting plan stack σ) (ht : σ.store.Drawn t k out) :
    s.Drafting plan stack { σ with store := t } ∧ σ.Extends { σ with store := t } :=
  ⟨h.of_grows ht.grows ht.reachable ht.plain, fun _ _ => id, ht.grows.keeps⟩

/-! ### Drafts of forms over nodes alone -/

/-- A node with a form over what serves is a draft. -/
theorem drafted_of_alike (hrigid : (s.kind n).Rigid) (hx : σ.store.isComplete x = true)
    (h : (σ.store.kind x).Alike (s.Serves plan σ) (s.kind n)) : s.Drafted plan σ x n := by
  have hrigid' := hrigid.of_head h.head_eq
  refine ⟨hx, Kind.shape_of_head h.head_eq, ?_, fun ms hms => ?_, fun p hp => ?_⟩
  · rcases hk : s.kind n with _ | _ | _ | _ | _ | _ | _ | _ | _ | _ | _
    all_goals rw [hk] at hrigid h
    case scalar => exact nomatch hrigid.slotless
    case union => exact nomatch hrigid.single
    case function => exact nomatch hrigid.slotless
    all_goals exact h
  · rw [hms] at hrigid'
    exact nomatch hrigid'.single
  · rw [hp] at hrigid'
    exact nomatch hrigid'.slotless

namespace Redrawing

variable {α : Type} {V : Variant (Rebuild Unit Update)}

theorem value (h : s.Redrawing plan v F V stack n base) : plan.within n :=
  h.subject.leads h.within (h.trail.leads_mem List.mem_cons_self)

theorem complete (h : s.Redrawing plan v F V stack n base) : s.isComplete n = true :=
  (h.subject.finished h.value).complete

/-- What serves for a node that does not lead back is finished. -/
theorem finished_of_serves (h : s.Redrawing plan v F V stack n base)
    (hσ : s.Drafting plan (n :: stack) σ) (hm : ¬ s.Leads m n) (hx : s.Serves plan σ x m) :
    σ.store.Finished x :=
  hσ.finished_of_free h.subject hx fun _ hz hmz => hm (hmz.trans (h.trail.leads_top hz))

/-- **Drafts portray their nodes** while the walk is inside of a node. -/
theorem portrays (h : s.Redrawing plan v F V stack n base) (hσ : s.Drafting plan (n :: stack) σ) :
    s.Portrays σ.store n fun x y => σ.mirrors x y ∧ True := by
  refine hσ.portrays σ.passed_true (fun _ _ _ _ => trivial) fun x y m m' _ _ hx hy hone hne => ?_
  have hopen : ∀ {x y}, σ.mirrors x y → σ.store.isComplete x = true ∨ y ∈ n :: stack := by
    intro x y hxy
    obtain ⟨-, -, hdraft | hawaits⟩ := hσ.drafts x y hxy
    · exact .inl hdraft.complete
    · exact .inr (hσ.inside ▸ mem_keys_of_lookup hawaits.2)
  rcases hopen hx with hcomplete | hin
  · exact .inl hcomplete
  · refine .inr ((hopen hy).resolve_right fun hin' => ?_)
    exact h.trail.not_both hone hne hin hin'

/-- What serves for nodes that are apart is not equated. -/
theorem not_equated {y z : NodeId} (h : s.Redrawing plan v F V stack n base)
    (hσ : s.Drafting plan (n :: stack) σ) (hx : s.Serves plan σ x y) (hm : s.Serves plan σ m z)
    (hshapes : s.ShapesApart n y z) : ¬ σ.store.Equated x m :=
  (h.portrays hσ).not_equated hσ.reachable.sound hshapes (hx.shown σ.passed_true trivial)
    (hm.shown σ.passed_true trivial)

/-- Candidates over what serves for candidates that are apart are not over equated nodes. -/
theorem not_alike {c d c' d' : Candidate} (h : s.Redrawing plan v F V stack n base)
    (hσ : s.Drafting plan (n :: stack) σ) (hc : c'.Alike (s.Serves plan σ) c)
    (hd : d'.Alike (s.Serves plan σ) d) (hshapes : s.CandidateShapesApart n c d) :
    ¬ c'.Alike σ.store.Equated d' :=
  (h.portrays hσ).not_alike hσ.reachable.sound hshapes
    (hc.imp fun _ _ _ _ hserves => hserves.shown σ.passed_true trivial)
    (hd.imp fun _ _ _ _ hserves => hserves.shown σ.passed_true trivial)

/-- **A form over nodes alone** is made anew, or its node stays. -/
theorem runs_rigid [DecidableEq α] {x : Rebuild Unit Update α} {old : α} {E : α → Infer NodeId}
    {G : α → Kind} (h : s.Redrawing plan v F V stack n base) (hrigid : (s.kind n).Rigid)
    (hE : ∀ new, E new = Infer.make (G new)) (hold : (s.kind n).Reordered (G old))
    (hx : s.Draws plan F (n :: stack) σ x fun τ new =>
      (G new).Alike (s.Serves plan τ) (s.kind n) ∧ (G new).Labelled ∧ (G new).Formed) :
    s.Draws plan F (n :: stack) σ
      (x >>= fun new => if new = old then return n else Rebuild.infer (E new))
      (s.Redrawn plan n) := by
  refine hx.bind ?_
  rintro τ new hτ - ⟨halike, hlabelled, hformed⟩
  have hrigid' := hrigid.of_head halike.head_eq
  by_cases hsame : new = old
  · subst hsame
    rw [if_pos rfl]
    refine Rebuild.runs_pure hτ (.inl (drafted_of_alike hrigid ?_ ?_))
    · exact hτ.grows.keeps.isComplete h.complete
    · rw [hτ.kind_eq h.subject h.value]
      exact halike.of_reordered hold hrigid'.slotless
  · have hpresent : ∀ c ∈ (G new).children, c < τ.store.nodes.size := by
      intro c hc
      obtain ⟨d, -, hcd⟩ := halike.exists_child_of_placed hrigid.placed c hc
      exact hτ.present_of_known h.subject (hcd.known h.subject.reachable)
    have hfault := fault?_of_rigid hrigid' hpresent hlabelled hformed
    obtain ⟨out, t, hout, hdrawn⟩ := exists_drawn hτ.reachable hτ.plain hfault
      (fun slot hslot => by rw [hrigid'.slotless] at hslot; cases hslot)
      fun ms hunion => by cases hunion ▸ hrigid'.single
    obtain ⟨hgoing, hext⟩ := hτ.of_drawn hdrawn
    rw [if_neg hsame, hE]
    refine Rebuild.runs_infer hout hgoing hext (.inl (drafted_of_alike hrigid hdrawn.complete ?_))
    refine (halike.imp fun a _ b _ hab => ?_).of_reordered hdrawn.reordered hrigid'.slotless
    exact stays_serves s plan (n :: stack) _ _ _ _ hτ hgoing hext hab

end Redrawing

/-! ### Scalars -/

/-- A scalar without a fault has none in a store that has grown. -/
theorem fault?_scalar_of_grows {value : Slot} {ty : Ty} (hgrows : s.Grows t)
    (h : s.fault? (.scalar value ty) = none) : t.fault? (.scalar value ty) = none := by
  obtain ⟨hknows, -⟩ := labels_of_fault? h
  have hknows' : t.knows (.scalar value ty) = true := by
    obtain ⟨hchildren, hpendings⟩ := knows_iff.mp hknows
    refine knows_iff.mpr ⟨fun c hc => ?_, fun p hp => ?_⟩
    · exact Nat.lt_of_lt_of_le (hchildren c hc) hgrows.size_le
    · exact hgrows.pendings ▸ hpendings p hp
  rw [fault?, if_neg (by simp [hknows])] at h
  rw [fault?, if_neg (by simp [hknows'])]
  cases value with
  | possibilities p =>
    refine List.findSome?_eq_none_iff.mpr fun c hc => ?_
    have hfits := List.findSome?_eq_none_iff.mp h c hc
    -- the store shows only in the text about a function
    cases c with
    | constant x => exact hfits
    | function f => exact nomatch hfits
  | _ => exact h

/-- A set that a store holds is held when the store has grown. -/
theorem HoldsSet.of_grows {p : Possibilities} (h : s.HoldsSet p) (hgrows : s.Grows t) :
    t.HoldsSet p := by
  refine h.imp (fun ⟨n, hn⟩ => ⟨n, ?_⟩) fun ⟨q, hq⟩ => ⟨q, ?_⟩
  · have hcomplete : s.isComplete n = true := by
      by_contra hblank
      rw [kind_of_incomplete (Bool.eq_false_iff.mpr hblank)] at hn
      exact nomatch hn
    rwa [hgrows.keeps.kind_eq hcomplete]
  · rwa [result?, pendingStatus, hgrows.pendings, ← pendingStatus, ← result?]

/-- The form that a scalar gets is over a set of the store, if it is over one. -/
theorem Drafting.admits_form {value : Slot} {ty : Ty} (h : s.Drafting plan stack σ)
    (hs : s.Subject plan) (hn : plan.within n) (hk : s.kind n = .scalar value ty) :
    ∀ slot, (Kind.scalar (plan.form value ty).1 (plan.form value ty).2).slot? = some slot →
      σ.store.AdmitsSlot slot := by
  rintro slot hslot p rfl
  have hheld := hs.sets n value ty p hn hk (Option.some.inj hslot)
  exact h.reachable.sound.sets p (hheld.of_grows h.grows)

/-- A node with the rewritten form of a scalar is a draft. -/
theorem drafted_of_scalar {value : Slot} {ty : Ty} (hk : s.kind n = .scalar value ty)
    (hx : σ.store.isComplete x = true) (h : (σ.store.kind x).Alike (· = ·)
      (.scalar (plan.form value ty).1 (plan.form value ty).2)) : s.Drafted plan σ x n := by
  have hscalar : ∃ w u, σ.store.kind x = .scalar w u := by
    cases hform : σ.store.kind x with
    | scalar w u => exact ⟨w, u, rfl⟩
    | _ =>
      rw [hform] at h
      exact h.elim
  obtain ⟨w, u, hform⟩ := hscalar
  refine ⟨hx, ?_, ?_, fun ms hms => ?_, fun p hp => ?_⟩
  · rw [hform, hk]
    rfl
  · rw [hk]
    exact h
  · rw [hform] at hms
    exact nomatch hms
  · rw [hform] at hp
    exact nomatch hp

/-- **A scalar** gets the form that depends on its VALUE and TYPE. -/
theorem Redrawing.runs_scalar {V : Variant (Rebuild Unit Update)} {value : Slot} {ty : Ty}
    {inner : Visitor (Rebuild Unit Update)}
    {handler : Visitor (Rebuild Unit Update) → NodeId → Slot → Ty → Rebuild Unit Update NodeId}
    (h : s.Redrawing plan v F V stack n base) (hgives : Rebuild.GivesScalars plan.form handler)
    (hfault : s.fault? (.scalar (plan.form value ty).1 (plan.form value ty).2) = none)
    (hk : s.kind n = .scalar value ty) (hσ : s.Drafting plan (n :: stack) σ) :
    s.Draws plan F (n :: stack) σ (handler inner n value ty) (s.Redrawn plan n) := by
  rcases hgives inner n value ty with hmake | ⟨hsame, hstay⟩
  · obtain ⟨out, t, hout, hdrawn⟩ := exists_drawn hσ.reachable hσ.plain
      (fault?_scalar_of_grows hσ.grows hfault) (hσ.admits_form h.subject h.value hk)
      fun ms hms => nomatch hms
    obtain ⟨hgoing, hext⟩ := hσ.of_drawn hdrawn
    rw [hmake]
    exact Rebuild.runs_infer hout hgoing hext (.inl (drafted_of_scalar hk hdrawn.complete
      hdrawn.alike))
  · rw [hstay]
    refine Rebuild.runs_pure hσ (.inl (drafted_of_scalar hk ?_ ?_))
    · exact hσ.grows.keeps.isComplete h.complete
    · rw [hσ.kind_eq h.subject h.value, hk, hsame]
      exact .refl fun _ _ => rfl

end Store

end ValueInference
