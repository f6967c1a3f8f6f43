/-
Walks that rewrite scalars.

The work on a node ends with a draft of it, which fills the node's placeholder if there is one, or
with a node that serves for it.  So the walk keeps its invariant, whatever it is inside of.

* **`Variant.ofScalars`** — the variant that does everything by default, except for scalars;
* **`Store.Redrawing.runs_byForm`** — every form gives a draft, or a node that serves;
* **`Store.Redrawing.conclude_quiet`**, **`Store.Redrawing.conclude_again`** — the end of the work
  on a node;
* **`Store.walkRules_of_work`** — every visit in a walk is answered, unless it fails.
-/
import ValueInference.Proofs.RedrawnFunctions
import ValueInference.Proofs.RedrawnUnions

namespace ValueInference

/-- The variant that does everything by default, except for scalars. -/
def Variant.ofScalars
    (handler : Visitor (Rebuild Unit Update) → NodeId → Slot → Ty → Rebuild Unit Update NodeId) :
    Variant (Rebuild Unit Update) :=
  { Variant.plain with scalar := handler }

namespace Store

variable {s : Store} {v x y n out ph : NodeId} {stack : List NodeId} {σ τ : Scene}
  {plan : Plan} {F : Scene → Prop} {base fuel : Nat} {V : Variant (Rebuild Unit Update)}
  {handler : Visitor (Rebuild Unit Update) → NodeId → Slot → Ty → Rebuild Unit Update NodeId}

/-! ### All forms -/

/-- **Every form** gives a draft, or a node that serves. -/
theorem Redrawing.runs_byForm
    (h : s.Redrawing plan v F V stack n base) (hV : V.ref = Rebuild.ref)
    (hslots : V.slot = Rebuild.slot) (hgives : Rebuild.GivesScalars plan.form handler)
    (hfits : ∀ value ty, s.kind n = .scalar value ty →
      s.fault? (.scalar (plan.form value ty).1 (plan.form value ty).2) = none)
    (hfuel : base + (s.kind n).refDepth + 2 < fuel) (hσ : s.Drafting plan (n :: stack) σ) :
    s.Draws plan F (n :: stack) σ
      (Rebuild.byForm (Variant.ofScalars handler) (V.visitor fuel) n)
      (s.Redrawn plan n) := by
  have hlevel : base < fuel := by omega
  have hlabelled := h.subject.reachable.sound.labelled n
  have hformed := h.subject.reachable.formed n
  have hcomplete := hσ.grows.keeps.isComplete h.complete
  have hstays := stays_serves s plan (n :: stack)
  refine (Rebuild.runs_store hσ).bind fun τ u _ _ ⟨hτ, hu⟩ => ?_
  subst hτ hu
  rw [hσ.kind_eq h.subject h.value]
  have hsingle : ∀ {item}, item ∈ (s.kind n).children → s.Draws plan F (n :: stack) τ
      ((V.visitor fuel).visit item) fun υ out => s.Serves plan υ out item :=
    fun hitem => h.visits _ hitem fuel hlevel τ hσ
  rcases hk : s.kind n with ⟨value, ty⟩ | items | item | ⟨item, shape⟩ | ⟨tag, fields⟩ | members |
    options | slot | inner | reason | ty
  all_goals rw [hk] at hlabelled hformed
  case scalar => exact h.runs_scalar hgives (hfits value ty hk) hk hσ
  case tuple =>
    refine h.runs_rigid (G := .tuple) (by rw [hk]; exact ⟨rfl, rfl⟩) (fun _ => rfl)
      (by rw [hk]; exact .same _) ((Rebuild.runs_visits hstays (fun c hc => ?_) hlevel hσ).imp ?_)
    · exact h.visits c (by rwa [hk])
    · exact fun υ new _ hnew => ⟨by rw [hk]; exact hnew, trivial, trivial⟩
  case list =>
    refine h.runs_rigid (G := .list) (by rw [hk]; exact ⟨rfl, rfl⟩) (fun _ => rfl)
      (by rw [hk]; exact .same _) ((hsingle ?_).imp ?_)
    · rw [hk]
      exact List.mem_cons_self
    · exact fun υ new _ hnew => ⟨by rw [hk]; exact hnew, trivial, trivial⟩
  case array =>
    refine h.runs_rigid (G := fun new => .array new shape) (by rw [hk]; exact ⟨rfl, rfl⟩)
      (fun _ => rfl) (by rw [hk]; exact .same _) ((hsingle ?_).imp ?_)
    · rw [hk]
      exact List.mem_cons_self
    · exact fun υ new _ hnew => ⟨by rw [hk]; exact ⟨rfl, hnew⟩, trivial, trivial⟩
  case record =>
    refine h.runs_rigid (G := .record tag) (by rw [hk]; exact ⟨rfl, rfl⟩) (fun _ => rfl)
      (by rw [hk]; exact .same _) ((Rebuild.runs_fields hstays (fun x hx => ?_) hlevel hσ).imp ?_)
    · exact h.visits x.2 (by rw [hk]; exact List.mem_map_of_mem hx)
    · exact fun υ new _ hnew => ⟨by rw [hk]; exact ⟨rfl, matches_of_forall₂ hnew⟩,
        labelled_of_forall₂ hnew hlabelled, trivial⟩
  case union => exact h.runs_union hk hσ hlevel
  case tagged =>
    have hsorted := stableSort_perm fun a b : UInt32 × NodeId => decide (a.1 ≤ b.1)
    refine h.runs_rigid (G := fun new => .tagged (stableSort (fun a b => a.1 ≤ b.1) new))
      (by rw [hk]; exact ⟨rfl, rfl⟩) (fun _ => rfl) (by rw [hk]; exact .tagged (hsorted _).symm)
      ((Rebuild.runs_fields hstays (fun x hx => ?_) hlevel hσ).imp ?_)
    · exact h.visits x.2 (by rw [hk]; exact List.mem_map_of_mem hx)
    · intro υ new _ hnew
      rw [hk]
      exact tagged_of_forall₂ hnew (hsorted new) hlabelled hformed
  case function =>
    obtain ⟨fuel, rfl⟩ : ∃ k, fuel = k + 1 := ⟨fuel - 1, by omega⟩
    have hbelow : base + (s.kind n).refDepth + 1 < fuel := Nat.lt_of_succ_lt_succ hfuel
    show s.Draws plan F (n :: stack) τ (V.slot (V.visitor fuel) slot >>= _) _
    rw [hslots]
    exact h.runs_function hσ hV hk hbelow
  case jtagged =>
    refine h.runs_rigid (G := .jtagged) (by rw [hk]; exact ⟨rfl, rfl⟩) (fun _ => rfl)
      (by rw [hk]; exact .same _) ((hsingle ?_).imp ?_)
    · rw [hk]
      exact List.mem_cons_self
    · exact fun υ new _ hnew => ⟨by rw [hk]; exact hnew, trivial, trivial⟩
  case error =>
    refine Rebuild.runs_pure hσ (.inl (drafted_of_alike (by rw [hk]; exact ⟨rfl, rfl⟩) hcomplete ?_))
    rw [hσ.kind_eq h.subject h.value, hk]
    exact .refl fun _ hc => absurd hc List.not_mem_nil
  case type =>
    refine Rebuild.runs_pure hσ (.inl (drafted_of_alike (by rw [hk]; exact ⟨rfl, rfl⟩) hcomplete ?_))
    rw [hσ.kind_eq h.subject h.value, hk]
    exact .refl fun _ hc => absurd hc List.not_mem_nil

/-! ### The end of the work on a node -/

theorem serves_of_mirror (hxy : σ.mirrors x y) : s.Serves plan σ x y :=
  .inl ⟨.inr ⟨y, hxy⟩, x, hxy, .inl rfl⟩

namespace Redrawing

/-- **The end of the work on a node** that was not reached again. -/
theorem conclude_quiet (h : s.Redrawing plan v F V stack n base) (hn : n ∉ stack)
    (hkept : ¬ plan.refused n)
    (hτ : s.Drafting plan (n :: stack) τ) (hout : s.Redrawn plan n τ out)
    (hquiet : ∀ ph, τ.memo.inProgress.lookup n ≠ some (some ph)) :
    ∃ υ : Scene, Rebuild.Gives (Rebuild.conclude n (.ok out)) τ.memo τ.store out υ.memo υ.store ∧
      s.Drafting plan stack υ ∧ τ.Extends υ ∧ s.Serves plan υ out n := by
  have hnone := join_lookup_eq_none hquiet
  have hgives : Rebuild.Gives (Rebuild.conclude n (.ok out)) τ.memo τ.store out
      ((τ.memo.leave n).publish n out) τ.store := Rebuild.gives_conclude_quiet hnone
  have hsound := hτ.reachable.sound
  have hblank : ∀ m ph, m ≠ n → τ.memo.inProgress.lookup m = some (some ph) →
      τ.store.isComplete ph = false := fun m ph _ hm => (hτ.expected m ph hm).blank
  rcases hout with hdraft | hpasses
  · let υ : Scene := ⟨fun x y => τ.mirrors x y ∨ x = out ∧ y = n,
      (τ.memo.leave n).publish n out, τ.store⟩
    have hext : τ.Extends υ := ⟨fun _ _ => .inl, .refl _⟩
    have hresult : s.Serves plan υ out n := serves_of_mirror (.inr ⟨rfl, rfl⟩)
    refine ⟨υ, hgives, ?_, hext, hresult⟩
    refine hτ.finish hn hext rfl hτ.reachable hτ.grows hτ.plain hkept h.value (fun x y hxy => ?_)
      (fun ph hph => absurd hph (hquiet ph)) hblank hresult
    rcases hxy with hxy | ⟨rfl, rfl⟩
    · exact .inl hxy
    · exact .inr ⟨rfl, hdraft.later hext hsound hsound (.inl rfl) hdraft.complete rfl⟩
  · let υ : Scene := { τ with memo := (τ.memo.leave n).publish n out }
    have hext : τ.Extends υ := ⟨fun _ _ => id, .refl _⟩
    have hserves : s.Serves plan υ out n :=
      Serves.later hext hsound hsound (.inr ⟨h.value, hkept, hpasses.2⟩)
    refine ⟨υ, hgives, ?_, hext, hserves⟩
    exact hτ.finish hn hext rfl hτ.reachable hτ.grows hτ.plain hkept h.value (fun _ _ => .inl)
      (fun ph hph => absurd hph (hquiet ph)) hblank hserves

/-- The form of a draft of a node on a cycle has no fault. -/
theorem fault?_of_drafted (h : s.Redrawing plan v F V stack n base)
    (hτ : s.Drafting plan (n :: stack) τ) (hcycle : s.Below n n)
    (hdraft : s.Drafted plan τ out n) : τ.store.fault? (τ.store.kind out) = none := by
  have hs := h.subject
  have hsound := hτ.reachable.sound
  refine fault?_eq_none (hsound.known out) (hsound.labelled out) (hτ.reachable.formed out)
    (fun value ty hk => ?_) fun ws hk w hw => ?_
  · have hshape := hdraft.shape
    rw [hk] at hshape
    obtain ⟨value', ty', hk'⟩ := Kind.exists_scalar_of_shape hshape.symm
    exact not_scalar_of_cycle hs.reachable hcycle value' ty' hk'
  · obtain ⟨d, hd, hwd⟩ := hdraft.rewrite.exists_child hdraft.shape (hτ.reachable.formed out) w
      (by rwa [hk])
    have hshape := hdraft.shape
    rw [hk] at hshape
    obtain ⟨ms, hform⟩ := Kind.exists_union_of_shape hshape.symm
    rw [hform] at hd
    have hflat := hs.flat h.value hform d hd
    exact hτ.isUnion_of_passes (hwd.passes hflat) hflat

/-- **The end of the work on a node** that was reached again: its placeholder gets the form of the
draft, and is given up for the node if it equals the node. -/
theorem conclude_again (h : s.Redrawing plan v F V stack n base) (hn : n ∉ stack)
    (hkept : ¬ plan.refused n)
    (hτ : s.Drafting plan (n :: stack) τ) (hout : s.Redrawn plan n τ out)
    (hph : τ.memo.inProgress.lookup n = some (some ph)) :
    ∃ result, ∃ υ : Scene,
      Rebuild.Gives (Rebuild.conclude n (.ok out)) τ.memo τ.store result υ.memo υ.store ∧
        s.Drafting plan stack υ ∧ τ.Extends υ ∧ s.Serves plan υ result n := by
  have hstands := hτ.expected n ph hph
  have hdraft : s.Drafted plan τ out n := hout.resolve_right fun hfree => hfree.1 hstands.cycle
  have hsound := hτ.reachable.sound
  have hne : out ≠ ph := by
    rintro rfl
    have hcomplete := hdraft.complete
    rw [hstands.blank] at hcomplete
    exact nomatch hcomplete
  have hok := complete_ok (h.fault?_of_drafted hτ hstands.cycle hdraft) hstands.present
    hstands.blank
  obtain ⟨d, hfiled⟩ := complete_filed hok
  have ht : (τ.store.complete ph (τ.store.kind out)).2.Reachable := by
    refine .step (.complete ph (τ.store.kind out)) hτ.reachable ?_
    rintro slot hslot p rfl
    exact hsound.sets p (.inl ⟨out, hslot⟩)
  refine ⟨_, ⟨τ.mirrors, _, _⟩, Rebuild.gives_conclude hph hne hok rfl rfl, ?_⟩
  generalize hresult : (if (τ.store.complete ph (τ.store.kind out)).2.equal ph n then n else ph) =
    result
  let υ : Scene := ⟨τ.mirrors, (τ.memo.leave n).publish n result,
    (τ.store.complete ph (τ.store.kind out)).2⟩
  have hext : τ.Extends υ := ⟨fun _ _ => id, hfiled.keeps⟩
  have hgrows : s.Grows υ.store := hτ.grows.file hfiled hstands.new
  have hplain : υ.store.InternsPlain := by
    intro m ms hm hk
    have hmph : m ≠ ph := by
      rintro rfl
      rw [hfiled.isInterned_eq] at hm
      exact nomatch hm
    rw [hfiled.isInterned_of_ne hmph] at hm
    rw [hfiled.kind_of_ne hmph] at hk
    exact hτ.plain m ms hm hk
  have hserves : s.Serves plan υ result n := by
    rw [← hresult]
    split
    · next hequal =>
      -- what equals the complete node is finished, and the node passes for its own rewrite
      have hfilled := hgrows.keeps.filled (h.subject.filled n h.value)
      have hequal' : υ.store.EqualIn ph n :=
        ⟨present_of_isComplete hfiled.isComplete_eq, hfilled.finished.present, hequal⟩
      exact .inl ⟨.inl h.value, ph, hstands.mirrors,
        .inr ⟨finished_of_equalIn ht.sound hequal' hfilled, hfilled.finished, hequal'⟩⟩
    · exact serves_of_mirror hstands.mirrors
  refine ⟨?_, hext, hserves⟩
  refine hτ.finish hn hext rfl ht hgrows hplain hkept h.value (fun _ _ => .inl) (fun ph' hph' => ?_)
    (fun m ph' hmn hph' => ?_) hserves
  · obtain rfl : ph = ph' := by simpa using hph.symm.trans hph'
    exact hdraft.later hext hsound ht.sound (.inr hstands.blank) hfiled.isComplete_eq
      hfiled.kind_eq
  · have hne' : ph' ≠ ph := by
      rintro rfl
      exact hmn (hτ.distinct m n ph' hph' hph)
    exact (hfiled.isComplete_of_ne hne').trans (hτ.expected m ph' hph').blank

end Redrawing

/-! ### Visits -/

/-- **A walk keeps the invariant** in all that it does, if the work on a node gives a draft wherever
it succeeds, and succeeds on no node that is refused. -/
theorem walkRules_of_work {F : List NodeId → Scene → Prop} (hs : s.Subject plan)
    (hv : plan.within v)
    (hleave : ∀ {stack n τ}, n ∉ stack → F (n :: stack) τ →
      F stack { τ with memo := τ.memo.leave n })
    (hwork : ∀ {stack n base fuel σ}, s.Redrawing plan v (F (n :: stack)) V stack n base →
      base + (s.kind n).refDepth + 2 < fuel → s.Drafting plan (n :: stack) σ →
        s.Draws plan (F (n :: stack)) (n :: stack) σ (Rebuild.byForm V (V.visitor fuel) n)
          fun τ out => s.Redrawn plan n τ out ∧ ¬ plan.refused n) :
    Rebuild.WalkRules s v V (s.Drafting plan) (fun _ => Scene.Extends) F
      fun _ => s.Serves plan := by
  refine ⟨fun _ => .refl, fun hσ => hσ.inside, fun hσ hdone => hσ.results _ _ hdone,
    fun _ hσ hph => serves_of_mirror (hσ.expected _ _ hph).mirrors, ?_, ?_⟩
  · intro stack σ n htrail hnext hmem hσ hopen
    have hcycle := htrail.below_of_reentry hnext hmem
    obtain ⟨hgoing, hext⟩ := hσ.expect (hs.leads hv (htrail.leads_root hnext)) hcycle hopen
    exact ⟨_, hgoing, hext, serves_of_mirror (.inr ⟨rfl, rfl⟩)⟩
  · intro stack σ n base fuel htrail hσ _ hbelow hfuel
    have hentered : s.Redrawing plan v (F (n :: stack)) V stack n base := ⟨hs, hv, htrail, hbelow⟩
    have hn : n ∉ stack := (List.nodup_cons.mp htrail.nodup).1
    have hstart : σ.Extends { σ with memo := σ.memo.enter n } := ⟨fun _ _ => id, .refl _⟩
    rcases hwork hentered hfuel (hσ.enter hn) with
      ⟨out, τ, hrun, hτ, hext, hout, hkept⟩ | ⟨e, τ, hfails, hleft⟩
    · by_cases hquiet : ∀ ph, τ.memo.inProgress.lookup n ≠ some (some ph)
      · obtain ⟨υ, hend, hυ, hext', hserves⟩ := hentered.conclude_quiet hn hkept hτ hout hquiet
        exact .inl ⟨out, τ, out, υ, hrun, hend, hυ, hstart.trans (hext.trans hext'), hserves⟩
      · obtain ⟨ph, hph⟩ := not_forall_not.mp hquiet
        obtain ⟨result, υ, hend, hυ, hext', hserves⟩ :=
          hentered.conclude_again hn hkept hτ hout hph
        exact .inl ⟨out, τ, result, υ, hrun, hend, hυ, hstart.trans (hext.trans hext'), hserves⟩
    · exact .inr ⟨e, τ, hfails, hleave hn hleft⟩

/-- A walk starts with nothing drafted. -/
theorem drafting_start (hs : s.Reachable) (hplain : s.InternsPlain) (plan : Plan) :
    s.Drafting plan [] ⟨fun _ _ => False, {}, s⟩ where
  reachable := hs
  grows := .refl s
  plain := hplain
  inside := rfl
  drafts _ _ h := h.elim
  kept _ _ h := h.elim
  results _ _ h := nomatch h
  expected _ _ h := nomatch h
  distinct _ _ _ h := nomatch h

end Store

end ValueInference
