/-
A walk without changes gives the value back.

The work on a node ends with the node itself, or with a copy of it on a cycle that leads back into
the walk; its placeholder, if there is one, is given up for it as soon as nothing leads back.

* **`Store.Inside.conclude_quiet`**, **`Store.Inside.conclude_again`** — the end of the work on a
  node;
* **`Store.walkRules_of_steady`** — every visit in a walk is answered;
* **`Infer.identity_of_steady`** — a walk over a steady value gives the value.
-/
import ValueInference.Proofs.Forms

namespace ValueInference

namespace Store

variable {s : Store} {v m n out : NodeId} {stack : List NodeId} {base : Nat} {σ τ : Scene}

/-! ### The end of the work on a node -/

namespace Inside

/-- A node that leads to what the walk is inside of no more than `n` does is not entered from
outside its cycles, if it leads to `n` and `n` to it. -/
theorem not_entered (h : s.Inside v stack n base) (hfree : ∀ z ∈ stack, ¬ s.Leads n z)
    (hnm : s.Leads n m) (hmn : s.Leads m n) (hne : m ≠ n) : ¬ s.Entered v m := by
  cases h.trail with
  | cons hrest hnext _ =>
    cases stack with
    | nil =>
      obtain rfl : n = v := hnext
      rintro (rfl | ⟨x, hx, hexposed, hm⟩)
      · exact hne rfl
      · exact hexposed.1 (below_of_child_leads hm (hmn.trans hx))
    | cons top rest =>
      rintro (rfl | ⟨x, hx, hexposed, hm⟩)
      · exact hfree m (hrest.root_mem (by simp)) hnm
      · exact hne (h.steady.entry x m hx hexposed hm top n (hrest.leads_mem List.mem_cons_self)
          hnext (hfree top List.mem_cons_self) hmn hnm).symm

/-- What was finished before the end of the work on a node still follows from the invariant
without that node. -/
theorem others (h : s.Inside v stack n base) (hσ : s.Going v stack σ)
    (hτ : s.Going v (n :: stack) τ) (hlater : s.Later n σ τ)
    (hm : τ.memo.done.lookup m = some out) :
    out = m ∨ (∃ z ∈ stack, s.Leads m z) ∨ ¬ s.Entered v m := by
  rcases hlater.finished m out hm with hdone | hnm
  · exact (hσ.results m out hdone).2
  rcases (hτ.results m out hm).2 with hsame | ⟨z, hz, hmz⟩ | hentered
  · exact .inl hsame
  · rcases List.mem_cons.mp hz with rfl | hz
    · by_cases hback : ∃ z' ∈ stack, s.Leads z z'
      · obtain ⟨z', hz', hzz'⟩ := hback
        exact .inr (.inl ⟨z', hz', hmz.trans hzz'⟩)
      · refine .inr (.inr (h.not_entered (fun z' hz' hl => hback ⟨z', hz', hl⟩) hnm hmz ?_))
        rintro rfl
        rw [hτ.unfinished m List.mem_cons_self] at hm
        exact absurd hm (by simp)
    · exact .inr (.inl ⟨z, hz, hmz⟩)
  · exact .inr (.inr hentered)

/-- A node on a cycle for which no placeholder was handed out leads back into the walk. -/
theorem leads_back (h : s.Going v (n :: stack) σ)
    (hmet : ∀ c ∈ (s.kind n).children, σ.memo.Met c) (hcycle : s.Below n n)
    (hquiet : ∀ ph, σ.memo.inProgress.lookup n ≠ some (some ph)) :
    ∃ z ∈ stack, s.Leads n z := by
  obtain ⟨c, hc, hcn⟩ := exists_child_of_cycle hcycle
  obtain ⟨z, ph, hz, hcz⟩ := h.leads_out (hmet c hc) hcn (h.unfinished n List.mem_cons_self)
  have hmem : z ∈ n :: stack := h.inside ▸ mem_keys_of_lookup hz
  rcases List.mem_cons.mp hmem with rfl | hmem
  · exact absurd hz (hquiet ph)
  · exact ⟨z, hmem, (leads_child hc).trans hcz⟩

/-- **The end of the work on a node** that was not reached again. -/
theorem conclude_quiet (h : s.Inside v stack n base) (hn : n ∉ stack)
    (hσ : s.Going v stack σ) (hτ : s.Going v (n :: stack) τ) (hlater : s.Later n σ τ)
    (hout : s.FormAnswers n τ out)
    (hquiet : ∀ ph, τ.memo.inProgress.lookup n ≠ some (some ph)) :
    ∃ υ : Scene, Rebuild.Gives (Rebuild.conclude n (.ok out)) τ.memo τ.store out υ.memo υ.store ∧
      s.Going v stack υ ∧ s.Later n σ υ ∧ s.Answers v stack υ out n := by
  have hnone := join_lookup_eq_none hquiet
  have hgives : Rebuild.Gives (Rebuild.conclude n (.ok out)) τ.memo τ.store out
      ((τ.memo.leave n).publish n out) τ.store := Rebuild.gives_conclude_quiet hnone
  have hinside : n ∉ σ.memo.inside := by rwa [hσ.inside]
  have hothers : ∀ m o, τ.memo.done.lookup m = some o →
      o = m ∨ (∃ z ∈ stack, s.Leads m z) ∨ ¬ s.Entered v m :=
    fun m o => h.others hσ hτ hlater
  have hmet : ((τ.memo.leave n).publish n out).Met n := .inl ⟨out, Memo.lookup_publish_self⟩
  rcases hout.1 with rfl | ⟨hcycle, halike⟩
  · have hresult : s.Follows v stack τ out out := ⟨hτ.same out, .inl rfl⟩
    obtain ⟨hgoing, hafter⟩ := hτ.finish hn (hτ.leaving_quiet hquiet) hout.2 hothers hresult
    exact ⟨_, hgives, hgoing, hafter σ hinside hlater, hresult, hmet⟩
  · obtain ⟨hcopy, hcopied⟩ := hτ.copy hcycle (complete_of_alike hcycle halike) halike
    have hresult : s.Follows v stack
        { τ with mirrors := fun x y => τ.mirrors x y ∨ x = out ∧ y = n } out n :=
      ⟨.inr ⟨rfl, rfl⟩, .inr (.inl (leads_back hτ hout.2 hcycle hquiet))⟩
    obtain ⟨hgoing, hafter⟩ := hcopy.finish hn (hcopy.leaving_quiet hquiet) hout.2 hothers hresult
    exact ⟨_, hgives, hgoing, hafter σ hinside (hlater.trans hcopied), hresult, hmet⟩

/-- **The end of the work on a node** that was reached again: its placeholder is given up for it
if the node does not lead back into the walk. -/
theorem conclude_again {ph : NodeId} (h : s.Inside v stack n base) (hn : n ∉ stack)
    (hσ : s.Going v stack σ) (hτ : s.Going v (n :: stack) τ) (hlater : s.Later n σ τ)
    (hout : s.FormAnswers n τ out) (hph : τ.memo.inProgress.lookup n = some (some ph)) :
    ∃ result, ∃ υ : Scene,
      Rebuild.Gives (Rebuild.conclude n (.ok out)) τ.memo τ.store result υ.memo υ.store ∧
        s.Going v stack υ ∧ s.Later n σ υ ∧ s.Answers v stack υ result n := by
  have hstands := hτ.expected n ph hph
  have hcycle := hstands.cycle
  have halike : (τ.store.kind out).Alike τ.mirrors (s.kind n) := by
    rcases hout.1 with rfl | ⟨-, halike⟩
    · rw [hτ.grows.kind_eq (present_of_cycle h.reachable.sound hcycle)]
      exact .refl fun c _ => hτ.same c
    · exact halike
  -- the answer is not the placeholder itself: that has no form yet
  have hne : out ≠ ph := by
    rintro rfl
    have hcomplete := complete_of_alike hcycle halike
    rw [hstands.blank] at hcomplete
    exact absurd hcomplete (by simp)
  have hsound := hτ.reachable.sound
  have hfault := hτ.fault?_of_alike h.reachable h.steady h.leads hcycle halike
    (hsound.known out) (hsound.labelled out) (hτ.reachable.formed out)
  have hok := complete_ok hfault hstands.present hstands.blank
  have hslot : ∀ slot, (τ.store.kind out).slot? = some slot → τ.store.AdmitsSlot slot := by
    rintro slot hslot p rfl
    exact hsound.sets p (.inl ⟨out, hslot⟩)
  have hleaving := hτ.leaving_of_complete hph hslot hok halike
  have hequal := (hτ.mirroring_of_leaving hn hleaving).equals h.reachable hstands.mirrors
  refine ⟨_, ⟨τ.mirrors, _, _⟩, Rebuild.gives_conclude hph hne hok rfl rfl, ?_⟩
  generalize hresult : (if (τ.store.complete ph (τ.store.kind out)).2.equal ph n then n else ph) =
    result
  -- a node that leads back into the walk keeps its copy; any other one stands for itself
  have hfollows : s.Follows v stack τ result n := by
    by_cases hback : ∃ z ∈ stack, s.Leads n z
    · refine ⟨?_, .inr (.inl hback)⟩
      rw [← hresult]
      split
      · exact hτ.same n
      · exact hstands.mirrors
    · have hsame : result = n := by
        rw [← hresult]
        exact if_pos (hequal fun z hz hnz => hback ⟨z, hz, hnz⟩)
      rw [hsame]
      exact ⟨hτ.same n, .inl rfl⟩
  obtain ⟨hgoing, hafter⟩ := hτ.finish hn hleaving hout.2
    (fun m o => h.others hσ hτ hlater) hfollows
  have hinside : n ∉ σ.memo.inside := by rwa [hσ.inside]
  exact ⟨hgoing, hafter σ hinside hlater, hfollows, .inl ⟨result, Memo.lookup_publish_self⟩⟩

end Inside

/-! ### Visits -/

/-- A walk over a steady value keeps the invariant in all that it does. -/
theorem walkRules_of_steady (hs : s.Reachable) (hsteady : s.Steady v) (hv : v < s.nodes.size) :
    Rebuild.WalkRules s v .plain (s.Going v) s.Later (fun _ _ => False) (s.Answers v) := by
  have hfollows : ∀ {stack : List NodeId} {τ : Scene} {n ph : NodeId}, n ∈ stack →
      τ.mirrors ph n → s.Follows v stack τ ph n := fun hmem hmirror =>
    ⟨hmirror, .inr (.inl ⟨_, hmem, .refl⟩)⟩
  refine ⟨Later.refl s, fun hσ => hσ.inside, fun hσ hdone => ?_, fun hmem hσ hph => ?_, ?_, ?_⟩
  · exact ⟨hσ.results _ _ hdone, .inl ⟨_, hdone⟩⟩
  · exact ⟨hfollows hmem (hσ.expected _ _ hph).mirrors, .inr ⟨_, hph⟩⟩
  · intro stack σ n htrail hnext hmem hσ hopen
    obtain ⟨hgoing, hlater⟩ := hσ.expect (htrail.below_of_reentry hnext hmem) hopen
    have hstands := Memo.lookup_expect_self hopen σ.store.nodes.size
    exact ⟨_, hgoing, hlater, hfollows hmem (hgoing.expected n _ hstands).mirrors,
      .inr ⟨_, hstands⟩⟩
  · intro stack σ n base fuel htrail hσ hdone hbelow hfuel
    have hentered : s.Inside v stack n base := ⟨hs, hsteady, htrail, hbelow⟩
    have hmem : n ∉ stack := (List.nodup_cons.mp htrail.nodup).1
    obtain ⟨hstart, hlater⟩ := hσ.enter hmem hdone
    have hpresent := present_of_leads hs.sound hv hentered.leads
    obtain ⟨out, τ, hgives, hτ, hafter, hout⟩ := (hentered.runs_byForm hpresent hfuel hstart).gives
    by_cases hquiet : ∀ ph, τ.memo.inProgress.lookup n ≠ some (some ph)
    · obtain ⟨υ, hgives', hυ⟩ :=
        hentered.conclude_quiet hmem hσ hτ (hlater.trans hafter) hout hquiet
      exact .inl ⟨out, τ, out, υ, hgives, hgives', hυ⟩
    · obtain ⟨ph, hph⟩ := not_forall_not.mp hquiet
      obtain ⟨result, υ, hgives', hυ⟩ :=
        hentered.conclude_again hmem hσ hτ (hlater.trans hafter) hout hph
      exact .inl ⟨out, τ, result, υ, hgives, hgives', hυ⟩

/-- A pair of a list with itself, where the list is its own item. -/
def ring : Store :=
  (Change.complete 0 (.list 0)).apply ((Change.build (.tuple [0, 0])).apply
    (Change.placeholder.apply {}))

theorem reachable_ring : ring.Reachable := by
  refine .step _ (.step _ (.step _ .start trivial) ?_) ?_
  · exact fun _ h => absurd h (by simp [Kind.slot?])
  · exact fun _ h => absurd h (by simp [Kind.slot?])

/-- The list is the only node by which its cycle can be entered. -/
theorem steady_ring : ring.Steady 1 := by
  have hkind : ∀ n, ring.kind n = .list 0 ∨ ring.kind n = .tuple [0, 0] ∨
      ring.kind n = .error .incomplete := by
    intro n
    match n with
    | 0 => exact .inl (by decide +kernel)
    | 1 => exact .inr (.inl (by decide +kernel))
    | n + 2 =>
      have hsize : ring.nodes.size = 2 := by decide +kernel
      exact .inr (.inr (kind_of_absent (hsize ▸ Nat.le_add_left 2 n)))
  have hchild : ∀ n, ∀ c ∈ (ring.kind n).children, c = 0 := by
    intro n c hc
    rcases hkind n with hk | hk | hk
    · simpa [hk, Kind.children] using hc
    · simpa [hk, Kind.children] using hc
    · rw [hk] at hc
      exact absurd hc List.not_mem_nil
  refine ⟨fun x y _ _ hy x' y' _ hy' _ _ _ => ?_, fun u ms _ _ hu => ?_, fun f p _ _ hf => ?_⟩
  · rw [hchild x' y' hy', hchild x y hy]
  · rcases hkind u with hk | hk | hk
    all_goals exact absurd (hk.symm.trans hu) (by simp)
  · rcases hkind f with hk | hk | hk
    all_goals exact absurd (hk.symm.trans hf) (by simp)

/-- A walk starts with nothing remembered. -/
theorem going_start (hs : s.Reachable) (v : NodeId) : s.Going v [] ⟨Eq, {}, s⟩ where
  reachable := hs
  grows := .refl s
  inside := rfl
  same _ := rfl
  mirrored _ _ := .inl
  unfinished _ hn := absurd hn List.not_mem_nil
  results _ _ h := absurd h (by simp)
  closed _ _ h := absurd h (by simp)
  expected _ _ h := absurd h (by simp)
  distinct _ _ _ h := absurd h (by simp)

end Store

namespace Infer

variable {s : Store} {v : NodeId}

/-- **A walk without changes** over a steady value succeeds and gives the value itself. -/
theorem identity_of_steady (hs : s.Reachable) (hv : s.isComplete v = true) (h : s.Steady v) :
    ∃ t, (identity v).outcome s = (.ok v, t) := by
  have hpresent := Store.present_of_isComplete hv
  obtain ⟨out, τ, hgives, -, -, ⟨-, hfollows⟩, -⟩ :=
    ((Store.walkRules_of_steady hs h hpresent).visits hs.sound hpresent .nil rfl s.walkDepth
      s.spare_lt_walkDepth _ (Store.going_start hs v)).gives
  have hsame : out = v := by
    rcases hfollows with hsame | ⟨m, hm, -⟩ | hentered
    · exact hsame
    · exact absurd hm List.not_mem_nil
    · exact absurd (.inl rfl) hentered
  subst hsame
  exact ⟨τ.store, outcome_rebuild hgives⟩

/-- A pair of two lists, each the item of the other, is rebuilt. -/
example :
    let lists := (Change.build (.list 0)).apply (Change.placeholder.apply {})
    let pair := (Change.build (.tuple [0, 1])).apply ((Change.complete 0 (.list 1)).apply lists)
    ((identity 2).outcome pair).1.toOption = some 6 := by
  decide +kernel

theorem identity_ring : ∃ t, (identity 1).outcome Store.ring = (.ok 1, t) :=
  identity_of_steady Store.reachable_ring (by decide +kernel) Store.steady_ring

end Infer

end ValueInference
