/-
What a walk without changes makes of each form.

A form gives back its node if all below it is as it was.  Otherwise its node is on a cycle, and the
form is made anew over mirrors: what is made is alike to the form of the node.

* **`Store.FormAnswers`** — the node itself, or a copy of a node on a cycle;
* **`Store.Inside.runs_rebuilt`** — a form that is made anew only if something below it changed;
* **`Store.Inside.runs_byForm`** — every form has such an answer.
-/
import ValueInference.Proofs.Runs

namespace ValueInference

section

variable {α : Type} {R : α → α → Prop} {as bs : List α}

theorem exists_ne_of_forall₂ (h : List.Forall₂ R as bs) (hne : as ≠ bs) :
    ∃ a, ∃ b ∈ bs, R a b ∧ a ≠ b := by
  induction h with
  | nil => exact absurd rfl hne
  | @cons a b as bs hab _ ih =>
    by_cases hsame : a = b
    · subst hsame
      obtain ⟨c, d, hd, hcd⟩ := ih fun hrest => hne (congrArg (a :: ·) hrest)
      exact ⟨c, d, List.mem_cons_of_mem a hd, hcd⟩
    · exact ⟨a, b, List.mem_cons_self, hab, hsame⟩

end

namespace Store

variable {α : Type} {s : Store} {v n : NodeId} {stack : List NodeId} {base : Nat} {σ : Scene}

/-- What a form gives: the node itself, or a copy of a node on a cycle. -/
def FormAnswers (s : Store) (n : NodeId) (σ : Scene) (out : NodeId) : Prop :=
  (out = n ∨ s.Below n n ∧ (σ.store.kind out).Alike σ.mirrors (s.kind n)) ∧
    ∀ c ∈ (s.kind n).children, σ.memo.Met c

/-- A computation that makes a node of a form over mirrors. -/
structure Makes (s : Store) (n : NodeId) (σ : Scene) (y : Infer NodeId) (k : Kind) : Prop where
  outcome : y.outcome σ.store = (Infer.make k).outcome σ.store
  alike : k.Alike σ.mirrors (s.kind n)
  pendings : k.pendings = []
  labelled : k.Labelled
  formed : k.Formed
  admits : ∀ slot, k.slot? = some slot → σ.store.AdmitsSlot slot

namespace Inside

/-- **A form is made anew** only if something below it changed. -/
theorem runs_rebuilt [DecidableEq α] {x : Rebuild Unit Update α} {old : α} {F : α → Infer NodeId}
    (h : s.Inside v stack n base)
    (hx : s.Runs v (n :: stack) n σ x fun τ new =>
      (∀ c ∈ (s.kind n).children, τ.memo.Met c) ∧
        (new ≠ old → s.Below n n ∧ ∃ k, s.Makes n τ (F new) k)) :
    s.Runs v (n :: stack) n σ
      (x >>= fun new => if new = old then return n else Rebuild.infer (F new))
      (s.FormAnswers n) := by
  refine hx.bind fun τ new hτ _ ⟨hmet, hmake⟩ => ?_
  by_cases hsame : new = old
  · rw [if_pos hsame]
    exact runs_pure hτ ⟨.inl rfl, hmet⟩
  · obtain ⟨hcycle, k, hk⟩ := hmake hsame
    rw [if_neg hsame]
    obtain ⟨out, t, hout, hgrows, ht, halike⟩ := hτ.exists_copy h.reachable h.steady h.leads hcycle
      hk.alike hk.pendings hk.labelled hk.formed hk.admits
    exact runs_infer hτ (hk.outcome.trans hout) hgrows ht ⟨.inr ⟨hcycle, halike⟩, hmet⟩

/-! ### Nodes below -/

section

variable {fuel : Nat}

/-- Forms with one node below. -/
theorem runs_single {item : NodeId} {F : NodeId → Infer NodeId} {G : NodeId → Kind}
    (h : s.Inside v stack n base) (hchildren : (s.kind n).children = [item])
    (hfunction : ∀ slot, s.kind n ≠ .function slot)
    (hmake : ∀ τ out, τ.mirrors out item → s.Makes n τ (F out) (G out)) (hfuel : base < fuel)
    (hσ : s.Going v (n :: stack) σ) :
    s.Runs v (n :: stack) n σ
      ((Variant.plain.visitor fuel).visit item >>= fun new =>
        if new = item then return n else Rebuild.infer (F new))
      (s.FormAnswers n) := by
  have hitem : item ∈ (s.kind n).children := by
    rw [hchildren]
    exact List.mem_cons_self
  refine h.runs_rebuilt ((h.runs_visit hitem hfuel hσ).imp fun τ out _ hout => ⟨?_, fun hne => ?_⟩)
  · rw [hchildren]
    exact fun c hc => List.mem_singleton.mp hc ▸ hout.2
  · exact ⟨h.below_of_changed hitem hfunction hout hne, _, hmake τ out hout.1.1⟩

/-- Forms with a list of nodes below. -/
theorem runs_items {items : List NodeId} {F : List NodeId → Infer NodeId}
    {G : Scene → List NodeId → Kind} (h : s.Inside v stack n base)
    (hchildren : (s.kind n).children = items) (hfunction : ∀ slot, s.kind n ≠ .function slot)
    (hmake : ∀ τ new, s.Going v (n :: stack) τ → s.Below n n → List.Forall₂ τ.mirrors new items →
      s.Makes n τ (F new) (G τ new)) (hfuel : base < fuel) (hσ : s.Going v (n :: stack) σ) :
    s.Runs v (n :: stack) n σ
      (items.mapM (Variant.plain.visitor fuel).visit >>= fun new =>
        if new = items then return n else Rebuild.infer (F new))
      (s.FormAnswers n) := by
  subst hchildren
  refine h.runs_rebuilt ((h.runs_visits (fun _ => id) hfuel hσ).imp fun τ new hτ hnew =>
    ⟨fun c hc => ?_, fun hne => ?_⟩)
  · obtain ⟨out, -, hout⟩ := exists_of_forall₂ hnew.flip c hc
    exact hout.2
  · obtain ⟨out, c, hc, hout, hchanged⟩ := exists_ne_of_forall₂ hnew hne
    have hcycle := h.below_of_changed hc hfunction hout hchanged
    exact ⟨hcycle, _, hmake τ new hτ hcycle (hnew.imp fun _ _ ha => ha.1.1)⟩

/-- Forms with labelled nodes below. -/
theorem runs_fields {β : Type} [DecidableEq β] {fields : List (β × NodeId)}
    {F : List (β × NodeId) → Infer NodeId} {G : List (β × NodeId) → Kind}
    (h : s.Inside v stack n base) (hchildren : (s.kind n).children = fields.map Prod.snd)
    (hfunction : ∀ slot, s.kind n ≠ .function slot)
    (hmake : ∀ τ new, List.Forall₂ (SameLabel τ.mirrors) new fields → s.Makes n τ (F new) (G new))
    (hfuel : base < fuel) (hσ : s.Going v (n :: stack) σ) :
    s.Runs v (n :: stack) n σ
      ((fields.mapM fun (label, field) =>
        return (label, ← (Variant.plain.visitor fuel).visit field)) >>= fun new =>
          if new = fields then return n else Rebuild.infer (F new))
      (s.FormAnswers n) := by
  have hbelow : ∀ x ∈ fields, x.2 ∈ (s.kind n).children := by
    intro x hx
    rw [hchildren]
    exact List.mem_map_of_mem hx
  have hvisits : s.Runs v (n :: stack) n σ
      (fields.mapM fun (label, field) =>
        return (label, ← (Variant.plain.visitor fuel).visit field))
      fun τ new => List.Forall₂ (SameLabel (s.Answers v (n :: stack) τ)) new fields :=
    Rebuild.runs_fields (stays_answers s v n _) (fun x hx => h.visits (hbelow x hx)) hfuel hσ
  refine h.runs_rebuilt (hvisits.imp fun τ new _ hnew => ⟨fun c hc => ?_, fun hne => ?_⟩)
  · rw [hchildren] at hc
    obtain ⟨x, hx, rfl⟩ := List.mem_map.mp hc
    obtain ⟨y, -, hy⟩ := exists_of_forall₂ hnew.flip x hx
    exact hy.2.2
  · obtain ⟨x, y, hy, hxy, hchanged⟩ := exists_ne_of_forall₂ hnew hne
    have hne' : x.2 ≠ y.2 := fun hsame => hchanged (Prod.ext hxy.1 hsame)
    exact ⟨h.below_of_changed (hbelow y hy) hfunction hxy.2 hne', _,
      hmake τ new (hnew.imp fun _ _ ha => ⟨ha.1, ha.2.1.1⟩)⟩

/-! ### Slots -/

/-- A scalar is over constants alone. -/
theorem runs_scalar {value : Slot} {ty : Ty} (h : s.Inside v stack n base)
    (hk : s.kind n = .scalar value ty) (hfuel : base + (s.kind n).refDepth + 1 < fuel)
    (hσ : s.Going v (n :: stack) σ) :
    s.Runs v (n :: stack) n σ
      (Rebuild.slot (Variant.plain.visitor fuel) value >>= fun new =>
        if new = value then return n else Rebuild.infer (Infer.scalar new ty))
      (s.FormAnswers n) := by
  have hslot : (s.kind n).slot? = some value := by rw [hk]; rfl
  refine h.runs_rebuilt ((h.runs_slot hslot hfuel hσ).imp fun τ new _ hnew => ⟨?_, fun hne => ?_⟩)
  · rw [Kind.children_of_slot hslot]
    exact hnew.2
  · obtain ⟨hcycle, -⟩ := hnew.1.resolve_left hne
    exact absurd hk (not_scalar_of_cycle h.reachable hcycle value ty)

/-- A function may be made anew with a set of its own. -/
theorem runs_function {options : Slot} (h : s.Inside v stack n base)
    (hk : s.kind n = .function options) (hfuel : base + (s.kind n).refDepth + 1 < fuel)
    (hσ : s.Going v (n :: stack) σ) :
    s.Runs v (n :: stack) n σ
      (Rebuild.slot (Variant.plain.visitor fuel) options >>= fun new =>
        if new = options then return n else Rebuild.infer (Infer.function new))
      (s.FormAnswers n) := by
  have hslot : (s.kind n).slot? = some options := by rw [hk]; rfl
  refine h.runs_rebuilt ((h.runs_slot hslot hfuel hσ).imp fun τ new _ hnew => ⟨?_, fun hne => ?_⟩)
  · rw [Kind.children_of_slot hslot]
    exact hnew.2
  · obtain ⟨hcycle, p, q, rfl, rfl, halike, hadmits⟩ := hnew.1.resolve_left hne
    refine ⟨hcycle, .function (.possibilities q), rfl, ?_, rfl, trivial, fun c hc => ?_, ?_⟩
    · rw [hk]
      exact .inr halike
    · have hformed := h.reachable.formed n
      rw [hk] at hformed
      obtain ⟨d, hd, hcd⟩ := halike.2 c hc
      have hfunction := hformed d hd
      cases c with
      | constant x =>
        cases d with
        | constant y => exact hfunction
        | function g => exact hcd.elim
      | function f => rfl
    · rintro slot ⟨⟩ r ⟨⟩
      exact hadmits

/-! ### All forms -/

/-- Members that differ are all kept. -/
theorem makes_union {ms new : List NodeId} (h : s.Inside v stack n base)
    (hk : s.kind n = .union ms) (hcycle : s.Below n n) (hσ : s.Going v (n :: stack) σ)
    (hnew : List.Forall₂ σ.mirrors new ms) :
    s.Makes n σ (Infer.union new) (.union (σ.store.sortMembers new)) := by
  have hms := h.steady.members n ms h.leads hcycle hk
  have hpresent : ∀ m ∈ ms, m < s.nodes.size := by
    intro m hm
    have hmem : m ∈ (s.kind n).children := by rwa [hk]
    exact h.reachable.sound.child_lt hmem
  have hseveral : 2 ≤ new.length := by
    have hformed := h.reachable.formed n
    rw [hk] at hformed
    exact hnew.length_eq ▸ hformed
  have hflat : ∀ m ∈ new, (σ.store.kind m).isUnion = false := by
    intro m hm
    obtain ⟨c, hc, hmc⟩ := exists_of_forall₂ hnew m hm
    exact hσ.isUnion_eq_false hmc (hpresent c hc) (hms.flat c hc)
  have hapart : new.Pairwise fun m m' => σ.store.equal m m' = false :=
    pairwise_of_forall₂ hnew hms.apart fun _ _ y hy y' hy' hx hx' happ =>
      hσ.told_apart h.trail h.reachable.sound happ (hpresent y hy) (hpresent y' hy') hx hx'
  have hsorted := σ.store.sortMembers_perm new
  refine ⟨Infer.outcome_union hflat hapart hseveral, ?_, rfl, trivial, ?_, fun _ hs => ?_⟩
  · rw [hk]
    exact (matches_of_forall₂ hnew).of_perm hsorted
  · show 2 ≤ (σ.store.sortMembers new).length
    rw [hsorted.length_eq]
    exact hseveral
  · exact absurd hs (by simp [Kind.slot?])

/-- **Every form** gives back its node, or a copy of a node on a cycle. -/
theorem runs_byForm (h : s.Inside v stack n base) (hpresent : n < s.nodes.size)
    (hfuel : base + (s.kind n).refDepth + 2 < fuel) (hσ : s.Going v (n :: stack) σ) :
    s.Runs v (n :: stack) n σ (Rebuild.byForm .plain (Variant.plain.visitor fuel) n)
      (s.FormAnswers n) := by
  have hlevel : base < fuel := by omega
  have hlabelled := h.reachable.sound.labelled n
  have hformed := h.reachable.formed n
  refine (runs_store hσ).bind fun τ u _ _ ⟨hτ, hu⟩ => ?_
  subst hτ hu
  rw [hσ.grows.kind_eq hpresent]
  rcases hk : s.kind n with ⟨value, ty⟩ | items | item | ⟨item, shape⟩ | ⟨tag, fields⟩ | members |
    options | slot | inner | reason | ty
  all_goals rw [hk] at hlabelled hformed
  case scalar =>
    obtain ⟨fuel, rfl⟩ : ∃ k, fuel = k + 1 := ⟨fuel - 1, by omega⟩
    exact h.runs_scalar hk (Nat.lt_of_succ_lt_succ hfuel) hσ
  case tuple =>
    refine h.runs_items (G := fun _ => .tuple) (by rw [hk]; rfl) (by simp [hk])
      (fun υ new _ _ hnew => ?_) hlevel hσ
    exact ⟨rfl, by rw [hk]; exact hnew, rfl, trivial, trivial, by simp [Kind.slot?]⟩
  case list =>
    refine h.runs_single (G := .list) (by rw [hk]; rfl) (by simp [hk])
      (fun υ out hout => ?_) hlevel hσ
    exact ⟨rfl, by rw [hk]; exact hout, rfl, trivial, trivial, by simp [Kind.slot?]⟩
  case array =>
    refine h.runs_single (G := fun m => .array m shape) (by rw [hk]; rfl) (by simp [hk])
      (fun υ out hout => ?_) hlevel hσ
    exact ⟨rfl, by rw [hk]; exact ⟨rfl, hout⟩, rfl, trivial, trivial, by simp [Kind.slot?]⟩
  case record =>
    refine h.runs_fields (G := .record tag) (by rw [hk]; rfl) (by simp [hk])
      (fun υ new hnew => ?_) hlevel hσ
    exact ⟨rfl, by rw [hk]; exact ⟨rfl, matches_of_forall₂ hnew⟩, rfl,
      labelled_of_forall₂ hnew hlabelled, trivial, by simp [Kind.slot?]⟩
  case union =>
    exact h.runs_items (G := fun υ new => .union (υ.store.sortMembers new)) (by rw [hk]; rfl)
      (by simp [hk]) (fun υ new hυ hcycle hnew => h.makes_union hk hcycle hυ hnew) hlevel hσ
  case tagged =>
    refine h.runs_fields (G := fun new => .tagged (stableSort (fun a b => a.1 ≤ b.1) new))
      (by rw [hk]; rfl) (by simp [hk]) (fun υ new hnew => ?_) hlevel hσ
    have hsorted := stableSort_perm (fun a b : UInt32 × NodeId => decide (a.1 ≤ b.1)) new
    obtain ⟨halike, hlabels, hsome⟩ := tagged_of_forall₂ hnew hsorted hlabelled hformed
    exact ⟨rfl, by rwa [hk], rfl, hlabels, hsome, by simp [Kind.slot?]⟩
  case function =>
    obtain ⟨fuel, rfl⟩ : ∃ k, fuel = k + 1 := ⟨fuel - 1, by omega⟩
    exact h.runs_function hk (Nat.lt_of_succ_lt_succ hfuel) hσ
  case jtagged =>
    refine h.runs_single (G := .jtagged) (by rw [hk]; rfl) (by simp [hk])
      (fun υ out hout => ?_) hlevel hσ
    exact ⟨rfl, by rw [hk]; exact hout, rfl, trivial, trivial, by simp [Kind.slot?]⟩
  case error =>
    refine runs_pure hσ ⟨.inl rfl, fun c hc => ?_⟩
    rw [hk] at hc
    exact absurd hc List.not_mem_nil
  case type =>
    refine runs_pure hσ ⟨.inl rfl, fun c hc => ?_⟩
    rw [hk] at hc
    exact absurd hc List.not_mem_nil

end

end Inside

end Store

end ValueInference
