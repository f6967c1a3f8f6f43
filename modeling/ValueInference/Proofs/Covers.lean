/-
When one description covers another.

Coverage is what a forced merge asks for, said without a merge: equal values cover each other, and
otherwise the left form has to admit the right one, with coverage below.  A union on either side
is covered member by member.  Anything covers a value that is never reached, and such a value
covers nothing but its equals.

* **`Store.Covers`** — the least relation with these rules;
* **`Store.covers_iff`** — it holds by equality, or by one step of the rules;
* **`Store.Grows.covers_iff`** — between closed values coverage stays as it is when a store grows.
-/
import ValueInference.Proofs.Distinct
import ValueInference.Proofs.Growth

namespace ValueInference

section

variable {β : Type} [BEq β] [LawfulBEq β] {l : β} {x : NodeId}

theorem mem_of_lookup {γ : Type} {xs : List (β × γ)} {x : γ} (h : xs.lookup l = some x) :
    (l, x) ∈ xs := by
  obtain ⟨front, back, rfl, -⟩ := List.lookup_eq_some_iff.mp h
  simp

theorem lookup_iff_mem : ∀ {xs : List (β × NodeId)}, (xs.map Prod.fst).Nodup →
    (xs.lookup l = some x ↔ (l, x) ∈ xs) := by
  intro xs
  induction xs with
  | nil => simp
  | cons y ys ih =>
    intro hnodup
    obtain ⟨hhead, htail⟩ := List.nodup_cons.mp hnodup
    refine ⟨mem_of_lookup, fun hmem => ?_⟩
    rw [List.lookup_cons]
    rcases List.mem_cons.mp hmem with heq | hmem
    · simp [← heq]
    · have hne : (l == y.1) = false := by
        rw [beq_eq_false_iff_ne]
        rintro rfl
        exact hhead (List.mem_map.mpr ⟨_, hmem, rfl⟩)
      rw [hne]
      exact (ih htail).mpr hmem

theorem lookup_eq_of_perm {xs ys : List (β × NodeId)} (h : xs.Perm ys)
    (hxs : (xs.map Prod.fst).Nodup) (l : β) : xs.lookup l = ys.lookup l := by
  have hys : (ys.map Prod.fst).Nodup := (h.map Prod.fst).nodup_iff.mp hxs
  refine Option.ext fun x => ?_
  rw [lookup_iff_mem hxs, lookup_iff_mem hys, h.mem_iff]

theorem mem_snd_of_lookup {xs : List (β × NodeId)} (h : xs.lookup l = some x) :
    x ∈ xs.map Prod.snd :=
  List.mem_map_of_mem (mem_of_lookup h)

end

/-! ### Forms -/

/-- The left form admits the right one, where `C` is coverage of slots and `R` coverage of what is
below, and `U` is what is asked of the members of unions. -/
def Kind.Admits (C : Slot → Slot → Prop) (R : NodeId → NodeId → Prop) (U : Prop) :
    Kind → Kind → Prop
  | .scalar v t, .scalar w u => (t = u ∨ t = .any) ∧ C v w
  | .tuple xs, .tuple ys => List.Forall₂ R xs ys
  | .list x, .list y => R x y
  | .array x shape, .array y shape' => shape = shape' ∧ R x y
  | .record tag fs, .record tag' gs =>
    tag = tag' ∧ fs.length = gs.length ∧ ∀ f ∈ fs, ∃ y, gs.lookup f.1 = some y ∧ R f.2 y
  | .union _, _ | _, .union _ => U
  | .tagged xs, .tagged ys => ∀ o ∈ ys, ∃ x, xs.lookup o.1 = some x ∧ R x o.2
  | .function v, .function w => C v w
  | .jtagged x, .jtagged y => R x y
  | _, _ => False

namespace Kind

variable {C : Slot → Slot → Prop} {R S : NodeId → NodeId → Prop} {U U' : Prop} {k k' : Kind}

/-- With a union on either side, forms admit each other by their members. -/
theorem admits_of_isUnion (h : k.isUnion = true ∨ k'.isUnion = true) : k.Admits C R U k' ↔ U := by
  cases k with
  | union as => cases k' <;> exact Iff.rfl
  | _ =>
    cases k' with
    | union bs => exact Iff.rfl
    | _ => exact absurd h (by simp [Kind.isUnion])

/-- Without a union, forms that admit each other are of one kind. -/
theorem Admits.sameForm (h : k.Admits C R U k') (hk : k.isUnion = false)
    (hk' : k'.isUnion = false) : k.SameForm k' := by
  cases k with
  | union as => exact nomatch hk
  | _ =>
    cases k' with
    | union bs => exact nomatch hk'
    | _ => first | exact h.elim | constructor

theorem Admits.imp (h : k.Admits C R U k')
    (hboth : ∀ x ∈ k.children, ∀ y ∈ k'.children, R x y → S x y)
    (hunion : k.isUnion = true ∨ k'.isUnion = true → U → U') : k.Admits C S U' k' := by
  by_cases hu : k.isUnion = true ∨ k'.isUnion = true
  · rw [admits_of_isUnion hu] at h ⊢
    exact hunion hu h
  obtain ⟨hk, hk'⟩ := not_or.mp hu
  cases h.sameForm (Bool.eq_false_iff.mpr hk) (Bool.eq_false_iff.mpr hk') with
  | scalar v w t u => exact h
  | tuple xs ys => exact forall₂_imp_mem h hboth
  | list x y => exact hboth x (by simp [Kind.children]) y (by simp [Kind.children]) h
  | array x y shape shape' =>
    exact ⟨h.1, hboth x (by simp [Kind.children]) y (by simp [Kind.children]) h.2⟩
  | record tag tag' fs gs =>
    refine ⟨h.1, h.2.1, fun f hf => ?_⟩
    obtain ⟨y, hy, hfy⟩ := h.2.2 f hf
    exact ⟨y, hy, hboth f.2 (List.mem_map_of_mem hf) y (mem_snd_of_lookup hy) hfy⟩
  | union as bs => exact absurd rfl hk
  | tagged xs ys =>
    intro o ho
    obtain ⟨x, hx, hxo⟩ := h o ho
    exact ⟨x, hx, hboth x (mem_snd_of_lookup hx) o.2 (List.mem_map_of_mem ho) hxo⟩
  | function v w => exact h
  | jtagged x y => exact hboth x (by simp [Kind.children]) y (by simp [Kind.children]) h
  | error r r' => exact h.elim
  | type t u => exact h.elim

end Kind

namespace Store

variable {s t : Store} {a b : NodeId} {R S : NodeId → NodeId → Prop}

/-! ### The rules -/

/-- Everything the right slot may be, the left one may be. -/
def SlotCovers (s : Store) (v w : Slot) : Prop :=
  s.resolve v = .anything ∨ s.resolve w ≠ .anything ∧
    s.isSubset (Infer.candidatesOf (s.resolve w)) (Infer.candidatesOf (s.resolve v)) = true

/-- The left form admits the right one, where `R` is coverage below and `ms` and `ns` are the
members of the two values. -/
def FormCovers (s : Store) (R : NodeId → NodeId → Prop) (ms ns : List NodeId) :
    Kind → Kind → Prop
  | .scalar v t, .scalar w u => (t = u ∨ t = .any) ∧ s.SlotCovers v w
  | .tuple xs, .tuple ys => List.Forall₂ R xs ys
  | .list x, .list y => R x y
  | .array x shape, .array y shape' => shape = shape' ∧ R x y
  | .record tag fs, .record tag' gs =>
    tag = tag' ∧ fs.length = gs.length ∧ ∀ f ∈ fs, ∃ y, gs.lookup f.1 = some y ∧ R f.2 y
  | .union _, _ | _, .union _ => ∀ n ∈ ns, ∃ m ∈ ms, R m n
  | .tagged xs, .tagged ys => ∀ o ∈ ys, ∃ x, xs.lookup o.1 = some x ∧ R x o.2
  | .function v, .function w => s.SlotCovers v w
  | .jtagged x, .jtagged y => R x y
  | _, _ => False

/-- The forms of two values and their members are as coverage wants them. -/
def CoverStep (s : Store) (R : NodeId → NodeId → Prop) (a b : NodeId) : Prop :=
  s.kind a ≠ .error .dead ∧
    (s.kind b = .error .dead ∨
      s.FormCovers R (s.members a) (s.members b) (s.kind a) (s.kind b))

/-- The left value covers the right one: the least relation that has all equal values and all
pairs whose forms admit it. -/
def Covers (s : Store) (a b : NodeId) : Prop :=
  ∀ R : NodeId → NodeId → Prop, (∀ x y, s.Equals x y ∨ s.CoverStep R x y → R x y) → R a b

/-- The pairs that coverage of `a` and `b` may come down to. -/
def Descends (s : Store) (a b x y : NodeId) : Prop :=
  x ∈ (s.kind a).children ∧ y ∈ (s.kind b).children ∨
    x ∈ (s.kind a).children ∧ y = b ∨ x = a ∧ y ∈ (s.kind b).children

theorem mem_members {m : NodeId} (h : m ∈ s.members a) :
    m ∈ (s.kind a).children ∨ m = a ∧ (s.kind a).isUnion = false := by
  rcases (s.kind a).isUnion_cases with ⟨ms, hk⟩ | hsingle
  · rw [members_of_union hk] at h
    rw [hk]
    exact .inl h
  · rw [members_of_not_union hsingle] at h
    exact .inr ⟨List.mem_singleton.mp h, hsingle⟩

theorem descends_members {m n : NodeId} (hm : m ∈ s.members a) (hn : n ∈ s.members b)
    (hunion : (s.kind a).isUnion = true ∨ (s.kind b).isUnion = true) : s.Descends a b m n := by
  rcases mem_members hm with hm | ⟨rfl, ha⟩
  · rcases mem_members hn with hn | ⟨rfl, -⟩
    · exact .inl ⟨hm, hn⟩
    · exact .inr (.inl ⟨hm, rfl⟩)
  · rcases mem_members hn with hn | ⟨rfl, hb⟩
    · exact .inr (.inr ⟨rfl, hn⟩)
    · rw [ha, hb] at hunion
      exact absurd hunion (by simp)

/-- Coverage of forms is what forms are asked for with coverage of slots. -/
theorem formCovers_eq_admits (s : Store) (R : NodeId → NodeId → Prop) (ms ns : List NodeId)
    (k k' : Kind) :
    s.FormCovers R ms ns k k' = k.Admits s.SlotCovers R (∀ n ∈ ns, ∃ m ∈ ms, R m n) k' := by
  cases k <;> cases k' <;> rfl

theorem FormCovers.imp {ms ns : List NodeId} {k k' : Kind} (h : s.FormCovers R ms ns k k')
    (hboth : ∀ x ∈ k.children, ∀ y ∈ k'.children, R x y → S x y)
    (hunion : k.isUnion = true ∨ k'.isUnion = true → ∀ m ∈ ms, ∀ n ∈ ns, R m n → S m n) :
    s.FormCovers S ms ns k k' := by
  rw [formCovers_eq_admits] at h ⊢
  refine h.imp hboth fun hu hR n hn => ?_
  obtain ⟨m, hm, hmn⟩ := hR n hn
  exact ⟨m, hm, hunion hu m hm n hn hmn⟩

theorem FormCovers.sameForm {ms ns : List NodeId} {k k' : Kind} (h : s.FormCovers R ms ns k k')
    (hk : k.isUnion = false) (hk' : k'.isUnion = false) : k.SameForm k' := by
  rw [formCovers_eq_admits] at h
  exact h.sameForm hk hk'

theorem formCovers_members {ms ns : List NodeId} {k k' : Kind}
    (hunion : k.isUnion = true ∨ k'.isUnion = true) :
    s.FormCovers R ms ns k k' ↔ ∀ n ∈ ns, ∃ m ∈ ms, R m n := by
  rw [formCovers_eq_admits, Kind.admits_of_isUnion hunion]

/-- **One step of coverage** depends only on the pairs that it comes down to. -/
theorem CoverStep.imp (h : s.CoverStep R a b)
    (hRS : ∀ x y, s.Descends a b x y → R x y → S x y) : s.CoverStep S a b := by
  refine ⟨h.1, h.2.imp id fun hform => hform.imp (fun x hx y hy => hRS x y (.inl ⟨hx, hy⟩)) ?_⟩
  exact fun hunion m hm n hn => hRS m n (descends_members hm hn hunion)

/-- **Coverage holds by equality or by one step of the rules.** -/
theorem covers_iff : s.Covers a b ↔ s.Equals a b ∨ s.CoverStep s.Covers a b := by
  have hclosed : ∀ x y, s.Equals x y ∨ s.CoverStep s.Covers x y → s.Covers x y := by
    intro x y h R hR
    exact hR x y (h.imp id fun hstep => hstep.imp fun m n _ hmn => hmn R hR)
  refine ⟨fun h => ?_, hclosed a b⟩
  refine h (fun x y => s.Equals x y ∨ s.CoverStep s.Covers x y) fun x y hxy => ?_
  exact hxy.imp id fun hstep => hstep.imp fun m n _ => hclosed m n

theorem covers_of_equals (h : s.Equals a b) : s.Covers a b :=
  covers_iff.mpr (.inl h)

theorem covers_of_step (h : s.CoverStep s.Covers a b) : s.Covers a b :=
  covers_iff.mpr (.inr h)

theorem covers_refl (s : Store) (a : NodeId) : s.Covers a a :=
  covers_of_equals (s.equals_refl a)

/-! ### Pairs of closed values -/

namespace Closed

theorem member {m : NodeId} (h : s.Closed a) (hm : m ∈ s.members a) : s.Closed m := by
  rcases mem_members hm with hm | ⟨rfl, -⟩
  · exact h.child hm
  · exact h

theorem descend {x y : NodeId} (ha : s.Closed a) (hb : s.Closed b) (h : s.Descends a b x y) :
    s.Closed x ∧ s.Closed y := by
  rcases h with ⟨hx, hy⟩ | ⟨hx, rfl⟩ | ⟨rfl, hy⟩
  · exact ⟨ha.child hx, hb.child hy⟩
  · exact ⟨ha.child hx, hb⟩
  · exact ⟨ha, hb.child hy⟩

/-- Induction over pairs of closed values, from the pairs that they come down to. -/
theorem induct {motive : NodeId → NodeId → Prop} (ha : s.Closed a) (hb : s.Closed b)
    (hstep : ∀ x y, s.Closed x → s.Closed y →
      (∀ m n, s.Descends x y m n → motive m n) → motive x y) : motive a b := by
  suffices hdeep : ∀ fuel j k x y, j + k ≤ fuel → s.Closed x → s.Closed y → s.EndsWithin j x →
      s.EndsWithin k y → motive x y from
    hdeep _ _ _ a b (Nat.le_refl _) ha hb ha.founded hb.founded
  intro fuel
  induction fuel with
  | zero =>
    intro j k x y hjk _ _ hx
    obtain ⟨i, rfl, -⟩ := hx.below
    omega
  | succ fuel ih =>
    intro j k x y hjk hcx hcy hx hy
    obtain ⟨i, rfl, hxs⟩ := hx.below
    obtain ⟨l, rfl, hys⟩ := hy.below
    refine hstep x y hcx hcy fun m n hmn => ?_
    obtain ⟨hcm, hcn⟩ := hcx.descend hcy hmn
    rcases hmn with ⟨hm, hn⟩ | ⟨hm, rfl⟩ | ⟨rfl, hn⟩
    · exact ih i l m n (by omega) hcm hcn (hxs m hm) (hys n hn)
    · exact ih i (l + 1) m n (by omega) hcm hcn (hxs m hm) hy
    · exact ih (i + 1) l m n (by omega) hcm hcn hx (hys n hn)

end Closed

/-! ### Coverage in stores that grow -/

theorem mem_children_of_candidate {slot : Slot} {c : Candidate} {n : NodeId}
    (hc : c ∈ Infer.candidatesOf slot) (hn : n ∈ c.children) : n ∈ slot.children := by
  cases slot with
  | possibilities p => exact List.mem_flatMap_of_mem hc hn
  | constant d =>
    obtain rfl := List.mem_singleton.mp hc
    exact absurd hn List.not_mem_nil
  | _ => exact absurd hc List.not_mem_nil

theorem Settled.closed_of_candidate {slot : Slot} {c : Candidate} {n : NodeId}
    (h : s.Settled slot) (hc : c ∈ Infer.candidatesOf (s.resolve slot)) (hn : n ∈ c.children) :
    s.Closed n :=
  h.closed n (mem_children_of_candidate hc hn)

theorem foundedIn_candidatesOf {slot : Slot} (h : s.Settled slot) :
    ∀ c ∈ Infer.candidatesOf (s.resolve slot), s.FoundedIn c :=
  fun _ hc _ hn => (h.closed_of_candidate hc hn).founded

theorem isSubset_of_subset {cs ds : List Candidate} (hds : ∀ d ∈ ds, s.FoundedIn d)
    (h : ∀ c ∈ cs, c ∈ ds) : s.isSubset cs ds = true :=
  (isSubset_iff hds).mpr fun c hc => ⟨c, h c hc, s.alike_refl c⟩

theorem slotCovers_refl {v : Slot} (hv : s.Settled v) : s.SlotCovers v v := by
  by_cases h : s.resolve v = .anything
  · exact .inl h
  · exact .inr ⟨h, isSubset_of_subset (foundedIn_candidatesOf hv) fun _ => id⟩

namespace Grows

theorem slotCovers_iff {v w : Slot} (h : s.Grows t) (hv : s.Settled v) (hw : s.Settled w) :
    t.SlotCovers v w ↔ s.SlotCovers v w := by
  rw [SlotCovers, SlotCovers, h.resolve_eq,
    h.isSubset_iff (foundedIn_candidatesOf hw) (foundedIn_candidatesOf hv)]

theorem members_eq (h : s.Grows t) (ha : a < s.nodes.size) : t.members a = s.members a := by
  rw [members, h.kind_eq ha, members]

theorem formCovers_iff {ms ns : List NodeId} (h : s.Grows t) (ha : s.Closed a) (hb : s.Closed b) :
    t.FormCovers R ms ns (s.kind a) (s.kind b) ↔ s.FormCovers R ms ns (s.kind a) (s.kind b) := by
  have hslot : ∀ v w, (s.kind a).slot? = some v → (s.kind b).slot? = some w →
      (t.SlotCovers v w ↔ s.SlotCovers v w) := fun v w hv hw =>
    h.slotCovers_iff (ha.settled hv) (hb.settled hw)
  generalize s.kind a = k at *
  generalize s.kind b = k' at *
  cases k with
  | scalar v t =>
    cases k' with
    | scalar w u => exact and_congr_right fun _ => hslot v w rfl rfl
    | _ => exact Iff.rfl
  | function v =>
    cases k' with
    | function w => exact hslot v w rfl rfl
    | _ => exact Iff.rfl
  | _ => cases k' <;> exact Iff.rfl

theorem coverStep_iff (h : s.Grows t) (ha : s.Closed a) (hb : s.Closed b) :
    t.CoverStep R a b ↔ s.CoverStep R a b := by
  rw [CoverStep, CoverStep, h.kind_eq ha.present, h.kind_eq hb.present,
    h.members_eq ha.present, h.members_eq hb.present, h.formCovers_iff ha hb]

/-- **Coverage between closed values stays as it is** when a store grows. -/
theorem covers_iff (h : s.Grows t) (ha : s.Closed a) (hb : s.Closed b) :
    t.Covers a b ↔ s.Covers a b := by
  refine ha.induct (motive := fun a b => t.Covers a b ↔ s.Covers a b) hb fun x y hx hy ih => ?_
  rw [Store.covers_iff, Store.covers_iff, h.equals_iff hx.founded hy.founded,
    h.coverStep_iff hx hy]
  refine or_congr_right ⟨fun hstep => ?_, fun hstep => ?_⟩
  · exact hstep.imp fun m n hmn => (ih m n hmn).mp
  · exact hstep.imp fun m n hmn => (ih m n hmn).mpr

end Grows

end Store

end ValueInference
