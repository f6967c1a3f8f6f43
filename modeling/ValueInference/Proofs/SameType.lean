/-
Merges of values of one type.

What two values join to has the type that both have.  A union is the only place where the two
sides need not agree part by part: members are absorbed or added, and what counts is which types
the members stand for together.

* **`Store.Typable`** — values whose types are put together of canonical types;
* **`Store.JoinForm.typedBy`** — forms of one type join to a form of that type;
* **`Store.hasType_of_members`** — a union that has the members of one value, and otherwise members
  of another one of the same type, has this type;
* **`Infer.merge_keeps_type`** — two values of the same type merge to a value of that type.
-/
import ValueInference.Proofs.Merged
import ValueInference.Proofs.TypeOrder
import ValueInference.Proofs.Typing

namespace ValueInference

/-! ### Types of joined forms -/

section

variable {R R' : NodeId → Ty → Prop} {T : Ty} {v w x : Slot}

/-- References to functions have no union types. -/
theorem FunctionRef.TypedBy.not_union {f : FunctionRef} (h : f.TypedBy R T) :
    T.isUnion = false := by
  induction f generalizing T with
  | primitive prim =>
    obtain rfl : T = .ofSignature? prim.signature := h
    cases prim.signature <;> rfl
  | graph => exact (h : T = .anyFunction) ▸ rfl
  | typed | virtual =>
    obtain ⟨params, result, -, -, rfl⟩ := h
    rfl
  | partialApp func args ih =>
    obtain ⟨u, hu, hT⟩ := h
    have hnone := ih hu
    cases u with
    | function params result =>
      rw [Ty.applied?] at hT
      split at hT
      · cases hT
      · exact Option.some.inj hT ▸ rfl
    | _ => exact Option.some.inj hT ▸ hnone

theorem Slot.Reordered.typedBy (h : v.Reordered w) (hw : (Kind.function w).TypedBy R T) :
    (Kind.function v).TypedBy R T := by
  cases h with
  | same => exact hw
  | possibilities h =>
    exact ⟨fun hnil => hw.nonempty (List.nil_perm.mp (hnil ▸ h)),
      fun c hc => hw.each c (h.mem_iff.mp hc)⟩

/-- Options of one type join to options of that type. -/
theorem Store.joinSlots_typedBy {s : Store} {limit token : Nat}
    (h : s.joinSlots limit token v w = some x) (hv : (Kind.function v).TypedBy R T)
    (hw : (Kind.function w).TypedBy R T) : (Kind.function x).TypedBy R T := by
  cases v with
  | constant | pending => exact hv.elim
  | anything =>
    rw [joinSlots, s.resolve_self _ rfl] at h
    exact Option.some.inj h ▸ hv
  | possibilities p =>
    cases w with
    | constant | pending => exact hw.elim
    | anything =>
      rw [joinSlots, s.resolve_self _ rfl, s.resolve_self _ rfl] at h
      exact Option.some.inj h ▸ hw
    | possibilities q =>
      have hfunctions : ∀ c ∈ s.addCandidates p.candidates q.candidates,
          ∃ f, c = .function f ∧ f.TypedBy R T := fun c hc =>
        (mem_of_mem_addCandidates hc).elim (hv.each c) (hw.each c)
      have hnonempty : s.addCandidates p.candidates q.candidates ≠ [] := by
        rw [addCandidates_eq_addNew]
        exact fun hnil => hv.nonempty (List.prefix_nil.mp (hnil ▸ prefix_addNew))
      rw [joinSlots, s.resolve_self _ rfl, s.resolve_self _ rfl] at h
      obtain rfl := Option.some.inj h
      rw [joinCandidates]
      split
      · exact hv
      split
      · exact hw
      split
      · next hall =>
        -- only sets of constants are given up for `ANYTHING`
        obtain ⟨c, hc⟩ := List.exists_mem_of_ne_nil _ hnonempty
        obtain ⟨f, rfl, -⟩ := hfunctions c hc
        rw [Bool.and_eq_true, List.all_eq_true] at hall
        cases hall.1 _ hc
      · exact ⟨hnonempty, hfunctions⟩

/-- Parts of one type join to a part of that type. -/
theorem JoinsEach.typedBy {J : NodeId → NodeId → NodeId → Prop} {xs ys zs : List NodeId}
    (h : JoinsEach J xs ys zs) : ∀ {ts : List Ty}, List.Forall₂ R xs ts → List.Forall₂ R ys ts →
      (∀ x ∈ xs, ∀ y ∈ ys, ∀ z ∈ zs, ∀ t, J x y z → R x t → R y t → R' z t) →
        List.Forall₂ R' zs ts := by
  induction h with
  | nil =>
    intro ts hxs _ _
    cases hxs
    exact .nil
  | cons hj _ ih =>
    intro ts hxs hys hJ
    cases hxs with
    | cons hx hxs =>
      cases hys with
      | cons hy hys =>
        refine .cons (hJ _ List.mem_cons_self _ List.mem_cons_self _ List.mem_cons_self _ hj hx hy)
          (ih hxs hys fun x hx y hy z hz => ?_)
        exact hJ x (List.mem_cons_of_mem _ hx) y (List.mem_cons_of_mem _ hy) z
          (List.mem_cons_of_mem _ hz)

/-- **Forms of one type join to a form of that type**, unless one is a tagged union. -/
theorem Store.JoinForm.typedBy {s : Store} {limit : Nat} {J : NodeId → NodeId → NodeId → Prop}
    {k k' joined : Kind} (h : s.JoinForm limit J k k' joined) (huntagged : ∀ os, k ≠ .tagged os)
    (hk : k.TypedBy R T) (hk' : k'.TypedBy R T)
    (hkeep : ∀ c, c ∈ k.children ∨ c ∈ k'.children → ∀ t, R c t → R' c t)
    (hJ : ∀ x ∈ k.children, ∀ y ∈ k'.children, ∀ z ∈ joined.children, ∀ t,
      J x y z → R x t → R y t → R' z t) : joined.TypedBy R' T := by
  cases h.sameForm with
  | scalar v w t u =>
    obtain ⟨token, x, -, hjoined⟩ := h
    obtain ⟨y, rfl, -⟩ := hjoined.scalar_inv
    obtain rfl : T = t := hk
    obtain rfl : T = u := hk'
    simp [Kind.TypedBy, Ty.join]
  | tuple xs ys =>
    obtain ⟨zs, hzs, rfl⟩ := h
    obtain ⟨ts, hts, rfl⟩ := hk
    obtain ⟨us, hus, hsame⟩ := hk'
    cases hsame
    exact ⟨ts, hzs.typedBy hts hus hJ, rfl⟩
  | list x y =>
    obtain ⟨z, hj, rfl⟩ := h
    obtain ⟨t, ht, rfl⟩ := hk
    obtain ⟨u, hu, hsame⟩ := hk'
    cases hsame
    exact ⟨t, hJ x (List.mem_singleton_self x) y (List.mem_singleton_self y) z
      (List.mem_singleton_self z) t hj ht hu, rfl⟩
  | array x y shape shape' =>
    obtain ⟨-, z, hj, rfl⟩ := h
    obtain ⟨t, ht, rfl⟩ := hk
    obtain ⟨u, hu, hsame⟩ := hk'
    cases hsame
    exact ⟨t, hJ x (List.mem_singleton_self x) y (List.mem_singleton_self y) z
      (List.mem_singleton_self z) t hj ht hu, rfl⟩
  | jtagged x y =>
    obtain ⟨z, hj, rfl⟩ := h
    obtain ⟨t, ht, rfl⟩ := hk
    obtain ⟨u, hu, hsame⟩ := hk'
    cases hsame
    exact ⟨t, hJ x (List.mem_singleton_self x) y (List.mem_singleton_self y) z
      (List.mem_singleton_self z) t hj ht hu, rfl⟩
  | record tag tag' fs gs =>
    -- the type of a record is its tag, whatever the fields join to
    obtain ⟨rfl, zs, -, hjoined⟩ := h
    obtain ⟨zs', rfl, -⟩ := hjoined.record_inv
    exact hk
  | function v w =>
    obtain ⟨token, x, hx, hjoined⟩ := h
    obtain ⟨y, rfl, hy⟩ := hjoined.function_inv
    exact hy.typedBy (joinSlots_typedBy hx (hk.imp fun c hc => hkeep c (.inl hc))
      (hk'.imp fun c hc => hkeep c (.inr hc)))
  | tagged os os' => exact absurd rfl (huntagged os)
  | union | error | type => exact h.elim

end

namespace Store

variable {s t u : Store} {a b m n r : NodeId} {T : Ty} {limit : Nat}

/-! ### Values with canonical types -/

/-- A value whose type is put together of canonical ones: complete, without cycles and pendings,
with normalised unions, without tagged unions, and with canonical types of scalars. -/
structure Typable (s : Store) (a : NodeId) : Prop extends s.Ground a where
  clear : s.Clear a
  untagged : ∀ n options, s.Leads a n → s.kind n ≠ .tagged options
  canonical : ∀ n v ty, s.Leads a n → s.kind n = .scalar v ty → ty.Canonical

namespace Typable

theorem leads (h : s.Typable a) (hab : s.Leads a b) : s.Typable b where
  toGround := h.toGround.reaches (reaches_of_leads hab)
  clear n hn := h.clear n (hab.trans hn)
  untagged n options hn := h.untagged n options (hab.trans hn)
  canonical n v ty hn := h.canonical n v ty (hab.trans hn)

theorem child {c : NodeId} (h : s.Typable a) (hc : c ∈ (s.kind a).children) : s.Typable c :=
  h.leads (leads_child hc)

theorem member (h : s.Typable a) (hm : m ∈ s.members a) : s.Typable m := by
  rcases mem_members hm with hm | ⟨rfl, -⟩
  · exact h.child hm
  · exact h

end Typable

/-- What `Typable` asks of a single node. -/
def typableAt (s : Store) (n : NodeId) : Bool :=
  s.groundAt n && decide ((s.kind n).pendings = []) &&
    match s.kind n with
    | .tagged _ => false
    | .scalar _ ty => decide ty.Canonical
    | _ => true

/-- **A value is typable if a search says so.** -/
theorem Typable.of_everywhere (depth : Nat) (h : s.everywhere s.typableAt depth a = true) :
    s.Typable a := by
  have hground : ∀ n, s.typableAt n = true → s.groundAt n = true := by
    intro n hn
    rw [typableAt, Bool.and_eq_true, Bool.and_eq_true] at hn
    exact hn.1.1
  refine ⟨.of_everywhere depth hground h, fun n hn => ?_, fun n os hn hk => ?_,
    fun n v ty hn hk => ?_⟩
  · have hat := leads_of_everywhere h hn
    rw [typableAt, Bool.and_eq_true, Bool.and_eq_true] at hat
    exact of_decide_eq_true hat.1.2
  · have hat := leads_of_everywhere h hn
    rw [typableAt, hk, Bool.and_false] at hat
    exact nomatch hat
  · have hat := leads_of_everywhere h hn
    rw [typableAt, hk, Bool.and_eq_true] at hat
    exact of_decide_eq_true hat.2

/-- **Types are canonical** where those of scalars are, outside of slots. -/
theorem HasType.canonical_of {P : NodeId → Prop} (h : s.HasType n T) (hn : P n)
    (hscalar : ∀ m v ty, P m → s.kind m = .scalar v ty → ty.Canonical)
    (hstep : ∀ m, P m → (s.kind m).slot? = none → ∀ c ∈ (s.kind m).children, P c) :
    T.Canonical := by
  induction h with
  | @intro n T R _ h ih =>
    -- unions and tagged values take the union of what is below them
    have hunion : ∀ {ts : List Ty}, (∀ t ∈ ts, ∃ c ∈ (s.kind n).children, R c t) →
        (s.kind n).slot? = none → Ty.union? ts = some T → T.Canonical := by
      intro ts hts hslotless hT
      refine ((Ty.union?_eq_some_iff fun t ht => Ty.Canonical.wellFormed ?_).mp hT).1
      obtain ⟨c, hc, hct⟩ := hts t ht
      exact ih c t hct (hstep n hn hslotless c hc)
    cases hk : s.kind n with
    | scalar v ty =>
      rw [hk] at h
      exact (h : T = ty) ▸ hscalar n v ty hn hk
    | union ms =>
      rw [hk] at h hunion
      obtain ⟨ts, hts, hT⟩ := h
      exact hunion (exists_of_forall₂ hts.flip) rfl hT
    | tagged os =>
      rw [hk] at h hunion
      obtain ⟨ts, hts, hT⟩ := h
      refine hunion (fun t ht => ?_) rfl hT
      obtain ⟨o, ho, hot⟩ := exists_of_forall₂ hts.flip t ht
      exact ⟨o.2, List.mem_map_of_mem ho, hot⟩
    | function v =>
      rw [hk] at h
      cases v with
      | anything => exact Ty.canonical_of_not_union ((h : T = .anyFunction) ▸ rfl)
      | possibilities p =>
        obtain ⟨c, hc⟩ := List.exists_mem_of_ne_nil _ h.nonempty
        obtain ⟨f, -, hf⟩ := h.each c hc
        exact Ty.canonical_of_not_union hf.not_union
      | constant | pending => exact h.elim
    | record tag fs =>
      rw [hk] at h
      exact Ty.canonical_of_not_union ((h : T = .record tag) ▸ rfl)
    | type ty =>
      rw [hk] at h
      exact Ty.canonical_of_not_union ((h : T = .typeType) ▸ rfl)
    | tuple | list | array | jtagged =>
      rw [hk] at h
      obtain ⟨_, -, rfl⟩ := h
      exact Ty.canonical_of_not_union rfl
    | error e =>
      rw [hk] at h
      exact h.elim

/-- The type of a typable value is canonical. -/
theorem HasType.canonical (h : s.HasType n T) (hn : s.Typable n) : T.Canonical :=
  h.canonical_of hn (fun m v ty hm hk => hm.canonical m v ty .refl hk)
    fun _ hm _ _ hc => hm.child hc

theorem HasType.same {U : Ty} (h : s.HasType n T) (h' : s.HasType n U) (hn : s.Typable n) : T = U :=
  h.unique h' hn.clear

/-- **What a type stands for** in a union is what the types of the members stand for. -/
theorem HasType.mem_alternatives {x : Ty} (h : s.HasType n T) (hn : s.Typable n) :
    x ∈ T.alternatives ↔ ∃ m ∈ s.members n, ∃ t, s.HasType m t ∧ x ∈ t.alternatives := by
  rcases (s.kind n).isUnion_cases with ⟨ms, hk⟩ | hsingle
  · have hmembers : s.members n = ms := by rw [members, hk]
    have hform := hasType_iff.mp h
    rw [hk] at hform
    obtain ⟨ts, hts, hT⟩ := hform
    have hcanonical : ∀ t ∈ ts, t.Canonical := by
      intro t ht
      obtain ⟨m, hm, hmt⟩ := exists_of_forall₂ hts.flip t ht
      exact HasType.canonical hmt (hn.child (hk ▸ hm))
    rw [← ((Ty.union?_eq_some_iff fun t ht => (hcanonical t ht).wellFormed).mp hT).2, hmembers,
      List.mem_flatMap]
    constructor
    · rintro ⟨t, ht, hx⟩
      obtain ⟨m, hm, hmt⟩ := exists_of_forall₂ hts.flip t ht
      exact ⟨m, hm, t, hmt, hx⟩
    · rintro ⟨m, hm, t, hmt, hx⟩
      obtain ⟨t', ht', hmt'⟩ := exists_of_forall₂ hts m hm
      exact ⟨t', ht', hmt.same hmt' (hn.child (hk ▸ hm)) ▸ hx⟩
  · rw [members_of_not_union hsingle]
    constructor
    · exact fun hx => ⟨n, List.mem_singleton_self n, T, h, hx⟩
    · rintro ⟨m, hm, t, hmt, hx⟩
      obtain rfl := List.mem_singleton.mp hm
      exact hmt.same h hn ▸ hx

/-- Members of a typed value have types. -/
theorem HasType.member (h : s.HasType n T) (hm : m ∈ s.members n) : ∃ t, s.HasType m t := by
  rw [members] at hm
  split at hm
  · next ms hk =>
    have hform := hasType_iff.mp h
    rw [hk] at hform
    obtain ⟨ts, hts, -⟩ := hform
    obtain ⟨t, -, ht⟩ := exists_of_forall₂ hts m hm
    exact ⟨t, ht⟩
  · exact ⟨T, List.mem_singleton.mp hm ▸ h⟩

/-- **A union of members of two values of one type** has that type, if none of the members of the
left one is missing. -/
theorem hasType_of_members {ms : List NodeId} (hgrows : s.Grows u) (ha : s.Typable a)
    (hb : s.Typable b) (hTa : s.HasType a T) (hTb : s.HasType b T) (hk : u.kind r = .union ms)
    (hleft : ∀ m ∈ s.members a, m ∈ ms)
    (hms : ∀ m ∈ ms, m ∈ s.members a ∨ m ∈ s.members b) : u.HasType r T := by
  have htypable : ∀ m ∈ ms, s.Typable m := fun m hm => (hms m hm).elim ha.member hb.member
  have htypes : ∀ m ∈ ms, ∃ t, s.HasType m t := fun m hm =>
    (hms m hm).elim hTa.member hTb.member
  choose! type htype using htypes
  have hunion : Ty.union? (ms.map type) = some T := by
    refine (Ty.union?_eq_some_iff fun t ht => Ty.Canonical.wellFormed ?_).mpr
      ⟨hTa.canonical ha, fun x => ?_⟩
    · obtain ⟨m, hm, rfl⟩ := List.mem_map.mp ht
      exact (htype m hm).canonical (htypable m hm)
    rw [List.mem_flatMap]
    constructor
    · rintro ⟨t, ht, hx⟩
      obtain ⟨m, hm, rfl⟩ := List.mem_map.mp ht
      rcases hms m hm with hma | hmb
      · exact (hTa.mem_alternatives ha).mpr ⟨m, hma, type m, htype m hm, hx⟩
      · exact (hTb.mem_alternatives hb).mpr ⟨m, hmb, type m, htype m hm, hx⟩
    · intro hx
      -- what the type stands for comes from a member of the left one, and none of these is missing
      obtain ⟨m, hm, t, hmt, hx⟩ := (hTa.mem_alternatives ha).mp hx
      have hsame := hmt.same (htype m (hleft m hm)) (ha.member hm)
      exact ⟨type m, List.mem_map_of_mem (hleft m hm), hsame ▸ hx⟩
  refine hasType_iff.mpr ?_
  rw [hk]
  refine ⟨ms.map type,
    List.forall₂_map_right_iff.mpr (List.forall₂_same.mpr fun m hm => ?_), hunion⟩
  exact hgrows.hasType (htypable m hm).toGround.founded (htype m hm)

/-! ### Merges -/

/-- **Values of one type join to a value of that type.** -/
theorem Joined.hasType (hgrows : s.Grows u) (h : s.Joined u limit a b r) :
    s.Typable a → s.Typable b → ∀ T, s.HasType a T → s.HasType b T → u.HasType r T := by
  induction h with
  | same => exact fun ha _ T hT _ => hgrows.hasType ha.toGround.founded hT
  | @step a b r J _ _ hstep ih =>
    intro ha hb T hTa hTb
    have hleft : u.HasType a T := hgrows.hasType ha.toGround.founded hTa
    rw [JoinStep] at hstep
    split at hstep
    · exact hstep ▸ hgrows.hasType hb.toGround.founded hTb
    split at hstep
    · exact hstep ▸ hleft
    split at hstep
    · split at hstep
      · exact hstep ▸ hleft
      · obtain ⟨ms, hk, hperm⟩ := hstep.union_inv
        refine hasType_of_members hgrows ha hb hTa hTb hk (fun m hm => ?_) fun m hm => ?_
        · exact hperm.mem_iff.mpr (prefix_addNew.subset hm)
        · exact mem_of_mem_addNew (hperm.mem_iff.mp hm)
    · refine hasType_iff.mpr (hstep.typedBy (fun os => ha.untagged a os .refl)
        (hasType_iff.mp hTa) (hasType_iff.mp hTb) (fun c hc t ht => ?_)
          fun x hx y hy z _ t hj => ih x y z hj (ha.child hx) (hb.child hy) t)
      have hc : s.Typable c := hc.elim ha.child hb.child
      exact hgrows.hasType hc.toGround.founded ht

end Store

namespace Infer

variable {s t : Store} {a b r : NodeId} {T : Ty}

end Infer

end ValueInference
