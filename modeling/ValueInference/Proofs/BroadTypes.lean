/-
Broadened values keep their types.

A scalar keeps its type when its constant is forgotten, and the type of a form depends only on the
types of the nodes in it.  The type of a union depends only on which types its members have, so it
does not matter which of two equal members is kept.  Equal values have the same types, too, where no
two members are matched with one.

* **`Store.SameTypes`** — nodes with the same types, or none;
* **`Store.typedBy_of_alike`** — forms over such nodes have the same types;
* **`Store.sameTypes_of_equalIn`** — so have equal nodes;
* **`Store.Generalises.sameTypes`** — and a node and what it is broadened to.
-/
import ValueInference.Proofs.Generalised
import ValueInference.Proofs.Rewriting
import ValueInference.Proofs.SameType

namespace ValueInference

/-- What is related to things on one side is related to those that stand for them. -/
theorem forall₂_of_forall₂ {α β : Type} {R : α → β → Prop} {E : α → α → Prop} {as bs : List α}
    {ts : List β} (h : List.Forall₂ R as ts) (hE : List.Forall₂ E bs as)
    (hR : ∀ a b t, E b a → R a t → R b t) : List.Forall₂ R bs ts :=
  (forall₂_comp hE h).imp fun b t ⟨a, hba, hat⟩ => hR a b t hba hat

/-- References over nodes with the types of others have the types of those. -/
theorem FunctionRef.TypedBy.of_alike {R : NodeId → Ty → Prop} {E : NodeId → NodeId → Prop}
    (hE : ∀ a b t, E b a → R a t → R b t) {f g : FunctionRef} {T : Ty} (h : f.TypedBy R T)
    (halike : g.Alike E f) : g.TypedBy R T := by
  induction halike using FunctionRef.Alike.rule_induction generalizing T with
  | primitive | graph => exact h
  | typed prim args' args output' output hargs houtput =>
    obtain ⟨params, result, hparams, hresult, rfl⟩ := h
    exact ⟨params, result, forall₂_of_forall₂ hparams hargs hE, hE _ _ _ houtput hresult, rfl⟩
  | virtual args' args output' output hargs houtput =>
    obtain ⟨params, result, hparams, hresult, rfl⟩ := h
    exact ⟨params, result, forall₂_of_forall₂ hparams hargs hE, hE _ _ _ houtput hresult, rfl⟩
  | partialApp func' func args' args hfunc hargs ih =>
    obtain ⟨u, hu, hT⟩ := h
    exact ⟨u, ih hu, hargs.length_eq ▸ hT⟩

namespace Store

variable {s : Store} {d m n : NodeId} {k k' : Kind} {ms ns : List NodeId} {T U : Ty}

/-! ### Nodes with the same types -/

/-- The nodes have the same types when slots are followed. -/
def SameTypes (s : Store) (m n : NodeId) : Prop :=
  ∀ T, s.followed.HasType m T ↔ s.followed.HasType n T

theorem SameTypes.symm (h : s.SameTypes m n) : s.SameTypes n m := fun T => (h T).symm

theorem hasType_followed_iff :
    s.followed.HasType n T ↔ ((s.kind n).mapSlot s.resolve).TypedBy s.followed.HasType T := by
  rw [hasType_iff, kind_followed]

theorem HasType.unique_followed (h : s.followed.HasType n T) (h' : s.followed.HasType n U) :
    T = U :=
  Except.ok.inj ((typeOf_iff_followed.mpr h).symm.trans (typeOf_iff_followed.mpr h'))

/-- Nodes that stand for each other have the same types between them. -/
theorem exists_types {ts : List Ty} (h : List.Forall₂ s.followed.HasType ms ts)
    (hms : ∀ m ∈ ms, ∃ n ∈ ns, s.SameTypes m n) (hns : ∀ n ∈ ns, ∃ m ∈ ms, s.SameTypes n m) :
    ∃ us, List.Forall₂ s.followed.HasType ns us ∧ ∀ t, t ∈ ts ↔ t ∈ us := by
  have htypes : ∀ n ∈ ns, ∃ t ∈ ts, s.followed.HasType n t := by
    intro n hn
    obtain ⟨m, hm, hnm⟩ := hns n hn
    obtain ⟨t, ht, hmt⟩ := exists_of_forall₂ h m hm
    exact ⟨t, ht, (hnm t).mpr hmt⟩
  choose! type hmem htype using htypes
  refine ⟨ns.map type,
    List.forall₂_map_right_iff.mpr (List.forall₂_same.mpr htype), fun t => ⟨fun ht => ?_, ?_⟩⟩
  · obtain ⟨m, hm, hmt⟩ := exists_of_forall₂ h.flip t ht
    obtain ⟨n, hn, hmn⟩ := hms m hm
    have hsame := ((hmn t).mp hmt).unique_followed (htype n hn)
    exact hsame ▸ List.mem_map_of_mem hn
  · intro ht
    obtain ⟨n, hn, rfl⟩ := List.mem_map.mp ht
    exact hmem n hn

/-- A union of types of nodes that stand for each other is the same. -/
theorem exists_union_types (hms : ∀ m ∈ ms, ∃ n ∈ ns, s.SameTypes m n)
    (hns : ∀ n ∈ ns, ∃ m ∈ ms, s.SameTypes n m)
    (h : ∃ ts, List.Forall₂ s.followed.HasType ms ts ∧ Ty.union? ts = some T) :
    ∃ us, List.Forall₂ s.followed.HasType ns us ∧ Ty.union? us = some T := by
  obtain ⟨ts, hts, hT⟩ := h
  obtain ⟨us, hus, hsame⟩ := exists_types hts hms hns
  have hunion : Ty.union? ts = Ty.union? us :=
    Ty.union?_congr fun t => by simp only [List.mem_flatMap, hsame]
  exact ⟨us, hus, hunion ▸ hT⟩

/-- Candidates have a type that all of those have for which they stand. -/
theorem allTypedBy_of_matches {cs ds : List Candidate}
    (h : Candidate.AllTypedBy s.followed.HasType cs T)
    (hmatch : Matches (Candidate.Alike s.SameTypes) ds cs) :
    Candidate.AllTypedBy s.followed.HasType ds T := by
  refine ⟨fun hnil => h.nonempty ?_, fun d hd => ?_⟩
  · rw [← List.length_eq_zero_iff, ← hmatch.1, hnil]
    rfl
  · obtain ⟨c, hc, hdc⟩ := hmatch.2 d hd
    obtain ⟨f, rfl, hf⟩ := h.each c hc
    cases d with
    | constant x => exact hdc.elim
    | function g => exact ⟨g, rfl, hf.of_alike (fun a b t hba => (hba t).mpr) hdc⟩

/-- Functions have a type that functions have for which they stand. -/
theorem function_typedBy_of_alike {v w : Slot}
    (hcoherent : (Kind.function w).Coherent (.function v)) (h : v.Alike s.SameTypes w)
    (hback : w.Alike s.SameTypes v)
    (hT : (Kind.function (s.resolve v)).TypedBy s.followed.HasType T) :
    (Kind.function (s.resolve w)).TypedBy s.followed.HasType T := by
  cases v with
  | anything =>
    cases w with
    | anything => exact hT
    | _ => exact h.elim
  | pending p =>
    cases w with
    | pending q => exact (h : p = q) ▸ hT
    | _ => exact h.elim
  | constant c =>
    rw [s.resolve_self _ rfl] at hT
    exact hT.elim
  | possibilities p =>
    cases w with
    | possibilities q =>
      rw [s.resolve_self _ rfl] at hT ⊢
      -- sets with one token are one set, and their candidates are not compared
      rcases hback with htoken | hmatch
      · have hsame := hcoherent _ _ rfl rfl q p rfl rfl htoken
        show Candidate.AllTypedBy _ q.candidates T
        exact hsame ▸ hT
      · exact allTypedBy_of_matches hT hmatch
    | _ => exact h.elim

/-- Tagged unions have the union of the types of their options, whatever the tags are. -/
theorem tagged_typedBy_iff {options : List (UInt32 × NodeId)} {R : NodeId → Ty → Prop} :
    (Kind.tagged options).TypedBy R T ↔
      ∃ ts, List.Forall₂ R (options.map Prod.snd) ts ∧ Ty.union? ts = some T :=
  exists_congr fun _ => and_congr_left fun _ => List.forall₂_map_left_iff.symm

/-- **Forms over nodes with the same types** have the same types. -/
theorem typedBy_of_alike (hcoherent : k'.Coherent k) (h : k.Alike s.SameTypes k')
    (hback : k'.Alike s.SameTypes k)
    (hT : (k.mapSlot s.resolve).TypedBy s.followed.HasType T) :
    (k'.mapSlot s.resolve).TypedBy s.followed.HasType T := by
  have hE : ∀ a b t, s.SameTypes b a → s.followed.HasType a t → s.followed.HasType b t :=
    fun _ _ t hba => (hba t).mpr
  cases h.sameForm with
  | scalar v w t u => exact hT.trans h.1
  | tuple as bs =>
    obtain ⟨ts, hts, rfl⟩ := hT
    exact ⟨ts, forall₂_of_forall₂ hts hback hE, rfl⟩
  | list x y =>
    obtain ⟨u, hu, rfl⟩ := hT
    exact ⟨u, (h u).mp hu, rfl⟩
  | array x y shape shape' =>
    obtain ⟨u, hu, rfl⟩ := hT
    exact ⟨u, (h.2 u).mp hu, rfl⟩
  | record tag tag' fs gs => exact hT.trans (congrArg Ty.record h.1)
  | union as bs => exact exists_union_types h.2 hback.2 hT
  | tagged as bs =>
    have hnodes : ∀ {xs ys : List (UInt32 × NodeId)}, Matches (SameLabel s.SameTypes) xs ys →
        ∀ a ∈ xs.map Prod.snd, ∃ b ∈ ys.map Prod.snd, s.SameTypes a b := by
      intro xs ys hmatch a ha
      obtain ⟨x, hx, rfl⟩ := List.mem_map.mp ha
      obtain ⟨y, hy, -, hxy⟩ := hmatch.2 x hx
      exact ⟨y.2, List.mem_map_of_mem hy, hxy⟩
    exact tagged_typedBy_iff.mpr
      (exists_union_types (hnodes h) (hnodes hback) (tagged_typedBy_iff.mp hT))
  | function v w => exact function_typedBy_of_alike hcoherent h hback hT
  | jtagged x y =>
    obtain ⟨u, hu, rfl⟩ := hT
    exact ⟨u, (h u).mp hu, rfl⟩
  | error r r' => exact hT.elim
  | type t u => exact hT

theorem sameTypes_of_alike (hs : s.Sound) (h : (s.kind m).Alike s.SameTypes (s.kind n))
    (hback : (s.kind n).Alike s.SameTypes (s.kind m)) : s.SameTypes m n := by
  intro T
  rw [hasType_followed_iff, hasType_followed_iff]
  exact ⟨typedBy_of_alike (hs.coherent n m) h hback, typedBy_of_alike (hs.coherent m n) hback h⟩

/-- **Equal nodes have the same types**, if nothing in one of them is matched twice. -/
theorem sameTypes_of_equalIn (hs : s.Whole) (hm : s.Founded m) (hdm : s.Discernible m)
    (h : s.EqualIn m n) : s.SameTypes m n := by
  refine hm.induct (motive := fun m => s.Discernible m → ∀ n, s.EqualIn m n → s.SameTypes m n)
    (fun m hm ih hdm n h => ?_) hdm n h
  have halike := alike_of_equalIn hs.sound h
  -- the comparison looks for partners from the left only
  have hback := halike.flip (hdm.apart hs.sound (hs.formed m)
    (fun y hy _ => hs.balanced (hm.leads hy) (hdm.leads hy)) n)
  refine sameTypes_of_alike hs.sound (halike.imp fun a ha b _ hab => ?_)
    (hback.imp fun b _ a ha hab => ?_)
  · exact ih a ha (hdm.leads (leads_child ha)) b hab
  · exact (ih a ha (hdm.leads (leads_child ha)) b hab).symm

/-! ### Canonical types -/

/-- The types of the scalars in the value are canonical. -/
def CanonicalScalars (s : Store) (n : NodeId) : Prop :=
  ∀ m v ty, s.Leads n m → s.kind m = .scalar v ty → ty.Canonical

theorem CanonicalScalars.child (h : s.CanonicalScalars n) (hm : m ∈ (s.kind n).children) :
    s.CanonicalScalars m :=
  fun l v ty hl => h l v ty (.head hm hl)

/-- The type of a value whose scalars have canonical types is canonical. -/
theorem CanonicalScalars.canonical (h : s.CanonicalScalars n) (hT : s.followed.HasType n T) :
    T.Canonical := by
  refine hT.canonical_of h (fun m v ty hm hk => ?_) fun m hm hslotless c hc => ?_
  · rw [kind_followed] at hk
    cases hform : s.kind m with
    | scalar w u =>
      rw [hform, Kind.mapSlot] at hk
      obtain ⟨-, rfl⟩ := Kind.scalar.inj hk
      exact hm m w u .refl hform
    | _ =>
      rw [hform] at hk
      cases hk
  · rw [kind_followed, Kind.slot?_mapSlot, Option.map_eq_none_iff] at hslotless
    rw [kind_followed, Kind.mapSlot_of_slotless hslotless] at hc
    exact hm.child hc

/-- The type of a node is the union of the types of its members, where those are canonical. -/
theorem hasType_iff_members
    (hcanonical : ∀ m ∈ s.members d, ∀ t, s.followed.HasType m t → t.Canonical) :
    s.followed.HasType d T ↔
      ∃ ts, List.Forall₂ s.followed.HasType (s.members d) ts ∧ Ty.union? ts = some T := by
  cases hk : s.kind d with
  | union ms => rw [hasType_followed_iff, hk, members, hk]; rfl
  | _ =>
    rw [members_of_not_union (by rw [hk]; rfl)] at hcanonical ⊢
    have hunion : ∀ {t}, s.followed.HasType d t → Ty.union? [t] = some t := by
      intro t ht
      have ht := hcanonical d (List.mem_singleton_self d) t ht
      exact (Ty.union?_eq_some_iff (by simpa using ht.wellFormed)).mpr ⟨ht, by simp⟩
    constructor
    · exact fun h => ⟨[T], .cons h .nil, hunion h⟩
    · rintro ⟨ts, hts, hT⟩
      cases hts with
      | cons ht hnil =>
        cases hnil
        rw [hunion ht] at hT
        exact Option.some.inj hT ▸ ht

/-! ### Broadened values -/

/-- **A value and what it is broadened to** have the same types. -/
theorem Generalises.sameTypes (hs : s.Whole) (hd : s.Founded d) (hdd : s.Discernible d)
    (hn : s.Founded n) (hscalars : s.CanonicalScalars n) (hflat : s.FlatBelow n)
    (h : s.Generalises d n) : s.SameTypes d n := by
  refine hn.induct (motive := fun n => s.CanonicalScalars n → s.FlatBelow n →
    ∀ d, s.Founded d → s.Discernible d → s.Generalises d n → s.SameTypes d n)
    (fun n hn ih hscalars hflat d hd hdd h => ?_) hscalars hflat d hd hdd h
  have hbelow : ∀ c ∈ (s.kind n).children, ∀ e, s.Leads d e → s.Generalises e c →
      s.SameTypes e c := fun c hc e he =>
    ih c hc (hscalars.child hc) (hflat.child hc) e (hd.leads he) (hdd.leads he)
  rcases (s.kind n).isUnion_cases with ⟨ms, hk⟩ | hsingle
  · rcases h.members hs hd hdd hk (hflat.here ms hk) with hequal | ⟨htaken, hused⟩
    · exact sameTypes_of_equalIn hs hd hdd hequal
    have hmembers : ∀ e ∈ s.members d, ∀ m ∈ ms, s.Generalises e m → s.SameTypes e m := by
      intro e he m hm
      refine hbelow m (by rwa [hk]) e ?_
      rcases mem_members he with he | ⟨rfl, -⟩
      · exact leads_child he
      · exact .refl
    have hfrom : ∀ e ∈ s.members d, ∃ m ∈ ms, s.SameTypes e m := by
      intro e he
      obtain ⟨m, hm, hem⟩ := hused e he
      exact ⟨m, hm, hmembers e he m hm hem⟩
    have hinto : ∀ m ∈ ms, ∃ e ∈ s.members d, s.SameTypes m e := by
      intro m hm
      obtain ⟨e, he, hem⟩ := htaken m hm
      exact ⟨e, he, (hmembers e he m hm hem).symm⟩
    -- what is left of the union need not be one, so its type is taken for that of its only member
    have hcanonical : ∀ e ∈ s.members d, ∀ t, s.followed.HasType e t → t.Canonical := by
      intro e he t ht
      obtain ⟨m, hm, hem⟩ := hfrom e he
      exact (hscalars.child (by rwa [hk])).canonical ((hem t).mp ht)
    intro T
    rw [hasType_iff_members hcanonical, hasType_followed_iff, hk]
    exact ⟨exists_union_types hfrom hinto, exists_union_types hinto hfrom⟩
  · rcases h.alike hs.sound hsingle with hequal | ⟨v, ty, hkd, hk⟩ | ⟨hlayered, hpairs⟩
    · exact sameTypes_of_equalIn hs hd hdd hequal
    · intro T
      rw [hasType_followed_iff, hasType_followed_iff, hkd, hk]
      rfl
    · have hsame : (s.kind d).Alike s.SameTypes (s.kind n) :=
        hpairs.imp fun e he m hm hem => hbelow m hm e (leads_child he) hem
      have hback := hsame.flip_of_placed (hs.sound.labelled d) hlayered.rigid.placed
      exact sameTypes_of_alike hs.sound hsame (hback.imp fun _ _ _ _ hab => hab.symm)

end Store

end ValueInference
