/-
What broadening makes of a value.

The walk makes a form anew where something in it changes, and gives the node itself back where
nothing does; then it leaves the store as it is.  A value without cycles meets no node again while
the work on it goes on, so no placeholder is handed out and every form that is made is final.

* **`Store.Broadening`** — what the walk keeps;
* **`Store.Opened.runs_byForm`** — every form gives a broadened node;
* **`Store.walkRules_broaden`** — every visit of the walk is answered with one;
* **`Infer.outcome_broaden`** — a broadening succeeds, and gives a broad value back itself.
-/
import ValueInference.Proofs.Broadened

namespace ValueInference

namespace Store

variable {s t : Store} {v m n out : NodeId} {k : Kind} {ms new : List NodeId}
  {stack : List NodeId} {σ τ υ : Scene} {base fuel : Nat}

/-! ### Making nodes -/

/-- **A form without a fault** gives a node. -/
theorem Whole.exists_made (hs : s.Whole) (hfault : s.fault? k = none)
    (hslot : ∀ slot, k.slot? = some slot → s.AdmitsSlot slot) :
    ∃ out t, (Infer.make k).outcome s = (.ok out, t) ∧ s.Made t k out ∧ t.Whole := by
  rcases hplace : s.place k with ⟨out, t⟩
  have hbuild : s.build k = (.ok out, t) := by rw [build, hfault, hplace]
  have hmake := Infer.outcome_make_of_place hfault hplace
  have ht : (Change.build k).apply s = t := congrArg Prod.snd hbuild
  have hwhole : ((Change.build k).apply s).Whole :=
    hs.evolves (.change s _) (hs.sound.change _ hslot)
  exact ⟨out, t, hmake, make_spec hs.sound hslot hmake, ht ▸ hwhole⟩

/-! ### The invariant -/

/-- The answer about a node: what it is without its constants, and the node itself if it has
none. -/
structure Broadens (s : Store) (σ : Scene) (out n : NodeId) : Prop where
  founded : s.Founded n
  broadened : σ.store.Broadened out n
  same : s.Broad n → out = n

/-- What the walk keeps while it is inside of the nodes on the stack. -/
structure Broadening (s : Store) (stack : List NodeId) (σ : Scene) : Prop where
  whole : σ.store.Whole
  grows : s.Grows σ.store
  inside : σ.memo.inside = stack
  /-- No placeholder has been handed out. -/
  quiet : ∀ m ph, σ.memo.inProgress.lookup m ≠ some (some ph)
  results : ∀ m out, σ.memo.done.lookup m = some out → s.Broadens σ out m

/-- The store has grown since a visit of the node, and only if there was something to forget. -/
structure Settling (s : Store) (n : NodeId) (σ τ : Scene) : Prop where
  grows : σ.store.Grows τ.store
  still : s.Broad n → τ.store = σ.store

instance : Std.Refl (s.Settling n) := ⟨fun _ => ⟨.refl _, fun _ => rfl⟩⟩

instance : IsTrans Scene (s.Settling n) :=
  ⟨fun _ _ _ h h' => ⟨h.grows.trans h'.grows, fun hn => (h'.still hn).trans (h.still hn)⟩⟩

theorem Broadens.later (h : s.Broadens σ out n) (hσ : s.Grows σ.store)
    (hgrows : σ.store.Grows τ.store) : s.Broadens τ out n :=
  ⟨h.founded, hgrows.broadened h.broadened (hσ.founded h.founded), h.same⟩

theorem Broadens.present (h : s.Broadens σ out n) (hσ : s.Grows σ.store) :
    out < σ.store.nodes.size :=
  (h.broadened.founded (hσ.founded h.founded)).present

theorem stays_broadens (s : Store) (stack : List NodeId) (n : NodeId) :
    Rebuild.Stays (s.Broadening stack) (s.Settling n) s.Broadens :=
  fun _ _ _ _ hσ _ hlater h => h.later hσ.grows hlater.grows

namespace Broadening

theorem of_grows (h : s.Broadening stack σ) (hgrows : σ.store.Grows t) (ht : t.Whole) :
    s.Broadening stack { σ with store := t } where
  whole := ht
  grows := h.grows.trans hgrows
  inside := h.inside
  quiet := h.quiet
  results m out hm := (h.results m out hm).later h.grows hgrows

theorem enter (h : s.Broadening stack σ) (hn : n ∉ stack) :
    s.Broadening (n :: stack) { σ with memo := σ.memo.enter n } where
  whole := h.whole
  grows := h.grows
  inside := by rw [Memo.inside_enter (h.inside ▸ hn), h.inside]
  quiet m ph hm := h.quiet m ph ((Memo.lookup_enter_eq_some (h.inside ▸ hn)).mp hm)
  results m out hm := ⟨(h.results m out hm).founded, (h.results m out hm).broadened,
    (h.results m out hm).same⟩

theorem finish (h : s.Broadening (n :: stack) σ) (hn : n ∉ stack) (hout : s.Broadens σ out n) :
    s.Broadening stack { σ with memo := (σ.memo.leave n).publish n out } where
  whole := h.whole
  grows := h.grows
  inside := Memo.inside_leave h.inside hn
  quiet m ph hm := h.quiet m ph ((Memo.lookup_leave_eq_some h.inside hn).mp hm).2
  results m result hm := by
    by_cases hmn : m = n
    · subst hmn
      obtain rfl : out = result := by
        rw [Memo.lookup_publish_self] at hm
        exact Option.some.inj hm
      exact ⟨hout.founded, hout.broadened, hout.same⟩
    · rw [Memo.lookup_publish hmn] at hm
      have hresult := h.results m result hm
      exact ⟨hresult.founded, hresult.broadened, hresult.same⟩

theorem kind_eq (h : s.Broadening stack σ) (hn : s.Founded n) : σ.store.kind n = s.kind n :=
  h.grows.kind_eq hn.present

/-- A node with nothing to forget is the answer about it. -/
theorem broadens_of_broad (h : s.Broadening stack σ) (hn : s.Founded n) (hbroad : s.Broad n) :
    s.Broadens σ n n :=
  ⟨hn, .same ((h.grows.broad_iff hn).mpr hbroad), fun _ => rfl⟩

end Broadening

/-! ### Inside of a node -/

/-- A computation runs in a walk that is inside of the nodes on the stack. -/
abbrev Walks {α : Type} (s : Store) (stack : List NodeId) (n : NodeId) (σ : Scene)
    (x : Rebuild Unit Update α) (P : Scene → α → Prop) : Prop :=
  Rebuild.Runs (s.Broadening stack) (s.Settling n) (fun _ => False) σ x P

/-- The walk is inside of a node, below which its visits run. -/
structure Opened (s : Store) (stack : List NodeId) (n : NodeId) (base : Nat) : Prop where
  founded : s.Founded n
  flat : s.Flat (s.kind n)
  formed : (s.kind n).Formed
  labelled : (s.kind n).Labelled
  visits : ∀ c ∈ (s.kind n).children, Rebuild.Visits .broaden (s.Broadening (n :: stack))
    (s.Settling c) (fun _ => False) s.Broadens base c

namespace Opened

variable {α : Type}

/-- A visit of an opened node changes nothing that a visit of the node above it must not change. -/
theorem visits_opened (h : s.Opened stack n base) (hm : m ∈ (s.kind n).opened) :
    Rebuild.Visits .broaden (s.Broadening (n :: stack)) (s.Settling n) (fun _ => False) s.Broadens
      base m :=
  fun fuel hfuel σ hσ => (h.visits m (Kind.mem_children_of_opened hm) fuel hfuel σ hσ).mono
    fun _ hlater => ⟨hlater.grows, fun hn => hlater.still (hn.child hm)⟩

/-- **A form over what its nodes become** is made anew, or its node stays. -/
theorem runs_layered [DecidableEq α] {x : Rebuild Unit Update α} {old : α} {E : α → Infer NodeId}
    {G : α → Kind} (h : s.Opened stack n base) (hlayered : (s.kind n).Layered)
    (hE : ∀ new, E new = Infer.make (G new)) (hold : (s.kind n).Reordered (G old))
    (hx : s.Walks (n :: stack) n σ x fun τ new =>
      (G new).Alike (s.Broadens τ) (s.kind n) ∧ (G new).Labelled ∧ (G new).Formed ∧
        (s.Broad n → new = old)) :
    s.Walks (n :: stack) n σ
      (x >>= fun new => if new = old then return n else Rebuild.infer (E new))
      fun τ out => s.Broadens τ out n := by
  refine hx.bind ?_
  rintro τ new hτ - ⟨halike, hlabelled, hformed, hstill⟩
  have hrigid := hlayered.rigid
  have hrigid' := hrigid.of_head halike.head_eq
  by_cases hsame : new = old
  · subst hsame
    rw [if_pos rfl]
    refine Rebuild.runs_pure hτ ⟨h.founded, ?_, fun _ => rfl⟩
    refine .form (s.Broadens τ) (fun _ _ hxy => hxy.broadened) ?_
      (hτ.grows.founded h.founded).present ?_
    · rwa [hτ.kind_eq h.founded]
    · rw [hτ.kind_eq h.founded]
      exact halike.of_reordered hold hrigid'.slotless
  · have hbelow : ∀ c ∈ (G new).children, c < τ.store.nodes.size := by
      intro c hc
      obtain ⟨d, -, hcd⟩ := halike.exists_child_of_placed hrigid.placed c hc
      exact hcd.present hτ.grows
    have hfault := fault?_of_rigid hrigid' hbelow hlabelled hformed
    obtain ⟨out, t, hout, hmade, ht⟩ := hτ.whole.exists_made hfault
      fun slot hslot => by cases hrigid'.slotless.symm.trans hslot
    have hform : (t.kind out).Alike (s.Broadens τ) (s.kind n) := by
      refine halike.of_reordered (hmade.reordered fun ms hunion => ?_) hrigid'.slotless
      have hhead := hmade.alike.head_eq
      rw [hunion] at hhead
      cases (hrigid'.of_head hhead).single
    rw [if_neg hsame, hE]
    refine Rebuild.runs_infer hout (hτ.of_grows hmade.grows ht)
      ⟨hmade.grows, fun hbroad => absurd (hstill hbroad) hsame⟩
      ⟨h.founded, ?_, fun hbroad => absurd (hstill hbroad) hsame⟩
    have hkind : t.kind n = s.kind n := (hτ.grows.trans hmade.grows).kind_eq h.founded.present
    refine .form t.Broadened (fun _ _ => id) (hkind.symm ▸ hlayered) hmade.present ?_
    rw [hkind]
    exact hform.imp fun a _ b _ hab =>
      hmade.grows.broadened hab.broadened (hτ.grows.founded hab.founded)

/-- **A scalar** loses its constant, if that is known. -/
theorem runs_scalar {value : Slot} {ty : Ty} {inner : Visitor (Rebuild Unit Update)}
    (h : s.Opened stack n base) (hk : s.kind n = .scalar value ty)
    (hσ : s.Broadening (n :: stack) σ) :
    s.Walks (n :: stack) n σ ((Variant.broaden (m := Update)).scalar inner n value ty)
      fun τ out => s.Broadens τ out n := by
  refine (Rebuild.runs_store hσ).bind fun τ u hτ _ ⟨hsame, hu⟩ => ?_
  subst hsame hu
  have hnone : ∀ {P : NodeId → Prop}, ∀ c ∈ (s.kind n).opened, P c := by
    rw [hk]
    intro P c hc
    replace hc := Kind.mem_children_of_opened hc
    have hformed := h.formed
    rw [hk] at hformed
    rw [hformed.children_scalar] at hc
    exact absurd hc List.not_mem_nil
  rw [hτ.grows.broadenSlot_eq]
  by_cases hsame : s.broadenSlot value = value
  · have hbroad : s.Broad n := by
      refine broad_of_opened (fun w u hwu => ?_) hnone
      obtain ⟨rfl, -⟩ := Kind.scalar.inj (hk.symm.trans hwu)
      exact hsame
    rw [if_pos hsame]
    exact Rebuild.runs_pure hτ (hτ.broadens_of_broad h.founded hbroad)
  · rw [if_neg hsame, broadenSlot_of_ne hsame]
    have hnot : ¬ s.Broad n := fun hbroad => hsame (hbroad n value ty .refl hk)
    have hfault : τ.store.fault? (.scalar .anything ty) = none := rfl
    obtain ⟨out, t, hout, hmade, ht⟩ := hτ.whole.exists_made hfault
      fun slot hslot p hp => nomatch (Option.some.inj hslot).trans hp
    refine Rebuild.runs_infer hout (hτ.of_grows hmade.grows ht)
      ⟨hmade.grows, fun hbroad => absurd hbroad hnot⟩
      ⟨h.founded, ?_, fun hbroad => absurd hbroad hnot⟩
    have hkind : t.kind n = s.kind n := (hτ.grows.trans hmade.grows).kind_eq h.founded.present
    exact .scalar (hkind.trans hk) hmade.alike.eq_scalar

/-! ### Unions -/

/-- Nodes that have nothing to forget are answered with themselves. -/
theorem eq_of_broadens (hnew : List.Forall₂ (s.Broadens σ) new ms) (hms : ∀ m ∈ ms, s.Broad m) :
    new = ms :=
  List.forall₂_eq_eq_eq ▸ forall₂_imp_mem hnew fun _ _ m hm hxm => hxm.same (hms m hm)

theorem eq_of_broadens_labelled {δ : Type} {fields fields' : List (δ × NodeId)}
    (hnew : List.Forall₂ (SameLabel (s.Broadens σ)) fields' fields)
    (hfields : ∀ x ∈ fields, s.Broad x.2) : fields' = fields :=
  List.forall₂_eq_eq_eq ▸ forall₂_imp_mem hnew fun _ _ x hx hyx =>
    Prod.ext hyx.1 (hyx.2.same (hfields x hx))

/-- What is kept of the broadened members. -/
theorem kept_of_thinned {ds : List NodeId} (hσ : s.Broadening stack σ)
    (hleft : Thinned σ.store.equal ds new) (hnew : List.Forall₂ (s.Broadens σ) new ms) :
    σ.store.Kept σ.store.Broadened ds ms where
  distinct := hleft.distinct
  covered m hm := by
    obtain ⟨x, hx, hxm⟩ := exists_of_forall₂ hnew.flip m hm
    obtain ⟨d, hd, hdx⟩ := hleft.covered x hx
    refine ⟨d, hd, x, ?_, hxm.broadened⟩
    have hpresent : ∀ y ∈ new, y < σ.store.nodes.size := fun y hy =>
      (exists_of_forall₂ hnew y hy).elim fun _ hym => hym.2.present hσ.grows
    rcases hdx with rfl | hequal
    · exact equalIn_refl (hpresent d hx)
    · exact ⟨hpresent d (hleft.sublist.subset hd), hpresent x hx, hequal⟩
  used d hd := by
    obtain ⟨m, hm, hdm⟩ := exists_of_forall₂ hnew d (hleft.sublist.subset hd)
    exact ⟨m, hm, hdm.broadened⟩

/-- A union whose members have not changed has nothing to forget. -/
theorem broad_of_members (hk : s.kind n = .union ms)
    (hσ : s.Broadening (n :: stack) σ) (hms : ∀ m ∈ ms, s.Broadens σ m m) : s.Broad n := by
  refine broad_of_opened (fun v ty hscalar => nomatch hk.symm.trans hscalar) fun m hm => ?_
  have hbroadens := hms m (by rwa [hk] at hm)
  exact (hσ.grows.broad_iff hbroadens.founded).mp hbroadens.broadened.broad

/-- **Several members that are kept** make a union. -/
theorem exists_union {ds : List NodeId} (h : s.Opened stack n base) (hk : s.kind n = .union ms)
    (hσ : s.Broadening (n :: stack) σ) (hleft : Thinned σ.store.equal ds new)
    (hnew : List.Forall₂ (s.Broadens σ) new ms) (hseveral : 2 ≤ ds.length) :
    ∃ out t, (Infer.make (.union (σ.store.sortMembers ds))).outcome σ.store = (.ok out, t) ∧
      σ.store.Grows t ∧ t.Whole ∧ t.Broadened out n := by
  have hsorted := σ.store.sortMembers_perm ds
  have hused : ∀ d ∈ σ.store.sortMembers ds, ∃ m ∈ ms, s.Broadens σ d m := fun d hd =>
    exists_of_forall₂ hnew d (hleft.sublist.subset (hsorted.mem_iff.mp hd))
  have hfault : σ.store.fault? (.union (σ.store.sortMembers ds)) = none := by
    refine fault?_eq_none (knows_iff.mpr ⟨fun d hd => ?_, fun _ hp => ?_⟩) trivial ?_
      (fun _ _ hscalar => nomatch hscalar) fun _ hunion d hd => ?_
    · obtain ⟨m, -, hdm⟩ := hused d hd
      exact hdm.present hσ.grows
    · exact absurd hp List.not_mem_nil
    · show 2 ≤ (σ.store.sortMembers ds).length
      rwa [hsorted.length_eq]
    · obtain rfl := Kind.union.inj hunion
      obtain ⟨m, hm, hdm⟩ := hused d hd
      refine hdm.broadened.isUnion_eq_false ?_
      rw [hσ.kind_eq hdm.founded]
      exact h.flat ms hk m hm
  obtain ⟨out, t, hout, hmade, ht⟩ := hσ.whole.exists_made hfault
    fun _ hslot => nomatch hslot
  refine ⟨out, t, hout, hmade.grows, ht, ?_⟩
  have hkept := kept_of_thinned hσ hleft hnew
  have hfounded : ∀ m ∈ ms, σ.store.Founded m := fun m hm =>
    hσ.grows.founded (h.founded.child (by rwa [hk]))
  -- an interned union may list its members in another order
  have hunites : ∃ ns, t.kind out = .union ns ∧ (∀ c ∈ ns, c ∈ ds) ∧ (ns.Nodup → ns.Perm ds) := by
    have halike := hmade.alike
    cases hform : t.kind out with
    | union ns =>
      refine ⟨ns, rfl, fun c hc => hsorted.mem_iff.mp (hmade.below c (by rwa [hform])), ?_⟩
      intro hnodup
      have hreordered := hmade.reordered fun ns' hns' =>
        Kind.union.inj (hform.symm.trans hns') ▸ hnodup
      obtain ⟨ns', hns', hperm⟩ := hreordered.union_inv
      exact Kind.union.inj (hform.symm.trans hns') ▸ hperm.trans hsorted
    | _ =>
      rw [hform] at halike
      exact halike.elim
  have hkind : t.kind n = .union ms := by
    rw [(hσ.grows.trans hmade.grows).kind_eq h.founded.present, hk]
  refine .union t.Broadened (fun _ _ => id) hkind (hkept.later hmade.grows fun x m hm hxm => ?_)
    (.inr hunites)
  exact ⟨hxm.founded (hfounded m hm), hmade.grows.broadened hxm (hfounded m hm)⟩

/-- **A union** is put together anew of what its members become. -/
theorem runs_union (h : s.Opened stack n base) (hk : s.kind n = .union ms) (hfuel : base < fuel)
    (hσ : s.Broadening (n :: stack) σ) :
    s.Walks (n :: stack) n σ
      (ms.mapM ((Variant.broaden (m := Update)).visitor fuel).visit >>= fun new =>
        if new = ms then return n else Rebuild.infer (Infer.union new))
      fun τ out => s.Broadens τ out n := by
  have hvisits : ∀ m ∈ ms, Rebuild.Visits .broaden (s.Broadening (n :: stack)) (s.Settling n)
      (fun _ => False) s.Broadens base m := fun m hm => h.visits_opened (by rwa [hk])
  refine (Rebuild.runs_visits (stays_broadens s _ n) hvisits hfuel hσ).bind
    fun τ new hτ _ hnew => ?_
  by_cases hsame : new = ms
  · subst hsame
    rw [if_pos rfl]
    have hbroad := broad_of_members hk hτ (List.forall₂_same.mp hnew)
    exact Rebuild.runs_pure hτ (hτ.broadens_of_broad h.founded hbroad)
  have hnot : ¬ s.Broad n := fun hbroad => hsame (eq_of_broadens hnew fun m hm =>
    hbroad.child (by rwa [hk]))
  have hkind : τ.store.kind n = .union ms := (hτ.kind_eq h.founded).trans hk
  have hleft : Thinned τ.store.equal (τ.store.distinctMembers new) new := by
    refine thinned_distinctMembers fun x hx => ?_
    obtain ⟨m, hm, hxm⟩ := exists_of_forall₂ hnew x hx
    refine hxm.broadened.isUnion_eq_false ?_
    rw [hτ.kind_eq hxm.founded]
    exact h.flat ms hk m hm
  rw [if_neg hsame]
  match hds : τ.store.distinctMembers new with
  | [] =>
    have hsome : new ≠ [] := by
      rintro rfl
      have hseveral := h.formed
      rw [hk, List.forall₂_nil_left_iff.mp hnew] at hseveral
      exact absurd hseveral (by simp [Kind.Formed])
    exact absurd hds (hleft.ne_nil hsome)
  | [c] =>
    -- all members have become equal, and nothing is made
    rw [hds] at hleft
    have hkept := kept_of_thinned hτ hleft hnew
    refine Rebuild.runs_infer (Infer.outcome_union_single hds) hτ (refl_of (s.Settling n) τ) ?_
    exact ⟨h.founded, .union τ.store.Broadened (fun _ _ => id) hkind hkept (.inl rfl),
      fun hbroad => absurd hbroad hnot⟩
  | _ :: _ :: _ =>
    have hlength : 2 ≤ (τ.store.distinctMembers new).length := by
      rw [hds]
      simp
    obtain ⟨out, t, hout, hgrows, ht, hbroadened⟩ := h.exists_union hk hτ hleft hnew hlength
    refine Rebuild.runs_infer ((Infer.outcome_union_several hlength).trans hout)
      (hτ.of_grows hgrows ht) ⟨hgrows, fun hbroad => absurd hbroad hnot⟩ ?_
    exact ⟨h.founded, hbroadened, fun hbroad => absurd hbroad hnot⟩

/-! ### All forms -/

/-- **Every form** gives a broadened node. -/
theorem runs_byForm (h : s.Opened stack n base) (hfuel : base < fuel)
    (hσ : s.Broadening (n :: stack) σ) :
    s.Walks (n :: stack) n σ
      (Rebuild.byForm .broaden ((Variant.broaden (m := Update)).visitor fuel) n)
      fun τ out => s.Broadens τ out n := by
  have hlabelled := h.labelled
  have hformed := h.formed
  have hstays := stays_broadens s (n :: stack) n
  refine (Rebuild.runs_store hσ).bind fun τ u hτ _ ⟨hsame, hu⟩ => ?_
  subst hsame hu
  rw [hτ.kind_eq h.founded]
  -- a form that is not opened is broad as it is
  have hleaf : (s.kind n).opened = [] → (∀ w u, s.kind n ≠ .scalar w u) →
      s.Walks (n :: stack) n τ (return n) fun τ out => s.Broadens τ out n := by
    intro hopened hnoscalar
    refine Rebuild.runs_pure hτ (hτ.broadens_of_broad h.founded ?_)
    refine broad_of_opened (fun w u hk => absurd hk (hnoscalar w u)) ?_
    rw [hopened]
    exact fun _ hc => absurd hc List.not_mem_nil
  have hsingle : ∀ {item}, (s.kind n).opened = [item] → s.Walks (n :: stack) n τ
      (((Variant.broaden (m := Update)).visitor fuel).visit item)
      fun υ out => s.Broadens υ out item := by
    intro item hitem
    exact h.visits_opened (hitem ▸ List.mem_singleton_self item) fuel hfuel τ hτ
  rcases hk : s.kind n with ⟨value, ty⟩ | items | item | ⟨item, shape⟩ | ⟨tag, fields⟩ | members |
    options | slot | inner | reason | ty
  all_goals rw [hk] at hlabelled hformed
  case scalar => exact h.runs_scalar hk hτ
  case tuple =>
    refine h.runs_layered (G := .tuple) (by rw [hk]; trivial) (fun _ => rfl)
      (by rw [hk]; exact .same _) ((Rebuild.runs_visits hstays (fun c hc => ?_) hfuel hτ).imp ?_)
    · exact h.visits_opened (by rwa [hk])
    · refine fun υ new _ hnew => ⟨by rw [hk]; exact hnew, trivial, trivial, fun hbroad => ?_⟩
      exact eq_of_broadens hnew fun c hc => hbroad.child (by rwa [hk])
  case list =>
    refine h.runs_layered (G := .list) (by rw [hk]; trivial) (fun _ => rfl)
      (by rw [hk]; exact .same _) ((hsingle (by rw [hk]; rfl)).imp fun υ new _ hnew => ?_)
    refine ⟨by rw [hk]; exact hnew, trivial, trivial, fun hbroad => hnew.same (hbroad.child ?_)⟩
    rw [hk]
    exact List.mem_cons_self
  case array =>
    refine h.runs_layered (G := fun new => .array new shape) (by rw [hk]; trivial)
      (fun _ => rfl) (by rw [hk]; exact .same _)
      ((hsingle (by rw [hk]; rfl)).imp fun υ new _ hnew => ?_)
    refine ⟨by rw [hk]; exact ⟨rfl, hnew⟩, trivial, trivial,
      fun hbroad => hnew.same (hbroad.child ?_)⟩
    rw [hk]
    exact List.mem_cons_self
  case record =>
    have hfields : ∀ x ∈ fields, x.2 ∈ (s.kind n).opened := fun x hx => by
      rw [hk]
      exact List.mem_map_of_mem hx
    refine h.runs_layered (G := .record tag) (by rw [hk]; trivial) (fun _ => rfl)
      (by rw [hk]; exact .same _) ((Rebuild.runs_fields hstays (fun x hx => ?_) hfuel hτ).imp ?_)
    · exact h.visits_opened (hfields x hx)
    · exact fun υ new _ hnew => ⟨by rw [hk]; exact ⟨rfl, matches_of_forall₂ hnew⟩,
        labelled_of_forall₂ hnew hlabelled, trivial,
        fun hbroad => eq_of_broadens_labelled hnew fun x hx => hbroad.child (hfields x hx)⟩
  case union => exact h.runs_union hk hfuel hτ
  case tagged =>
    have hoptions : ∀ x ∈ options, x.2 ∈ (s.kind n).opened := fun x hx => by
      rw [hk]
      exact List.mem_map_of_mem hx
    have hsorted := stableSort_perm fun a b : UInt32 × NodeId => decide (a.1 ≤ b.1)
    refine h.runs_layered (G := fun new => .tagged (stableSort (fun a b => a.1 ≤ b.1) new))
      (by rw [hk]; trivial) (fun _ => rfl) (by rw [hk]; exact .tagged (hsorted _).symm)
      ((Rebuild.runs_fields hstays (fun x hx => ?_) hfuel hτ).imp ?_)
    · exact h.visits_opened (hoptions x hx)
    · intro υ new _ hnew
      rw [hk]
      obtain ⟨halike, hlabels, hsome⟩ := tagged_of_forall₂ hnew (hsorted new) hlabelled hformed
      exact ⟨halike, hlabels, hsome,
        fun hbroad => eq_of_broadens_labelled hnew fun x hx => hbroad.child (hoptions x hx)⟩
  case function => exact hleaf (by rw [hk]; rfl) (by simp [hk])
  case jtagged =>
    refine h.runs_layered (G := .jtagged) (by rw [hk]; trivial) (fun _ => rfl)
      (by rw [hk]; exact .same _) ((hsingle (by rw [hk]; rfl)).imp fun υ new _ hnew => ?_)
    refine ⟨by rw [hk]; exact hnew, trivial, trivial, fun hbroad => hnew.same (hbroad.child ?_)⟩
    rw [hk]
    exact List.mem_cons_self
  case error => exact hleaf (by rw [hk]; rfl) (by simp [hk])
  case type => exact hleaf (by rw [hk]; rfl) (by simp [hk])

end Opened

/-! ### The walk -/

/-- **Every visit of the walk** is answered with a broadened node. -/
theorem walkRules_broaden (hs : s.Whole) (hv : s.Founded v)
    (hflat : s.FlatBelow v) :
    Rebuild.WalkRules s v .broaden s.Broadening s.Settling (fun _ _ => False)
      fun _ => s.Broadens := by
  refine ⟨fun n => refl_of (s.Settling n), fun hσ => hσ.inside,
    fun hσ hdone => hσ.results _ _ hdone, fun _ hσ hph => absurd hph (hσ.quiet _ _), ?_, ?_⟩
  · intro stack σ n htrail hnext hmem _ _
    exact absurd (hv.leads (htrail.leads_root hnext))
      (not_founded_of_cycle (htrail.below_of_reentry hnext hmem))
  · intro stack σ n base fuel htrail hσ _ hbelow hfuel
    have hlead := htrail.leads_mem List.mem_cons_self
    have hentered : s.Opened stack n base :=
      ⟨hv.leads hlead, hflat n hlead, hs.formed n, hs.sound.labelled n, hbelow⟩
    have hn : n ∉ stack := (List.nodup_cons.mp htrail.nodup).1
    obtain ⟨out, τ, hgives, hτ, hlater, hout⟩ :=
      (hentered.runs_byForm (show base < fuel by omega) (hσ.enter hn)).gives
    refine .inl ⟨out, τ, out, { τ with memo := (τ.memo.leave n).publish n out }, hgives, ?_,
      hτ.finish hn hout, ⟨hlater.grows, hlater.still⟩, hout.founded, hout.broadened, hout.same⟩
    exact Rebuild.gives_conclude_quiet (join_lookup_eq_none (hτ.quiet n))

end Store

namespace Infer

variable {s : Store} {n : NodeId}

/-- **A broadening of a value without cycles** succeeds.  It gives the value itself and leaves the
store as it is, if there is nothing to forget. -/
theorem outcome_broaden (hs : s.Whole) (hn : s.Founded n)
    (hflat : s.FlatBelow n) :
    ∃ out t, (broaden n).outcome s = (.ok out, t) ∧ s.Grows t ∧ t.Whole ∧
      t.Broadened out n ∧ (s.Broad n → out = n ∧ t = s) := by
  have hstart : s.Broadening [] ⟨fun _ _ => False, {}, s⟩ :=
    ⟨hs, .refl s, rfl, nofun, nofun⟩
  obtain ⟨out, τ, hgives, hτ, hlater, hout⟩ :=
    ((Store.walkRules_broaden hs hn hflat).visits hs.sound hn.present .nil rfl s.walkDepth
      s.spare_lt_walkDepth _ hstart).gives
  exact ⟨out, τ.store, outcome_rebuild hgives, hτ.grows, hτ.whole, hout.broadened,
    fun hbroad => ⟨hout.same hbroad, hlater.still hbroad⟩⟩

end Infer

end ValueInference
