/-
Coverage is transitive.

Where the left value and the middle one are regular, equality composes with coverage on either
side: equal forms admit each other, and equal unions have members that are equal in pairs.  The
induction is over three values at once.  Each step goes down in at least one of them, as a union
on any side is covered member by member while the other sides stay where they are.

* **`Store.Regular.formCovers_of_equals`** — equal values cover each other by the rules alone,
  unless they are errors or types;
* **`Store.Regular.members_of_covers`** — coverage of reached values is coverage of the members;
* **`Store.Regular.covers_trans`** — coverage composes.
-/
import ValueInference.Proofs.Equivalence

namespace ValueInference

namespace Store

variable {s : Store} {a b c : NodeId}

/-! ### Slots -/

/-- Equal slots cover each other. -/
theorem Regular.slotCovers_of_alike {v w : Slot} (hs : s.Sound) (ha : s.Regular a)
    (hb : s.Closed b) (hv : (s.kind a).slot? = some v) (hw : (s.kind b).slot? = some w)
    (h : v.Alike s.Equals w) : s.SlotCovers v w := by
  have hsettled := ha.closed.settled hv
  have hapart : v.Apart s.Equals w := ha.apart_slots hs hb.founded
    (fun x hx => (ha.child hx).equivalent hs) hv hw
  cases v with
  | possibilities p =>
    cases w with
    | possibilities q =>
      have hfounded := foundedIn_candidatesOf hsettled
      rw [SlotCovers, resolve_self _ (.possibilities p) rfl, resolve_self _ (.possibilities q) rfl]
      rw [resolve_self _ (.possibilities p) rfl] at hfounded
      refine .inr ⟨by simp, (isSubset_iff hfounded).mpr fun d hd => ?_⟩
      rcases h with htoken | hmatch
      · exact ⟨d, by rwa [Infer.candidatesOf, hapart.1 htoken], s.alike_refl d⟩
      · exact (hmatch.flip hapart.2).2 d hd
    | _ => exact h.elim
  | anything => exact .inl (s.resolve_self .anything rfl)
  | constant x =>
    cases w with
    | constant y =>
      obtain rfl : x = y := h
      exact slotCovers_refl hsettled
    | _ => exact h.elim
  | pending p =>
    cases w with
    | pending q =>
      obtain rfl : p = q := h
      exact slotCovers_refl hsettled
    | _ => exact h.elim

/-- A node in what a slot of a regular value stands for is regular. -/
theorem Regular.of_candidate {v : Slot} {d : Candidate} {n : NodeId} (ha : s.Regular a)
    (hv : (s.kind a).slot? = some v) (hd : d ∈ Infer.candidatesOf (s.resolve v))
    (hn : n ∈ d.children) : s.Regular n :=
  ha.reaches (.single (mem_mentions_of_slot hv (mem_children_of_candidate hd hn)))

theorem Regular.slotCovers_trans {u v w : Slot} (hs : s.Sound) (ha : s.Regular a)
    (hu : (s.kind a).slot? = some u) (hv : s.Settled v) (hw : s.Settled w)
    (h : s.SlotCovers u v) (h' : s.SlotCovers v w) : s.SlotCovers u w := by
  rcases h with h | ⟨hne, hsub⟩
  · exact .inl h
  rcases h' with h' | ⟨hne', hsub'⟩
  · exact absurd h' hne
  have hfu := foundedIn_candidatesOf (ha.closed.settled hu)
  have hfv := foundedIn_candidatesOf hv
  have hfw := foundedIn_candidatesOf hw
  refine .inr ⟨hne', (isSubset_iff hfu).mpr fun e he => ?_⟩
  obtain ⟨d, hd, hde⟩ := (isSubset_iff hfv).mp hsub' e he
  obtain ⟨x, hx, hxd⟩ := (isSubset_iff hfu).mp hsub d hd
  have hmid : x.Alike (fun m n => s.Equals m n ∧ s.Founded n) d :=
    hxd.imp fun m _ n hn hmn => ⟨hmn, hfv d hd n hn⟩
  refine ⟨x, hx, (hmid.comp hde).imp fun m hm o ho hmo => ?_⟩
  obtain ⟨n, ⟨hmn, hn⟩, hno⟩ := hmo
  exact ((ha.of_candidate hu hx hm).equivalent hs).trans n o hn (hfw e he o ho) hmn hno

/-! ### Equal values -/

/-- Two labelled lists that match cover each other label by label. -/
theorem exists_lookup_of_matches {β : Type} [BEq β] [LawfulBEq β] {R : NodeId → NodeId → Prop}
    {xs ys : List (β × NodeId)} (h : Matches (SameLabel R) xs ys)
    (hys : (ys.map Prod.fst).Nodup) : ∀ x ∈ xs, ∃ n, ys.lookup x.1 = some n ∧ R x.2 n := by
  intro x hx
  obtain ⟨y, hy, hlabel, hxy⟩ := h.2 x hx
  exact ⟨y.2, (lookup_iff_mem hys).mpr (hlabel ▸ hy), hxy⟩

/-- **Alike forms admit each other**, unless they are errors or types. -/
theorem admits_of_alike {C : Slot → Slot → Prop} {R : NodeId → NodeId → Prop} {U : Prop}
    {k k' : Kind} (hk : k.Labelled) (hk' : k'.Labelled)
    (hslot : ∀ v w, k.slot? = some v → k'.slot? = some w → v.Alike R w → C v w)
    (hunion : ∀ as bs, k = .union as → k' = .union bs → Matches R as bs → U)
    (h : k.Alike R k') : k.Admits C R U k' ∨
      (∃ r, k = .error r ∧ k' = .error r) ∨ ∃ t, k = .type t ∧ k' = .type t := by
  cases h.sameForm with
  | scalar v w t u => exact .inl ⟨.inl h.1, hslot v w rfl rfl h.2⟩
  | tuple as bs => exact .inl h
  | list x y => exact .inl h
  | array x y shape shape' => exact .inl h
  | record tag tag' fs gs => exact .inl ⟨h.1, h.2.1, exists_lookup_of_matches h.2 hk'⟩
  | union as bs => exact .inl (hunion as bs rfl rfl h)
  | tagged as bs =>
    -- options are asked for from the right, so the matching is read that way
    have hflip : Matches (SameLabel fun y x => R x y) bs as :=
      (Matches.flip h (apartIn_of_labels hk)).imp fun _ _ _ _ hxy => ⟨hxy.1.symm, hxy.2⟩
    exact .inl (exists_lookup_of_matches hflip hk)
  | function v w => exact .inl (hslot v w rfl rfl h)
  | jtagged x y => exact .inl h
  | error r r' =>
    obtain rfl : r = r' := h
    exact .inr (.inl ⟨r, rfl, rfl⟩)
  | type t u =>
    obtain rfl : t = u := h
    exact .inr (.inr ⟨t, rfl, rfl⟩)

/-- Forms with equal nodes admit each other, unless they are errors or types. -/
theorem formCovers_of_alike {k k' : Kind} {ms ns : List NodeId} (hk : k.Labelled)
    (hk' : k'.Labelled)
    (hslot : ∀ v w, k.slot? = some v → k'.slot? = some w → v.Alike s.Equals w → s.SlotCovers v w)
    (hunion : ∀ as bs, k = .union as → k' = .union bs → Matches s.Equals as bs →
      ∀ n ∈ ns, ∃ m ∈ ms, s.Equals m n) (h : k.Alike s.Equals k') :
    s.FormCovers s.Covers ms ns k k' ∨
      (∃ r, k = .error r ∧ k' = .error r) ∨ ∃ t, k = .type t ∧ k' = .type t := by
  refine (admits_of_alike hk hk' hslot hunion h).imp_left fun hadmits => ?_
  rw [← formCovers_eq_admits] at hadmits
  exact hadmits.imp (fun _ _ _ _ => covers_of_equals) fun _ _ _ _ _ => covers_of_equals

/-- The members of equal unions are equal in pairs, also from the right. -/
theorem Regular.members_of_alike {as bs : List NodeId} (hs : s.Sound) (ha : s.Regular a)
    (hb : s.Founded b) (hka : s.kind a = .union as) (hkb : s.kind b = .union bs)
    (h : Matches s.Equals as bs) : ∀ n ∈ s.members b, ∃ m ∈ s.members a, s.Equals m n := by
  have hapart := ha.apart hs hb fun x hx => (ha.child hx).equivalent hs
  rw [hka, hkb] at hapart
  have hma : s.members a = as := by rw [members, hka]
  have hmb : s.members b = bs := by rw [members, hkb]
  rw [hma, hmb]
  exact (Matches.flip h hapart).2

/-- **Equal values cover each other by the rules alone**, unless they are errors or types. -/
theorem Regular.formCovers_of_equals (hs : s.Sound) (ha : s.Regular a) (hb : s.Closed b)
    (h : s.Equals a b) :
    s.FormCovers s.Covers (s.members a) (s.members b) (s.kind a) (s.kind b) ∨
      (∃ r, s.kind a = .error r ∧ s.kind b = .error r) ∨
        ∃ t, s.kind a = .type t ∧ s.kind b = .type t :=
  formCovers_of_alike (hs.labelled a) (hs.labelled b)
    (fun _ _ hv hw => ha.slotCovers_of_alike hs hb hv hw)
    (fun _ _ hka hkb => ha.members_of_alike hs hb.founded hka hkb)
    (alike_of_equals ha.founded h)

/-! ### Members -/

/-- **Coverage of reached values is coverage of the members.** -/
theorem Regular.members_of_covers (hs : s.Sound) (ha : s.Regular a) (hb : s.Closed b)
    (hlive : s.kind b ≠ .error .dead) (h : s.Covers a b) :
    ∀ n ∈ s.members b, ∃ m ∈ s.members a, s.Covers m n := by
  by_cases hunion : (s.kind a).isUnion = true ∨ (s.kind b).isUnion = true
  · have hform : s.FormCovers s.Covers (s.members a) (s.members b) (s.kind a) (s.kind b) := by
      rcases covers_iff.mp h with heq | hstep
      · rcases ha.formCovers_of_equals hs hb heq with hform | ⟨r, hra, hrb⟩ | ⟨t, hta, htb⟩
        · exact hform
        · rw [hra, hrb] at hunion
          exact absurd hunion (by simp [Kind.isUnion])
        · rw [hta, htb] at hunion
          exact absurd hunion (by simp [Kind.isUnion])
      · exact hstep.2.resolve_left hlive
    exact (formCovers_members hunion).mp hform
  · obtain ⟨hna, hnb⟩ := not_or.mp hunion
    rw [members_of_not_union (Bool.eq_false_iff.mpr hna),
      members_of_not_union (Bool.eq_false_iff.mpr hnb)]
    intro n hn
    exact ⟨a, List.mem_singleton_self a, List.mem_singleton.mp hn ▸ h⟩

theorem covers_of_members (hlive : s.kind a ≠ .error .dead)
    (h : ∀ n ∈ s.members b, ∃ m ∈ s.members a, s.Covers m n) : s.Covers a b := by
  by_cases hunion : (s.kind a).isUnion = true ∨ (s.kind b).isUnion = true
  · exact covers_of_step ⟨hlive, .inr ((formCovers_members hunion).mpr h)⟩
  · obtain ⟨hna, hnb⟩ := not_or.mp hunion
    rw [members_of_not_union (Bool.eq_false_iff.mpr hna),
      members_of_not_union (Bool.eq_false_iff.mpr hnb)] at h
    obtain ⟨m, hm, hmb⟩ := h b (List.mem_singleton_self b)
    exact List.mem_singleton.mp hm ▸ hmb

/-! ### Composition -/

/-- What admits a form that admits another one admits that one too, if no form is a union. -/
theorem formCovers_trans {ls ms ns : List NodeId} {k₁ k₂ k₃ : Kind}
    (h₁ : k₁.isUnion = false) (h₂ : k₂.isUnion = false) (h₃ : k₃.isUnion = false)
    (hslot : ∀ u v w, k₁.slot? = some u → k₂.slot? = some v → k₃.slot? = some w →
      s.SlotCovers u v → s.SlotCovers v w → s.SlotCovers u w)
    (hbelow : ∀ x ∈ k₁.children, ∀ y ∈ k₂.children, ∀ z ∈ k₃.children,
      s.Covers x y → s.Covers y z → s.Covers x z)
    (h : s.FormCovers s.Covers ls ms k₁ k₂) (h' : s.FormCovers s.Covers ms ns k₂ k₃) :
    s.FormCovers s.Covers ls ns k₁ k₃ := by
  cases h.sameForm h₁ h₂ with
  | scalar u v t' t =>
    cases h'.sameForm h₂ h₃ with | scalar _ w _ t'' =>
    refine ⟨?_, hslot u v w rfl rfl rfl h.2 h'.2⟩
    rcases h.1 with rfl | hany
    · exact h'.1
    · exact .inr hany
  | tuple xs ys =>
    cases h'.sameForm h₂ h₃ with | tuple _ zs =>
    have hmid : List.Forall₂ (fun x y => s.Covers x y ∧ y ∈ ys) xs ys :=
      forall₂_imp_mem h fun _ _ y hy hxy => ⟨hxy, hy⟩
    refine forall₂_imp_mem (forall₂_comp hmid h') fun x hx z hz hxz => ?_
    obtain ⟨y, ⟨hxy, hy⟩, hyz⟩ := hxz
    exact hbelow x hx y hy z hz hxy hyz
  | list x y =>
    cases h'.sameForm h₂ h₃ with | list _ z =>
    exact hbelow x (List.mem_singleton_self x) y (List.mem_singleton_self y) z
      (List.mem_singleton_self z) h h'
  | array x y shape' shape =>
    cases h'.sameForm h₂ h₃ with | array _ z _ shape'' =>
    exact ⟨h.1.trans h'.1, hbelow x (List.mem_singleton_self x) y (List.mem_singleton_self y) z
      (List.mem_singleton_self z) h.2 h'.2⟩
  | record tag' tag fs gs =>
    cases h'.sameForm h₂ h₃ with | record _ tag'' _ es =>
    refine ⟨h.1.trans h'.1, h.2.1.trans h'.2.1, fun f hf => ?_⟩
    obtain ⟨y, hy, hfy⟩ := h.2.2 f hf
    obtain ⟨z, hz, hyz⟩ := h'.2.2 (f.1, y) (mem_of_lookup hy)
    exact ⟨z, hz, hbelow f.2 (List.mem_map_of_mem hf) y (mem_snd_of_lookup hy) z
      (mem_snd_of_lookup hz) hfy hyz⟩
  | union as bs => exact nomatch h₁
  | tagged xs ys =>
    cases h'.sameForm h₂ h₃ with | tagged _ zs =>
    intro o ho
    obtain ⟨y, hy, hyo⟩ := h' o ho
    obtain ⟨x, hx, hxy⟩ := h (o.1, y) (mem_of_lookup hy)
    exact ⟨x, hx, hbelow x (mem_snd_of_lookup hx) y (mem_snd_of_lookup hy) o.2
      (List.mem_map_of_mem ho) hxy hyo⟩
  | function u v =>
    cases h'.sameForm h₂ h₃ with | function _ w =>
    exact hslot u v w rfl rfl rfl h h'
  | jtagged x y =>
    cases h'.sameForm h₂ h₃ with | jtagged _ z =>
    exact hbelow x (List.mem_singleton_self x) y (List.mem_singleton_self y) z
      (List.mem_singleton_self z) h h'
  | error r r' => exact h.elim
  | type t u => exact h.elim

/-- The triples that a composition of coverage over `a`, `b` and `c` comes down to: each node is
the one above or stands directly below it, and at least one stands below. -/
def Narrows (s : Store) (a b c x y z : NodeId) : Prop :=
  (x = a ∨ x ∈ (s.kind a).children) ∧ (y = b ∨ y ∈ (s.kind b).children) ∧
    (z = c ∨ z ∈ (s.kind c).children) ∧
      (x ∈ (s.kind a).children ∨ y ∈ (s.kind b).children ∨ z ∈ (s.kind c).children)

/-- Induction over three values of which the last one need not be regular. -/
theorem Regular.induct {motive : NodeId → NodeId → NodeId → Prop} (ha : s.Regular a)
    (hb : s.Regular b) (hc : s.Closed c)
    (hstep : ∀ x y z, s.Regular x → s.Regular y → s.Closed z →
      (∀ l m n, s.Narrows x y z l m n → s.Regular l → s.Regular m → s.Closed n → motive l m n) →
        motive x y z) : motive a b c := by
  suffices hdeep : ∀ fuel i j k x y z, i + j + k ≤ fuel → s.Regular x → s.Regular y →
      s.Closed z → s.EndsWithin i x → s.EndsWithin j y → s.EndsWithin k z → motive x y z from
    hdeep _ _ _ _ a b c (Nat.le_refl _) ha hb hc ha.founded hb.founded hc.founded
  intro fuel
  induction fuel with
  | zero =>
    intro i j k x y z hsum _ _ _ hx
    obtain ⟨i, rfl, -⟩ := hx.below
    omega
  | succ fuel ih =>
    intro i j k x y z hsum hrx hry hcz hx hy hz
    refine hstep x y z hrx hry hcz fun l m n hnarrow hrl hrm hcn => ?_
    -- the bound for a node is that of the one above, or one less for a node below
    have hbound : ∀ {i : Nat} {x l : NodeId}, s.EndsWithin i x →
        l = x ∨ l ∈ (s.kind x).children →
          ∃ j, s.EndsWithin j l ∧ j ≤ i ∧ (l ∈ (s.kind x).children → j < i) := by
      intro i x l hx hl
      obtain ⟨j, rfl, hbelow⟩ := hx.below
      by_cases hchild : l ∈ (s.kind x).children
      · exact ⟨j, hbelow l hchild, Nat.le_succ j, fun _ => Nat.lt_succ_self j⟩
      · exact ⟨j + 1, hl.resolve_right hchild ▸ hx, Nat.le_refl _, fun h => absurd h hchild⟩
    obtain ⟨hl, hm, hn, hsome⟩ := hnarrow
    obtain ⟨i', hi, hile, hilt⟩ := hbound hx hl
    obtain ⟨j', hj, hjle, hjlt⟩ := hbound hy hm
    obtain ⟨k', hk, hkle, hklt⟩ := hbound hz hn
    refine ih i' j' k' l m n ?_ hrl hrm hcn hi hj hk
    rcases hsome with h | h | h
    · have := hilt h
      omega
    · have := hjlt h
      omega
    · have := hklt h
      omega

theorem Regular.member {m : NodeId} (h : s.Regular a) (hm : m ∈ s.members a) : s.Regular m := by
  rcases mem_members hm with hm | ⟨rfl, -⟩
  · exact h.child hm
  · exact h

/-- Members of three values, of which one is a union, are narrower than the values. -/
theorem narrows_members {x y z : NodeId}
    (hunion : (s.kind a).isUnion = true ∨ (s.kind b).isUnion = true ∨ (s.kind c).isUnion = true)
    (hx : x ∈ s.members a) (hy : y ∈ s.members b) (hz : z ∈ s.members c) :
    s.Narrows a b c x y z := by
  have hmember : ∀ {a x : NodeId}, x ∈ s.members a → (x = a ∨ x ∈ (s.kind a).children) ∧
      ((s.kind a).isUnion = true → x ∈ (s.kind a).children) := by
    intro a x hx
    rcases mem_members hx with hx | ⟨rfl, hnot⟩
    · exact ⟨.inr hx, fun _ => hx⟩
    · exact ⟨.inl rfl, fun h => absurd (h.symm.trans hnot) (by simp)⟩
  refine ⟨(hmember hx).1, (hmember hy).1, (hmember hz).1, ?_⟩
  exact hunion.imp (hmember hx).2 fun h => h.imp (hmember hy).2 (hmember hz).2

/-- Apart from unions, no form admits an error or a type, and these admit no form. -/
theorem FormCovers.not_atom {R : NodeId → NodeId → Prop} {ms ns : List NodeId} {k k' : Kind}
    (h : s.FormCovers R ms ns k k') (hk : k.isUnion = false) (hk' : k'.isUnion = false) :
    ((∀ r, k ≠ .error r) ∧ ∀ t, k ≠ .type t) ∧ (∀ r, k' ≠ .error r) ∧ ∀ t, k' ≠ .type t := by
  cases h.sameForm hk hk' with
  | error r r' => exact h.elim
  | type t u => exact h.elim
  | _ => exact ⟨⟨nofun, nofun⟩, nofun, nofun⟩

/-- A value that is never reached covers its equals only. -/
theorem equals_of_dead (ha : s.Founded a) (hdead : s.kind a = .error .dead)
    (h : s.Covers a b) : s.Equals a b ∧ s.kind b = .error .dead := by
  rcases covers_iff.mp h with heq | hstep
  · have halike := alike_of_equals ha heq
    rw [hdead] at halike
    refine ⟨heq, ?_⟩
    rcases hk : s.kind b with _ | _ | _ | _ | _ | _ | _ | _ | _ | r | _
    all_goals rw [hk] at halike
    case error => exact congrArg Kind.error (Eq.symm halike)
    all_goals exact halike.elim
  · exact absurd hdead hstep.1

/-- Composition for values that are reached and no unions. -/
theorem Regular.trans_of_forms (hs : s.Sound) (ha : s.Regular a) (hb : s.Regular b)
    (hc : s.Closed c) (hka : (s.kind a).isUnion = false) (hkb : (s.kind b).isUnion = false)
    (hkc : (s.kind c).isUnion = false) (hla : s.kind a ≠ .error .dead)
    (hlb : s.kind b ≠ .error .dead) (hlc : s.kind c ≠ .error .dead)
    (hbelow : ∀ x ∈ (s.kind a).children, ∀ y ∈ (s.kind b).children, ∀ z ∈ (s.kind c).children,
      s.Covers x y → s.Covers y z → s.Covers x z)
    (h : s.Covers a b) (h' : s.Covers b c) : s.Covers a c := by
  have hcompose : s.FormCovers s.Covers (s.members a) (s.members b) (s.kind a) (s.kind b) →
      s.FormCovers s.Covers (s.members b) (s.members c) (s.kind b) (s.kind c) →
        s.Covers a c := by
    intro hab hbc
    refine covers_of_step ⟨hla, .inr (formCovers_trans hka hkb hkc ?_ hbelow hab hbc)⟩
    exact fun u v w hu hv hw =>
      ha.slotCovers_trans hs hu (hb.closed.settled hv) (hc.settled hw)
  rcases covers_iff.mp h with heq | hstep
  · rcases covers_iff.mp h' with heq' | hstep'
    · exact covers_of_equals ((ha.equivalent hs).trans b c hb.founded hc.founded heq heq')
    · have hbc := hstep'.2.resolve_left hlc
      obtain ⟨⟨herror, htype⟩, -⟩ := hbc.not_atom hkb hkc
      rcases ha.formCovers_of_equals hs hb.closed heq with hab | ⟨r, -, hr⟩ | ⟨t, -, ht⟩
      · exact hcompose hab hbc
      · exact absurd hr (herror r)
      · exact absurd ht (htype t)
  · have hab := hstep.2.resolve_left hlb
    rcases covers_iff.mp h' with heq' | hstep'
    · obtain ⟨-, herror, htype⟩ := hab.not_atom hka hkb
      rcases hb.formCovers_of_equals hs hc heq' with hbc | ⟨r, hr, -⟩ | ⟨t, ht, -⟩
      · exact hcompose hab hbc
      · exact absurd hr (herror r)
      · exact absurd ht (htype t)
    · exact hcompose hab (hstep'.2.resolve_left hlc)

/-- **Coverage composes** where the left value and the middle one are regular. -/
theorem Regular.covers_trans (hs : s.Sound) (ha : s.Regular a) (hb : s.Regular b)
    (hc : s.Closed c) (h : s.Covers a b) (h' : s.Covers b c) : s.Covers a c := by
  refine ha.induct (motive := fun a b c => s.Covers a b → s.Covers b c → s.Covers a c) hb hc ?_ h h'
  intro x y z hx hy hz ih h h'
  by_cases hlx : s.kind x = .error .dead
  · obtain ⟨heq, hly⟩ := equals_of_dead hx.founded hlx h
    obtain ⟨heq', -⟩ := equals_of_dead hy.founded hly h'
    exact covers_of_equals ((hx.equivalent hs).trans y z hy.founded hz.founded heq heq')
  by_cases hlz : s.kind z = .error .dead
  · exact covers_of_step ⟨hlx, .inl hlz⟩
  have hly : s.kind y ≠ .error .dead := fun hly => hlz (equals_of_dead hy.founded hly h').2
  by_cases hunion : (s.kind x).isUnion = true ∨ (s.kind y).isUnion = true ∨
      (s.kind z).isUnion = true
  · refine covers_of_members hlx fun o ho => ?_
    obtain ⟨n, hn, hno⟩ := hy.members_of_covers hs hz hlz h' o ho
    obtain ⟨m, hm, hmn⟩ := hx.members_of_covers hs hy.closed hly h n hn
    exact ⟨m, hm, ih m n o (narrows_members hunion hm hn ho) (hx.member hm) (hy.member hn)
      (hz.member ho) hmn hno⟩
  · obtain ⟨hnx, hrest⟩ := not_or.mp hunion
    obtain ⟨hny, hnz⟩ := not_or.mp hrest
    refine hx.trans_of_forms hs hy hz (Bool.eq_false_iff.mpr hnx) (Bool.eq_false_iff.mpr hny)
      (Bool.eq_false_iff.mpr hnz) hlx hly hlz (fun l hl m hm n hn => ?_) h h'
    exact ih l m n ⟨.inr hl, .inr hm, .inr hn, .inl hl⟩ (hx.child hl) (hy.child hm) (hz.child hn)

end Store

end ValueInference
