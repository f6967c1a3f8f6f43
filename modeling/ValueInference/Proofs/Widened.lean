/-
What a relaxed merge gives.

* **`Store.Widened`** — a merge of `a` and `b` has led from one store to another and has given `r`:
  the value `r` covers both if no union in it lists a member twice, and it is `a` itself only if
  `a` covered `b` already;
* **`Store.Widened.later`**, **`Store.Widened.earlier`** — it stays so in stores that grow, at both
  ends;
* **`Infer.mergeEach_widened`**, **`Infer.mergeFields_widened`**, **`Infer.mergeOptions_widened`** —
  relaxed merges of the parts of a value.
-/
import ValueInference.Proofs.WidenedSlots

namespace ValueInference

namespace Store

variable {s t u : Store} {a b r : NodeId}

/-! ### Plain values -/

/-- No union in the value lists a member twice. -/
def Plain (s : Store) (a : NodeId) : Prop :=
  ∀ n ms, n = a ∨ s.Below n a → s.kind n = .union ms → ms.Nodup

/-- Whether a node is no union that lists a member twice. -/
def plainAt (s : Store) (n : NodeId) : Bool :=
  match s.kind n with
  | .union ms => decide ms.Nodup
  | _ => true

theorem Plain.of_everywhere (depth : Nat) (h : s.everywhere s.plainAt depth a = true) :
    s.Plain a := by
  intro n ms hn hms
  have hreach : s.Reaches a n := by
    rcases hn with rfl | hn
    · exact .refl
    · exact reaches_of_below hn
  obtain ⟨d, hd⟩ := everywhere_reaches h hreach
  have hat := here_of_everywhere hd
  rw [plainAt, hms] at hat
  exact of_decide_eq_true hat

theorem Plain.child {c : NodeId} (h : s.Plain a) (hc : c ∈ (s.kind a).children) : s.Plain c := by
  intro n ms hn
  refine h n ms (.inr ?_)
  rcases hn with rfl | hn
  · exact .single hc
  · exact hn.trans (.single hc)

theorem Plain.here {ms : List NodeId} (h : s.Plain a) (ha : s.kind a = .union ms) : ms.Nodup :=
  h a ms (.inl rfl) ha

theorem Grows.below {n : NodeId} (h : s.Grows t) (ha : s.Founded a) (hn : s.Below n a) :
    t.Below n a ∧ s.Founded n := by
  induction hn using Relation.TransGen.head_induction_on with
  | single hc =>
    refine ⟨.single ?_, ha.child hc⟩
    rwa [h.kind_eq ha.present]
  | head hc _ ih =>
    refine ⟨.head ?_ ih.1, ih.2.child hc⟩
    rwa [h.kind_eq ih.2.present]

theorem Grows.plain (h : s.Grows t) (ha : s.Founded a) (ht : t.Plain a) : s.Plain a := by
  intro n ms hn hk
  rcases hn with rfl | hn
  · exact ht n ms (.inl rfl) ((h.kind_eq ha.present).trans hk)
  · obtain ⟨hbelow, hfounded⟩ := h.below ha hn
    exact ht n ms (.inr hbelow) ((h.kind_eq hfounded.present).trans hk)

/-! ### Widened values -/

/-- What a relaxed merge of `a` and `b` gives. -/
structure Widened (s t : Store) (a b r : NodeId) : Prop where
  grows : s.Grows t
  sound : t.Sound
  closed : t.Closed r
  same : r = a → s.Covers a b
  upper : t.Plain r → t.Covers r a ∧ t.Covers r b

namespace Widened

theorem left (hs : s.Sound) (ha : s.Closed a) (h : s.Covers a b) : s.Widened s a b a where
  grows := .refl s
  sound := hs
  closed := ha
  same _ := h
  upper _ := ⟨s.covers_refl a, h⟩

theorem later (h : s.Widened t a b r) (ha : s.Closed a) (hb : s.Closed b) (hgrows : t.Grows u)
    (hu : u.Sound) : s.Widened u a b r where
  grows := h.grows.trans hgrows
  sound := hu
  closed := hgrows.closed h.closed
  same := h.same
  upper hplain := by
    rw [hgrows.covers_iff h.closed (h.grows.closed ha),
      hgrows.covers_iff h.closed (h.grows.closed hb)]
    exact h.upper (hgrows.plain h.closed.founded hplain)

theorem earlier (h : t.Widened u a b r) (ha : s.Closed a) (hb : s.Closed b) (hgrows : s.Grows t) :
    s.Widened u a b r where
  grows := hgrows.trans h.grows
  sound := h.sound
  closed := h.closed
  same hra := (hgrows.covers_iff ha hb).mp (h.same hra)
  upper := h.upper

end Widened

end Store

/-! ### Merges of parts -/

namespace Infer

variable {s t : Store} {m : NodeId → NodeId → Infer NodeId}

/-- Closed values of which the merge, whenever it succeeds on a store that has grown out of `s`,
gives a widened one. -/
structure Mergeable (m : NodeId → NodeId → Infer NodeId) (s : Store) (x y : NodeId) : Prop where
  left : s.Closed x
  right : s.Closed y
  widens : ∀ {t u : Store} {r : NodeId}, s.Grows t → t.Sound →
    (m x y).outcome t = (.ok r, u) → t.Widened u x y r

theorem Mergeable.later {x y : NodeId} (h : Mergeable m s x y) (hgrows : s.Grows t) :
    Mergeable m t x y :=
  ⟨hgrows.closed h.left, hgrows.closed h.right, fun ht => h.widens (hgrows.trans ht)⟩

/-- What a relaxed merge of items gives. -/
structure EachWidened (s t : Store) (xs ys rs : List NodeId) : Prop where
  grows : s.Grows t
  sound : t.Sound
  closed : ∀ r ∈ rs, t.Closed r
  same : rs = xs → List.Forall₂ s.Covers xs ys
  upper : (∀ r ∈ rs, t.Plain r) → List.Forall₂ t.Covers rs xs ∧ List.Forall₂ t.Covers rs ys

theorem EachWidened.later {u : Store} {xs ys rs : List NodeId} (h : EachWidened s t xs ys rs)
    (hgrows : t.Grows u) (hu : u.Sound) (hxs : ∀ x ∈ xs, s.Closed x) (hys : ∀ y ∈ ys, s.Closed y) :
    EachWidened s u xs ys rs where
  grows := h.grows.trans hgrows
  sound := hu
  closed r hr := hgrows.closed (h.closed r hr)
  same := h.same
  upper hplain := by
    obtain ⟨hxs', hys'⟩ := h.upper fun r hr =>
      hgrows.plain (h.closed r hr).founded (hplain r hr)
    refine ⟨forall₂_imp_mem hxs' fun r hr x hx => ?_, forall₂_imp_mem hys' fun r hr y hy => ?_⟩
    · exact (hgrows.covers_iff (h.closed r hr) (h.grows.closed (hxs x hx))).mpr
    · exact (hgrows.covers_iff (h.closed r hr) (h.grows.closed (hys y hy))).mpr

theorem mergeEach_widened : ∀ {xs ys rs : List NodeId} {s t : Store}, xs.length = ys.length →
    s.Sound → (∀ x ∈ xs, ∀ y ∈ ys, Mergeable m s x y) →
      (mergeEach m xs ys).outcome s = (.ok rs, t) → EachWidened s t xs ys rs := by
  intro xs
  induction xs with
  | nil =>
    intro ys rs s t hlen hs _ h
    obtain rfl : ys = [] := List.length_eq_zero_iff.mp hlen.symm
    cases h
    exact ⟨.refl s, hs, by simp, fun _ => .nil, fun _ => ⟨.nil, .nil⟩⟩
  | cons x xs ih =>
    intro ys rs s t hlen hs hm h
    cases ys with
    | nil => exact absurd hlen (by simp)
    | cons y ys =>
      obtain ⟨r, u, hr, h⟩ := outcome_bind_ok.mp h
      obtain ⟨rs', v, hrs, h⟩ := outcome_bind_ok.mp h
      cases h
      have hxy := hm x List.mem_cons_self y List.mem_cons_self
      have hwide := hxy.widens (.refl s) hs hr
      have hrest := ih (by simpa using hlen) hwide.sound (fun x' hx y' hy =>
        (hm x' (List.mem_cons_of_mem x hx) y' (List.mem_cons_of_mem y hy)).later hwide.grows) hrs
      have hlater := hwide.later hxy.left hxy.right hrest.grows hrest.sound
      refine ⟨hlater.grows, hlater.sound, ?_, fun hsame => ?_, fun hplain => ?_⟩
      · exact List.forall_mem_cons.mpr ⟨hlater.closed, hrest.closed⟩
      · obtain ⟨rfl, rfl⟩ := List.cons.inj hsame
        refine .cons (hlater.same rfl) (forall₂_imp_mem (hrest.same rfl) fun x' hx y' hy => ?_)
        have hxy' := hm x' (List.mem_cons_of_mem _ hx) y' (List.mem_cons_of_mem _ hy)
        exact (hwide.grows.covers_iff hxy'.left hxy'.right).mp
      · obtain ⟨hhead, htail⟩ := List.forall_mem_cons.mp hplain
        obtain ⟨hrx, hry⟩ := hlater.upper hhead
        obtain ⟨hrxs, hrys⟩ := hrest.upper htail
        exact ⟨.cons hrx hrxs, .cons hry hrys⟩

/-- What a relaxed merge of labelled things gives, for the labels of the left ones. -/
structure LabelledWidened {β : Type} [BEq β] (s t : Store) (xs ys zs : List (β × NodeId)) :
    Prop where
  grows : s.Grows t
  sound : t.Sound
  closed : ∀ z ∈ zs.map Prod.snd, t.Closed z
  merged : ∀ l x, xs.lookup l = some x → ∃ z, zs.lookup l = some z ∧
    (ys.lookup l = none ∧ z = x ∨ ∃ y, ys.lookup l = some y ∧ s.Widened t x y z)

namespace LabelledWidened

variable {β : Type} [BEq β] [LawfulBEq β] {xs ys zs : List (β × NodeId)} {l : β} {x y : NodeId}

theorem later {u : Store} (h : LabelledWidened s t xs ys zs) (hgrows : t.Grows u) (hu : u.Sound)
    (hxs : ∀ x ∈ xs.map Prod.snd, s.Closed x) (hys : ∀ y ∈ ys.map Prod.snd, s.Closed y) :
    LabelledWidened s u xs ys zs where
  grows := h.grows.trans hgrows
  sound := hu
  closed z hz := hgrows.closed (h.closed z hz)
  merged l x hx := by
    obtain ⟨z, hz, hcases⟩ := h.merged l x hx
    refine ⟨z, hz, hcases.imp id ?_⟩
    rintro ⟨y, hy, hwide⟩
    exact ⟨y, hy, hwide.later (hxs x (mem_snd_of_lookup hx)) (hys y (mem_snd_of_lookup hy)) hgrows hu⟩

omit [LawfulBEq β] in
/-- A result that is the left side itself was covered there. -/
theorem same (h : LabelledWidened s t xs ys zs) (hsame : zs.lookup l = xs.lookup l)
    (hx : xs.lookup l = some x) (hy : ys.lookup l = some y) : s.Covers x y := by
  obtain ⟨z, hz, hcases⟩ := h.merged l x hx
  obtain rfl : z = x := by simpa using (hz.symm.trans hsame).trans hx
  rcases hcases with ⟨hnone, -⟩ | ⟨y', hy', hwide⟩
  · rw [hy] at hnone
    exact absurd hnone (by simp)
  · obtain rfl : y' = y := by simpa using hy'.symm.trans hy
    exact hwide.same rfl

theorem upper (h : LabelledWidened s t xs ys zs) (hplain : ∀ z ∈ zs.map Prod.snd, t.Plain z)
    (hx : xs.lookup l = some x) : ∃ z, zs.lookup l = some z ∧ t.Covers z x ∧
      ∀ y, ys.lookup l = some y → t.Covers z y := by
  obtain ⟨z, hz, hcases⟩ := h.merged l x hx
  refine ⟨z, hz, ?_⟩
  rcases hcases with ⟨hnone, rfl⟩ | ⟨y, hy, hwide⟩
  · refine ⟨t.covers_refl z, fun y hy => ?_⟩
    rw [hnone] at hy
    exact absurd hy (by simp)
  · obtain ⟨hzx, hzy⟩ := hwide.upper (hplain z (mem_snd_of_lookup hz))
    refine ⟨hzx, fun y' hy' => ?_⟩
    obtain rfl : y = y' := by simpa using hy.symm.trans hy'
    exact hzy

end LabelledWidened

theorem mergeFields_widened {missing : Infer NodeId} {gs : List (String × NodeId)} :
    ∀ {fs zs : List (String × NodeId)} {s t : Store},
      (∀ f ∈ fs, ∃ y, gs.lookup f.1 = some y) → s.Sound →
        (∀ x ∈ fs.map Prod.snd, ∀ y ∈ gs.map Prod.snd, Mergeable m s x y) →
          (mergeFields m missing gs fs).outcome s = (.ok zs, t) →
            LabelledWidened s t fs gs zs ∧ zs.map Prod.fst = fs.map Prod.fst := by
  intro fs
  induction fs with
  | nil =>
    intro zs s t _ hs _ h
    cases h
    exact ⟨⟨.refl s, hs, by simp, by simp⟩, rfl⟩
  | cons f fs ih =>
    intro zs s t hall hs hm h
    obtain ⟨name, x⟩ := f
    obtain ⟨y, hy⟩ := hall (name, x) List.mem_cons_self
    rw [mergeFields_cons, hy] at h
    obtain ⟨r, u, hr, h⟩ := outcome_bind_ok.mp h
    obtain ⟨rest, v, hrest, h⟩ := outcome_bind_ok.mp h
    cases h
    have hxy := hm x List.mem_cons_self y (mem_snd_of_lookup hy)
    have hwide := hxy.widens (.refl s) hs hr
    obtain ⟨⟨hgrows, hsound, hclosed, hmerged⟩, hnames⟩ :=
      ih (fun f hf => hall f (List.mem_cons_of_mem _ hf)) hwide.sound (fun x' hx y' hy =>
        (hm x' (List.mem_cons_of_mem _ hx) y' hy).later hwide.grows) hrest
    have hlater := hwide.later hxy.left hxy.right hgrows hsound
    refine ⟨⟨hlater.grows, hlater.sound, ?_, fun l x' hx' => ?_⟩, by simp [hnames]⟩
    · exact List.forall_mem_cons.mpr ⟨hlater.closed, hclosed⟩
    · rw [List.lookup_cons] at hx' ⊢
      by_cases hl : (l == name) = true
      · rw [hl] at hx' ⊢
        obtain rfl : x = x' := by simpa using hx'
        obtain rfl : l = name := eq_of_beq hl
        exact ⟨r, rfl, .inr ⟨y, hy, hlater⟩⟩
      · rw [Bool.not_eq_true] at hl
        rw [hl] at hx' ⊢
        obtain ⟨z, hz, hcases⟩ := hmerged l x' hx'
        refine ⟨z, hz, hcases.imp id ?_⟩
        rintro ⟨y', hy', hwide'⟩
        have hxy' := hm x' (List.mem_cons_of_mem _ (mem_snd_of_lookup hx')) y'
          (mem_snd_of_lookup hy')
        exact ⟨y', hy', hwide'.earlier hxy'.left hxy'.right hwide.grows⟩

theorem setOption_labels (tag : UInt32) (r : NodeId) (xs : List (UInt32 × NodeId)) :
    (setOption tag r xs).map Prod.fst = xs.map Prod.fst := by
  rw [setOption, List.map_map]
  refine List.map_congr_left fun o _ => ?_
  show (if o.1 = tag then (o.1, r) else (o.1, o.2)).1 = o.1
  split <;> rfl

theorem lookup_setOption (tag l : UInt32) (r : NodeId) (xs : List (UInt32 × NodeId)) :
    (setOption tag r xs).lookup l =
      if l = tag then (xs.lookup l).map fun _ => r else xs.lookup l := by
  induction xs with
  | nil => simp [setOption]
  | cons o xs ih =>
    have hcons : setOption tag r (o :: xs) =
        (if o.1 = tag then (o.1, r) else (o.1, o.2)) :: setOption tag r xs := rfl
    rw [hcons, List.lookup_cons, List.lookup_cons, ih]
    by_cases hl : l = o.1
    · subst hl
      by_cases ht : o.1 = tag <;> simp [ht]
    · have hfirst : (if o.1 = tag then (o.1, r) else (o.1, o.2)).1 = o.1 := by split <;> rfl
      rw [hfirst, beq_eq_false_iff_ne.mpr hl]

/-- A tag that is there gets another thing. -/
theorem lookup_setOption_of_some {tag : UInt32} {x : NodeId} {xs : List (UInt32 × NodeId)}
    (hx : xs.lookup tag = some x) (r : NodeId) (l : UInt32) :
    (setOption tag r xs).lookup l = if l = tag then some r else xs.lookup l := by
  rw [lookup_setOption]
  split
  · next hl => rw [hl, hx, Option.map_some]
  · rfl

/-- A tag that is new gets a thing. -/
theorem lookup_append_new {tag : UInt32} {xs : List (UInt32 × NodeId)}
    (hx : xs.lookup tag = none) (y : NodeId) (l : UInt32) :
    (xs ++ [(tag, y)]).lookup l = if l = tag then some y else xs.lookup l := by
  rw [List.lookup_append]
  by_cases hl : l = tag
  · simp [hl, hx]
  · simp [List.lookup_cons, hl, beq_eq_false_iff_ne.mpr hl]

theorem nodup_append_new {tag : UInt32} {xs : List (UInt32 × NodeId)}
    (hxs : (xs.map Prod.fst).Nodup) (hx : xs.lookup tag = none) (y : NodeId) :
    ((xs ++ [(tag, y)]).map Prod.fst).Nodup := by
  rw [List.map_append, List.nodup_append]
  refine ⟨hxs, by simp, ?_⟩
  rintro l hl l' hl' rfl
  obtain rfl := List.mem_singleton.mp hl'
  obtain ⟨p, hp, rfl⟩ := List.mem_map.mp hl
  exact absurd (List.lookup_eq_none_iff.mp hx p hp) (by simp)

theorem lookup_eq_none_of_fresh {tag : UInt32} {ys : List (UInt32 × NodeId)}
    (hfresh : tag ∉ ys.map Prod.fst) : ys.lookup tag = none := by
  rw [List.lookup_eq_none_iff]
  intro p hp
  rw [bne_iff_ne]
  rintro rfl
  exact hfresh (List.mem_map.mpr ⟨p, hp, rfl⟩)

/-- What a relaxed merge of options gives: those of the right side whose tags are new are added as
they are. -/
structure OptionsWidened (s t : Store) (xs ys zs : List (UInt32 × NodeId)) : Prop
    extends LabelledWidened s t xs ys zs where
  labels : (zs.map Prod.fst).Nodup
  added : ∀ l, xs.lookup l = none → zs.lookup l = ys.lookup l

/-- One more option on the right, whose tag has got `r` before the others were merged. -/
theorem OptionsWidened.cons {u : Store} {xs xs' ys zs : List (UInt32 × NodeId)} {tag : UInt32}
    {y r : NodeId} (h : OptionsWidened u t xs' ys zs) (hgrows : s.Grows u)
    (hgone : ys.lookup tag = none)
    (hset : ∀ l, xs'.lookup l = if l = tag then some r else xs.lookup l)
    (hr : xs.lookup tag = none ∧ r = y ∨ ∃ x, xs.lookup tag = some x ∧ s.Widened t x y r)
    (hclosed : ∀ l x y, xs.lookup l = some x → ys.lookup l = some y → s.Closed x ∧ s.Closed y) :
    OptionsWidened s t xs ((tag, y) :: ys) zs := by
  have hother : ∀ {l}, l ≠ tag → ((tag, y) :: ys).lookup l = ys.lookup l := fun hl => by
    rw [List.lookup_cons, beq_eq_false_iff_ne.mpr hl]
  have hfirst : ((tag, y) :: ys).lookup tag = some y := by simp
  -- nothing comes to the tag any more
  have hlast : zs.lookup tag = some r := by
    obtain ⟨z, hz, hcases⟩ := h.merged tag r (by rw [hset, if_pos rfl])
    rcases hcases with ⟨-, rfl⟩ | ⟨y', hy', -⟩
    · exact hz
    · rw [hgone] at hy'
      exact absurd hy' (by simp)
  refine ⟨⟨hgrows.trans h.grows, h.sound, h.closed, fun l x hx => ?_⟩, h.labels, fun l hl => ?_⟩
  · by_cases hl : l = tag
    · subst hl
      rcases hr with ⟨hnone, -⟩ | ⟨x', hx', hwide⟩
      · rw [hnone] at hx
        exact absurd hx (by simp)
      · obtain rfl : x' = x := by simpa using hx'.symm.trans hx
        exact ⟨r, hlast, .inr ⟨y, hfirst, hwide⟩⟩
    · obtain ⟨z, hz, hcases⟩ := h.merged l x (by rwa [hset, if_neg hl])
      rw [hother hl]
      refine ⟨z, hz, hcases.imp id ?_⟩
      rintro ⟨y', hy', hwide⟩
      obtain ⟨hcx, hcy⟩ := hclosed l x y' hx hy'
      exact ⟨y', hy', hwide.earlier hcx hcy hgrows⟩
  · by_cases hlt : l = tag
    · subst hlt
      rcases hr with ⟨-, rfl⟩ | ⟨x, hx, -⟩
      · rw [hlast, hfirst]
      · rw [hx] at hl
        exact absurd hl (by simp)
    · rw [hother hlt]
      exact h.added l (by rwa [hset, if_neg hlt])

theorem mergeOptions_widened {absent : UInt32 → Infer Unit}
    (habsent : ∀ tag s, (absent tag).outcome s = (.ok (), s)) :
    ∀ {ys xs zs : List (UInt32 × NodeId)} {s t : Store}, s.Sound →
      (xs.map Prod.fst).Nodup → (ys.map Prod.fst).Nodup →
      (∀ x ∈ xs.map Prod.snd, s.Closed x) → (∀ y ∈ ys.map Prod.snd, s.Closed y) →
      (∀ l x y, xs.lookup l = some x → ys.lookup l = some y → Mergeable m s x y) →
      (mergeOptions m absent xs ys).outcome s = (.ok zs, t) → OptionsWidened s t xs ys zs := by
  intro ys
  -- the left side grows with each option, so the induction is for every left side
  induction ys with
  | nil =>
    intro xs zs s t hs hxs _ hclosed _ _ h
    cases h
    exact ⟨⟨.refl s, hs, hclosed, fun l x hx => ⟨x, hx, .inl ⟨rfl, rfl⟩⟩⟩, hxs, fun l hl => hl⟩
  | cons o ys ih =>
    intro xs zs s t hs hxs hys hcx hcy hm h
    obtain ⟨tag, y⟩ := o
    obtain ⟨hfresh, hys'⟩ := List.nodup_cons.mp hys
    have hgone : ys.lookup tag = none := lookup_eq_none_of_fresh hfresh
    -- the options that are left have other tags: they meet the left side as it was
    have hother : ∀ l x y', xs.lookup l = some x → ys.lookup l = some y' →
        l ≠ tag ∧ Mergeable m s x y' := by
      intro l x y' hx hy'
      have hl : l ≠ tag := by
        rintro rfl
        rw [hgone] at hy'
        exact absurd hy' (by simp)
      refine ⟨hl, hm l x y' hx ?_⟩
      rwa [List.lookup_cons, beq_eq_false_iff_ne.mpr hl]
    have hclosed : ∀ l x y', xs.lookup l = some x → ys.lookup l = some y' →
        s.Closed x ∧ s.Closed y' := fun l x y' hx hy' =>
      ⟨(hother l x y' hx hy').2.left, (hother l x y' hx hy').2.right⟩
    have hy : s.Closed y := hcy y List.mem_cons_self
    have hcys : ∀ z ∈ ys.map Prod.snd, s.Closed z := fun z hz => hcy z (List.mem_cons_of_mem _ hz)
    rw [mergeOptions] at h
    cases hx : xs.lookup tag with
    | some x =>
      rw [hx] at h
      obtain ⟨r, u, hr, h⟩ := outcome_bind_ok.mp h
      have hxy := hm tag x y hx (by simp)
      have hwide := hxy.widens (.refl s) hs hr
      have hset := lookup_setOption_of_some hx r
      have hcxs : ∀ z ∈ (setOption tag r xs).map Prod.snd, u.Closed z := by
        intro z hz
        obtain ⟨p, hp, rfl⟩ := List.mem_map.mp hz
        obtain ⟨q, hq, rfl⟩ := List.mem_map.mp hp
        show u.Closed (if q.1 = tag then (q.1, r) else (q.1, q.2)).2
        split
        · exact hwide.closed
        · exact hwide.grows.closed (hcx q.2 (List.mem_map_of_mem hq))
      have hrest := ih hwide.sound (by rwa [setOption_labels]) hys' hcxs
        (fun z hz => hwide.grows.closed (hcys z hz)) (fun l x' y' hx' hy' => by
          rw [hset] at hx'
          split at hx'
          · next hl =>
            rw [hl, hgone] at hy'
            exact absurd hy' (by simp)
          · exact (hother l x' y' hx' hy').2.later hwide.grows) h
      refine hrest.cons hwide.grows hgone hset (.inr ⟨x, hx, ?_⟩) hclosed
      exact hwide.later hxy.left hxy.right hrest.grows hrest.sound
    | none =>
      rw [hx] at h
      dsimp only at h
      rw [outcome_bind_of_ok (habsent tag s)] at h
      have hset := lookup_append_new hx y
      have hlabels := nodup_append_new hxs hx y
      have hcxs : ∀ z ∈ (xs ++ [(tag, y)]).map Prod.snd, s.Closed z := by
        intro z hz
        rw [List.map_append, List.mem_append] at hz
        rcases hz with hz | hz
        · exact hcx z hz
        · rwa [List.mem_singleton.mp hz]
      refine (ih hs hlabels hys' hcxs hcys (fun l x' y' hx' hy' => ?_) h).cons (.refl s) hgone hset
        (.inl ⟨hx, rfl⟩) hclosed
      rw [hset] at hx'
      split at hx'
      · next hl =>
        rw [hl, hgone] at hy'
        exact absurd hy' (by simp)
      · exact (hother l x' y' hx' hy').2

end Infer

end ValueInference
