/-
Relaxed merges widen.

* **`Infer.mergeMembers_outcome`** — a relaxed merge of members adds those that none covers;
* **`Infer.merge_widened`** — a relaxed merge of ground values, whenever it succeeds, gives a value
  that covers both, unless a union in it lists a member twice; it gives the left value only if that
  one covers the right one.
-/
import ValueInference.Proofs.Distinct
import ValueInference.Proofs.Widened

namespace ValueInference

namespace Infer

variable {s t u : Store} {a b r : NodeId}

/-- **A relaxed merge of members** adds, one after the other, those that none before covers. -/
theorem mergeMembers_outcome {R D : NodeId → NodeId → Prop}
    {trial : NodeId → NodeId → Infer NodeId} {uncovered : Infer Unit}
    (huncovered : uncovered.outcome s = (.ok (), s)) (hRD : ∀ x y, ¬ R x y → D x y) :
    ∀ {ns ms : List NodeId}, ms.Pairwise D →
      (∀ x ∈ ms ++ ns, ∀ y ∈ ns, Yields true (trial x y) s (R x y) x) →
        ∃ added, (mergeMembers trial uncovered ms ns).outcome s = (.ok (ms ++ added), s) ∧
          (∀ n ∈ added, n ∈ ns) ∧ (∀ n ∈ ns, ∃ x ∈ ms ++ added, R x n ∨ x = n) ∧
          (ms ++ added).Pairwise D := by
  intro ns
  induction ns with
  | nil =>
    intro ms hms _
    exact ⟨[], by simp [mergeMembers], by simp, by simp, by simpa using hms⟩
  | cons n ns ih =>
    intro ms hms htrial
    obtain ⟨b, hb, hiff⟩ := absorbed_outcome fun x hx =>
      htrial x (List.mem_append_left _ hx) n List.mem_cons_self
    rw [mergeMembers, outcome_bind_of_ok hb]
    by_cases hcover : ∃ x ∈ ms, R x n
    · rw [if_pos (hiff.mpr hcover)]
      obtain ⟨added, hout, hfrom, hall, hpair⟩ := ih hms fun x hx y hy =>
        htrial x (by simp at hx ⊢; tauto) y (List.mem_cons_of_mem n hy)
      refine ⟨added, hout, fun x hx => List.mem_cons_of_mem n (hfrom x hx), ?_, hpair⟩
      rintro y (_ | ⟨_, hy⟩)
      · obtain ⟨x, hx, hxn⟩ := hcover
        exact ⟨x, List.mem_append_left _ hx, .inl hxn⟩
      · exact hall y hy
    · rw [if_neg fun h => hcover (hiff.mp h), outcome_bind_of_ok huncovered]
      have hms' : (ms ++ [n]).Pairwise D := by
        refine List.pairwise_append.mpr ⟨hms, List.pairwise_singleton _ _, fun x hx y hy => ?_⟩
        obtain rfl := List.mem_singleton.mp hy
        exact hRD x y fun hxy => hcover ⟨x, hx, hxy⟩
      obtain ⟨added, hout, hfrom, hall, hpair⟩ := ih hms' fun x hx y hy =>
        htrial x (by simp at hx ⊢; tauto) y (List.mem_cons_of_mem n hy)
      refine ⟨n :: added, by simpa using hout, ?_, ?_, by simpa using hpair⟩
      · rintro x (_ | ⟨_, hx⟩)
        · exact List.mem_cons_self
        · exact List.mem_cons_of_mem n (hfrom x hx)
      · rintro y (_ | ⟨_, hy⟩)
        · exact ⟨n, by simp, .inr rfl⟩
        · simpa using hall y hy

end Infer

/-! ### Values that were made -/

namespace Store

variable {s t u : Store} {a b r : NodeId} {k : Kind}

/-- The members of a ground value are members as unions keep them, but for their number. -/
theorem Ground.members_flat (h : s.Ground a) : ∀ m ∈ s.members a, (s.kind m).isUnion = false :=
  members_flat_of fun _ hk => (h.union_normalised hk).flat

theorem Ground.members_differ (h : s.Ground a) :
    (s.members a).Pairwise fun m n => s.equal m n = false :=
  members_cases (fun _ hk => (h.union_normalised hk).distinct.imp And.left)
    fun _ => List.pairwise_singleton _ _

theorem Ground.members_pos (h : s.Ground a) : 1 ≤ (s.members a).length :=
  members_cases (P := fun ms => 1 ≤ ms.length)
    (fun _ hk => Nat.le_of_succ_le (h.union_normalised hk).several) fun _ => Nat.le_refl _

/-- In a sound store, nodes of the same form are equal. -/
theorem Sound.equals_of_kind_eq (hs : s.Sound) (ha : s.Founded a) (h : s.kind a = s.kind b) :
    s.Equals a b := by
  by_cases hab : a = b
  · exact hab ▸ s.equals_refl a
  have hdigest : ∀ d e, s.digest a = some d → s.digest b = some e → d = e := by
    intro d e hd he
    have hda := (hs.numbered a d hd).1
    have heb := (hs.numbered b e he).1
    rw [h, heb] at hda
    exact (congrArg Prod.fst hda).symm
  refine (equal_iff ha).mpr (.inr ⟨⟨hdigest, fun ⟨hia, hib⟩ => ?_⟩, ?_⟩)
  · obtain ⟨d, hd⟩ := Option.isSome_iff_exists.mp (hs.interned a hia).1
    obtain ⟨e, he⟩ := Option.isSome_iff_exists.mp (hs.interned b hib).1
    have hde : s.digest a = s.digest b := by rw [hd, he, hdigest d e hd he]
    rcases Nat.lt_or_gt_of_ne hab with hlt | hlt
    · exact hs.canonical a b hlt hia hib hde (h ▸ .refl fun _ _ => rfl)
    · exact hs.canonical b a hlt hib hia hde.symm (h ▸ .refl fun _ _ => rfl)
  · rw [← h]
    exact .refl fun c _ => s.equals_refl c

/-- A slot that is alike to a settled one is settled, if the nodes in it are closed. -/
theorem settled_of_alike {R : NodeId → NodeId → Prop} {v w : Slot} (h : v.Alike R w)
    (hw : s.Settled w) (hclosed : ∀ c ∈ v.children, s.Closed c) : s.Settled v := by
  cases v with
  | constant c =>
    refine ⟨by rw [waitsOn, resolve_self _ (.constant _) rfl], fun n hn => ?_⟩
    rw [resolve_self _ (.constant _) rfl] at hn
    exact hclosed n hn
  | anything =>
    refine ⟨by rw [waitsOn, resolve_self _ .anything rfl], fun n hn => ?_⟩
    rw [resolve_self _ .anything rfl] at hn
    exact hclosed n hn
  | possibilities p =>
    refine ⟨by rw [waitsOn, resolve_self _ (.possibilities _) rfl], fun n hn => ?_⟩
    rw [resolve_self _ (.possibilities _) rfl] at hn
    exact hclosed n hn
  | pending p =>
    cases w with
    | pending q =>
      obtain rfl : p = q := h
      exact hw
    | _ => exact h.elim

/-- A node that was made over closed values, with a settled slot if it has one, is closed. -/
theorem Made.closed (h : u.Made t k r) (hslot : ∀ v, k.slot? = some v → u.Settled v)
    (hbelow : ∀ c ∈ k.children, u.Closed c) : t.Closed r := by
  have hchildren : ∀ c ∈ (t.kind r).children, t.Closed c := fun c hc =>
    h.grows.closed (hbelow c (h.below c hc))
  refine .of_mentions h.present hchildren fun v hv => ?_
  obtain ⟨w, hw, halike⟩ := h.alike.slot hv
  refine settled_of_alike halike (h.grows.settled (hslot w hw)) fun c hc => ?_
  exact hchildren c (Kind.children_of_slot hv ▸ hc)

/-- A form that is put together of the parts of a merge: it covers those of both operands, and it
is like that of the left one only where this one covers the right one. -/
structure Parts (s u : Store) (a b : NodeId) (k : Kind) : Prop where
  grows : s.Grows u
  sound : u.Sound
  slot : ∀ v, k.slot? = some v → u.Settled v ∧ u.AdmitsSlot v
  below : ∀ c ∈ k.children, u.Closed c
  live : ∀ e, k ≠ .error e
  same : (s.kind a).Alike (· = ·) k → s.Covers a b
  upper : ∀ {t : Store} {r : NodeId}, u.Grows t → t.Sound → (t.kind r).Reordered k →
    (∀ c ∈ (t.kind r).children, t.Plain c) →
      t.FormCovers t.Covers (t.members r) (s.members a) (t.kind r) (s.kind a) ∧
        t.FormCovers t.Covers (t.members r) (s.members b) (t.kind r) (s.kind b)

namespace Parts

/-- The left operand itself, where the form is its own. -/
theorem unchanged (h : s.Parts u a b k) (ha : s.Closed a) (hb : s.Closed b)
    (halike : (s.kind a).Alike (· = ·) k) : s.Widened u a b a where
  grows := h.grows
  sound := h.sound
  closed := h.grows.closed ha
  same _ := h.same halike
  upper _ := ⟨u.covers_refl a, (h.grows.covers_iff ha hb).mpr (h.same halike)⟩

/-- **A node made of the form.** -/
theorem made (h : s.Parts u a b k) (ha : s.Closed a) (hb : s.Closed b)
    (hmake : (Infer.make k).outcome u = (.ok r, t)) : s.Widened t a b r := by
  have hmade := make_spec h.sound (fun v hv => (h.slot v hv).2) hmake
  have hgrows := h.grows.trans hmade.grows
  refine ⟨hgrows, hmade.sound, hmade.closed (fun v hv => (h.slot v hv).1) h.below, ?_, ?_⟩
  · intro hra
    refine h.same ?_
    rw [← hgrows.kind_eq ha.present, ← hra]
    exact hmade.alike
  · intro hplain
    have hreordered := hmade.reordered fun ms hms => hplain.here hms
    obtain ⟨hra, hrb⟩ := h.upper hmade.grows hmade.sound hreordered fun c hc => hplain.child hc
    have hlive : t.kind r ≠ .error .dead := by
      intro hdead
      rw [hdead] at hreordered
      cases hreordered
      exact h.live .dead rfl
    refine ⟨covers_of_step ⟨hlive, .inr ?_⟩, covers_of_step ⟨hlive, .inr ?_⟩⟩
    · rwa [hgrows.kind_eq ha.present, hgrows.members_eq ha.present]
    · rwa [hgrows.kind_eq hb.present, hgrows.members_eq hb.present]

/-- What a merge does with its parts: it gives back the left operand if nothing has changed, and
makes a node otherwise. -/
theorem rebuild {γ : Type} [DecidableEq γ] {x : Infer γ} {old : γ} {F : γ → Kind}
    (h : (x >>= fun new => if new = old then pure a else Infer.make (F new)).outcome s =
      (.ok r, t)) (ha : s.Closed a) (hb : s.Closed b) (hold : (s.kind a).Alike (· = ·) (F old))
    (hparts : ∀ new u, x.outcome s = (.ok new, u) → s.Parts u a b (F new)) :
    s.Widened t a b r := by
  obtain ⟨new, u, hx, h⟩ := Infer.outcome_bind_ok.mp h
  have hnew := hparts new u hx
  rw [Infer.outcome_ite] at h
  split at h
  · next hsame =>
    cases h
    exact hnew.unchanged ha hb (hsame ▸ hold)
  · exact hnew.made ha hb h

end Parts

/-! ### Forms -/

/-- The forms that hold one node. -/
inductive Wraps : (NodeId → Kind) → Prop where
  | list : Wraps Kind.list
  | array (shape : Shape) : Wraps (Kind.array · shape)
  | jtagged : Wraps Kind.jtagged

namespace Wraps

variable {F : NodeId → Kind} {m n : NodeId}

theorem live (hF : Wraps F) (n : NodeId) (e : ErrorReason) : F n ≠ .error e := by
  cases hF <;> exact nofun

theorem slot (hF : Wraps F) (n : NodeId) : (F n).slot? = none := by
  cases hF <;> rfl

theorem children (hF : Wraps F) (n : NodeId) : (F n).children = [n] := by
  cases hF <;> rfl

theorem reordered (hF : Wraps F) (h : k.Reordered (F n)) : k = F n := by
  cases hF <;> cases h <;> rfl

theorem eq_of_alike (hF : Wraps F) (h : (F m).Alike (· = ·) (F n)) : m = n := by
  cases hF with
  | array shape => exact h.2
  | _ => exact h

theorem formCovers_iff (hF : Wraps F) {R : NodeId → NodeId → Prop} {ms ns : List NodeId} :
    t.FormCovers R ms ns (F m) (F n) ↔ R m n := by
  cases hF with
  | array shape => exact and_iff_right rfl
  | _ => exact .rfl

end Wraps

theorem parts_single {F : NodeId → Kind} {x y z : NodeId} (hF : Wraps F)
    (hwide : s.Widened u x y z) (hx : s.Closed x) (hy : s.Closed y) (hka : s.kind a = F x)
    (hkb : s.kind b = F y) : s.Parts u a b (F z) where
  grows := hwide.grows
  sound := hwide.sound
  slot v hv := nomatch (hF.slot z).symm.trans hv
  below c hc := by
    rw [hF.children] at hc
    obtain rfl := List.mem_singleton.mp hc
    exact hwide.closed
  live := hF.live z
  same h := by
    rw [hka] at h
    refine covers_of_step ⟨hka ▸ hF.live x .dead, .inr ?_⟩
    rw [hka, hkb]
    exact hF.formCovers_iff.mpr (hwide.same (hF.eq_of_alike h).symm)
  upper := by
    intro t r hgrows ht hr hplain
    rw [hF.reordered hr] at hplain ⊢
    rw [hF.children] at hplain
    have hlater := hwide.later hx hy hgrows ht
    obtain ⟨hzx, hzy⟩ := hlater.upper (hplain z (List.mem_singleton_self z))
    rw [hka, hkb]
    exact ⟨hF.formCovers_iff.mpr hzx, hF.formCovers_iff.mpr hzy⟩

theorem parts_tuple {xs ys zs : List NodeId} (h : Infer.EachWidened s u xs ys zs)
    (hxs : ∀ x ∈ xs, s.Closed x) (hys : ∀ y ∈ ys, s.Closed y) (hka : s.kind a = .tuple xs)
    (hkb : s.kind b = .tuple ys) : s.Parts u a b (.tuple zs) where
  grows := h.grows
  sound := h.sound
  slot v hv := absurd hv (by simp [Kind.slot?])
  below := h.closed
  live e := by simp
  same halike := by
    rw [hka] at halike
    have hsame : xs = zs := List.forall₂_eq_eq_eq ▸ halike
    refine covers_of_step ⟨by simp [hka], .inr ?_⟩
    rw [hka, hkb]
    exact h.same hsame.symm
  upper := by
    intro t r hgrows ht hr hplain
    rw [Kind.Reordered.tuple_inv hr] at hplain ⊢
    rw [hka, hkb]
    exact (h.later hgrows ht hxs hys).upper hplain

theorem parts_record {tag : String} {fs gs zs : List (String × NodeId)}
    (h : Infer.LabelledWidened s u fs gs zs) (hnames : zs.map Prod.fst = fs.map Prod.fst)
    (hfs : (fs.map Prod.fst).Nodup) (hlen : fs.length = gs.length)
    (hall : ∀ f ∈ fs, ∃ y, gs.lookup f.1 = some y) (hxs : ∀ x ∈ fs.map Prod.snd, s.Closed x)
    (hys : ∀ y ∈ gs.map Prod.snd, s.Closed y) (hka : s.kind a = .record tag fs)
    (hkb : s.kind b = .record tag gs) : s.Parts u a b (.record tag zs) where
  grows := h.grows
  sound := h.sound
  slot v hv := absurd hv (by simp [Kind.slot?])
  below := h.closed
  live e := by simp
  same halike := by
    rw [hka] at halike
    have hperm : fs.Perm zs := perm_of_labels halike.2 hfs
    refine covers_of_step ⟨by simp [hka], .inr ?_⟩
    rw [hka, hkb]
    refine ⟨rfl, hlen, fun f hf => ?_⟩
    obtain ⟨y, hy⟩ := hall f hf
    have hx : fs.lookup f.1 = some f.2 := (lookup_iff_mem hfs).mpr hf
    exact ⟨y, hy, h.same (lookup_eq_of_perm hperm hfs f.1).symm hx hy⟩
  upper := by
    intro t r hgrows ht hr hplain
    obtain ⟨zs', hkr, hperm⟩ := hr.record_inv
    rw [hkr] at hplain ⊢
    rw [hka, hkb]
    have hzs : (zs.map Prod.fst).Nodup := hnames ▸ hfs
    have hlen' : zs'.length = fs.length := by
      rw [hperm.length_eq, ← List.length_map Prod.fst, hnames, List.length_map]
    have hlater := h.later hgrows ht hxs hys
    -- every field of the result covers those of its name
    have hfield : ∀ z ∈ zs', ∃ x, fs.lookup z.1 = some x ∧ t.Covers z.2 x ∧
        ∃ y, gs.lookup z.1 = some y ∧ t.Covers z.2 y := by
      intro z hz
      have hname : z.1 ∈ fs.map Prod.fst := hnames ▸ List.mem_map_of_mem (hperm.mem_iff.mp hz)
      obtain ⟨f, hf, hfz⟩ := List.mem_map.mp hname
      have hx : fs.lookup z.1 = some f.2 := hfz ▸ (lookup_iff_mem hfs).mpr hf
      obtain ⟨y, hy⟩ := hall f hf
      rw [hfz] at hy
      obtain ⟨z', hz', hzx, hzy⟩ := hlater.upper (fun c hc =>
        hplain c ((hperm.map Prod.snd).mem_iff.mpr hc)) hx
      have hsame : zs.lookup z.1 = some z.2 := (lookup_iff_mem hzs).mpr (hperm.mem_iff.mp hz)
      obtain rfl : z' = z.2 := by simpa using hz'.symm.trans hsame
      exact ⟨f.2, hx, hzx, y, hy, hzy y hy⟩
    refine ⟨⟨rfl, hlen', fun z hz => ?_⟩, ⟨rfl, hlen'.trans hlen, fun z hz => ?_⟩⟩
    · obtain ⟨x, hx, hzx, -⟩ := hfield z hz
      exact ⟨x, hx, hzx⟩
    · obtain ⟨-, -, -, y, hy, hzy⟩ := hfield z hz
      exact ⟨y, hy, hzy⟩

theorem parts_tagged {xs ys zs zs' : List (UInt32 × NodeId)}
    (h : Infer.OptionsWidened s u xs ys zs) (hsort : zs'.Perm zs) (hxs : (xs.map Prod.fst).Nodup)
    (hys : (ys.map Prod.fst).Nodup) (hcx : ∀ x ∈ xs.map Prod.snd, s.Closed x)
    (hcy : ∀ y ∈ ys.map Prod.snd, s.Closed y) (hka : s.kind a = .tagged xs)
    (hkb : s.kind b = .tagged ys) : s.Parts u a b (.tagged zs') where
  grows := h.grows
  sound := h.sound
  slot v hv := absurd hv (by simp [Kind.slot?])
  below c hc := h.closed c ((hsort.map Prod.snd).mem_iff.mp hc)
  live e := by simp
  same halike := by
    rw [hka] at halike
    have hperm : xs.Perm zs := (perm_of_labels halike hxs).trans hsort
    have hlookup := lookup_eq_of_perm hperm hxs
    refine covers_of_step ⟨by simp [hka], .inr ?_⟩
    rw [hka, hkb]
    intro o ho
    have hy : ys.lookup o.1 = some o.2 := (lookup_iff_mem hys).mpr ho
    cases hx : xs.lookup o.1 with
    | some x => exact ⟨x, rfl, h.same (hlookup o.1).symm hx hy⟩
    | none =>
      -- an option that was added is not among those of the left side
      have hnew := h.added o.1 hx
      rw [← hlookup, hx, hy] at hnew
      exact absurd hnew (by simp)
  upper := by
    intro t r hgrows ht hr hplain
    obtain ⟨ws, hkr, hperm⟩ := hr.tagged_inv
    rw [hkr] at hplain ⊢
    rw [hka, hkb]
    have hws : ws.Perm zs := hperm.trans hsort
    have hlookup : ∀ l, ws.lookup l = zs.lookup l := fun l =>
      lookup_eq_of_perm hws ((hws.map Prod.fst).nodup_iff.mpr h.labels) l
    have hlater := h.toLabelledWidened.later hgrows ht hcx hcy
    have hplain' : ∀ z ∈ zs.map Prod.snd, t.Plain z := fun z hz =>
      hplain z ((hws.map Prod.snd).mem_iff.mpr hz)
    refine ⟨fun o ho => ?_, fun o ho => ?_⟩
    · obtain ⟨z, hz, hzx, -⟩ := hlater.upper hplain' ((lookup_iff_mem hxs).mpr ho)
      exact ⟨z, (hlookup o.1).trans hz, hzx⟩
    · have hy : ys.lookup o.1 = some o.2 := (lookup_iff_mem hys).mpr ho
      cases hx : xs.lookup o.1 with
      | some x =>
        obtain ⟨z, hz, -, hzy⟩ := hlater.upper hplain' hx
        exact ⟨z, (hlookup o.1).trans hz, hzy o.2 hy⟩
      | none => exact ⟨o.2, (hlookup o.1).trans ((h.added o.1 hx).trans hy), t.covers_refl o.2⟩

theorem parts_union {merged sorted added : List NodeId} (hs : s.Sound) (hb : s.Closed b)
    (hperm : sorted.Perm merged) (hmerged : merged = s.members a ++ added)
    (hclosed : ∀ n ∈ merged, s.Closed n) (hlen : merged.length ≠ (s.members a).length)
    (hall : ∀ n ∈ s.members b, ∃ x ∈ merged, s.Covers x n ∨ x = n) :
    s.Parts s a b (.union sorted) where
  grows := .refl s
  sound := hs
  slot v hv := absurd hv (by simp [Kind.slot?])
  below c hc := hclosed c (hperm.mem_iff.mp hc)
  live e := by simp
  same halike := by
    rcases hk : s.kind a with _ | _ | _ | _ | _ | as | _ | _ | _ | _ | _
    all_goals rw [hk] at halike
    case union =>
      have hmembers : s.members a = as := by rw [members, hk]
      exact absurd ((hperm.length_eq.symm.trans halike.1.symm).trans (by rw [hmembers])) hlen
    all_goals exact halike.elim
  upper := by
    intro t r hgrows ht hr hplain
    obtain ⟨rs, hkr, hrs⟩ := hr.union_inv
    have hmembers : t.members r = rs := by rw [members, hkr]
    have hmem : ∀ x, x ∈ rs ↔ x ∈ merged := fun x => (hrs.trans hperm).mem_iff
    rw [hkr, hmembers]
    refine ⟨(formCovers_members (.inl rfl)).mpr fun n hn => ?_,
      (formCovers_members (.inl rfl)).mpr fun n hn => ?_⟩
    · refine ⟨n, (hmem n).mpr ?_, t.covers_refl n⟩
      rw [hmerged]
      exact List.mem_append_left _ hn
    · obtain ⟨x, hx, hxn⟩ := hall n hn
      refine ⟨x, (hmem x).mpr hx, ?_⟩
      rcases hxn with hxn | rfl
      · exact (hgrows.covers_iff (hclosed x hx) (hb.member hn)).mpr hxn
      · exact t.covers_refl x

/-- What a relaxed merge of types gives. -/
structure TypeWidened (t u ty : Ty) : Prop where
  same : ty = t → t = u ∨ t = .any
  upper : (ty = t ∨ ty = .any) ∧ (ty = u ∨ ty = .any)

theorem parts_scalar {v w x : Slot} {ty ty' ty'' : Ty} {s' : Store} (hgrows : s.Grows s')
    (hty : TypeWidened ty ty' ty'') (h : s'.SlotWidened u v w x) (hv : s.Settled v)
    (hw : s.Settled w) (hka : s.kind a = .scalar v ty) (hkb : s.kind b = .scalar w ty') :
    s.Parts u a b (.scalar x ty'') where
  grows := hgrows.trans h.grows
  sound := h.sound
  slot v' hv' := by
    obtain rfl : x = v' := by simpa [Kind.slot?] using hv'
    exact ⟨h.settled, h.admitted⟩
  below := h.settled.closed_children
  live e := by simp
  same halike := by
    rw [hka] at halike
    refine covers_of_step ⟨by simp [hka], .inr ?_⟩
    rw [hka, hkb]
    exact ⟨hty.same halike.1.symm, (hgrows.slotCovers_iff hv hw).mp (h.same halike.2)⟩
  upper := by
    intro t r hgrows' ht hr hplain
    obtain ⟨x', hkr, hx'⟩ := hr.scalar_inv
    obtain ⟨hxv, hxw⟩ := h.covers (hgrows.settled hv) (hgrows.settled hw) hgrows' hx'
    rw [hkr, hka, hkb]
    exact ⟨⟨hty.upper.1, hxv⟩, ⟨hty.upper.2, hxw⟩⟩

theorem parts_function {v w x : Slot} (h : s.SlotWidened u v w x) (hv : s.Settled v)
    (hw : s.Settled w) (hka : s.kind a = .function v) (hkb : s.kind b = .function w) :
    s.Parts u a b (.function x) where
  grows := h.grows
  sound := h.sound
  slot v' hv' := by
    obtain rfl : x = v' := by simpa [Kind.slot?] using hv'
    exact ⟨h.settled, h.admitted⟩
  below := h.settled.closed_children
  live e := by simp
  same halike := by
    rw [hka] at halike
    refine covers_of_step ⟨by simp [hka], .inr ?_⟩
    rw [hka, hkb]
    exact h.same halike
  upper := by
    intro t r hgrows ht hr hplain
    obtain ⟨x', hkr, hx'⟩ := hr.function_inv
    rw [hkr, hka, hkb]
    exact h.covers hv hw hgrows hx'

end Store

/-! ### The merge of values -/

namespace Infer

variable {s t : Store} {a b r : NodeId} {rec : MergeScope → Bool → NodeId → NodeId → Infer NodeId}

theorem mergeTypes_widened {ty ty' ty'' : Ty}
    (h : (mergeTypes false ty ty').outcome s = (.ok ty'', t)) :
    Store.TypeWidened ty ty' ty'' ∧ s.Grows t ∧ (s.Sound → t.Sound) := by
  rw [mergeTypes] at h
  split at h
  · next hcover =>
    cases h
    refine ⟨⟨fun _ => hcover, .inl rfl, ?_⟩, .refl s, id⟩
    exact hcover
  · next hcover =>
    cases h
    refine ⟨⟨fun hany => absurd (.inr hany.symm) hcover, .inr rfl, .inr rfl⟩, s.grows_record _, ?_⟩
    exact fun hs => hs.record _

theorem mismatch_ne_ok {reason : Mismatch} :
    (mismatch a b reason : Infer NodeId).outcome s ≠ (.ok r, t) := by
  rw [mismatch, outcome_throw]
  exact fun h => absurd (congrArg Prod.fst h) (by simp)

/-- A union on either side is merged member by member. -/
theorem mergeUnion_widened {trial : NodeId → NodeId → Infer NodeId} {uncovered : Infer Unit}
    (hs : s.Sound) (ha : s.Ground a) (hb : s.Ground b) (hlive : s.kind a ≠ .error .dead)
    (hunion : (s.kind a).isUnion = true ∨ (s.kind b).isUnion = true)
    (huncovered : uncovered.outcome s = (.ok (), s))
    (htrial : ∀ x ∈ s.members a ++ s.members b, ∀ y ∈ s.members b,
      Yields true (trial x y) s (s.Covers x y) x)
    (h : (mergeMembers trial uncovered (s.members a) (s.members b) >>= fun merged =>
      if merged.length = (s.members a).length then return a else union merged).outcome s =
        (.ok r, t)) : s.Widened t a b r := by
  obtain ⟨added, hout, hfrom, hall, hpair⟩ := mergeMembers_outcome huncovered
    (fun x y hxy => Bool.eq_false_iff.mpr fun heq => hxy (Store.covers_of_equals heq))
    ha.members_differ htrial
  rw [outcome_bind_of_ok hout, outcome_ite] at h
  split at h
  · next hlen =>
    cases h
    obtain rfl : added = [] := by simpa using hlen
    refine .left hs ha.closed (Store.covers_of_step ⟨hlive, .inr ?_⟩)
    refine (Store.formCovers_members hunion).mpr fun n hn => ?_
    obtain ⟨x, hx, hxn⟩ := hall n hn
    refine ⟨x, by simpa using hx, ?_⟩
    rcases hxn with hxn | rfl
    · exact hxn
    · exact s.covers_refl x
  · next hlen =>
    have hmem : ∀ {n}, n ∈ s.members a ++ added → n ∈ s.members a ∨ n ∈ s.members b := fun hn =>
      (List.mem_append.mp hn).imp id (hfrom _)
    have hflat' : ∀ n ∈ s.members a ++ added, (s.kind n).isUnion = false := fun n hn =>
      (hmem hn).elim (ha.members_flat n) (hb.members_flat n)
    have hclosed : ∀ n ∈ s.members a ++ added, s.Closed n := fun n hn =>
      (hmem hn).elim ha.closed.member hb.closed.member
    have hseveral : 2 ≤ (s.members a ++ added).length := by
      have hpos := ha.members_pos
      rw [List.length_append] at hlen ⊢
      omega
    rw [outcome_union hflat' hpair hseveral] at h
    have hparts := Store.parts_union hs hb.closed (s.sortMembers_perm _) rfl hclosed hlen hall
    exact hparts.made ha.closed hb.closed h

/-- A form of one node is merged by merging that node. -/
theorem mergeSingle_widened {F : NodeId → Kind} {m : NodeId → NodeId → Infer NodeId} {x y : NodeId}
    (hF : Store.Wraps F) (hs : s.Sound) (ha : s.Closed a) (hb : s.Closed b)
    (hka : s.kind a = F x) (hkb : s.kind b = F y)
    (hrec : ∀ x' ∈ (s.kind a).children, ∀ y' ∈ (s.kind b).children, Mergeable m s x' y')
    (h : (m x y >>= fun z => if z = x then pure a else make (F z)).outcome s = (.ok r, t)) :
    s.Widened t a b r := by
  have hx : x ∈ (s.kind a).children := by
    rw [hka, hF.children]
    exact List.mem_singleton_self x
  have hy : y ∈ (s.kind b).children := by
    rw [hkb, hF.children]
    exact List.mem_singleton_self y
  refine Store.Parts.rebuild h ha hb (hka ▸ .refl fun _ _ => rfl) fun z u hz => ?_
  exact Store.parts_single hF ((hrec x hx y hy).widens (.refl s) hs hz) (ha.child hx)
    (hb.child hy) hka hkb

/-- Scalars are merged by merging their types, then their slots. -/
theorem mergeScalars_widened {scope : MergeScope} {v w : Slot} {ty ty' : Ty} (hs : s.Sound)
    (ha : s.Closed a) (hb : s.Closed b) (hka : s.kind a = .scalar v ty)
    (hkb : s.kind b = .scalar w ty')
    (h : (mergeTypes false ty ty' >>= fun ty'' => mergeSlots scope false v w >>= fun x =>
      if ty'' = ty ∧ x = v then pure a else make (.scalar x ty'')).outcome s = (.ok r, t)) :
    s.Widened t a b r := by
  have hslotv : (s.kind a).slot? = some v := by rw [hka]; rfl
  have hslotw : (s.kind b).slot? = some w := by rw [hkb]; rfl
  have hv := ha.settled hslotv
  have hw := hb.settled hslotw
  obtain ⟨ty'', u, hty, h⟩ := outcome_bind_ok.mp h
  obtain ⟨x, u', hx, h⟩ := outcome_bind_ok.mp h
  obtain ⟨htypes, hgrows, hsound⟩ := mergeTypes_widened hty
  have hslot := mergeSlots_widened (hsound hs) (hgrows.holdsSlot (Store.holdsSlot_of_kind hslotv))
    (hgrows.holdsSlot (Store.holdsSlot_of_kind hslotw)) (hgrows.settled hv) (hgrows.settled hw) hx
  have hparts := Store.parts_scalar hgrows htypes hslot hv hw hka hkb
  rw [outcome_ite] at h
  split at h
  · next hsame =>
    cases h
    refine hparts.unchanged ha hb ?_
    rw [hka, hsame.1, hsame.2]
    exact .refl fun _ _ => rfl
  · exact hparts.made ha hb h

/-- A check that has not failed was passed. -/
theorem outcome_guard_ok {c : Prop} [Decidable c] {reason : Mismatch} {x : Infer NodeId}
    (h : (if c then mismatch a b reason else x).outcome s = (.ok r, t)) :
    ¬ c ∧ x.outcome s = (.ok r, t) := by
  by_cases hc : c
  · rw [if_pos hc] at h
    exact absurd h mismatch_ne_ok
  · rw [if_neg hc] at h
    exact ⟨hc, h⟩

/-- **One level of a relaxed merge widens** if the merges below do. -/
theorem mergeStep_widened {scope : MergeScope} (hs : s.Sound) (ha : s.Ground a) (hb : s.Ground b)
    (hne : ¬ s.Equals a b)
    (hrec : ∀ x ∈ (s.kind a).children, ∀ y ∈ (s.kind b).children,
      Mergeable (rec scope false) s x y)
    (htrial : (s.kind a).isUnion = true ∨ (s.kind b).isUnion = true →
      ∀ x ∈ s.members a ++ s.members b, ∀ y ∈ s.members b,
        Yields true (rec { scope with loop := none } true x y) s (s.Covers x y) x)
    (h : (mergeStep rec scope false a b).outcome s = (.ok r, t)) : s.Widened t a b r := by
  have hca := ha.closed
  have hcb := hb.closed
  have hcx : ∀ x ∈ (s.kind a).children, s.Closed x := fun _ => hca.child
  have hcy : ∀ y ∈ (s.kind b).children, s.Closed y := fun _ => hcb.child
  have hlabels := hs.labelled a
  have hlabels' := hs.labelled b
  rw [mergeStep, outcome_store_bind] at h
  split at h
  case h_1 hka =>
    cases h
    refine ⟨.refl s, hs, hcb, fun hba => absurd (hba ▸ s.equals_refl b) hne, fun _ => ?_⟩
    refine ⟨Store.covers_of_step ⟨fun hdead => hne ?_, .inl hka⟩, s.covers_refl b⟩
    exact hs.equals_of_kind_eq hca.founded (hka.trans hdead.symm)
  case h_2 hkb hla =>
    cases h
    exact .left hs hca (Store.covers_of_step ⟨hla, .inl hkb⟩)
  case h_3 v ty w ty' hka hkb =>
    exact mergeScalars_widened hs hca hcb hka hkb h
  case h_4 xs ys hka hkb =>
    rw [hka] at hrec hcx
    rw [hkb] at hrec hcy
    obtain ⟨hlen, hrun⟩ := outcome_guard_ok h
    refine Store.Parts.rebuild hrun hca hcb (hka ▸ .refl fun _ _ => rfl) fun zs u hzs => ?_
    exact Store.parts_tuple (mergeEach_widened (not_not.mp hlen) hs hrec hzs) hcx hcy hka hkb
  case h_5 x y hka hkb =>
    exact mergeSingle_widened .list hs hca hcb hka hkb hrec h
  case h_6 x shape y shape' hka hkb =>
    obtain ⟨hshape, hrun⟩ := outcome_guard_ok h
    obtain rfl : shape = shape' := not_not.mp hshape
    exact mergeSingle_widened (.array shape) hs hca hcb hka hkb hrec hrun
  case h_7 tag fs tag' gs hka hkb =>
    rw [hka] at hrec hcx hlabels
    rw [hkb] at hrec hcy
    obtain ⟨htag, hrun⟩ := outcome_guard_ok h
    obtain rfl : tag = tag' := not_not.mp htag
    obtain ⟨hfields, hmerge⟩ := outcome_guard_ok hrun
    obtain ⟨hlen, hall⟩ := not_or.mp hfields
    have hall' : ∀ f ∈ fs, ∃ y, gs.lookup f.1 = some y := by
      intro f hf
      obtain ⟨g, hg, hgf⟩ := List.any_eq_true.mp (List.all_eq_true.mp (not_not.mp hall) f hf)
      have hgf' : g.1 = f.1 := by simpa using hgf
      refine Option.isSome_iff_exists.mp (List.lookup_isSome_iff.mpr ⟨g, hg, ?_⟩)
      simp [hgf']
    refine Store.Parts.rebuild hmerge hca hcb (hka ▸ .refl fun _ _ => rfl) fun zs u hzs => ?_
    obtain ⟨hwide, hnames⟩ := mergeFields_widened hall' hs hrec hzs
    exact Store.parts_record hwide hnames hlabels (not_not.mp hlen) hall' hcx hcy hka hkb
  case h_8 ms hka hlb =>
    have hu : (s.kind a).isUnion = true := by rw [hka]; rfl
    refine mergeUnion_widened hs ha hb (by simp [hka]) (.inl hu) ?_ (htrial (.inl hu)) h
    rfl
  case h_9 ns hkb hla _ =>
    have hu : (s.kind b).isUnion = true := by rw [hkb]; rfl
    refine mergeUnion_widened hs ha hb hla (.inr hu) ?_ (htrial (.inr hu)) h
    rfl
  case h_10 xs ys hka hkb =>
    rw [hka] at hrec hcx hlabels
    rw [hkb] at hrec hcy hlabels'
    refine Store.Parts.rebuild h hca hcb ?_ fun zs u hzs => ?_
    · -- the options of the left side, put in order
      rw [hka]
      have hperm := stableSort_perm (fun o o' : UInt32 × NodeId => decide (o.1 ≤ o'.1)) xs
      exact ⟨hperm.length_eq.symm, fun o ho => ⟨o, hperm.mem_iff.mpr ho, rfl, rfl⟩⟩
    · have hwide := mergeOptions_widened (fun _ _ => rfl) hs hlabels hlabels' hcx hcy
        (fun l x y hx hy => hrec x (mem_snd_of_lookup hx) y (mem_snd_of_lookup hy)) hzs
      exact Store.parts_tagged hwide (stableSort_perm _ zs) hlabels hlabels' hcx hcy hka hkb
  case h_11 v w hka hkb =>
    have hslotv : (s.kind a).slot? = some v := by rw [hka]; rfl
    have hslotw : (s.kind b).slot? = some w := by rw [hkb]; rfl
    refine Store.Parts.rebuild h hca hcb (hka ▸ .refl fun _ _ => rfl) fun x u hx => ?_
    have hslot := mergeSlots_widened hs (Store.holdsSlot_of_kind hslotv)
      (Store.holdsSlot_of_kind hslotw) (hca.settled hslotv) (hcb.settled hslotw) hx
    exact Store.parts_function hslot (hca.settled hslotv) (hcb.settled hslotw) hka hkb
  case h_12 x y hka hkb =>
    exact mergeSingle_widened .jtagged hs hca hcb hka hkb hrec h
  -- types, errors and forms of different kinds do not go together
  all_goals exact absurd h mismatch_ne_ok

/-- A trial of two members, to the depth that is left for it, decides coverage. -/
theorem mergeWithin_trial {fuel i : Nat} {x y : NodeId} (hs : s.Sound) (scope : MergeScope)
    (hca : s.Closed a) (hcb : s.Closed b) (ha : s.EndsWithin (i + 1) a)
    (hb : s.EndsWithin (i + 1) b) (hfuel : 2 * (i + 1) ≤ fuel + 1)
    (hu : (s.kind a).isUnion = true ∨ (s.kind b).isUnion = true)
    (hx : x ∈ s.members a ++ s.members b) (hy : y ∈ s.members b) :
    Yields true (mergeWithin fuel scope true x y) s (s.Covers x y) x := by
  -- of two different members, one at most is an operand itself
  have hdeep : ∀ {n}, s.EndsWithin (i + 1) n → ∀ m ∈ s.members n,
      s.EndsWithin i m ∨ m = n ∧ (s.kind n).isUnion = false := by
    intro n hn m hm
    exact (Store.mem_members hm).imp (hn.2 m) fun ⟨hmn, hu⟩ => ⟨hmn, hmn ▸ hu⟩
  have hx' : s.Closed x := (List.mem_append.mp hx).elim hca.member hcb.member
  have hy' : s.Closed y := hcb.member hy
  by_cases hxy : x = y
  · subst hxy
    obtain ⟨fuel, rfl⟩ : ∃ f, fuel = f + 1 := ⟨fuel - 1, by omega⟩
    refine .store ?_
    rw [if_pos (.inl rfl)]
    exact (yields_pure x).congr (iff_of_true trivial (s.covers_refl x))
  have hsmall : s.EndsWithin i x ∨ s.EndsWithin i y := by
    rcases hdeep hb y hy with hyi | ⟨rfl, hyu⟩
    · exact .inr hyi
    refine .inl ?_
    rcases List.mem_append.mp hx with hx | hx
    · refine (hdeep ha x hx).resolve_right fun ⟨_, hau⟩ => ?_
      rw [hau, hyu] at hu
      exact absurd hu (by simp)
    · exact (hdeep hb x hx).resolve_right fun ⟨hxb, _⟩ => hxy hxb
  have hlarge : ∀ {n m}, s.EndsWithin (i + 1) n → m ∈ s.members n →
      s.EndsWithin (i + 1) m := by
    intro n m hn hm
    rcases Store.mem_members hm with hm | ⟨rfl, -⟩
    · exact (hn.2 m hm).weaken (Nat.le_succ i)
    · exact hn
  have hxd : s.EndsWithin (i + 1) x :=
    (List.mem_append.mp hx).elim (hlarge ha) (hlarge hb)
  have hyd : s.EndsWithin (i + 1) y := hlarge hb hy
  rcases hsmall with hxi | hyi
  · exact mergeWithin_yields hs _ true (by omega) hx' hy' hxi hyd
  · exact mergeWithin_yields hs _ true (by omega) hx' hy' hxd hyi

/-- **A relaxed merge to a depth that is enough widens.** -/
theorem mergeWithin_widened {scope : MergeScope} : ∀ {fuel k : Nat} {s t : Store}
    {a b r : NodeId}, 2 * k ≤ fuel → s.Sound → s.Ground a → s.Ground b → s.EndsWithin k a →
      s.EndsWithin k b → (mergeWithin fuel scope false a b).outcome s = (.ok r, t) →
        s.Widened t a b r := by
  intro fuel
  induction fuel with
  | zero =>
    intro k s t a b r hfuel _ _ _ ha
    obtain ⟨i, rfl, -⟩ := ha.below
    omega
  | succ fuel ih =>
    intro k s t a b r hfuel hs hga hgb ha hb h
    obtain ⟨i, rfl, hxs⟩ := ha.below
    obtain ⟨i', hi, hys⟩ := hb.below
    obtain rfl : i = i' := by omega
    rw [mergeWithin, outcome_store_bind] at h
    rw [outcome_ite] at h
    split at h
    · next heq =>
      cases h
      refine .left hs hga.closed ?_
      rcases heq with rfl | heq
      · exact s.covers_refl a
      · exact Store.covers_of_equals heq
    next heq =>
    refine mergeStep_widened hs hga hgb (fun h => heq (.inr h)) (fun x hx y hy => ?_)
      (fun hu x hx y hy => ?_) h
    · refine ⟨hga.closed.child hx, hgb.closed.child hy, fun hgrows hsound hm => ?_⟩
      have hkeep : ∀ {n}, s.EndsWithin i n → _ := fun hn => hn.mono (Nat.le_refl i) fun _ hm =>
        ⟨Nat.lt_of_lt_of_le hm hgrows.size_le, hgrows.kind_eq hm⟩
      exact ih (by omega) hsound (hgrows.ground (hga.child hx)) (hgrows.ground (hgb.child hy))
        (hkeep (hxs x hx)) (hkeep (hys y hy)) hm
    · exact mergeWithin_trial hs _ hga.closed hgb.closed ha hb hfuel hu hx hy

/-- **A relaxed merge of ground values widens**, in whatever scope. -/
theorem merge_widened {scope : MergeScope} {s t : Store} {a b r : NodeId} (hs : s.Sound)
    (ha : s.Ground a) (hb : s.Ground b) (h : (merge scope false a b).outcome s = (.ok r, t)) :
    s.Widened t a b r := by
  rw [merge, outcome_store_bind] at h
  refine mergeWithin_widened ?_ hs ha hb ha.founded hb.founded h
  have := @Store.size_lt_compareDepth s
  omega

end Infer

end ValueInference
