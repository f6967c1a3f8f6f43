/-
Merges of equal values.

What equality leaves out does not show in a merge: values that are equal go together with the same
values, and join to equal ones.  One thing shows, though.  Members of a union are added one after
the other, so it matters which of two comes first where one of them covers the other one.

* **`Store.Twins`** — two regular values that are equal;
* **`Store.Irredundant`** — where a merge meets a union, none of its members covers another one;
* **`Store.Joinable.of_twins`** — equal values go together with equal values;
* **`Store.Joined.equals`** — and they join to equal ones;
* **`Infer.merge_interchange`** — equal values can stand for each other in a merge.
-/
import ValueInference.Proofs.JoinedRuns

namespace ValueInference

section

variable {β : Type} [BEq β] [LawfulBEq β] {R : NodeId → NodeId → Prop} {xs ys : List (β × NodeId)}

/-- Labelled lists that match have related things under each label. -/
theorem rel_lookup (hxs : (xs.map Prod.fst).Nodup) (hys : (ys.map Prod.fst).Nodup)
    (h : Matches (SameLabel R) xs ys) (l : β) : Option.Rel R (xs.lookup l) (ys.lookup l) := by
  cases hx : xs.lookup l with
  | some x =>
    obtain ⟨y, hy, hxy⟩ := Store.exists_lookup_of_matches h hys (l, x) (mem_of_lookup hx)
    rw [hy]
    exact .some hxy
  | none =>
    cases hy : ys.lookup l with
    | none => exact .none
    | some y =>
      obtain ⟨x, hx', -⟩ := Store.lookup_of_matches h hxs hy
      exact nomatch hx.symm.trans hx'

/-- Lists with related things under each label match. -/
theorem matches_of_lookups (hxs : (xs.map Prod.fst).Nodup) (hys : (ys.map Prod.fst).Nodup)
    (h : ∀ l, Option.Rel R (xs.lookup l) (ys.lookup l)) : Matches (SameLabel R) xs ys := by
  have hpartner : ∀ p ∈ xs, ∃ y, ys.lookup p.1 = some y ∧ R p.2 y := by
    intro p hp
    have hl := h p.1
    rw [(lookup_iff_mem hxs).mpr hp] at hl
    generalize ys.lookup p.1 = y at hl
    cases hl with
    | some hxy => exact ⟨_, rfl, hxy⟩
  have hperm : (xs.map Prod.fst).Perm (ys.map Prod.fst) := by
    refine (List.perm_ext_iff_of_nodup hxs hys).mpr fun l => ⟨fun hl => ?_, fun hl => ?_⟩
    · obtain ⟨p, hp, rfl⟩ := List.mem_map.mp hl
      obtain ⟨y, hy, -⟩ := hpartner p hp
      exact List.mem_map.mpr ⟨_, mem_of_lookup hy, rfl⟩
    · obtain ⟨q, hq, rfl⟩ := List.mem_map.mp hl
      have hl := h q.1
      rw [(lookup_iff_mem hys).mpr hq] at hl
      generalize hx : xs.lookup q.1 = x at hl
      cases hl with
      | some hxy => exact List.mem_map.mpr ⟨_, mem_of_lookup hx, rfl⟩
  refine ⟨by simpa using hperm.length_eq, fun p hp => ?_⟩
  obtain ⟨y, hy, hxy⟩ := hpartner p hp
  exact ⟨(p.1, y), mem_of_lookup hy, rfl, hxy⟩

end

/-- The parts of a form that a merge goes on with. -/
def Kind.places : Kind → List NodeId
  | .scalar _ _ | .union _ | .function _ => []
  | k => k.children

/-! ### Alike forms -/

section

variable {R : NodeId → NodeId → Prop} {k k' : Kind}

theorem Kind.Alike.error_iff {e : ErrorReason} (h : k.Alike R k') :
    k = .error e ↔ k' = .error e := by
  cases k with
  | error r =>
    cases k' with
    | error r' =>
      obtain rfl : r = r' := h
      exact Iff.rfl
    | _ => exact h.elim
  | _ =>
    cases k' with
    | error r' => exact h.elim
    | _ => exact ⟨nofun, nofun⟩

end

/-! ### Joined parts -/

section

variable {J J₁ : NodeId → NodeId → NodeId → Prop} {E F Z : NodeId → NodeId → Prop}

theorem JoinsEach.forall₂ {xs ys zs : List NodeId} (h : JoinsEach J xs ys zs) :
    ∀ {xs₁ ys₁ zs₁ : List NodeId}, JoinsEach J₁ xs₁ ys₁ zs₁ → List.Forall₂ E xs xs₁ →
      List.Forall₂ F ys ys₁ →
        (∀ x x₁ y z z₁, ∀ y₁ ∈ ys₁, z ∈ zs → z₁ ∈ zs₁ → E x x₁ → F y y₁ → J x y z →
          J₁ x₁ y₁ z₁ → Z z z₁) → List.Forall₂ Z zs zs₁ := by
  induction h with
  | nil =>
    rintro xs₁ ys₁ zs₁ h₁ hxs - -
    cases hxs
    cases h₁
    exact .nil
  | cons hj _ ih =>
    rintro xs₁ ys₁ zs₁ h₁ hxs hys hZ
    cases hxs with
    | cons hx hxs =>
      cases hys with
      | cons hy hys =>
        cases h₁ with
        | cons hj₁ h₁ =>
          have hhead := hZ _ _ _ _ _ _ List.mem_cons_self List.mem_cons_self List.mem_cons_self
            hx hy hj hj₁
          refine .cons hhead (ih h₁ hxs hys fun x x₁ y z z₁ y₁ hy₁ hz hz₁ => ?_)
          exact hZ x x₁ y z z₁ y₁ (List.mem_cons_of_mem _ hy₁) (List.mem_cons_of_mem _ hz)
            (List.mem_cons_of_mem _ hz₁)

theorem JoinsAt.rel {x x₁ y y₁ z z₁ : Option NodeId} (h : JoinsAt J x y z)
    (h₁ : JoinsAt J₁ x₁ y₁ z₁) (hx : Option.Rel E x x₁) (hy : Option.Rel F y y₁)
    (hE : ∀ m n, E m n → Z m n) (hF : ∀ m n, F m n → Z m n)
    (hZ : ∀ l l₁ m m₁ n n₁, y₁ = some m₁ → z = some n → z₁ = some n₁ → E l l₁ → F m m₁ →
      J l m n → J₁ l₁ m₁ n₁ → Z n n₁) : Option.Rel Z z z₁ := by
  cases hx with
  | none =>
    obtain rfl : z = y := h
    obtain rfl : z₁ = y₁ := h₁
    cases hy with
    | none => exact .none
    | some hy => exact .some (hF _ _ hy)
  | some hx =>
    cases hy with
    | none =>
      obtain rfl : z = some _ := h
      obtain rfl : z₁ = some _ := h₁
      exact .some (hE _ _ hx)
    | some hy =>
      obtain ⟨n, rfl, hj⟩ := h
      obtain ⟨n₁, rfl, hj₁⟩ := h₁
      exact .some (hZ _ _ _ _ n n₁ rfl rfl rfl hx hy hj hj₁)

/-- Fields that are joined with those of one name. -/
theorem JoinsFields.matches {fs fs₁ gs gs₁ zs zs₁ : List (String × NodeId)}
    (h : JoinsFields J gs fs zs) (h₁ : JoinsFields J₁ gs₁ fs₁ zs₁)
    (hfs : Matches (SameLabel E) fs fs₁) (hgs : Matches (SameLabel F) gs gs₁)
    (hgs₁ : (gs₁.map Prod.fst).Nodup)
    (hZ : ∀ x x₁ y z z₁, ∀ y₁ ∈ gs₁.map Prod.snd, z ∈ zs.map Prod.snd → z₁ ∈ zs₁.map Prod.snd →
      E x x₁ → F y y₁ → J x y z → J₁ x₁ y₁ z₁ → Z z z₁) : Matches (SameLabel Z) zs zs₁ := by
  refine ⟨(h.length_eq.symm.trans hfs.1).trans h₁.length_eq, fun z hz => ?_⟩
  obtain ⟨f, hf, hname, y, hy, hj⟩ := exists_of_forall₂ (List.Forall₂.flip h) z hz
  obtain ⟨f₁, hf₁, hlabel, hff⟩ := hfs.2 f hf
  obtain ⟨z₁, hz₁, hname₁, y₁, hy₁, hj₁⟩ := exists_of_forall₂ h₁ f₁ hf₁
  obtain ⟨y', hy', hyy⟩ := Store.exists_lookup_of_matches hgs hgs₁ _ (mem_of_lookup hy)
  obtain rfl : y' = y₁ := Option.some.inj (hy'.symm.trans (hlabel ▸ hy₁))
  refine ⟨z₁, hz₁, (hname.symm.trans hlabel).trans hname₁, ?_⟩
  exact hZ f.2 f₁.2 y z.2 z₁.2 y' (mem_snd_of_lookup hy') (List.mem_map_of_mem hz)
    (List.mem_map_of_mem hz₁) hff hyy hj hj₁

/-- Options that are joined label by label. -/
theorem JoinsOptions.matches {xs xs₁ ys ys₁ zs zs₁ : List (UInt32 × NodeId)}
    (h : JoinsOptions J xs ys zs) (h₁ : JoinsOptions J₁ xs₁ ys₁ zs₁)
    (hxs : ∀ l, Option.Rel E (xs.lookup l) (xs₁.lookup l))
    (hys : ∀ l, Option.Rel F (ys.lookup l) (ys₁.lookup l)) (hE : ∀ m n, E m n → Z m n)
    (hF : ∀ m n, F m n → Z m n)
    (hZ : ∀ x x₁ y z z₁, ∀ y₁ ∈ ys₁.map Prod.snd, z ∈ zs.map Prod.snd → z₁ ∈ zs₁.map Prod.snd →
      E x x₁ → F y y₁ → J x y z → J₁ x₁ y₁ z₁ → Z z z₁) : Matches (SameLabel Z) zs zs₁ := by
  refine matches_of_lookups h.labels h₁.labels fun l => ?_
  refine (h.joined l).rel (h₁.joined l) (hxs l) (hys l) hE hF fun x x₁ y y₁ z z₁ hy₁ hz hz₁ => ?_
  exact hZ x x₁ y z z₁ y₁ (mem_snd_of_lookup hy₁) (mem_snd_of_lookup hz) (mem_snd_of_lookup hz₁)

end

namespace Store

variable {s u : Store} {a a' b b' c r r' : NodeId} {v v' w w' x x' y y' : Slot} {k k' k₁ k₁' : Kind}
  {limit token token' : Nat}

/-! ### Values that stand for each other -/

/-- Two regular values that are equal. -/
structure Twins (s : Store) (a b : NodeId) : Prop where
  equals : s.Equals a b
  left : s.Regular a
  right : s.Regular b

theorem Regular.twins (h : s.Regular a) : s.Twins a a := ⟨s.equals_refl a, h, h⟩

namespace Twins

theorem symm (hs : s.Sound) (h : s.Twins a b) : s.Twins b a :=
  ⟨(h.left.equivalent hs).symm b h.right.founded h.equals, h.right, h.left⟩

theorem trans (hs : s.Sound) (h : s.Twins a b) (h' : s.Twins b c) : s.Twins a c where
  equals := (h.left.equivalent hs).trans b c h.right.founded h'.right.founded h.equals h'.equals
  left := h.left
  right := h'.right

theorem grows (h : s.Twins a b) (hgrows : s.Grows u) : u.Twins a b where
  equals := (hgrows.equals_iff h.left.founded h.right.founded).mpr h.equals
  left := hgrows.regular h.left
  right := hgrows.regular h.right

theorem equals_of (hs : s.Sound) (ha : s.Twins a a') (hb : s.Twins b b') (h : s.Equals a b) :
    s.Equals a' b' :=
  (((ha.symm hs).trans hs ⟨h, ha.left, hb.left⟩).trans hs hb).equals

theorem equals_iff (hs : s.Sound) (ha : s.Twins a a') (hb : s.Twins b b') :
    s.Equals a b ↔ s.Equals a' b' :=
  ⟨ha.equals_of hs hb, (ha.symm hs).equals_of hs (hb.symm hs)⟩

theorem covers_of (hs : s.Sound) (ha : s.Twins a a') (hb : s.Twins b b') (h : s.Covers a b) :
    s.Covers a' b' := by
  have hback : s.Covers a' a := covers_of_equals (ha.symm hs).equals
  have hab := ha.right.covers_trans hs ha.left hb.left.closed hback h
  exact ha.right.covers_trans hs hb.left hb.right.closed hab (covers_of_equals hb.equals)

/-- **Coverage of equal values** is the same. -/
theorem covers_iff (hs : s.Sound) (ha : s.Twins a a') (hb : s.Twins b b') :
    s.Covers a b ↔ s.Covers a' b' :=
  ⟨ha.covers_of hs hb, (ha.symm hs).covers_of hs (hb.symm hs)⟩

theorem forms (h : s.Twins a b) : (s.kind a).Alike s.Twins (s.kind b) :=
  (alike_of_equals h.left.founded h.equals).imp fun _ hx _ hy hxy =>
    ⟨hxy, h.left.child hx, h.right.child hy⟩

theorem slots (hs : s.Sound) (h : s.Twins a b) (hv : (s.kind a).slot? = some v)
    (hw : (s.kind b).slot? = some w) : s.SlotTwins v w := by
  obtain ⟨w', hw', halike⟩ := (alike_of_equals h.left.founded h.equals).slot hv
  obtain rfl : w' = w := Option.some.inj (hw'.symm.trans hw)
  exact slotTwins_of_alike (hs.coherent a b v w' hv hw) halike

/-- The slots of twins join to twins. -/
theorem joinSlots (hs : s.Sound) (ha : s.Twins a a') (hb : s.Twins b b')
    (hv : (s.kind a).slot? = some v) (hv' : (s.kind a').slot? = some v')
    (hw : (s.kind b).slot? = some w) (hw' : (s.kind b').slot? = some w') :
    (s.joinSlots limit token v w = none ↔ s.joinSlots limit token' v' w' = none) ∧
      ∀ x x', s.joinSlots limit token v w = some x → s.joinSlots limit token' v' w' = some x' →
        s.SlotTwins x x' ∧ s.RegularSlot x ∧ s.RegularSlot x' := by
  obtain ⟨hnone, htwins⟩ := joinSlots_twins hs (ha.left.slot hv) (ha.right.slot hv')
    (hb.left.slot hw) (hb.right.slot hw') (ha.slots hs hv hv') (hb.slots hs hw hw')
  refine ⟨hnone, fun x x' hx hx' => ⟨htwins x x' hx hx', ?_, ?_⟩⟩
  · exact regularSlot_of_joinSlots hs (ha.left.slot hv) (hb.left.slot hw) hx
  · exact regularSlot_of_joinSlots hs (ha.right.slot hv') (hb.right.slot hw') hx'

/-- The members of twins are twins. -/
theorem members (hs : s.Sound) (h : s.Twins a b) :
    Matches s.Twins (s.members a) (s.members b) ∧ ApartIn s.Twins (s.members a) (s.members b) := by
  constructor
  · have hforms := h.forms
    by_cases hunion : (s.kind a).isUnion = true
    · cases hka : s.kind a with
      | union ms =>
        cases hkb : s.kind b with
        | union ns =>
          rw [hka, hkb] at hforms
          rw [Store.members, Store.members, hka, hkb]
          exact hforms
        | _ =>
          rw [hka, hkb] at hforms
          exact hforms.elim
      | _ => exact absurd hunion (by rw [hka]; exact Bool.false_ne_true)
    · rw [Bool.not_eq_true] at hunion
      rw [members_of_not_union hunion, members_of_not_union (hforms.isUnion_eq ▸ hunion)]
      exact matches_of_forall₂ (.cons h .nil)
  · refine h.left.members_differ.imp fun {m n} hmn o _ hmo hno => ?_
    exact Bool.eq_false_iff.mp hmn (hmo.trans hs (hno.symm hs)).equals

end Twins

/-! ### Values that go together -/

/-- **Equal values go together with equal values.** -/
theorem Joinable.of_twins (hs : s.Sound) (h : s.Joinable limit a b) :
    ∀ {a' b'}, s.Twins a a' → s.Twins b b' → s.Joinable limit a' b' := by
  induction h with
  | same h => exact fun ha hb => .same (ha.equals_of hs hb h)
  | @step a b J hJ h ih =>
    intro a' b' ha hb
    -- below, those go together that stand for nodes that do
    refine .step (fun x' y' => ∃ x y, s.Twins x x' ∧ s.Twins y y' ∧ J x y) ?_ ?_
    · rintro x' y' ⟨x, y, hx, hy, hxy⟩
      exact ih x y hxy hx hy
    rcases h with hdead | hdead | hunion | hunion | hform
    · exact .inl (ha.forms.error_iff.mp hdead)
    · exact .inr (.inl (hb.forms.error_iff.mp hdead))
    · exact .inr (.inr (.inl (ha.forms.isUnion_eq ▸ hunion)))
    · exact .inr (.inr (.inr (.inl (hb.forms.isUnion_eq ▸ hunion))))
    refine .inr (.inr (.inr (.inr ?_)))
    refine hform.transfer ⟨hs.labelled a, hs.labelled a', hs.labelled b, hs.labelled b'⟩ ha.forms
      hb.forms (fun P v v' w w' hP hv hv' hw hw' => ?_) fun x _ x' y _ y' hx hy hxy => ?_
    · rintro ⟨token, z, hz, hall⟩
      have hnone : s.joinSlots limit token v w = none ↔ s.joinSlots limit token v' w' = none :=
        (ha.joinSlots hs hb hv hv' hw hw').1
      cases hz' : s.joinSlots limit token v' w' with
      | none => exact nomatch hz.symm.trans (hnone.mpr hz')
      | some z' =>
        obtain ⟨htwins, hrz, hrz'⟩ := (ha.joinSlots hs hb hv hv' hw hw').2 z z' hz hz'
        exact ⟨token, z', hz', htwins.forall_candidates hs hrz hrz' hP hall⟩
    · exact ⟨x, y, hx, hy, hxy⟩

/-! ### Unions -/

/-- At no union that a merge meets in the value does one member cover another one. -/
def Irredundant (s : Store) (b : NodeId) : Prop :=
  ∀ n ms, Relation.ReflTransGen (fun x y => y ∈ (s.kind x).places) b n → s.kind n = .union ms →
    ms.Pairwise fun l m => ¬ s.Covers l m ∧ ¬ s.Covers m l

theorem Irredundant.place (h : s.Irredundant b) (hc : c ∈ (s.kind b).places) : s.Irredundant c :=
  fun n ms hn => h n ms (.head hc hn)

theorem Irredundant.members (h : s.Irredundant b) :
    (s.members b).Pairwise fun l m => ¬ s.Covers l m ∧ ¬ s.Covers m l :=
  members_cases (fun ms hk => h b ms .refl hk) fun _ => List.pairwise_singleton _ _

/-- **Unions of twins have twins as members**, if no order shows on the right. -/
theorem joinMembers_twins (hs : s.Sound) (ha : s.Twins a a') (hb : s.Twins b b')
    (horder : b = b' ∨ s.Irredundant b') :
    Matches s.Twins (s.joinMembers a b) (s.joinMembers a' b') := by
  obtain ⟨hmatch, hapart⟩ := ha.members hs
  refine addNew_matches (fun m m' n n' hm hn => hm.covers_iff hs hn) hmatch hapart ?_
  -- the same value has its members in the same order
  rcases horder with rfl | horder
  · exact .inl (List.forall₂_same.mpr fun m hm => (hb.left.member hm).twins)
  · exact .inr ⟨(hb.members hs).1, (hb.members hs).2, horder.members⟩

/-! ### What equal values join to -/

/-- Twins in another order are alike. -/
theorem SlotTwins.reordered (h : s.SlotTwins x x') (hy : y.Reordered x) (hy' : y'.Reordered x') :
    y.Alike s.Equals y' := by
  have halike := h.alike
  have hmatch := h.candidates
  cases x with
  | possibilities p =>
    cases x' with
    | possibilities p' =>
      rw [resolve_self _ (.possibilities p) rfl, resolve_self _ (.possibilities p') rfl] at hmatch
      have hset : ∀ {z : Slot} {q : Possibilities}, z.Reordered (.possibilities q) →
          ∃ o, z = .possibilities o ∧ o.candidates.Perm q.candidates := by
        intro z q hz
        cases hz with
        | same => exact ⟨q, rfl, .refl _⟩
        | possibilities hperm => exact ⟨_, rfl, hperm⟩
      obtain ⟨q, rfl, hq⟩ := hset hy
      obtain ⟨q', rfl, hq'⟩ := hset hy'
      exact .inr ((hmatch.of_perm hq).of_perm_right hq')
    | _ => exact halike.elim
  | constant c =>
    cases x' with
    | constant d =>
      cases hy
      cases hy'
      exact halike
    | _ => exact halike.elim
  | anything =>
    cases x' with
    | anything =>
      cases hy
      cases hy'
      exact halike
    | _ => exact halike.elim
  | pending p =>
    cases x' with
    | pending q =>
      cases hy
      cases hy'
      exact halike
    | _ => exact halike.elim

/-- What forms join to is alike as far as the forms are, with the parts as the merges below leave
them. -/
theorem JoinForm.alike {J J₁ : NodeId → NodeId → NodeId → Prop} {E F Z : NodeId → NodeId → Prop}
    {m m₁ : Kind} (hlabels : k.Labelled ∧ k₁.Labelled ∧ k'.Labelled ∧ k₁'.Labelled)
    (hk : k.Alike E k₁) (hk' : k'.Alike F k₁') (hE : ∀ x y, E x y → Z x y)
    (hF : ∀ x y, F x y → Z x y)
    (hslots : ∀ v v₁ w w₁ token token₁ x x₁ (y y₁ : Slot), k.slot? = some v → k₁.slot? = some v₁ →
      k'.slot? = some w → k₁'.slot? = some w₁ → s.joinSlots limit token v w = some x →
        s.joinSlots limit token₁ v₁ w₁ = some x₁ → y.Reordered x → y₁.Reordered x₁ → y.Alike Z y₁)
    (hZ : ∀ x x₁ y z z₁, ∀ y₁ ∈ k₁'.places, z ∈ m.children → z₁ ∈ m₁.children → E x x₁ → F y y₁ →
      J x y z → J₁ x₁ y₁ z₁ → Z z z₁)
    (h : s.JoinForm limit J k k' m) (h₁ : s.JoinForm limit J₁ k₁ k₁' m₁) : m.Alike Z m₁ := by
  obtain ⟨hl, hl₁, hl', hl₁'⟩ := hlabels
  -- the form of `k` and `k'` is that of all four operands
  cases h.sameForm with
  | scalar v w t u =>
    cases hk.sameForm with | scalar _ v₁ _ t₁ =>
    cases hk'.sameForm with | scalar _ w₁ _ u₁ =>
    obtain ⟨rfl, -⟩ := hk
    obtain ⟨rfl, -⟩ := hk'
    obtain ⟨token, x, hx, hm⟩ := h
    obtain ⟨token₁, x₁, hx₁, hm₁⟩ := h₁
    obtain ⟨y, rfl, hy⟩ := hm.scalar_inv
    obtain ⟨y₁, rfl, hy₁⟩ := hm₁.scalar_inv
    exact ⟨rfl, hslots v v₁ w w₁ token token₁ x x₁ y y₁ rfl rfl rfl rfl hx hx₁ hy hy₁⟩
  | tuple xs ys =>
    cases hk.sameForm with | tuple _ xs₁ =>
    cases hk'.sameForm with | tuple _ ys₁ =>
    obtain ⟨zs, hzs, rfl⟩ := h
    obtain ⟨zs₁, hzs₁, rfl⟩ := h₁
    exact hzs.forall₂ hzs₁ hk hk' hZ
  | list x y =>
    cases hk.sameForm with | list _ x₁ =>
    cases hk'.sameForm with | list _ y₁ =>
    obtain ⟨z, hz, rfl⟩ := h
    obtain ⟨z₁, hz₁, rfl⟩ := h₁
    exact hZ x x₁ y z z₁ y₁ (List.mem_singleton_self y₁) (List.mem_singleton_self z)
      (List.mem_singleton_self z₁) hk hk' hz hz₁
  | array x y shape shape' =>
    cases hk.sameForm with | array _ x₁ _ shape₁ =>
    cases hk'.sameForm with | array _ y₁ _ shape₁' =>
    obtain ⟨rfl, hx⟩ := hk
    obtain ⟨rfl, hy⟩ := hk'
    obtain ⟨-, z, hz, rfl⟩ := h
    obtain ⟨-, z₁, hz₁, rfl⟩ := h₁
    exact ⟨rfl, hZ x x₁ y z z₁ y₁ (List.mem_singleton_self y₁) (List.mem_singleton_self z)
      (List.mem_singleton_self z₁) hx hy hz hz₁⟩
  | record tag tag' fs gs =>
    cases hk.sameForm with | record _ tag₁ _ fs₁ =>
    cases hk'.sameForm with | record _ tag₁' _ gs₁ =>
    obtain ⟨rfl, hfs⟩ := hk
    obtain ⟨rfl, hgs⟩ := hk'
    obtain ⟨-, zs, hzs, hm⟩ := h
    obtain ⟨-, zs₁, hzs₁, hm₁⟩ := h₁
    obtain ⟨ms, rfl, hms⟩ := hm.record_inv
    obtain ⟨ms₁, rfl, hms₁⟩ := hm₁.record_inv
    refine ⟨rfl, ((hzs.matches hzs₁ hfs hgs hl₁' fun x x₁ y z z₁ y₁ hy₁ hz hz₁ => ?_).of_perm
      hms).of_perm_right hms₁⟩
    exact hZ x x₁ y z z₁ y₁ hy₁ ((hms.map Prod.snd).mem_iff.mpr hz)
      ((hms₁.map Prod.snd).mem_iff.mpr hz₁)
  | tagged xs ys =>
    cases hk.sameForm with | tagged _ xs₁ =>
    cases hk'.sameForm with | tagged _ ys₁ =>
    obtain ⟨zs, hzs, hm⟩ := h
    obtain ⟨zs₁, hzs₁, hm₁⟩ := h₁
    obtain ⟨ms, rfl, hms⟩ := hm.tagged_inv
    obtain ⟨ms₁, rfl, hms₁⟩ := hm₁.tagged_inv
    refine ((hzs.matches hzs₁ (rel_lookup hl hl₁ hk) (rel_lookup hl' hl₁' hk') hE hF
      fun x x₁ y z z₁ y₁ hy₁ hz hz₁ => ?_).of_perm hms).of_perm_right hms₁
    exact hZ x x₁ y z z₁ y₁ hy₁ ((hms.map Prod.snd).mem_iff.mpr hz)
      ((hms₁.map Prod.snd).mem_iff.mpr hz₁)
  | function v w =>
    cases hk.sameForm with | function _ v₁ =>
    cases hk'.sameForm with | function _ w₁ =>
    obtain ⟨token, x, hx, hm⟩ := h
    obtain ⟨token₁, x₁, hx₁, hm₁⟩ := h₁
    obtain ⟨y, rfl, hy⟩ := hm.function_inv
    obtain ⟨y₁, rfl, hy₁⟩ := hm₁.function_inv
    exact hslots v v₁ w w₁ token token₁ x x₁ y y₁ rfl rfl rfl rfl hx hx₁ hy hy₁
  | jtagged x y =>
    cases hk.sameForm with | jtagged _ x₁ =>
    cases hk'.sameForm with | jtagged _ y₁ =>
    obtain ⟨z, hz, rfl⟩ := h
    obtain ⟨z₁, hz₁, rfl⟩ := h₁
    exact hZ x x₁ y z z₁ y₁ (List.mem_singleton_self y₁) (List.mem_singleton_self z)
      (List.mem_singleton_self z₁) hk hk' hz hz₁
  | union | error | type => exact h.elim

/-- **Equal values join to equal values.** -/
theorem Joined.equals (hs : s.Sound) (hu : u.Sound) (hgrows : s.Grows u)
    (h : s.Joined u limit a b r) : ∀ {a' b' r'}, s.Twins a a' → s.Twins b b' →
      b = b' ∨ s.Irredundant b' → s.Joined u limit a' b' r' → u.Regular r → u.Regular r' →
        u.Equals r r' := by
  induction h with
  | same h =>
    intro a' b' r' ha hb _ h' _ _
    cases h' with
    | same => exact (ha.grows hgrows).equals
    | step J _ hne => exact absurd (ha.equals_of hs hb h) hne
  | @step a b r J hJ hne h ih =>
    intro a' b' r' ha hb horder h' hr hr'
    cases h' with
    | same h' => exact absurd ((ha.equals_iff hs hb).mpr h') hne
    | step J' hJ' hne' h' =>
      have hforms : (u.kind r).Alike u.Equals (u.kind r') → u.Equals r r' :=
        hr.equals_of_alike hu hr'.founded fun x hx => (hr.child hx).equivalent hu
      rw [JoinStep] at h h'
      -- the forms on both sides are alike, so both results come from the same rule
      by_cases hla : s.kind a = .error .dead
      · rw [if_pos hla] at h
        rw [if_pos (ha.forms.error_iff.mp hla)] at h'
        rw [h, h']
        exact (hb.grows hgrows).equals
      rw [if_neg hla] at h
      rw [if_neg (ha.forms.error_iff.not.mp hla)] at h'
      by_cases hlb : s.kind b = .error .dead
      · rw [if_pos hlb] at h
        rw [if_pos (hb.forms.error_iff.mp hlb)] at h'
        rw [h, h']
        exact (ha.grows hgrows).equals
      rw [if_neg hlb] at h
      rw [if_neg (hb.forms.error_iff.not.mp hlb), ← ha.forms.isUnion_eq,
        ← hb.forms.isUnion_eq] at h'
      by_cases hunion : (s.kind a).isUnion = true ∨ (s.kind b).isUnion = true
      · rw [if_pos hunion] at h h'
        have hmatch := joinMembers_twins hs ha hb horder
        rw [← hmatch.1, ← (ha.members hs).1.1] at h'
        by_cases hlen : (s.joinMembers a b).length = (s.members a).length
        · rw [if_pos hlen] at h h'
          rw [h, h']
          exact (ha.grows hgrows).equals
        rw [if_neg hlen] at h h'
        obtain ⟨ms, hms, hperm⟩ := h.union_inv
        obtain ⟨ms', hms', hperm'⟩ := h'.union_inv
        refine hforms ?_
        rw [hms, hms']
        refine Matches.imp ((hmatch.of_perm hperm).of_perm_right hperm') fun m _ n _ hmn => ?_
        exact (hmn.grows hgrows).equals
      rw [if_neg hunion] at h h'
      -- equal parts on the right are the same, or no order shows in what is there
      have hplaces : (s.kind b).Alike (fun y y' => s.Twins y y' ∧
          (y' ∈ (s.kind b').places → y = y' ∨ s.Irredundant y')) (s.kind b') := by
        rcases horder with rfl | horder
        · exact .refl fun y hy => ⟨(hb.left.child hy).twins, fun _ => .inl rfl⟩
        · exact hb.forms.imp fun y _ y' _ hyy => ⟨hyy, fun hy' => .inr (horder.place hy')⟩
      refine hforms (h.alike (Z := u.Equals)
        ⟨hs.labelled a, hs.labelled a', hs.labelled b, hs.labelled b'⟩ ha.forms hplaces
        (fun x y hxy => (hxy.grows hgrows).equals) (fun x y hxy => (hxy.1.grows hgrows).equals)
        (fun v v' w w' token token' x x' y y' hv hv' hw hw' hx hx' hy hy' => ?_)
        (fun x x' y z z' y' hy' hz hz' hxx hyy hj hj' => ?_) h')
      · obtain ⟨htwins, hrx, hrx'⟩ := (ha.joinSlots hs hb hv hv' hw hw').2 x x' hx hx'
        refine (htwins.reordered hy hy').imp fun m hm n hn hmn => ?_
        exact (hgrows.equals_iff ((hrx.of_reordered hy).child hm).founded
          ((hrx'.of_reordered hy').child hn).founded).mpr hmn
      · exact ih x y z hj hxx hyy.1 (hyy.2 hy') (hJ' _ _ _ hj') (hr.child hz) (hr'.child hz')

end Store

namespace Infer

variable {s t u : Store} {a a' b b' : NodeId} {scope : MergeScope} {forced : Bool}
  {o o' : Except InferError NodeId}

/-- **Equal values can stand for each other in a merge**: both merges fail, or their results are
equal, if no union in these lists a member twice.  A relaxed merge asks in addition that the right
operands are the same, or no union that is met on the right has a member that covers another one. -/
theorem merge_interchange (hs : s.Reachable) (ha : s.Regular a) (ha' : s.Regular a')
    (hb : s.Regular b) (hb' : s.Regular b') (haa : s.equal a a' = true) (hbb : s.equal b b' = true)
    (horder : forced = false → b = b' ∨ s.Irredundant b')
    (h : (merge scope forced a b).outcome s = (o, t))
    (h' : (merge scope forced a' b').outcome t = (o', u)) :
    (∃ e e', o = .error e ∧ o' = .error e') ∨
      ∃ r r', o = .ok r ∧ o' = .ok r' ∧
        (u.Plain r → u.Plain r' → u.equal r r' = true ∧ u.equal r' r = true) := by
  have hsound := hs.sound
  have hta : s.Twins a a' := ⟨haa, ha, ha'⟩
  have htb : s.Twins b b' := ⟨hbb, hb, hb'⟩
  cases forced with
  | true =>
    obtain ⟨hgives, hfails⟩ := merge_yields hsound ha.closed hb.closed scope true
    obtain ⟨hgives', hfails'⟩ := merge_yields hsound ha'.closed hb'.closed scope true
    by_cases hcovers : s.Covers a b
    · rw [hgives hcovers] at h
      cases h
      rw [hgives' (hta.covers_of hsound htb hcovers)] at h'
      cases h'
      exact .inr ⟨a, a', rfl, rfl, fun _ _ => ⟨haa, (hta.symm hsound).equals⟩⟩
    · obtain ⟨e, he⟩ := hfails rfl hcovers
      rw [he] at h
      cases h
      obtain ⟨e', he'⟩ := hfails' rfl ((hta.covers_iff hsound htb).not.mp hcovers)
      rw [he'] at h'
      cases h'
      exact .inl ⟨e, e', rfl, rfl⟩
  | false =>
    cases merge_produces rfl hs ha hb (.refl s) hsound with
    | gives run grows sound holds landed =>
      rw [run] at h
      cases h
      cases merge_produces rfl hs ha' hb' grows sound with
      | gives run' grows' sound' _ landed' =>
        rw [run'] at h'
        cases h'
        refine .inr ⟨_, _, rfl, rfl, fun hr hr' => ?_⟩
        obtain ⟨hreg, hjoined⟩ := (landed.lasts grows').later u (.refl u) sound' hr
        obtain ⟨hreg', hjoined'⟩ := landed'.later u (.refl u) sound' hr'
        have hequal := hjoined.equals hsound sound' (grows.trans grows') hta htb (horder rfl)
          hjoined' hreg hreg'
        exact ⟨hequal, (hreg.equivalent sound').symm _ hreg'.founded hequal⟩
      | fails _ _ _ refused => exact absurd (holds.of_twins hsound hta htb) refused
    | fails run grows sound refused =>
      rw [run] at h
      cases h
      cases merge_produces rfl hs ha' hb' grows sound with
      | gives _ _ _ holds' _ =>
        exact absurd (holds'.of_twins hsound (hta.symm hsound) (htb.symm hsound)) refused
      | fails run' _ _ _ =>
        rw [run'] at h'
        cases h'
        exact .inl ⟨_, _, rfl, rfl⟩

end Infer

/-- Two lists and a tuple of a placeholder, which becomes `true`, and two unions of a list and the
tuple, in different orders. -/
def Store.swapped : Store :=
  let s := (Change.build (.list 0)).apply (Change.placeholder.apply {})
  let s := (Change.build (.tuple [0])).apply ((Change.build (.list 0)).apply s)
  let s := (Change.complete 0 (.scalar (.constant (.bool true)) .bool)).apply s
  (Change.build (.union [3, 1])).apply ((Change.build (.union [1, 3])).apply s)

theorem Store.reachable_swapped : Store.swapped.Reachable := by
  have hlists := Reachable.step (.build (.list 0)) (.step .placeholder .start trivial) nofun
  have hbuilt := Reachable.step (.build (.tuple [0])) (.step (.build (.list 0)) hlists nofun) nofun
  have hdone := Reachable.step (.complete 0 (.scalar (.constant (.bool true)) .bool)) hbuilt
    fun slot hslot p hp => nomatch hslot.trans (congrArg some hp)
  exact .step (.build (.union [3, 1])) (.step (.build (.union [1, 3])) hdone nofun) nofun

theorem Store.regular_swapped : ∀ n ∈ [1, 2, 4, 5], Store.swapped.Regular n := by
  intro n hn
  refine .of_everywhere 3 ?_
  revert n
  decide +kernel

/-- Neither does a list cover a tuple, nor the other way round. -/
theorem Store.irredundant_swapped : Store.swapped.Irredundant 5 := by
  intro n ms hn hms
  have hkinds : Store.swapped.kind 5 = .union [3, 1] ∧ Store.swapped.kind 3 = .tuple [0] ∧
      Store.swapped.kind 1 = .list 0 := by decide +kernel
  rcases Relation.ReflTransGen.cases_head hn with rfl | ⟨c, hc, -⟩
  · obtain rfl := Kind.union.inj (hkinds.1.symm.trans hms)
    have hnone : ∀ {l m k k'}, Store.swapped.kind l = k → Store.swapped.kind m = k' →
        Store.swapped.equal l m = false → k' ≠ .error .dead →
          ¬ Store.swapped.FormCovers Store.swapped.Covers (Store.swapped.members l)
            (Store.swapped.members m) k k' → ¬ Store.swapped.Covers l m := by
      rintro l m k k' rfl rfl hne hlive hform h
      rcases covers_iff.mp h with h | ⟨-, h | h⟩
      · exact Bool.eq_false_iff.mp hne h
      · exact hlive h
      · exact hform h
    refine .cons (fun m hm => ?_) (List.pairwise_singleton _ _)
    obtain rfl := List.mem_singleton.mp hm
    exact ⟨hnone hkinds.2.1 hkinds.2.2 (by decide +kernel) nofun id,
      hnone hkinds.2.2 hkinds.2.1 (by decide +kernel) nofun id⟩
  · rw [hkinds.1] at hc
    exact absurd hc List.not_mem_nil

theorem Infer.merge_interchange_swapped :
    ∃ t u, (merge {} false 1 4).outcome Store.swapped = (.ok 6, t) ∧
      (merge {} false 2 5).outcome t = (.ok 7, u) ∧ u.equal 6 7 = true ∧ u.equal 7 6 = true := by
  have hregular := Store.regular_swapped
  have h : (merge {} false 1 4).outcome Store.swapped =
      (.ok 6, ((merge {} false 1 4).outcome Store.swapped).2) :=
    outcome_of_toOption (by decide +kernel)
  have h' : (merge {} false 2 5).outcome ((merge {} false 1 4).outcome Store.swapped).2 =
      (.ok 7, ((merge {} false 2 5).outcome ((merge {} false 1 4).outcome Store.swapped).2).2) :=
    outcome_of_toOption (by decide +kernel)
  refine ⟨_, _, h, h', ?_⟩
  rcases merge_interchange Store.reachable_swapped (hregular 1 (by simp)) (hregular 2 (by simp))
    (hregular 4 (by simp)) (hregular 5 (by simp)) (by decide +kernel) (by decide +kernel)
    (fun _ => .inr Store.irredundant_swapped) h h' with ⟨e, -, he, -⟩ | ⟨r, r', hr, hr', hequal⟩
  · exact nomatch he
  · cases hr
    cases hr'
    exact hequal (.of_everywhere 3 (by decide +kernel)) (.of_everywhere 3 (by decide +kernel))

end ValueInference
