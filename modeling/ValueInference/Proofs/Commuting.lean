/-
Relaxed merges without unions do not depend on the order of the operands.

Most of a relaxed merge is lopsided: the left operand is given back where nothing changes, new
candidates and tags are put behind those on the left, and fields stand as they do on the left.  What
two values join to is nevertheless the same both ways up to equality, level by level: candidates,
slots, labelled parts, forms and values.  Unions are left out, and so are sets that give a scalar a
single constant: of such a set and the constant itself the left one is kept, and they are not equal.

* **`Store.Unbiased`** — the values in question;
* **`Store.addCandidates_comm`**, **`Store.joinSlots_comm`** — candidates and slots;
* **`Store.Joinable.symm`** — values that go together do so the other way round;
* **`Store.JoinForm.comm`**, **`Store.Joined.comm`** — forms and values;
* **`Infer.merge_comm`** — both merges fail, or their results are equal.
-/
import ValueInference.Proofs.Interchange
import ValueInference.Proofs.Merged

namespace ValueInference

/-! ### Lists -/

section

variable {α : Type} {R : α → α → Prop} {as bs : List α} {J J₁ : NodeId → NodeId → NodeId → Prop}
  {Z : NodeId → NodeId → Prop}

/-- Items joined both ways. -/
theorem JoinsEach.comm {xs ys zs : List NodeId} (h : JoinsEach J xs ys zs) :
    ∀ {zs₁ : List NodeId}, JoinsEach J₁ ys xs zs₁ →
      (∀ x ∈ xs, ∀ y ∈ ys, ∀ z ∈ zs, ∀ z₁ ∈ zs₁, J x y z → J₁ y x z₁ → Z z z₁) →
        List.Forall₂ Z zs zs₁ := by
  induction h with
  | nil =>
    intro zs₁ h₁ _
    cases h₁
    exact .nil
  | cons hj _ ih =>
    intro zs₁ h₁ hZ
    cases h₁ with
    | cons hj₁ h₁ =>
      have hhead := hZ _ List.mem_cons_self _ List.mem_cons_self _ List.mem_cons_self _
        List.mem_cons_self hj hj₁
      refine .cons hhead (ih h₁ fun x hx y hy z hz z₁ hz₁ => ?_)
      exact hZ x (List.mem_cons_of_mem _ hx) y (List.mem_cons_of_mem _ hy) z
        (List.mem_cons_of_mem _ hz) z₁ (List.mem_cons_of_mem _ hz₁)

/-- What stands under one label, joined both ways. -/
theorem JoinsAt.comm {x y z z₁ : Option NodeId} (h : JoinsAt J x y z) (h₁ : JoinsAt J₁ y x z₁)
    (hsame : ∀ m, Z m m)
    (hZ : ∀ l m n n₁, x = some l → y = some m → z = some n → z₁ = some n₁ → J l m n →
      J₁ m l n₁ → Z n n₁) : Option.Rel Z z z₁ := by
  cases x with
  | none =>
    obtain rfl : z = y := h
    cases z with
    | none =>
      obtain rfl : z₁ = none := h₁
      exact .none
    | some m =>
      obtain rfl : z₁ = some m := h₁
      exact .some (hsame m)
  | some l =>
    cases y with
    | none =>
      obtain rfl : z = some l := h
      obtain rfl : z₁ = some l := h₁
      exact .some (hsame l)
    | some m =>
      obtain ⟨n, rfl, hj⟩ := h
      obtain ⟨n₁, rfl, hj₁⟩ := h₁
      exact .some (hZ l m n n₁ rfl rfl rfl rfl hj hj₁)

/-- Where each label of the left fields is one on the right, there are as many on the right. -/
theorem fields_length_le {fs gs : List (String × NodeId)} (hfs : (fs.map Prod.fst).Nodup)
    (h : ∀ f ∈ fs, ∃ y, gs.lookup f.1 = some y) : fs.length ≤ gs.length := by
  refine length_le_of_apart (R := SameLabel fun _ _ => True) (fun f hf => ?_)
    (apartIn_of_labels hfs)
  obtain ⟨y, hy⟩ := h f hf
  exact ⟨(f.1, y), mem_of_lookup hy, rfl, trivial⟩

/-- Fields joined both ways. -/
theorem JoinsFields.comm {fs gs zs zs₁ : List (String × NodeId)} (h : JoinsFields J gs fs zs)
    (h₁ : JoinsFields J₁ fs gs zs₁) (hfs : (fs.map Prod.fst).Nodup) (hgs : (gs.map Prod.fst).Nodup)
    (hZ : ∀ x ∈ fs.map Prod.snd, ∀ y ∈ gs.map Prod.snd, ∀ z ∈ zs.map Prod.snd,
      ∀ z₁ ∈ zs₁.map Prod.snd, J x y z → J₁ y x z₁ → Z z z₁) : Matches (SameLabel Z) zs zs₁ := by
  have hpartner : ∀ {K : NodeId → NodeId → NodeId → Prop} {fs gs zs : List (String × NodeId)},
      JoinsFields K gs fs zs → ∀ f ∈ fs, ∃ y, gs.lookup f.1 = some y := by
    intro K fs gs zs h f hf
    obtain ⟨z, -, -, y, hy, -⟩ := exists_of_forall₂ h f hf
    exact ⟨y, hy⟩
  have hlength : fs.length = gs.length :=
    Nat.le_antisymm (fields_length_le hfs (hpartner h)) (fields_length_le hgs (hpartner h₁))
  refine ⟨(h.length_eq.symm.trans hlength).trans h₁.length_eq, fun z hz => ?_⟩
  obtain ⟨f, hf, hname, y, hy, hj⟩ := exists_of_forall₂ (List.Forall₂.flip h) z hz
  obtain ⟨z₁, hz₁, hname₁, x, hx, hj₁⟩ := exists_of_forall₂ h₁ (f.1, y) (mem_of_lookup hy)
  obtain rfl : f.2 = x := Option.some.inj (((lookup_iff_mem hfs).mpr hf).symm.trans hx)
  refine ⟨z₁, hz₁, hname.symm.trans hname₁, ?_⟩
  exact hZ f.2 (List.mem_map_of_mem hf) y (mem_snd_of_lookup hy) z.2 (List.mem_map_of_mem hz) z₁.2
    (List.mem_map_of_mem hz₁) hj hj₁

/-- Options joined both ways. -/
theorem JoinsOptions.comm {xs ys zs zs₁ : List (UInt32 × NodeId)} (h : JoinsOptions J xs ys zs)
    (h₁ : JoinsOptions J₁ ys xs zs₁) (hsame : ∀ m, Z m m)
    (hZ : ∀ x ∈ xs.map Prod.snd, ∀ y ∈ ys.map Prod.snd, ∀ z ∈ zs.map Prod.snd,
      ∀ z₁ ∈ zs₁.map Prod.snd, J x y z → J₁ y x z₁ → Z z z₁) : Matches (SameLabel Z) zs zs₁ := by
  refine matches_of_lookups h.labels h₁.labels fun l => ?_
  refine (h.joined l).comm (h₁.joined l) hsame fun x y z z₁ hx hy hz hz₁ => ?_
  exact hZ x (mem_snd_of_lookup hx) y (mem_snd_of_lookup hy) z (mem_snd_of_lookup hz) z₁
    (mem_snd_of_lookup hz₁)

end

/-- If the one slot is a set and the other one a constant, the set has more than one candidate. -/
def Slot.Offers (v w : Slot) : Prop :=
  ∀ p c, v = .possibilities p → w = .constant c → 2 ≤ p.candidates.length

/-- The slots of two forms that both have one, and are forms of one kind. -/
inductive Kind.Facing : Kind → Kind → Slot → Slot → Prop where
  | scalar (v w : Slot) (t u : Ty) : Facing (.scalar v t) (.scalar w u) v w
  | function (v w : Slot) : Facing (.function v) (.function w) v w

theorem Ty.join_comm (t u : Ty) : t.join u = u.join t := by
  rw [join, join]
  by_cases htu : t = u
  · simp [htu]
  · by_cases ht : t = .any <;> by_cases hu : u = .any <;> simp [htu, Ne.symm htu, ht, hu]

namespace Store

variable {s u : Store} {a b c r r' : NodeId} {v w x x' : Slot} {k k' m m₁ : Kind}
  {limit token token' : Nat}

/-! ### Slots -/

/-- Candidates put together both ways are the same up to equality. -/
theorem addCandidates_comm (hs : s.Sound) (hv : s.RegularSlot v) (hw : s.RegularSlot w) :
    Matches (Candidate.Alike s.Equals)
      (s.addCandidates (Infer.candidatesOf (s.resolve v)) (Infer.candidatesOf (s.resolve w)))
      (s.addCandidates (Infer.candidatesOf (s.resolve w)) (Infer.candidatesOf (s.resolve v))) := by
  have hfinds : ∀ {v w : Slot}, s.RegularSlot v → s.RegularSlot w →
      ∀ c ∈ s.addCandidates (Infer.candidatesOf (s.resolve v)) (Infer.candidatesOf (s.resolve w)),
        ∃ d ∈ s.addCandidates (Infer.candidatesOf (s.resolve w)) (Infer.candidatesOf (s.resolve v)),
          c.Alike s.Equals d := by
    intro v w hv hw c hc
    rw [addCandidates_eq_addNew] at hc ⊢
    rcases mem_of_mem_addNew hc with hc | hc
    · by_cases h : ∃ d ∈ Infer.candidatesOf (s.resolve w), s.equalCandidates d c = true
      · obtain ⟨d, hd, hdc⟩ := h
        exact ⟨d, prefix_addNew.subset hd, alike_symm hs (hw.regularIn d hd)
          (hv.regularIn c hc).founded ((equalCandidates_iff (hw.regularIn d hd).founded).mp hdc)⟩
      · rw [addNew_eq_filter (hv.separate.imp fun hcd => Bool.eq_false_iff.mp hcd.1)]
        exact ⟨c, List.mem_append_right _ (List.mem_filter.mpr ⟨hc, by simpa using h⟩),
          s.alike_refl c⟩
    · exact ⟨c, prefix_addNew.subset hc, s.alike_refl c⟩
  obtain ⟨hregular, hseparate⟩ := addCandidates_regular hs hv hw
  obtain ⟨hregular', hseparate'⟩ := addCandidates_regular hs hw hv
  exact matches_of_apart (hfinds hv hw) (hfinds hw hv)
    (apartIn_candidates hs hregular hseparate fun d hd => (hregular' d hd).founded)
    (apartIn_candidates hs hregular' hseparate' fun c hc => (hregular c hc).founded)

/-- Slots with the same candidates up to equality. -/
theorem matches_of_subsets (hs : s.Sound) (hv : s.RegularSlot v) (hw : s.RegularSlot w)
    (hvw : s.isSubset (Infer.candidatesOf (s.resolve v)) (Infer.candidatesOf (s.resolve w)) = true)
    (hwv : s.isSubset (Infer.candidatesOf (s.resolve w))
      (Infer.candidatesOf (s.resolve v)) = true) :
    Matches (Candidate.Alike s.Equals) (Infer.candidatesOf (s.resolve v))
      (Infer.candidatesOf (s.resolve w)) := by
  have hfinds : ∀ {v w : Slot}, s.RegularSlot v → s.RegularSlot w →
      s.isSubset (Infer.candidatesOf (s.resolve v)) (Infer.candidatesOf (s.resolve w)) = true →
        ∀ c ∈ Infer.candidatesOf (s.resolve v), ∃ d ∈ Infer.candidatesOf (s.resolve w),
          c.Alike s.Equals d := by
    intro v w hv hw hsub c hc
    obtain ⟨d, hd, hdc⟩ := (isSubset_iff fun d hd => (hw.regularIn d hd).founded).mp hsub c hc
    exact ⟨d, hd, alike_symm hs (hw.regularIn d hd) (hv.regularIn c hc).founded hdc⟩
  exact matches_of_apart (hfinds hv hw hvw) (hfinds hw hv hwv)
    (apartIn_candidates hs hv.regularIn hv.separate fun d hd => (hw.regularIn d hd).founded)
    (apartIn_candidates hs hw.regularIn hw.separate fun c hc => (hv.regularIn c hc).founded)

theorem SlotTwins.refl (s : Store) (v : Slot) : s.SlotTwins v v := by
  refine slotTwins_of_alike (fun p q hp hq _ => ?_) (.refl v)
  cases hp.symm.trans hq
  rfl

/-- Two slots that are equal if their candidates are join to the same slot both ways. -/
theorem joinCandidates_comm (limit token token' : Nat) (hs : s.Sound)
    (hv : s.RegularSlot v) (hw : s.RegularSlot w)
    (hsame : Matches (Candidate.Alike s.Equals) (Infer.candidatesOf (s.resolve v))
      (Infer.candidatesOf (s.resolve w)) → s.SlotTwins v w) : s.SlotTwins
      (s.joinCandidates limit token v w (Infer.candidatesOf (s.resolve v))
        (Infer.candidatesOf (s.resolve w)))
      (s.joinCandidates limit token' w v (Infer.candidatesOf (s.resolve w))
        (Infer.candidatesOf (s.resolve v))) := by
  have hunion := addCandidates_comm hs hv hw
  have hunion' := addCandidates_comm hs hw hv
  rw [joinCandidates, joinCandidates, hunion.1,
    Bool.eq_iff_iff.mpr ⟨constants_of_matches hunion', constants_of_matches hunion⟩]
  by_cases hwv : s.isSubset (Infer.candidatesOf (s.resolve w)) (Infer.candidatesOf (s.resolve v))
  · by_cases hvw : s.isSubset (Infer.candidatesOf (s.resolve v)) (Infer.candidatesOf (s.resolve w))
    · -- each merge gives back its left operand, so these have to be equal
      rw [if_pos hwv, if_pos hvw]
      exact hsame (matches_of_subsets hs hv hw hvw hwv)
    · rw [if_pos hwv, if_neg hvw, if_pos hwv]
      exact .refl s v
  · rw [if_neg hwv]
    by_cases hvw : s.isSubset (Infer.candidatesOf (s.resolve v)) (Infer.candidatesOf (s.resolve w))
    · rw [if_pos hvw, if_pos hvw]
      exact .refl s w
    · rw [if_neg hvw, if_neg hvw, if_neg hwv]
      split
      · exact .refl s .anything
      · refine ⟨.inr hunion, ?_⟩
        rw [resolve_self _ (.possibilities _) rfl, resolve_self _ (.possibilities _) rfl]
        exact hunion

/-- Two slots that may change places in a merge: they are regular and no pendings, and neither of
them is a set of one candidate beside a constant. -/
structure Mutual (s : Store) (v w : Slot) : Prop where
  left : s.RegularSlot v
  right : s.RegularSlot w
  left_clear : v.pendings = []
  right_clear : w.pendings = []
  left_offers : v.Offers w
  right_offers : w.Offers v

/-- **Slots join to the same slot both ways**, up to equality, or they do not go together. -/
theorem joinSlots_comm (limit token token' : Nat) (hs : s.Sound) (h : s.Mutual v w) :
    (s.joinSlots limit token v w = none ∧ s.joinSlots limit token' w v = none) ∨
      ∃ x x', s.joinSlots limit token v w = some x ∧ s.joinSlots limit token' w v = some x' ∧
        s.SlotTwins x x' := by
  obtain ⟨hv, hw, hpv, hpw, hvw, hwv⟩ := h
  have hself := s.resolve_self v hpv
  have hself' := s.resolve_self w hpw
  have hcandidates := joinCandidates_comm limit token token' hs hv hw
  rw [hself, hself'] at hcandidates
  rw [joinSlots, joinSlots, hself, hself']
  cases v with
  | pending p => exact absurd hpv (List.cons_ne_nil p [])
  | anything =>
    cases w with
    | pending q => exact absurd hpw (List.cons_ne_nil q [])
    | _ => exact .inr ⟨_, _, rfl, rfl, .refl s .anything⟩
  | constant c =>
    cases w with
    | pending q => exact absurd hpw (List.cons_ne_nil q [])
    | anything => exact .inr ⟨_, _, rfl, rfl, .refl s .anything⟩
    | constant d =>
      by_cases hcd : c = d
      · subst hcd
        exact .inr ⟨_, _, if_pos rfl, if_pos rfl, .refl s _⟩
      · by_cases hwiden : (c.widenable && d.widenable) = true
        · refine .inr ⟨.anything, .anything, ?_, ?_, .refl s .anything⟩
          · simp only [if_neg hcd, if_pos hwiden]
          · simp only [if_neg (Ne.symm hcd), Bool.and_comm, if_pos hwiden]
        · refine .inl ⟨?_, ?_⟩
          · simp only [if_neg hcd, if_neg hwiden]
          · simp only [if_neg (Ne.symm hcd), Bool.and_comm, if_neg hwiden]
    | possibilities q =>
      -- the set has a second candidate, so it is no set of the same candidates
      refine .inr ⟨_, _, rfl, rfl, hcandidates fun hsame => ?_⟩
      exact absurd (hwv q c rfl rfl) (Nat.not_le.mpr (Nat.lt_of_le_of_lt hsame.1.ge Nat.one_lt_two))
  | possibilities p =>
    cases w with
    | pending q => exact absurd hpw (List.cons_ne_nil q [])
    | anything => exact .inr ⟨_, _, rfl, rfl, .refl s .anything⟩
    | constant d =>
      refine .inr ⟨_, _, rfl, rfl, hcandidates fun hsame => ?_⟩
      exact absurd (hvw p d rfl rfl) (Nat.not_le.mpr (Nat.lt_of_le_of_lt hsame.1.le Nat.one_lt_two))
    | possibilities q =>
      refine .inr ⟨_, _, rfl, rfl, hcandidates fun hsame => ⟨.inr hsame, ?_⟩⟩
      rw [hself, hself']
      exact hsame

/-- Slots that go together do so the other way round. -/
theorem SlotsJoin.symm {P : Candidate → Prop} (hs : s.Sound) (hmutual : s.Mutual v w)
    (hP : ∀ c d : Candidate, c.Alike s.Equals d → P c → P d) (h : s.SlotsJoin limit P v w) :
    s.SlotsJoin limit P w v := by
  obtain ⟨token, x, hx, hall⟩ := h
  rcases joinSlots_comm limit token token hs hmutual with ⟨hnone, -⟩ | ⟨y, x', hy, hx', htwins⟩
  · exact nomatch hnone.symm.trans hx
  · cases hx.symm.trans hy
    exact ⟨token, x', hx', htwins.forall_candidates hs
      (regularSlot_of_joinSlots hs hmutual.left hmutual.right hx)
      (regularSlot_of_joinSlots hs hmutual.right hmutual.left hx') hP hall⟩

/-! ### Forms -/

/-- Forms go together the other way round if the nodes below do. -/
theorem JoinableForm.symm {J J₁ : NodeId → NodeId → Prop} (hs : s.Sound)
    (hlabels : k.Labelled ∧ k'.Labelled) (hslots : ∀ v w, k.Facing k' v w → s.Mutual v w)
    (hJ : ∀ x ∈ k.children, ∀ y ∈ k'.children, J x y → J₁ y x)
    (h : s.JoinableForm limit J k k') : s.JoinableForm limit J₁ k' k := by
  cases h.sameForm with
  | scalar v w t u =>
    have hsymm := h.symm hs (hslots v w (.scalar v w t u)) fun _ _ => Candidate.Fits.of_alike
    rw [Ty.join_comm] at hsymm
    exact hsymm
  | tuple xs ys => exact (forall₂_imp_mem h hJ).flip
  | list x y => exact hJ x (List.mem_singleton_self x) y (List.mem_singleton_self y) h
  | array x y shape shape' =>
    exact ⟨h.1.symm, hJ x (List.mem_singleton_self x) y (List.mem_singleton_self y) h.2⟩
  | record tag tag' fs gs =>
    obtain ⟨htag, hlength, hfields⟩ := h
    refine ⟨htag.symm, hlength.symm, fun g hg => ?_⟩
    -- as many labels on both sides, and those on the left are on the right
    have hmatch : Matches (SameLabel fun x y => J x y ∧ x ∈ fs.map Prod.snd ∧
        y ∈ gs.map Prod.snd) fs gs := by
      refine ⟨hlength, fun f hf => ?_⟩
      obtain ⟨y, hy, hxy⟩ := hfields f hf
      exact ⟨(f.1, y), mem_of_lookup hy, rfl, hxy, List.mem_map_of_mem hf, mem_snd_of_lookup hy⟩
    obtain ⟨x, hx, hxy, hmem, hmem'⟩ :=
      lookup_of_matches hmatch hlabels.1 ((lookup_iff_mem hlabels.2).mpr hg)
    exact ⟨x, hx, hJ x hmem g.2 hmem' hxy⟩
  | tagged xs ys =>
    intro l y x hy hx
    exact hJ x (mem_snd_of_lookup hx) y (mem_snd_of_lookup hy) (h l x y hx hy)
  | function v w =>
    exact h.symm hs (hslots v w (.function v w)) fun _ _ => Candidate.function?_of_alike
  | jtagged x y => exact hJ x (List.mem_singleton_self x) y (List.mem_singleton_self y) h
  | union | error | type => exact h.elim

/-- What slots join to both ways is alike in every later store, up to order. -/
theorem Mutual.alike (hs : s.Sound) (hgrows : s.Grows u) (h : s.Mutual v w)
    (hx : s.joinSlots limit token v w = some x) (hx' : s.joinSlots limit token' w v = some x')
    {y y' : Slot} (hy : y.Reordered x) (hy' : y'.Reordered x') : y.Alike u.Equals y' := by
  have hrx := regularSlot_of_joinSlots hs h.left h.right hx
  have hrx' := regularSlot_of_joinSlots hs h.right h.left hx'
  rcases joinSlots_comm limit token token' hs h with ⟨hnone, -⟩ | ⟨z, z', hz, hz', htwins⟩
  · exact nomatch hnone.symm.trans hx
  cases hx.symm.trans hz
  cases hx'.symm.trans hz'
  refine (htwins.reordered hy hy').imp fun m hm n hn hmn => ?_
  exact (hgrows.equals_iff ((hrx.of_reordered hy).child hm).founded
    ((hrx'.of_reordered hy').child hn).founded).mpr hmn

/-- **What two forms join to is alike both ways**, if what the nodes below join to is equal. -/
theorem JoinForm.comm {J J₁ : NodeId → NodeId → NodeId → Prop} (hs : s.Sound) (hgrows : s.Grows u)
    (hlabels : k.Labelled ∧ k'.Labelled) (hslots : ∀ v w, k.Facing k' v w → s.Mutual v w)
    (hJ : ∀ x ∈ k.children, ∀ y ∈ k'.children, ∀ z ∈ m.children, ∀ z₁ ∈ m₁.children,
      J x y z → J₁ y x z₁ → u.Equals z z₁)
    (h : s.JoinForm limit J k k' m) (h₁ : s.JoinForm limit J₁ k' k m₁) :
    m.Alike u.Equals m₁ := by
  cases h.sameForm with
  | scalar v w t t' =>
    obtain ⟨token, x, hx, hm⟩ := h
    obtain ⟨token₁, x₁, hx₁, hm₁⟩ := h₁
    obtain ⟨y, rfl, hy⟩ := hm.scalar_inv
    obtain ⟨y₁, rfl, hy₁⟩ := hm₁.scalar_inv
    exact ⟨t.join_comm t', (hslots v w (.scalar v w t t')).alike hs hgrows hx hx₁ hy hy₁⟩
  | tuple xs ys =>
    obtain ⟨zs, hzs, rfl⟩ := h
    obtain ⟨zs₁, hzs₁, rfl⟩ := h₁
    exact hzs.comm hzs₁ hJ
  | list x y =>
    obtain ⟨z, hz, rfl⟩ := h
    obtain ⟨z₁, hz₁, rfl⟩ := h₁
    exact hJ x (List.mem_singleton_self x) y (List.mem_singleton_self y) z
      (List.mem_singleton_self z) z₁ (List.mem_singleton_self z₁) hz hz₁
  | array x y shape shape' =>
    obtain ⟨hshape, z, hz, rfl⟩ := h
    obtain ⟨-, z₁, hz₁, rfl⟩ := h₁
    exact ⟨hshape, hJ x (List.mem_singleton_self x) y (List.mem_singleton_self y) z
      (List.mem_singleton_self z) z₁ (List.mem_singleton_self z₁) hz hz₁⟩
  | record tag tag' fs gs =>
    obtain ⟨htag, zs, hzs, hm⟩ := h
    obtain ⟨-, zs₁, hzs₁, hm₁⟩ := h₁
    obtain ⟨ms, rfl, hms⟩ := hm.record_inv
    obtain ⟨ms₁, rfl, hms₁⟩ := hm₁.record_inv
    -- the fields are put in order after the merge, so they are alike up to order
    refine ⟨htag, ((hzs.comm hzs₁ hlabels.1 hlabels.2 fun x hx y hy z hz z₁ hz₁ => ?_).of_perm
      hms).of_perm_right hms₁⟩
    exact hJ x hx y hy z ((hms.map Prod.snd).mem_iff.mpr hz) z₁
      ((hms₁.map Prod.snd).mem_iff.mpr hz₁)
  | tagged xs ys =>
    obtain ⟨zs, hzs, hm⟩ := h
    obtain ⟨zs₁, hzs₁, hm₁⟩ := h₁
    obtain ⟨ms, rfl, hms⟩ := hm.tagged_inv
    obtain ⟨ms₁, rfl, hms₁⟩ := hm₁.tagged_inv
    refine ((hzs.comm hzs₁ u.equals_refl fun x hx y hy z hz z₁ hz₁ => ?_).of_perm
      hms).of_perm_right hms₁
    exact hJ x hx y hy z ((hms.map Prod.snd).mem_iff.mpr hz) z₁
      ((hms₁.map Prod.snd).mem_iff.mpr hz₁)
  | function v w =>
    obtain ⟨token, x, hx, hm⟩ := h
    obtain ⟨token₁, x₁, hx₁, hm₁⟩ := h₁
    obtain ⟨y, rfl, hy⟩ := hm.function_inv
    obtain ⟨y₁, rfl, hy₁⟩ := hm₁.function_inv
    exact (hslots v w (.function v w)).alike hs hgrows hx hx₁ hy hy₁
  | jtagged x y =>
    obtain ⟨z, hz, rfl⟩ := h
    obtain ⟨z₁, hz₁, rfl⟩ := h₁
    exact hJ x (List.mem_singleton_self x) y (List.mem_singleton_self y) z
      (List.mem_singleton_self z) z₁ (List.mem_singleton_self z₁) hz hz₁
  | union | error | type => exact h.elim

/-! ### Values -/

/-- A regular value without pendings and unions, in which every set of a scalar has two candidates
or more. -/
structure Unbiased (s : Store) (a : NodeId) : Prop extends s.Regular a where
  clear : s.Clear a
  plain : ∀ n ms, s.Leads a n → s.kind n ≠ .union ms
  several : ∀ n p ty, s.Leads a n → s.kind n = .scalar (.possibilities p) ty →
    2 ≤ p.candidates.length

namespace Unbiased

theorem child (h : s.Unbiased a) (hc : c ∈ (s.kind a).children) : s.Unbiased c where
  toRegular := h.toRegular.child hc
  clear := h.clear.child hc
  plain n ms hn := h.plain n ms (.head hc hn)
  several n p ty hn := h.several n p ty (.head hc hn)

theorem not_union (h : s.Unbiased a) : (s.kind a).isUnion = false := by
  cases hk : s.kind a with
  | union ms => exact absurd hk (h.plain a ms .refl)
  | _ => rfl

theorem slot_clear (h : s.Unbiased a) (hv : (s.kind a).slot? = some v) : v.pendings = [] := by
  have hnone := h.clear a .refl
  rwa [Kind.pendings, hv] at hnone

/-- Slots of forms of one kind may change places. -/
theorem facing (hs : s.Reachable) (ha : s.Unbiased a) (hb : s.Unbiased b)
    (h : (s.kind a).Facing (s.kind b) v w) : s.Mutual v w := by
  generalize hka : s.kind a = k at h
  generalize hkb : s.kind b = k' at h
  cases h with
  | scalar _ _ t t' =>
    have hv : (s.kind a).slot? = some v := by rw [hka]; rfl
    have hw : (s.kind b).slot? = some w := by rw [hkb]; rfl
    refine ⟨ha.toRegular.slot hv, hb.toRegular.slot hw, ha.slot_clear hv, hb.slot_clear hw, ?_, ?_⟩
    · rintro p c rfl -
      exact ha.several a p t .refl hka
    · rintro p c rfl -
      exact hb.several b p t' .refl hkb
  | function =>
    have hv : (s.kind a).slot? = some v := by rw [hka]; rfl
    have hw : (s.kind b).slot? = some w := by rw [hkb]; rfl
    -- the options of a function are no constant
    refine ⟨ha.toRegular.slot hv, hb.toRegular.slot hw, ha.slot_clear hv, hb.slot_clear hw, ?_, ?_⟩
    · rintro p c - rfl
      exact nomatch hs.refers hkb _ (List.mem_singleton_self _)
    · rintro p c - rfl
      exact nomatch hs.refers hka _ (List.mem_singleton_self _)

end Unbiased

/-- What `Unbiased` asks of a single node. -/
def unbiasedAt (s : Store) (n : NodeId) : Bool :=
  s.regularAt n && decide ((s.kind n).pendings = []) &&
    match s.kind n with
    | .union _ => false
    | .scalar (.possibilities p) _ => decide (2 ≤ p.candidates.length)
    | _ => true

/-- **A value is unbiased if a search says so.** -/
theorem Unbiased.of_everywhere (depth : Nat) (h : s.everywhere s.unbiasedAt depth a = true) :
    s.Unbiased a := by
  have hregular : ∀ n, s.unbiasedAt n = true → s.regularAt n = true := by
    intro n hn
    rw [unbiasedAt, Bool.and_eq_true, Bool.and_eq_true] at hn
    exact hn.1.1
  refine ⟨.of_everywhere depth (everywhere_imp hregular h), fun n hn => ?_, fun n ms hn hk => ?_,
    fun n p ty hn hk => ?_⟩
  · have hat := leads_of_everywhere h hn
    rw [unbiasedAt, Bool.and_eq_true, Bool.and_eq_true] at hat
    exact of_decide_eq_true hat.1.2
  · have hat := leads_of_everywhere h hn
    rw [unbiasedAt, hk, Bool.and_false] at hat
    exact nomatch hat
  · have hat := leads_of_everywhere h hn
    rw [unbiasedAt, hk, Bool.and_eq_true] at hat
    exact of_decide_eq_true hat.2

/-- **Values that go together do so the other way round.** -/
theorem Joinable.symm (hs : s.Reachable) (h : s.Joinable limit a b) :
    s.Unbiased a → s.Unbiased b → s.Joinable limit b a := by
  induction h with
  | @same a b h =>
    exact fun ha hb => .same ((ha.toRegular.equivalent hs.sound).symm b hb.toRegular.founded h)
  | @step a b J _ h ih =>
    intro ha hb
    refine .step (fun y x => s.Unbiased x ∧ s.Unbiased y ∧ J x y)
      (fun y x hxy => ih x y hxy.2.2 hxy.1 hxy.2.1) ?_
    rcases h with hdead | hdead | hunion | hunion | hform
    · exact .inr (.inl hdead)
    · exact .inl hdead
    · exact .inr (.inr (.inr (.inl hunion)))
    · exact .inr (.inr (.inl hunion))
    · refine .inr (.inr (.inr (.inr ?_)))
      exact hform.symm hs.sound ⟨hs.sound.labelled a, hs.sound.labelled b⟩
        (fun v w hvw => ha.facing hs hb hvw)
        fun x hx y hy hxy => ⟨ha.child hx, hb.child hy, hxy⟩

/-- **What two values join to is equal both ways.** -/
theorem Joined.comm (hs : s.Reachable) (hu : u.Sound) (hgrows : s.Grows u)
    (h : s.Joined u limit a b r) : ∀ {r'}, s.Unbiased a → s.Unbiased b →
      s.Joined u limit b a r' → u.Regular r → u.Regular r' → u.Equals r r' := by
  induction h with
  | @same a b h =>
    intro r' ha hb h' _ _
    have hsymm := (ha.toRegular.equivalent hs.sound).symm b hb.toRegular.founded h
    cases h' with
    | same => exact (hgrows.equals_iff ha.toRegular.founded hb.toRegular.founded).mpr h
    | step J _ hne => exact absurd hsymm hne
  | @step a b r J hJ hne h ih =>
    intro r' ha hb h' hr hr'
    cases h' with
    | same h' =>
      exact absurd ((hb.toRegular.equivalent hs.sound).symm a ha.toRegular.founded h') hne
    | step J' hJ' hne' h' =>
      rw [JoinStep] at h h'
      by_cases hdead : s.kind a = .error .dead
      · rw [if_pos hdead] at h
        by_cases hdead' : s.kind b = .error .dead
        · -- two values that are never reached are equal
          refine absurd (ha.toRegular.equals_of_alike hs.sound hb.toRegular.founded
            (fun x hx => (ha.toRegular.child hx).equivalent hs.sound) ?_) hne
          rw [hdead, hdead']
          rfl
        · rw [if_neg hdead', if_pos hdead] at h'
          rw [h, h']
          exact u.equals_refl b
      rw [if_neg hdead] at h
      by_cases hdead' : s.kind b = .error .dead
      · rw [if_pos hdead'] at h h'
        rw [h, h']
        exact u.equals_refl a
      rw [if_neg hdead'] at h h'
      rw [if_neg hdead] at h'
      have hnone : ¬ ((s.kind a).isUnion = true ∨ (s.kind b).isUnion = true) := by
        simp [ha.not_union, hb.not_union]
      have hnone' : ¬ ((s.kind b).isUnion = true ∨ (s.kind a).isUnion = true) := by
        simp [ha.not_union, hb.not_union]
      rw [if_neg hnone] at h
      rw [if_neg hnone'] at h'
      refine hr.equals_of_alike hu hr'.founded (fun x hx => (hr.child hx).equivalent hu) ?_
      refine h.comm hs.sound hgrows ⟨hs.sound.labelled a, hs.sound.labelled b⟩
        (fun v w hvw => ha.facing hs hb hvw) (fun x hx y hy z hz z' hz' hj hj' => ?_) h'
      exact ih x y z hj (ha.child hx) (hb.child hy) (hJ' _ _ _ hj') (hr.child hz) (hr'.child hz')

end Store

namespace Infer

variable {s t u : Store} {a b : NodeId} {o o' : Except InferError NodeId}

/-- A relaxed merge gives a regular value that the operands join to, exactly if they go together. -/
theorem merge_joins (hs : s.Reachable) (ha : s.Unbiased a) (hb : s.Unbiased b) (scope : MergeScope)
    (hgrows : s.Grows t) (ht : t.Sound) :
    Produces (merge scope false a b) t (s.Joinable scope.config.maxPossibilities a b) fun u r =>
      ∀ u', u.Grows u' → u'.Sound →
        u'.Regular r ∧ s.Joined u' scope.config.maxPossibilities a b r := by
  have hpa := ha.toGround.proper hs ha.clear
  have hpb := hb.toGround.proper hs hb.clear
  cases merge_produces rfl hs ha.toRegular hb.toRegular hgrows ht with
  | fails run grows sound refused => exact .fails run grows sound refused
  | gives run grows sound holds landed =>
    refine .gives run grows sound holds fun u' hu hsound => landed.later u' hu hsound ?_
    cases merge_ends scope false hpa hpb t hgrows ht with
    | mismatches run' => exact nomatch congrArg Prod.fst (run.symm.trans run')
    | gives run' _ _ merged =>
      cases run.symm.trans run'
      exact (hu.tidy merged.proper (merged.tidy ha.toGround.tidy hb.toGround.tidy)).plain

/-- **The order of the operands does not matter** to a relaxed merge without unions: both merges
fail, or their results are equal. -/
theorem merge_comm (hs : s.Reachable) (ha : s.Unbiased a) (hb : s.Unbiased b) (scope : MergeScope)
    (h : (merge scope false a b).outcome s = (o, t))
    (h' : (merge scope false b a).outcome t = (o', u)) :
    (∃ e e', o = .error e ∧ o' = .error e') ∨
      ∃ r r', o = .ok r ∧ o' = .ok r' ∧ u.equal r r' = true ∧ u.equal r' r = true := by
  cases merge_joins hs ha hb scope (.refl s) hs.sound with
  | fails run grows sound refused =>
    cases h.symm.trans run
    cases merge_joins hs hb ha scope grows sound with
    | fails run' => exact .inl ⟨_, _, rfl, congrArg Prod.fst (h'.symm.trans run')⟩
    | gives _ _ _ holds => exact absurd (holds.symm hs hb ha) refused
  | gives run grows sound holds joins =>
    cases h.symm.trans run
    cases merge_joins hs hb ha scope grows sound with
    | fails _ _ _ refused => exact absurd (holds.symm hs ha hb) refused
    | gives run' grows' sound' _ joins' =>
      cases h'.symm.trans run'
      obtain ⟨hreg, hjoined⟩ := joins u grows' sound'
      obtain ⟨hreg', hjoined'⟩ := joins' u (.refl u) sound'
      have hequal := hjoined.comm hs sound' (grows.trans grows') ha hb hjoined' hreg hreg'
      exact .inr ⟨_, _, rfl, rfl, hequal,
        (hreg.equivalent sound').symm _ hreg'.founded hequal⟩

/-- Two tagged unions that share a tag, over a placeholder that becomes nil. -/
def relabelled : Store :=
  let s := (Change.build (.scalar (.constant (.int 1)) .i64)).apply (Change.placeholder.apply {})
  let s := (Change.build (.scalar (.constant (.int 2)) .i64)).apply s
  let s := (Change.build (.tagged [(0, 1), (1, 0)])).apply s
  let s := (Change.build (.tagged [(0, 2), (2, 0)])).apply s
  (Change.complete 0 (.scalar (.constant .nil) .nil)).apply s

/-- The two results are different nodes. -/
theorem merge_comm_relabelled :
    ∃ t u, (merge {} false 3 4).outcome relabelled = (.ok 6, t) ∧
      (merge {} false 4 3).outcome t = (.ok 7, u) ∧ u.equal 6 7 = true ∧ u.equal 7 6 = true := by
  have hconstant : ∀ {s : Store} {c : Constant} {ty : Ty} {v : Slot},
      (Kind.scalar (.constant c) ty).slot? = some v → s.AdmitsSlot v :=
    fun hslot p hp => nomatch hslot.trans (congrArg some hp)
  have hs : relabelled.Reachable := by
    refine .step (.complete 0 _) (.step (.build _) (.step (.build _) (.step (.build _)
      (.step (.build _) (.step .placeholder .start trivial) ?_) ?_) ?_) ?_) ?_
    · exact fun _ => hconstant
    · exact fun _ => hconstant
    · exact nofun
    · exact nofun
    · exact fun _ => hconstant
  have hunbiased : ∀ n ∈ [3, 4], relabelled.Unbiased n := by
    intro n hn
    refine .of_everywhere 3 ?_
    revert n
    decide +kernel
  have h : (merge {} false 3 4).outcome relabelled =
      (.ok 6, ((merge {} false 3 4).outcome relabelled).2) :=
    outcome_of_toOption (by decide +kernel)
  have h' : (merge {} false 4 3).outcome ((merge {} false 3 4).outcome relabelled).2 =
      (.ok 7, ((merge {} false 4 3).outcome ((merge {} false 3 4).outcome relabelled).2).2) :=
    outcome_of_toOption (by decide +kernel)
  refine ⟨_, _, h, h', ?_⟩
  rcases merge_comm hs (hunbiased 3 (by simp)) (hunbiased 4 (by simp)) {} h h' with
    ⟨e, -, he, -⟩ | ⟨r, r', hr, hr', hequal⟩
  · exact nomatch he
  · cases hr
    cases hr'
    exact hequal

end Infer

end ValueInference
