/-
What shows in a node whatever scalars stand below it.

A walk that rewrites scalars keeps the shapes of nodes, and puts something into each place of a form
over nodes alone.  Two nodes are apart by their shapes if their shapes differ, or the labels of what
is in them, or if this is so of two nodes that stand in one place of both.  Then what the walk makes
of them stays apart while parts of it are missing, and if all scalars become equal.

* **`Kind.shape`** — what a form shows whatever scalars stand in it;
* **`Kind.Rigid`** — forms over nodes alone;
* **`Store.Equated`** — a chain of equalities leads from one node to the other;
* **`Store.ShapesApart`** — shapes tell two nodes apart;
* **`Store.Portrays`** — what nodes show of others, while a walk is inside of some of these;
* **`Store.Portrays.not_equated`** — what portrays nodes that are apart is not equated.
-/
import ValueInference.Proofs.Finished

namespace ValueInference

/-! ### Shapes -/

/-- What a form shows whatever scalars stand in it. -/
def Kind.shape (k : Kind) : Option Kind :=
  match k.head with
  | .scalar _ _ => none
  | head => some head

/-- The form is over nodes alone, and none of them can become superfluous. -/
structure Kind.Rigid (k : Kind) : Prop where
  slotless : k.slot? = none
  single : k.isUnion = false

namespace Kind

variable {k k' : Kind}

theorem shape_of_head (h : k.head = k'.head) : k.shape = k'.shape := by
  rw [shape, shape, h]

theorem isUnion_of_shape (h : k.shape = k'.shape) : k.isUnion = k'.isUnion := by
  have hshape : ∀ k : Kind, k.isUnion = (k.shape.map isUnion).getD false := by
    intro k
    cases k <;> rfl
  rw [hshape, h, ← hshape]

theorem eq_error_of_shape {r : ErrorReason} (h : k.shape = some (.error r)) : k = .error r := by
  cases k with
  | error r' => exact Option.some.inj h
  | _ => exact absurd h (by simp [shape, head])

theorem exists_scalar_of_shape (h : k.shape = none) : ∃ value ty, k = .scalar value ty := by
  cases k with
  | scalar value ty => exact ⟨value, ty, rfl⟩
  | _ => exact nomatch h

theorem exists_union_of_shape {ms : List NodeId} (h : k.shape = (Kind.union ms).shape) :
    ∃ ns, k = .union ns := by
  cases k with
  | union ns => exact ⟨ns, rfl⟩
  | _ => exact nomatch isUnion_of_shape h

/-- The head shows that a form is over nodes alone. -/
theorem Rigid.of_head (h : k'.Rigid) (hhead : k.head = k'.head) : k.Rigid := by
  have hslot : ∀ k : Kind, k.head.slot?.isSome = k.slot?.isSome := by
    intro k
    cases k <;> rfl
  constructor
  · rw [← Option.not_isSome_iff_eq_none, ← hslot, hhead, hslot, h.slotless]
    exact Bool.false_ne_true
  · rw [← isUnion_head, hhead, isUnion_head, h.single]

/-- A form over nodes alone shows its head. -/
theorem Rigid.head_of_shape (h : k'.Rigid) (hshape : k.shape = k'.shape) : k.head = k'.head := by
  have hhead : ∀ k : Kind, k.shape = none ∨ k.shape = some k.head := by
    intro k
    cases k <;> first | exact .inl rfl | exact .inr rfl
  have hself : k'.shape = some k'.head := by
    refine (hhead k').resolve_left fun hnone => ?_
    obtain ⟨value, ty, rfl⟩ := exists_scalar_of_shape hnone
    have hslotless := h.slotless
    cases hslotless
  rcases hhead k with hnone | hsome
  · cases hnone.symm.trans (hshape.trans hself)
  · exact Option.some.inj (hsome.symm.trans (hshape.trans hself))

theorem Rigid.placed (h : k.Rigid) : k.Placed where
  flat := h.single
  slots p hp := by cases h.slotless.symm.trans hp

end Kind

namespace Store

variable {s t : Store} {u m n x y : NodeId}

/-! ### Chains of equalities -/

/-- A chain of equalities leads from one node to the other, in either direction at each step. -/
def Equated (t : Store) : NodeId → NodeId → Prop := Relation.EqvGen t.EqualIn

namespace Equated

theorem head_eq (h : t.Equated x y) : (t.kind x).head = (t.kind y).head := by
  induction h with
  | rel x y hxy => exact head_of_equals hxy.2.2
  | refl x => rfl
  | symm x y _ ih => exact ih.symm
  | trans x y z _ _ ih ih' => exact ih.trans ih'

/-- Along a chain of equalities, what stands in one place of forms over nodes alone is equated. -/
theorem alike (ht : t.Sound) (h : t.Equated x y) (hx : (t.kind x).Rigid) :
    (t.kind x).Alike t.Equated (t.kind y) := by
  induction h with
  | rel x y hxy => exact (alike_of_equalIn ht hxy).imp fun a _ b _ => .rel a b
  | refl x => exact .refl fun a _ => .refl a
  | symm x y hxy ih =>
    have hrigid : (t.kind x).Rigid := hx.of_head (head_eq hxy)
    have hflip := (ih hrigid).flip_of_placed (ht.labelled x) hx.placed
    exact hflip.imp fun a _ b _ => .symm b a
  | trans x y z hxy hyz ih ih' =>
    have hrigid : (t.kind y).Rigid := hx.of_head (head_eq hxy).symm
    refine ((ih hx).comp_of_placed (ih' hrigid) hrigid.placed).imp ?_
    rintro a - c - ⟨b, hab, hbc⟩
    exact .trans a b c hab hbc

end Equated

/-- Nodes that are not equated have no common equal. -/
theorem no_common_equal (h : ¬ t.Equated x y) (z : NodeId) : ¬ (t.EqualIn x z ∧ t.EqualIn y z) :=
  fun ⟨hxz, hyz⟩ => h (.trans x z y (.rel x z hxz) (.symm y z (.rel y z hyz)))

theorem no_common_alike {c d : Candidate} (h : ¬ c.Alike t.Equated d) (e : Candidate) :
    ¬ (c.Alike t.EqualIn e ∧ d.Alike t.EqualIn e) := by
  rintro ⟨hce, hde⟩
  refine h ((hce.comp hde.flip).imp ?_)
  rintro a - b - ⟨z, haz, hbz⟩
  exact .trans a z b (.rel a z haz) (.symm b z (.rel b z hbz))

/-! ### Nodes that are apart -/

/-- Shapes tell two nodes apart while a walk is inside of `u`. -/
inductive ShapesApart (s : Store) (u : NodeId) : NodeId → NodeId → Prop where
  /-- Their shapes differ. -/
  | shape {m n : NodeId} (one : s.OneOpen u m n)
      (flat : (s.kind m).isUnion = false ∧ (s.kind n).isUnion = false)
      (shapes : (s.kind m).shape ≠ (s.kind n).shape) : ShapesApart s u m n
  /-- Their forms have different places. -/
  | form {m n : NodeId} (one : s.OneOpen u m n)
      (rigid : (s.kind m).Rigid ∧ (s.kind n).Rigid)
      (unlike : ∀ R, ¬ (s.kind m).Alike R (s.kind n)) : ShapesApart s u m n
  /-- Two nodes that stand in one place of them are told apart. -/
  | part {m n a b : NodeId} (one : s.OneOpen u m n)
      (rigid : (s.kind m).Rigid ∧ (s.kind n).Rigid)
      (place : ∀ R, (s.kind m).Alike R (s.kind n) → R a b) (apart : ShapesApart s u a b) :
      ShapesApart s u m n
  | symm {m n : NodeId} (h : ShapesApart s u n m) : ShapesApart s u m n

namespace ShapesApart

theorem flat (h : s.ShapesApart u m n) :
    (s.kind m).isUnion = false ∧ (s.kind n).isUnion = false := by
  induction h with
  | shape _ flat _ => exact flat
  | form _ rigid _ => exact ⟨rigid.1.single, rigid.2.single⟩
  | part _ rigid _ _ _ => exact ⟨rigid.1.single, rigid.2.single⟩
  | symm _ ih => exact ih.symm

theorem ne (h : s.ShapesApart u m n) : m ≠ n := by
  induction h with
  | shape _ _ shapes =>
    rintro rfl
    exact shapes rfl
  | form _ _ unlike =>
    rintro rfl
    exact unlike (· = ·) (.refl fun _ _ => rfl)
  | part _ _ place _ ih =>
    rintro rfl
    exact ih (place (· = ·) (.refl fun _ _ => rfl))
  | symm _ ih => exact ih.symm

end ShapesApart

/-- Candidates are told apart by their heads, or by what stands in one place of them. -/
def CandidateShapesApart (s : Store) (f : NodeId) (c d : Candidate) : Prop :=
  c.head ≠ d.head ∨ ∃ a b, (∀ R, c.Alike R d → R a b) ∧ s.ShapesApart f a b

theorem CandidateShapesApart.ne {c d : Candidate} (h : s.CandidateShapesApart u c d) : c ≠ d := by
  rintro rfl
  rcases h with hhead | ⟨a, b, hplace, hab⟩
  · exact hhead rfl
  · exact hab.ne (hplace (· = ·) (.refl fun _ _ => rfl))

theorem CandidateShapesApart.symm {c d : Candidate} (h : s.CandidateShapesApart u c d) :
    s.CandidateShapesApart u d c := by
  refine h.imp Ne.symm ?_
  rintro ⟨a, b, hplace, hab⟩
  exact ⟨b, a, fun R hdc => hplace _ hdc.flip, .symm hab⟩

/-! ### What nodes show of others -/

/-- What a node shows of another one: a union may have been replaced by its only member. -/
def Shown (s t : Store) (P : NodeId → NodeId → Prop) (x y : NodeId) : Prop :=
  (s.kind y).isUnion = false → ∃ z, t.Equated x z ∧ P z y

theorem Shown.exists_equated {P : NodeId → NodeId → Prop} (hx : s.Shown t P x m)
    (hy : s.Shown t P y n) (hflat : (s.kind m).isUnion = false ∧ (s.kind n).isUnion = false)
    (hxy : t.Equated x y) : ∃ z w, P z m ∧ P w n ∧ t.Equated z w := by
  obtain ⟨z, hxz, hz⟩ := hx hflat.1
  obtain ⟨w, hyw, hw⟩ := hy hflat.2
  exact ⟨z, w, hz, hw, .trans z x w (.symm x z hxz) (.trans x y w hxy hyw)⟩

/-- The relation holds between nodes of `t` and the nodes of `s` that they are for, as far as these
have got their form; of two nodes of which a walk that comes to `u` is inside of one at most, one is
portrayed by a node with a form. -/
structure Portrays (s t : Store) (u : NodeId) (P : NodeId → NodeId → Prop) : Prop where
  shape : ∀ x y, P x y → t.isComplete x = true → (t.kind x).shape = (s.kind y).shape
  parts : ∀ x y, P x y → t.isComplete x = true → (s.kind y).Rigid →
    (t.kind x).Alike (s.Shown t P) (s.kind y)
  one : ∀ x y m n, P x m → P y n → s.OneOpen u m n → m ≠ n →
    t.isComplete x = true ∨ t.isComplete y = true

namespace Portrays

variable {P : NodeId → NodeId → Prop}

/-- What is equated has got its form on both sides: a placeholder shows that it has none. -/
theorem complete_of_equated (h : s.Portrays t u P) (hone : s.OneOpen u m n) (hne : m ≠ n)
    (hx : P x m) (hy : P y n) (hxy : t.Equated x y) :
    t.isComplete x = true ∧ t.isComplete y = true := by
  have hfilled : ∀ {x y m}, P x m → t.isComplete x = true → t.Equated x y →
      s.kind m ≠ .error .incomplete → t.isComplete y = true := by
    intro x y m hx hcomplete hxy hm
    by_contra hblank
    have hhead := hxy.head_eq
    rw [kind_of_incomplete (Bool.eq_false_iff.mpr hblank)] at hhead
    have hshape := h.shape x m hx hcomplete
    rw [Kind.eq_error_of_head hhead] at hshape
    exact hm (Kind.eq_error_of_shape hshape.symm)
  rcases h.one x y m n hx hy hone hne with hcomplete | hcomplete
  · exact ⟨hcomplete, hfilled hx hcomplete hxy hone.filled.1⟩
  · exact ⟨hfilled hy hcomplete (.symm x y hxy) hone.filled.2, hcomplete⟩

/-- The places of nodes whose portraits are equated correspond: the way from one form to the other
leads through both portraits. -/
theorem alike_of_equated (h : s.Portrays t u P) (ht : t.Sound) (hone : s.OneOpen u m n)
    (hne : m ≠ n) (hrigid : (s.kind m).Rigid ∧ (s.kind n).Rigid) (hx : P x m) (hy : P y n)
    (hxy : t.Equated x y) :
    (s.kind m).Alike (fun a b => ∃ c d, s.Shown t P c a ∧ t.Equated c d ∧ s.Shown t P d b)
      (s.kind n) := by
  obtain ⟨hcomplete, hcomplete'⟩ := h.complete_of_equated hone hne hx hy hxy
  have hrigidₓ : (t.kind x).Rigid :=
    hrigid.1.of_head (hrigid.1.head_of_shape (h.shape x m hx hcomplete))
  have hrigid' : (t.kind y).Rigid := hrigidₓ.of_head hxy.head_eq.symm
  have hflip := (h.parts x m hx hcomplete hrigid.1).flip_of_placed (ht.labelled x) hrigid.1.placed
  refine ((hflip.comp_of_placed (hxy.alike ht hrigidₓ) hrigidₓ.placed).comp_of_placed
    (h.parts y n hy hcomplete' hrigid.2) hrigid'.placed).imp ?_
  rintro a - b - ⟨d, ⟨c, hca, hcd⟩, hdb⟩
  exact ⟨c, d, hca, hcd, hdb⟩

/-- **What is shown of nodes that are apart** is not equated, by induction on what tells them
apart. -/
theorem not_equated (h : s.Portrays t u P) (ht : t.Sound) (hmn : s.ShapesApart u m n) :
    ∀ {x y}, s.Shown t P x m → s.Shown t P y n → ¬ t.Equated x y := by
  induction hmn with
  | shape one flat shapes =>
    intro x y hx hy hxy
    obtain ⟨z, w, hz, hw, hzw⟩ := hx.exists_equated hy flat hxy
    obtain ⟨hcomplete, hcomplete'⟩ :=
      h.complete_of_equated one (fun hsame => shapes (hsame ▸ rfl)) hz hw hzw
    refine shapes ?_
    rw [← h.shape z _ hz hcomplete, ← h.shape w _ hw hcomplete']
    exact Kind.shape_of_head hzw.head_eq
  | form one rigid unlike =>
    intro x y hx hy hxy
    have hform := ShapesApart.form one rigid unlike
    obtain ⟨z, w, hz, hw, hzw⟩ := hx.exists_equated hy hform.flat hxy
    exact unlike _ (h.alike_of_equated ht one hform.ne rigid hz hw hzw)
  | part one rigid place apart ih =>
    intro x y hx hy hxy
    have hpart := ShapesApart.part one rigid place apart
    obtain ⟨z, w, hz, hw, hzw⟩ := hx.exists_equated hy hpart.flat hxy
    obtain ⟨c, d, hca, hcd, hdb⟩ := place _ (h.alike_of_equated ht one hpart.ne rigid hz hw hzw)
    exact ih hca hdb hcd
  | symm _ ih => exact fun hx hy hxy => ih hy hx (.symm _ _ hxy)

/-- **Candidates over what is shown of candidates that are apart** are not over equated nodes. -/
theorem not_alike (h : s.Portrays t u P) (ht : t.Sound) {c d c' d' : Candidate}
    (hcd : s.CandidateShapesApart u c d) (hc : c'.Alike (s.Shown t P) c)
    (hd : d'.Alike (s.Shown t P) d) : ¬ c'.Alike t.Equated d' := by
  intro halike
  rcases hcd with hhead | ⟨a, b, hplace, hab⟩
  · exact hhead (hc.head_eq.symm.trans (halike.head_eq.trans hd.head_eq))
  · obtain ⟨y, ⟨x, hxa, hxy⟩, hyb⟩ := hplace _ ((hc.flip.comp halike).comp hd)
    exact h.not_equated ht hab hxa hyb hxy

end Portrays

end Store

end ValueInference
