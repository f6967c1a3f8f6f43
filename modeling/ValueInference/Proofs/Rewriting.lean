/-
Rewriting the scalars of a value.

A rewriting gives every scalar a form that depends on its VALUE and its TYPE alone, and leaves all
other forms as they are, except that members and candidates that become equal count once.  What a
graph is rewritten to is a graph again, so a rewriting is a relation between their nodes: it holds
between two nodes only if the one has the rewritten form of the other, over related nodes.

* **`Store.RewriteOf`** — a node has the rewritten form of another one;
* **`Store.Rewriting`** — the nodes of one store are rewrites of nodes of another one;
* **`Rebuild.GivesScalars`** — the handlers of scalars that rewrite them;
* **`Store.Rewritable`** — members and candidates can be told apart while parts of them are
  missing.
-/
import ValueInference.Proofs.Distinct
import ValueInference.Proofs.Shapes
import ValueInference.Proofs.Walks

namespace ValueInference

/-- Each on either side is related to one on the other side. -/
def Corresponds {α : Type} (R : α → α → Prop) (as bs : List α) : Prop :=
  (∀ a ∈ as, ∃ b ∈ bs, R a b) ∧ ∀ b ∈ bs, ∃ a ∈ as, R a b

theorem Corresponds.imp {α : Type} {R S : α → α → Prop} {as bs : List α}
    (h : Corresponds R as bs) (hRS : ∀ a ∈ as, ∀ b ∈ bs, R a b → S a b) :
    Corresponds S as bs := by
  constructor
  · intro a ha
    obtain ⟨b, hb, hab⟩ := h.1 a ha
    exact ⟨b, hb, hRS a ha b hb hab⟩
  · intro b hb
    obtain ⟨a, ha, hab⟩ := h.2 b hb
    exact ⟨a, ha, hRS a ha b hb hab⟩

theorem Corresponds.of_perm {α : Type} {R : α → α → Prop} {as bs cs : List α}
    (h : Corresponds R as bs) (hcs : cs.Perm as) : Corresponds R cs bs := by
  constructor
  · exact fun c hc => h.1 c (hcs.mem_iff.mp hc)
  · intro b hb
    obtain ⟨a, ha, hab⟩ := h.2 b hb
    exact ⟨a, hcs.mem_iff.mpr ha, hab⟩

theorem Corresponds.comp {α : Type} {R S : α → α → Prop} {as bs cs : List α}
    (h : Corresponds R as bs) (h' : Corresponds S bs cs) : Corresponds (Relation.Comp R S) as cs := by
  constructor
  · intro a ha
    obtain ⟨b, hb, hab⟩ := h.1 a ha
    obtain ⟨c, hc, hbc⟩ := h'.1 b hb
    exact ⟨c, hc, b, hab, hbc⟩
  · intro c hc
    obtain ⟨b, hb, hbc⟩ := h'.2 c hc
    obtain ⟨a, ha, hab⟩ := h.2 b hb
    exact ⟨a, ha, b, hab, hbc⟩

theorem corresponds_of_forall₂ {α : Type} {R : α → α → Prop} {as bs : List α}
    (h : List.Forall₂ R as bs) : Corresponds R as bs :=
  ⟨exists_of_forall₂ h, exists_of_forall₂ h.flip⟩

/-- What is left of a list corresponds to what the list is related to, if whatever is left out is
related to the same as what it equals. -/
theorem corresponds_of_thinned {α : Type} {R : α → α → Prop} {E : α → α → Bool}
    {ds as bs : List α} (hleft : Thinned E ds as) (h : List.Forall₂ R as bs)
    (hequal : ∀ d ∈ as, ∀ a ∈ as, d = a ∨ E d a = true → ∀ b, R a b → R d b) :
    Corresponds R ds bs := by
  constructor
  · exact fun d hd => exists_of_forall₂ h d (hleft.sublist.subset hd)
  · intro b hb
    obtain ⟨a, ha, hab⟩ := exists_of_forall₂ h.flip b hb
    obtain ⟨d, hd, hda⟩ := hleft.covered a ha
    exact ⟨d, hd, hequal d (hleft.sublist.subset hd) a ha hda b hab⟩

namespace Store

variable {s t : Store} {v x y : NodeId} {form : Slot → Ty → Slot × Ty}
  {R S : NodeId → NodeId → Prop}

/-! ### Rewrites -/

/-- The node has the form that a form is rewritten to, over nodes that are related to those in it.
A union has become the union of what its members have become, or the only one of them. -/
def RewriteOf (t : Store) (form : Slot → Ty → Slot × Ty) (R : NodeId → NodeId → Prop)
    (x : NodeId) : Kind → Prop
  | .scalar value ty => (t.kind x).Alike (· = ·) (.scalar (form value ty).1 (form value ty).2)
  | .union ms => Corresponds R (t.members x) ms
  | .function (.possibilities p) => ∃ q, t.kind x = .function (.possibilities q) ∧
      Corresponds (Candidate.Alike R) q.candidates p.candidates
  | k => (t.kind x).Alike R k

/-- The related nodes of `t` are rewrites of those of `s`: they have the rewritten forms, and no
two members or candidates of them are equal. -/
structure Rewriting (s t : Store) (form : Slot → Ty → Slot × Ty) (R : NodeId → NodeId → Prop) :
    Prop where
  forms : ∀ x y, R x y → t.RewriteOf form R x (s.kind y)
  members : ∀ x y ms, R x y → t.kind x = .union ms →
    ms.Pairwise fun m n => t.equal m n = false
  candidates : ∀ x y p, R x y → t.kind x = .function (.possibilities p) →
    p.candidates.Pairwise fun c d => t.equalCandidates c d = false

theorem RewriteOf.imp {k : Kind} (h : t.RewriteOf form R x k)
    (hshape : (t.kind x).shape = k.shape) (hRS : ∀ a ∈ (t.kind x).children, ∀ b, R a b → S a b) :
    t.RewriteOf form S x k := by
  cases k with
  | scalar value ty => exact h
  | union ms =>
    obtain ⟨as, hk⟩ := Kind.exists_union_of_shape hshape
    have hmembers : t.members x = as := by rw [members, hk]
    rw [hk] at hRS
    refine Corresponds.imp h fun a ha b _ => hRS a ?_ b
    rwa [hmembers] at ha
  | function options =>
    cases options with
    | possibilities p =>
      obtain ⟨q, hq, hpq⟩ := h
      rw [hq] at hRS
      refine ⟨q, hq, hpq.imp fun c hc d _ hcd => hcd.imp fun a ha b _ => hRS a ?_ b⟩
      exact List.mem_flatMap_of_mem hc ha
    | _ => exact Kind.Alike.imp h fun a ha b _ => hRS a ha b
  | _ => exact Kind.Alike.imp h fun a ha b _ => hRS a ha b

/-- The form of a node with the same shape may go over to another node. -/
theorem RewriteOf.of_kind_eq {k : Kind} (h : s.RewriteOf form R x k)
    (hshape : (s.kind x).shape = k.shape) (hk : t.kind y = s.kind x) : t.RewriteOf form R y k := by
  cases k with
  | union ms =>
    obtain ⟨as, has⟩ := Kind.exists_union_of_shape hshape
    have hmembers : t.members y = s.members x := by rw [members, members, hk, has]
    show Corresponds R (t.members y) ms
    rw [hmembers]
    exact h
  | function options =>
    cases options with
    | possibilities p =>
      obtain ⟨q, hq, hpq⟩ := h
      exact ⟨q, hk.trans hq, hpq⟩
    | _ =>
      show (t.kind y).Alike R _
      rw [hk]
      exact h
  | scalar value ty =>
    show (t.kind y).Alike (· = ·) _
    rw [hk]
    exact h
  | _ =>
    show (t.kind y).Alike R _
    rw [hk]
    exact h

/-- In a form over nodes alone, the related nodes stand in the same places. -/
theorem RewriteOf.alike_of_rigid {k : Kind} (h : t.RewriteOf form R x k) (hk : k.Rigid) :
    (t.kind x).Alike R k := by
  cases k with
  | scalar value ty => cases hk.slotless
  | union ms => cases hk.single
  | function options => cases hk.slotless
  | _ => exact h

/-- What is below a rewritten form is related to what was below the form. -/
theorem RewriteOf.exists_child {k : Kind} (h : t.RewriteOf form R x k)
    (hshape : (t.kind x).shape = k.shape) (hformed : (t.kind x).Formed) :
    ∀ c ∈ (t.kind x).children, ∃ d ∈ k.children, R c d := by
  cases k with
  | scalar value ty =>
    obtain ⟨w, u, hk⟩ := Kind.exists_scalar_of_shape (hshape : _ = none)
    rw [hk] at hformed ⊢
    rw [hformed.children_scalar]
    exact fun _ hc => absurd hc List.not_mem_nil
  | union ms =>
    have hcorresponds : Corresponds R (t.members x) ms := h
    obtain ⟨as, has⟩ := Kind.exists_union_of_shape hshape
    rw [members, has] at hcorresponds
    rw [has]
    exact hcorresponds.1
  | function options =>
    cases options with
    | possibilities p =>
      obtain ⟨q, hq, hpq⟩ := h
      rw [hq]
      intro c hc
      obtain ⟨a, ha, hca⟩ := List.mem_flatMap.mp hc
      obtain ⟨b, hb, hab⟩ := hpq.1 a ha
      obtain ⟨d, hd, hcd⟩ := hab.exists_child c hca
      exact ⟨d, List.mem_flatMap_of_mem hb hd, hcd⟩
    | _ => exact Kind.Alike.exists_child_of_placed h ⟨rfl, by simp [Kind.slot?]⟩
  | _ => exact Kind.Alike.exists_child_of_placed h ⟨rfl, by simp [Kind.slot?]⟩

/-- Whatever was below a form is related to something below what it is rewritten to. -/
theorem RewriteOf.exists_image {k : Kind} (h : t.RewriteOf form R x k)
    (hlabelled : (t.kind x).Labelled) (hformed : k.Formed) : ∀ d ∈ k.children, ∃ c, R c d := by
  have hothers : ∀ {k : Kind}, k.Placed → (t.kind x).Alike R k → ∀ d ∈ k.children, ∃ c, R c d := by
    intro k hk halike d hd
    obtain ⟨c, -, hcd⟩ := (halike.flip_of_placed hlabelled hk).exists_child_of_placed
      (halike.placed_iff.mpr hk) d hd
    exact ⟨c, hcd⟩
  cases k with
  | scalar value ty =>
    rw [hformed.children_scalar]
    exact fun _ hd => absurd hd List.not_mem_nil
  | union ms =>
    intro d hd
    obtain ⟨c, -, hcd⟩ := h.2 d hd
    exact ⟨c, hcd⟩
  | function options =>
    cases options with
    | possibilities p =>
      obtain ⟨q, -, hqp⟩ := h
      intro d hd
      obtain ⟨b, hb, hdb⟩ := List.mem_flatMap.mp hd
      obtain ⟨a, -, hab⟩ := hqp.2 b hb
      obtain ⟨c, -, hcd⟩ := hab.flip.exists_child d hdb
      exact ⟨c, hcd⟩
    | _ => exact fun _ hd => absurd hd List.not_mem_nil
  | _ => exact hothers ⟨rfl, by simp [Kind.slot?]⟩ h

end Store

/-! ### Handlers of scalars -/

/-- The handler gives every scalar the form that depends on its VALUE and TYPE; where that is the
form it has, it may give back the node. -/
def Rebuild.GivesScalars (form : Slot → Ty → Slot × Ty)
    (h : Visitor (Rebuild Unit Update) → NodeId → Slot → Ty → Rebuild Unit Update NodeId) : Prop :=
  ∀ inner n value ty,
    h inner n value ty = Rebuild.infer (Infer.scalar (form value ty).1 (form value ty).2) ∨
      form value ty = (value, ty) ∧ h inner n value ty = pure n

namespace Store

variable {s : Store} {v u m n f : NodeId}

/-- The forms that the scalars of a value get are forms of scalars, with the sets of the store. -/
def FitsScalars (s : Store) (v : NodeId) (form : Slot → Ty → Slot × Ty) : Prop :=
  ∀ n value ty, s.Leads v n → s.kind n = .scalar value ty →
    s.fault? (.scalar (form value ty).1 (form value ty).2) = none ∧
      ∀ p, (form value ty).1 = .possibilities p → s.HoldsSet p

/-! ### Values that can be rewritten -/

/-- No interned union lists a member twice. -/
def InternsPlain (s : Store) : Prop :=
  ∀ n ms, s.isInterned n = true → s.kind n = .union ms → ms.Nodup

/-- Neither of two members is taken for the other in the middle of a walk: their shapes tell them
apart, or they are different and do not lead back to the union. -/
def ShownApart (s : Store) (u m n : NodeId) : Prop :=
  s.ShapesApart u m n ∨ ¬ s.Leads m u ∧ ¬ s.Leads n u ∧ s.equal m n = false

/-- Neither of two candidates is taken for the other in the middle of a walk. -/
def CandidatesShownApart (s : Store) (f : NodeId) (c d : Candidate) : Prop :=
  s.CandidateShapesApart f c d ∨
    (∀ n ∈ c.children ++ d.children, ¬ s.Leads n f) ∧ s.equalCandidates c d = false

/-- What is in the value can be told apart while parts of it are missing, whatever its scalars
become.  Members that lead back to their union and differ in scalars alone are left out: what these
become may keep them apart or not. -/
structure Rewritable (s : Store) (v : NodeId) : Prop where
  flat : ∀ u ms, s.Leads v u → s.kind u = .union ms → ∀ m ∈ ms, (s.kind m).isUnion = false
  members : ∀ u ms, s.Leads v u → s.kind u = .union ms → ms.Pairwise (s.ShownApart u)
  candidates : ∀ f p, s.Leads v f → s.kind f = .function (.possibilities p) →
    p.candidates.Pairwise (s.CandidatesShownApart f)

/-! ### Finished members and candidates -/

theorem shown_self {t : Store} (hm : s.Finished m) :
    s.Shown t (fun x y => x = y ∧ s.Finished y) m m :=
  fun _ => ⟨m, .refl m, rfl, hm⟩

section

variable {t : Store} (hkeeps : s.Keeps t) (hs : s.Sound) (ht : t.Sound)

include hkeeps hs ht

omit hs ht in
/-- Finished nodes portray themselves. -/
theorem portrays_self (u : NodeId) : s.Portrays t u fun x y => x = y ∧ s.Finished y where
  shape := by
    rintro x _ ⟨rfl, hx⟩ -
    rw [hkeeps.kind_eq hx.complete]
  parts := by
    rintro x _ ⟨rfl, hx⟩ - -
    rw [hkeeps.kind_eq hx.complete]
    exact .refl fun a ha => shown_self (hx.child ha)
  one := by
    rintro x _ m _ ⟨rfl, hx⟩ - - -
    exact .inl (hkeeps.isComplete hx.complete)

theorem ShownApart.discerned (hm : s.Finished m) (hn : s.Finished n) (h : s.ShownApart u m n) :
    t.Discerned u m n := by
  rcases h with hshapes | ⟨hmu, hnu, hdiffer⟩
  · exact .inl (no_common_equal
      ((portrays_self hkeeps u).not_equated ht hshapes (shown_self hm) (shown_self hn)))
  · refine .inr ⟨mt (hkeeps.leads_iff hm).mp hmu, mt (hkeeps.leads_iff hn).mp hnu, ?_⟩
    rw [hkeeps.equal_eq hs ht hm hn, hdiffer]

theorem CandidatesShownApart.discerned {c d : Candidate} (hc : ∀ n ∈ c.children, s.Finished n)
    (hd : ∀ n ∈ d.children, s.Finished n) (h : s.CandidatesShownApart f c d) :
    t.CandidatesDiscerned f c d := by
  rcases h with hshapes | ⟨hback, hdiffer⟩
  · exact .inl (no_common_alike ((portrays_self hkeeps f).not_alike ht hshapes
      (.refl fun a ha => shown_self (hc a ha)) (.refl fun a ha => shown_self (hd a ha))))
  · refine .inr ⟨fun n hn => ?_, ?_⟩
    · have hfinished := (List.mem_append.mp hn).elim (hc n) (hd n)
      exact mt (hkeeps.leads_iff hfinished).mp (hback n hn)
    · rw [hkeeps.equalCandidates_eq hs ht hc hd, hdiffer]

end

end Store

end ValueInference
