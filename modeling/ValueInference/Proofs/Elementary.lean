/-
Values of scalars, tuples, lists, records and types.

Literals are built of these forms alone, and of the dead value that an empty list describes.  What
two such values join to is one again, and so is what one of them is broadened to.  There are no
unions among them, so that broadening changes nothing but the slots of scalars, and keeps the type.

* **`Kind.Elementary`**, **`Store.Elementary`** — the forms, and the values that have no others;
* **`Store.Elementary.proper`**, **`Store.Elementary.typable`** — such values are proper, and their
  types are put together of canonical ones;
* **`Store.Joined.elementary`** — two of them join to one;
* **`Store.Broadened.elementary`**, **`Store.Broadened.hasType`** — one is broadened to one, of the
  same type.
-/
import ValueInference.Proofs.BroadWalks
import ValueInference.Proofs.SameType

namespace ValueInference

/-! ### Forms -/

/-- The forms of literals: scalars of no union type and with known slots, tuples, lists, records,
types, and the dead value. -/
def Kind.Elementary : Kind → Prop
  | .scalar v ty => v.pendings = [] ∧ ty.isUnion = false
  | .tuple _ | .list _ | .record .. | .type _ | .error .dead => True
  | _ => False

namespace Kind

variable {k k' : Kind} {R : NodeId → NodeId → Prop} {P Q : NodeId → Ty → Prop} {T : Ty}

theorem Elementary.pendings_eq (h : k.Elementary) : k.pendings = [] := by
  cases k with
  | scalar v ty => exact h.1
  | function v => exact h.elim
  | _ => rfl

theorem Elementary.single (h : k.Elementary) : k.isUnion = false := by
  cases k with
  | union ms => exact h.elim
  | _ => rfl

theorem Elementary.ne_incomplete (h : k.Elementary) : k ≠ .error .incomplete := by
  rintro rfl
  exact h.elim

theorem Alike.elementary (h : k.Alike R k') (hk : k'.Elementary) : k.Elementary := by
  cases h.sameForm with
  | scalar v w t u => exact ⟨h.2.pendings_eq.trans hk.1, h.1 ▸ hk.2⟩
  | error r r' => exact (h : r = r') ▸ hk
  | tuple | list | record | type => trivial
  | array | union | tagged | function | jtagged => exact hk.elim

/-- Elementary forms over nodes of the same types have the same types. -/
theorem Alike.typedBy (h : k.Alike (fun a b => ∀ U, P b U → Q a U) k') (hk : k'.Elementary)
    (hT : k'.TypedBy P T) : k.TypedBy Q T := by
  cases h.sameForm with
  | scalar v w t u => exact hT.trans h.1.symm
  | tuple as bs =>
    obtain ⟨ts, hts, rfl⟩ := hT
    exact ⟨ts, (forall₂_comp h hts).imp fun a t ⟨_, hab, hbt⟩ => hab t hbt, rfl⟩
  | list x y =>
    obtain ⟨u, hu, rfl⟩ := hT
    exact ⟨u, h u hu, rfl⟩
  | record tag tag' fs gs => exact hT.trans (congrArg Ty.record h.1.symm)
  | type t u => exact hT
  | error r r' => exact hT.elim
  | array | union | tagged | function | jtagged => exact hk.elim

end Kind

namespace Store

variable {s t u : Store} {a b m n r out : NodeId} {T : Ty} {limit : Nat}

/-- What two elementary forms join to is one, over what their nodes join to. -/
theorem JoinForm.elementary {J : NodeId → NodeId → NodeId → Prop} {k k' joined : Kind}
    (h : s.JoinForm limit J k k' joined) (hk : k.Elementary) (hk' : k'.Elementary)
    (hformed : joined.Formed) :
    joined.Elementary ∧ ∀ z ∈ joined.children, ∃ x ∈ k.children, ∃ y ∈ k'.children, J x y z := by
  cases h.sameForm with
  | scalar v w t u =>
    obtain ⟨token, x, hx, hjoined⟩ := h
    have hpendings := hjoined.alike.pendings_eq
    obtain ⟨y, rfl, -⟩ := hjoined.scalar_inv
    refine ⟨⟨hpendings.trans (joinSlots_candidates hk.1 hk'.1 hx).1, ?_⟩, fun z hz => ?_⟩
    · rw [Ty.join]
      split
      · exact hk.2
      · rfl
    · rw [hformed.children_scalar] at hz
      exact absurd hz List.not_mem_nil
  | tuple xs ys =>
    obtain ⟨zs, hzs, rfl⟩ := h
    exact ⟨trivial, hzs.exists_mem⟩
  | list x y =>
    obtain ⟨z, hz, rfl⟩ := h
    refine ⟨trivial, fun z' hz' => ?_⟩
    obtain rfl := List.mem_singleton.mp hz'
    exact ⟨x, List.mem_singleton_self x, y, List.mem_singleton_self y, hz⟩
  | record tag tag' fs gs =>
    obtain ⟨rfl, zs, hzs, hjoined⟩ := h
    obtain ⟨zs', rfl, hperm⟩ := hjoined.record_inv
    refine ⟨trivial, fun z hz => ?_⟩
    obtain ⟨f, hf, rfl⟩ := List.mem_map.mp hz
    obtain ⟨g, hg, -, y, hy, hj⟩ :=
      exists_of_forall₂ (List.Forall₂.flip hzs) f (hperm.mem_iff.mp hf)
    exact ⟨g.2, List.mem_map_of_mem hg, y, mem_snd_of_lookup hy, hj⟩
  | type | error => exact h.elim
  | array | union | tagged | function | jtagged => exact hk.elim

/-! ### Values -/

/-- A value of elementary forms alone, without cycles. -/
structure Elementary (s : Store) (n : NodeId) : Prop where
  founded : s.Founded n
  forms : ∀ m, s.Leads n m → (s.kind m).Elementary

namespace Elementary

theorem form (h : s.Elementary n) : (s.kind n).Elementary := h.forms n .refl

theorem leads (h : s.Elementary n) (hm : s.Leads n m) : s.Elementary m :=
  ⟨h.founded.leads hm, fun l hl => h.forms l (hm.trans hl)⟩

theorem child (h : s.Elementary n) (hm : m ∈ (s.kind n).children) : s.Elementary m :=
  h.leads (leads_child hm)

theorem of_children (hn : (s.kind n).Elementary)
    (h : ∀ c ∈ (s.kind n).children, s.Elementary c) : s.Elementary n := by
  refine ⟨.of_children (present_of_kind rfl hn.ne_incomplete) fun c hc => (h c hc).founded,
    fun m hm => ?_⟩
  rcases Relation.ReflTransGen.cases_head hm with rfl | ⟨c, hc, hcm⟩
  · exact hn
  · exact (h c hc).forms m hcm

theorem clear (h : s.Elementary n) : s.Clear n := fun m hm => (h.forms m hm).pendings_eq

theorem not_union {ms : List NodeId} (h : s.Elementary n) : s.kind n ≠ .union ms :=
  fun hk => nomatch h.form.single.symm.trans (congrArg Kind.isUnion hk)

theorem flat (h : s.Elementary n) : s.Flat (s.kind n) := fun _ hk => absurd hk h.not_union

theorem flatBelow (h : s.Elementary n) : s.FlatBelow n := fun _ hm => (h.leads hm).flat

theorem complete (h : s.Elementary n) : s.isComplete n = true :=
  isComplete_of_kind rfl h.form.ne_incomplete

/-- **Elementary values are proper.** -/
theorem proper (hs : s.Whole) (h : s.Elementary n) : s.Proper n where
  finished _ hm := (h.leads hm).complete
  acyclic _ hm := (h.leads hm).founded.acyclic
  clear := h.clear
  valid m hm := fault?_eq_none_iff.mpr ⟨hs.sound.known m, hs.conforms m, (h.leads hm).flat⟩

/-- The slots of the value hold what they stand for, so nothing else is reached. -/
theorem leads_of_reaches (h : s.Elementary n) (hm : s.Reaches n m) : s.Leads n m := by
  induction hm with
  | refl => exact .refl
  | @tail l m _ hm ih =>
    refine ih.tail ?_
    rcases List.mem_append.mp hm with hm | hm
    · exact hm
    cases hslot : (s.kind l).slot? with
    | none =>
      rw [hslot] at hm
      exact absurd hm List.not_mem_nil
    | some v =>
      have hnone := (h.forms l ih).pendings_eq
      rw [Kind.pendings, hslot] at hnone
      rw [hslot] at hm
      rwa [Kind.children_of_slot hslot, ← s.resolve_self v hnone]

theorem ground (hs : s.Whole) (h : s.Elementary n) : s.Ground n where
  complete _ hm := (h.leads (h.leads_of_reaches hm)).complete
  acyclic _ hm := (h.leads (h.leads_of_reaches hm)).founded.acyclic
  settled _ _ hm hv := (((h.leads (h.leads_of_reaches hm)).proper hs).settled hv).known
  normalised _ _ hm hk := absurd hk (h.leads (h.leads_of_reaches hm)).not_union

/-- **The types of elementary values** are put together of canonical ones. -/
theorem typable (hs : s.Whole) (h : s.Elementary n) : s.Typable n where
  toGround := h.ground hs
  clear := h.clear
  untagged m options hm hk := by
    have hform := h.forms m hm
    rw [hk] at hform
    exact hform
  canonical m v ty hm hk := by
    have hform := h.forms m hm
    rw [hk] at hform
    exact Ty.canonical_of_not_union hform.2

end Elementary

theorem Grows.elementary (h : s.Grows t) (hn : s.Elementary n) : t.Elementary n := by
  refine hn.founded.induct (motive := fun n => s.Elementary n → t.Elementary n)
    (fun m hm ih hform => ?_) hn
  have hkind := h.kind_eq hm.present
  refine .of_children (hkind ▸ hform.form) fun c hc => ?_
  rw [hkind] at hc
  exact ih c hc (hform.child hc)

/-- **Two elementary values join to one.** -/
theorem Joined.elementary (hgrows : s.Grows u) (hu : u.Whole) (h : s.Joined u limit a b r) :
    s.Elementary a → s.Elementary b → u.Elementary r := by
  induction h with
  | same => exact fun ha _ => hgrows.elementary ha
  | @step a b r J _ _ hstep ih =>
    intro ha hb
    rw [JoinStep] at hstep
    split at hstep
    · exact hstep ▸ hgrows.elementary hb
    split at hstep
    · exact hstep ▸ hgrows.elementary ha
    rw [ha.form.single, hb.form.single, if_neg (by simp)] at hstep
    obtain ⟨hform, hbelow⟩ := hstep.elementary ha.form hb.form (hu.formed r)
    refine .of_children hform fun z hz => ?_
    obtain ⟨x, hx, y, hy, hj⟩ := hbelow z hz
    exact ih x y z hj (ha.child hx) (hb.child hy)

namespace Broadened

/-- **What an elementary value is broadened to** is one. -/
theorem elementary (h : s.Broadened out n) : s.Elementary n → s.Elementary out := by
  induction h with
  | same => exact id
  | scalar hk hout =>
    intro hn
    have hform := hn.form
    rw [hk] at hform
    refine .of_children (hout ▸ ⟨rfl, hform.2⟩) fun c hc => ?_
    rw [hout] at hc
    exact absurd hc List.not_mem_nil
  | form R _ hlayered _ halike ih =>
    intro hn
    refine .of_children (halike.elementary hn.form) fun c hc => ?_
    obtain ⟨d, hd, hcd⟩ := halike.exists_child_of_placed hlayered.rigid.placed c hc
    exact ih c d hcd (hn.child hd)
  | union R _ hk => exact fun hn => absurd hk hn.not_union

/-- **It has the type of the value.** -/
theorem hasType (h : s.Broadened out n) : s.Elementary n → ∀ T, s.HasType n T →
    s.HasType out T := by
  induction h with
  | same => exact fun _ _ => id
  | scalar hk hout =>
    intro _ T hT
    rw [hasType_iff, hk] at hT
    rw [hasType_iff, hout]
    exact hT
  | form R _ _ _ halike ih =>
    intro hn T hT
    have hbelow := halike.imp fun a _ b hb hab => ih a b hab (hn.child hb)
    exact hasType_iff.mpr (hbelow.typedBy hn.form (hasType_iff.mp hT))
  | union R _ hk => exact fun hn => absurd hk hn.not_union

end Broadened

end Store

end ValueInference
