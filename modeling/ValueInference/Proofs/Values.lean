/-
Values are read off exactly where they are determined.

The value of a node is that of its form, over the values of the items of a tuple and of the fields
of a record; nothing else is looked into.  The rules are stated without a walk and without a path.
A node has a value by them exactly if all that it is made up of is there and none of this contains
itself, and then it is this value that the walk reads off.  A node that is met again on another way
is no cycle: what is on the path is above the node, and nothing that has a value is above itself.

* **`Store.ComesTo`** — a slot is a constant when the resolved pendings are followed;
* **`Kind.ValuedBy`**, **`Store.HasValue`** — the rules by which nodes have values;
* **`Store.Determined`** — what can be reached through items and fields is legible, and on no cycle
  of items and fields;
* **`Store.value_iff`** — the value that is read off a node is the one that it has;
* **`Store.value_determined`** — a value is read off a node exactly if the node is determined.
-/
import ValueInference.Store.Concrete
import ValueInference.Proofs.Becoming

namespace ValueInference

/-- The nodes that a form has its value from: the items of a tuple, the fields of a record. -/
def Kind.parts : Kind → List NodeId
  | .tuple items => items
  | .record _ fields => fields.map Prod.snd
  | _ => []

theorem Kind.mem_children_of_part {k : Kind} {m : NodeId} (h : m ∈ k.parts) : m ∈ k.children := by
  cases k <;> first | exact h | exact absurd h List.not_mem_nil

/-- The value of a form, where `C` gives the constants of slots and `R` the values of nodes. -/
def Kind.ValuedBy (C : Slot → Constant → Prop) (R : NodeId → Constant → Prop) :
    Kind → Constant → Prop
  | .scalar v _, c => C v c
  | .tuple items, c => ∃ cs, List.Forall₂ R items cs ∧ c = .tuple cs
  | .record tag fields, c =>
    ∃ ds, List.Forall₂ (fun f d => d.1 = f.1 ∧ R f.2 d.2) fields ds ∧ c = .record tag ds
  | .type ty, c => c = .type ty
  | _, _ => False

theorem Kind.ValuedBy.imp {C : Slot → Constant → Prop} {R R' : NodeId → Constant → Prop}
    {k : Kind} {c : Constant} (h : k.ValuedBy C R c) (hR : ∀ m ∈ k.parts, ∀ d, R m d → R' m d) :
    k.ValuedBy C R' c := by
  cases k with
  | tuple items =>
    obtain ⟨cs, hcs, rfl⟩ := h
    exact ⟨cs, forall₂_imp_mem hcs fun m hm d _ => hR m hm d, rfl⟩
  | record tag fields =>
    obtain ⟨ds, hds, rfl⟩ := h
    exact ⟨ds, forall₂_imp_mem hds fun f hf d _ => And.imp_right (hR f.2 (List.mem_map_of_mem hf) d.2),
      rfl⟩
  | _ => exact h

/-- Every part of a form with a value has one. -/
theorem Kind.ValuedBy.part {C : Slot → Constant → Prop} {R : NodeId → Constant → Prop}
    {k : Kind} {c : Constant} (h : k.ValuedBy C R c) {m : NodeId} (hm : m ∈ k.parts) :
    ∃ d, R m d := by
  cases k with
  | tuple items =>
    obtain ⟨cs, hcs, -⟩ := h
    obtain ⟨d, -, hd⟩ := exists_of_forall₂ hcs m hm
    exact ⟨d, hd⟩
  | record tag fields =>
    obtain ⟨ds, hds, -⟩ := h
    obtain ⟨f, hf, rfl⟩ := List.mem_map.mp hm
    obtain ⟨d, -, -, hd⟩ := exists_of_forall₂ hds f hf
    exact ⟨d.2, hd⟩
  | _ => exact absurd hm List.not_mem_nil

namespace Store

variable {s : Store} {m n : NodeId} {v : Slot} {c : Constant}

/-! ### Slots -/

/-- The slot is the constant when the resolved pendings are followed. -/
inductive ComesTo (s : Store) : Slot → Constant → Prop
  | constant (c : Constant) : ComesTo s (.constant c) c
  | pending {p : PendingId} {v : Slot} {c : Constant} : s.result? p = some v → ComesTo s v c →
      ComesTo s (.pending p) c

/-- **A slot is followed to the constant that it comes to**, and to no other constant. -/
theorem comesTo_iff : s.ComesTo v c ↔ s.resolve v = .constant c := by
  constructor
  · intro h
    have hfuel : ∃ fuel, s.follow fuel v = .constant c := by
      induction h with
      | constant c => exact ⟨0, follow_zero s _⟩
      | pending hp _ ih =>
        obtain ⟨fuel, hfuel⟩ := ih
        refine ⟨fuel + 1, ?_⟩
        rw [follow, hp]
        exact hfuel
    obtain ⟨fuel, hfuel⟩ := hfuel
    have hfinal : s.Final (s.follow fuel v) := by
      rw [hfuel]
      rintro _ ⟨⟩
    rw [resolve_of_final hfinal, hfuel]
  · suffices hfollow : ∀ fuel v, s.follow fuel v = .constant c → s.ComesTo v c from hfollow _ v
    intro fuel
    induction fuel with
    | zero =>
      intro v h
      rw [follow_zero] at h
      exact h ▸ .constant c
    | succ fuel ih =>
      intro v h
      by_cases hfinal : s.Final v
      · rw [hfinal.follow] at h
        exact h ▸ .constant c
      · obtain ⟨p, w, rfl, hw⟩ := exists_of_not_final hfinal
        rw [follow, hw] at h
        exact .pending hw (ih w h)

/-- There is nothing below a slot that comes to a constant. -/
theorem ComesTo.children (h : s.ComesTo v c) : v.children = [] := by
  cases h <;> rfl

/-! ### Values -/

/-- The node has the value. -/
inductive HasValue (s : Store) : NodeId → Constant → Prop where
  -- the rules take the values of nodes in lists, so the premise goes through a relation
  | intro {n : NodeId} {c : Constant} (R : NodeId → Constant → Prop) :
      (∀ m d, R m d → HasValue s m d) → (s.kind n).ValuedBy s.ComesTo R c → HasValue s n c

/-- **A node has the value that its form has** over the values of its parts. -/
theorem hasValue_iff : s.HasValue n c ↔ (s.kind n).ValuedBy s.ComesTo s.HasValue c := by
  refine ⟨?_, .intro _ fun _ _ => id⟩
  rintro ⟨R, hR, h⟩
  exact h.imp fun m _ => hR m

/-- The node is a tuple, a record, a type, or a scalar whose slot comes to a constant. -/
def Legible (s : Store) (n : NodeId) : Prop :=
  match s.kind n with
  | .scalar v _ => ∃ c, s.ComesTo v c
  | .tuple _ | .record _ _ | .type _ => True
  | _ => False

namespace Legible

theorem present (h : s.Legible n) : n < s.nodes.size := by
  by_contra habsent
  rw [Legible, kind_of_absent (Nat.not_lt.mp habsent)] at h
  exact h

/-- What is below a legible node is a part of it. -/
theorem mem_parts (h : s.Legible n) (hm : m ∈ (s.kind n).children) : m ∈ (s.kind n).parts := by
  rw [Legible] at h
  cases hk : s.kind n <;> rw [hk] at h hm
  case scalar v ty =>
    obtain ⟨c, hc⟩ := h
    rw [Kind.children, hc.children] at hm
    exact absurd hm List.not_mem_nil
  case tuple | record | type => exact hm
  all_goals exact h.elim

/-- A legible node has a value over any values of its parts. -/
theorem valued {R : NodeId → Constant → Prop} (h : s.Legible n)
    (hparts : ∀ m ∈ (s.kind n).parts, ∃ c, R m c) :
    ∃ c, (s.kind n).ValuedBy s.ComesTo R c := by
  rw [Legible] at h
  cases hk : s.kind n <;> rw [hk] at h hparts
  case scalar => exact h
  case tuple items =>
    choose! value hvalue using hparts
    exact ⟨_, items.map value, List.forall₂_map_right_iff.mpr (List.forall₂_same.mpr hvalue), rfl⟩
  case record tag fields =>
    choose! value hvalue using hparts
    refine ⟨_, fields.map fun f => (f.1, value f.2),
      List.forall₂_map_right_iff.mpr (List.forall₂_same.mpr fun f hf => ⟨rfl, ?_⟩), rfl⟩
    exact hvalue f.2 (List.mem_map_of_mem hf)
  case type ty => exact ⟨.type ty, rfl⟩
  all_goals exact h.elim

end Legible

theorem HasValue.legible (h : s.HasValue n c) : s.Legible n := by
  have hform := hasValue_iff.mp h
  rw [Legible]
  cases hk : s.kind n <;> rw [hk] at hform
  case scalar => exact ⟨c, hform⟩
  case tuple | record | type => trivial
  all_goals exact hform.elim

/-- There is no endless way down from a node with a value. -/
theorem HasValue.founded (h : s.HasValue n c) : s.Founded n := by
  induction h with
  | @intro n c R hR h ih =>
    have hlegible : s.Legible n := (HasValue.intro R hR h).legible
    refine .of_children hlegible.present fun m hm => ?_
    obtain ⟨d, hd⟩ := h.part (hlegible.mem_parts hm)
    exact ih m d hd

/-! ### Reading -/

theorem pure_eq_ok {α : Type} {a b : α} : (pure a : Reading α) = .ok b ↔ b = a :=
  ⟨fun h => (Except.ok.inj h).symm, fun h => congrArg Except.ok h.symm⟩

theorem mapM_eq_ok_iff {α β : Type} {f : α → Reading β} {as : List α} {bs : List β} :
    as.mapM f = .ok bs ↔ List.Forall₂ (fun a b => f a = .ok b) as bs := by
  induction as generalizing bs with
  | nil =>
    rw [List.mapM_nil, pure_eq_ok, List.forall₂_nil_left_iff]
  | cons a as ih =>
    simp only [List.mapM_cons, bind_eq_ok, pure_eq_ok, List.forall₂_cons_left_iff, ih]
    constructor
    · rintro ⟨b, hb, bs', hbs, rfl⟩
      exact ⟨b, bs', hb, hbs, rfl⟩
    · rintro ⟨b, bs', hb, hbs, rfl⟩
      exact ⟨b, hb, bs', hbs, rfl⟩

/-- What a reading gives for nodes. -/
abbrev Gives {α : Type} (sub : NodeId → Reading α) (n : NodeId) (a : α) : Prop := sub n = .ok a

/-- **The value of a form** is read off by the rules. -/
theorem valueOfKind_eq_ok {sub : NodeId → Reading Constant} {k : Kind} :
    s.valueOfKind sub n k = .ok c ↔ k.ValuedBy s.ComesTo (Gives sub) c := by
  cases k with
  | scalar v ty =>
    rw [valueOfKind, Kind.ValuedBy, comesTo_iff]
    split
    · next d hd => rw [hd, Except.ok.injEq, Slot.constant.injEq]
    · next hnone => exact iff_of_false (fun h => by cases h) (hnone c)
  | tuple items =>
    simp only [valueOfKind, bind_eq_ok, mapM_eq_ok_iff, pure_eq_ok]
    rfl
  | record tag fields =>
    have hfield : ∀ (f : String × NodeId) (d : String × Constant),
        (∃ x, sub f.2 = .ok x ∧ d = (f.1, x)) ↔ d.1 = f.1 ∧ sub f.2 = .ok d.2 := by
      intro f d
      constructor
      · rintro ⟨x, hx, rfl⟩
        exact ⟨rfl, hx⟩
      · rintro ⟨hname, hx⟩
        exact ⟨d.2, hx, Prod.ext hname rfl⟩
    simp only [valueOfKind, bind_eq_ok, mapM_eq_ok_iff, pure_eq_ok]
    exact exists_congr fun ds => and_congr_left fun _ =>
      ⟨fun h => h.imp fun f d => (hfield f d).mp, fun h => h.imp fun f d => (hfield f d).mpr⟩
  | type ty => rw [valueOfKind, Except.ok.injEq, eq_comm]; rfl
  | _ => exact iff_of_false (fun h => by cases h) id

/-- What a walk finds is what the node has. -/
theorem hasValue_of_valueBelow : ∀ {fuel : Nat} {path : List NodeId} {n : NodeId} {c : Constant},
    s.valueBelow fuel path n = .ok c → s.HasValue n c := by
  intro fuel
  induction fuel with
  | zero =>
    intro path n c h
    cases h
  | succ fuel ih =>
    intro path n c h
    rw [valueBelow] at h
    split at h
    · cases h
    · exact hasValue_iff.mpr ((valueOfKind_eq_ok.mp h).imp fun m _ d hd => ih hd)

/-- **What a node has is found by a walk**, from a path of nodes that are above it. -/
theorem HasValue.valueBelow : ∀ {fuel : Nat} {path : List NodeId} {n : NodeId} {c : Constant},
    s.HasValue n c → s.EndsWithin fuel n → (∀ m ∈ path, s.Below n m) →
      s.valueBelow fuel path n = .ok c := by
  intro fuel
  induction fuel with
  | zero => exact fun _ h => h.elim
  | succ fuel ih =>
    intro path n c h hends hpath
    -- a node on the path would be below itself
    rw [Store.valueBelow, if_neg fun hmem => hends.acyclic (hpath n hmem), valueOfKind_eq_ok]
    refine (hasValue_iff.mp h).imp fun m hm d hd => ?_
    have hchild := Kind.mem_children_of_part hm
    refine ih hd (hends.2 m hchild) fun x hx => ?_
    rcases List.mem_cons.mp hx with rfl | hx
    · exact .single hchild
    · exact (hpath x hx).head hchild

/-- **The value that is read off a node is the one that it has**, and where it has none, none is
read off. -/
theorem value_iff : s.value n = .ok c ↔ s.HasValue n c :=
  ⟨hasValue_of_valueBelow, fun h => h.valueBelow h.founded fun _ hm => absurd hm List.not_mem_nil⟩

/-! ### Determined values -/

/-- The second node is reached from the first one through items and fields. -/
def HasPart (s : Store) : NodeId → NodeId → Prop :=
  Relation.ReflTransGen fun x y => y ∈ (s.kind x).parts

/-- What the value is made up of is legible, and none of it contains itself. -/
structure Determined (s : Store) (n : NodeId) : Prop where
  legible : ∀ m, s.HasPart n m → s.Legible m
  acyclic : ∀ m, s.HasPart n m → ¬ Relation.TransGen (fun x y => y ∈ (s.kind x).parts) m m

namespace Determined

theorem part (h : s.Determined n) (hm : m ∈ (s.kind n).parts) : s.Determined m where
  legible l hl := h.legible l (.head hm hl)
  acyclic l hl := h.acyclic l (.head hm hl)

/-- There is no endless way down from a determined node: all that is below it are its parts. -/
theorem founded (h : s.Determined n) : s.Founded n := by
  refine endsWithin_of_acyclic (P := s.HasPart n) (fun m hm => (h.legible m hm).present)
    (fun m hm l hl => hm.tail ((h.legible m hm).mem_parts hl)) (fun m hm hloop => ?_) .refl
  suffices hdown : ∀ x, s.Below x m → Relation.TransGen (fun x y => y ∈ (s.kind x).parts) m x from
    h.acyclic m hm (hdown m hloop)
  intro x hx
  induction hx using Relation.TransGen.head_induction_on with
  | single hx => exact .single ((h.legible m hm).mem_parts hx)
  | head hx _ ih => exact ih.tail ((h.legible _ (hm.trans ih.to_reflTransGen)).mem_parts hx)

/-- **A determined node has a value.** -/
theorem hasValue (h : s.Determined n) : ∃ c, s.HasValue n c := by
  refine h.founded.induct (motive := fun m => s.Determined m → ∃ c, s.HasValue m c)
    (fun m _ ih hm => ?_) h
  obtain ⟨c, hc⟩ := (hm.legible m .refl).valued fun x hx =>
    ih x (Kind.mem_children_of_part hx) (hm.part hx)
  exact ⟨c, hasValue_iff.mpr hc⟩

end Determined

/-- **What has a value is determined.** -/
theorem HasValue.determined (h : s.HasValue n c) : s.Determined n := by
  have hparts : ∀ m, s.HasPart n m → ∃ d, s.HasValue m d := by
    intro m hm
    induction hm with
    | refl => exact ⟨c, h⟩
    | tail _ hm ih =>
      obtain ⟨d, hd⟩ := ih
      exact (hasValue_iff.mp hd).part hm
  refine ⟨fun m hm => ?_, fun m hm hloop => ?_⟩
  · obtain ⟨d, hd⟩ := hparts m hm
    exact hd.legible
  · obtain ⟨d, hd⟩ := hparts m hm
    refine hd.founded.acyclic (Relation.transGen_swap.mp ?_)
    exact Relation.TransGen.mono (fun _ _ => Kind.mem_children_of_part) m m hloop

/-- **A value is read off exactly if it is determined**, whatever the graph and the pendings are
like: if every node that is reached through items and fields is a tuple, a record, a type, or a
scalar whose slot comes to a constant, and none of these nodes is reached from itself.  What is
read off is what the rules give. -/
theorem value_determined (s : Store) (n : NodeId) :
    ((∃ c, s.value n = .ok c) ↔ s.Determined n) ∧ ∀ c, s.value n = .ok c ↔ s.HasValue n c := by
  refine ⟨⟨?_, fun h => ?_⟩, fun c => value_iff⟩
  · rintro ⟨c, hc⟩
    exact (value_iff.mp hc).determined
  · obtain ⟨c, hc⟩ := h.hasValue
    exact ⟨c, value_iff.mpr hc⟩

/-- A tuple with one item twice, also below another one of its items, has a value; a tuple that is
its own item has none. -/
example :
    let s := ofForms [.scalar (.constant (.int 1)) .i64, .tuple [0, 0], .tuple [1, 0, 1]]
    let s := (Change.complete 3 (.tuple [0, 3])).apply (Change.placeholder.apply s)
    (s.value 2).toOption = some (.tuple [.tuple [.int 1, .int 1], .int 1, .tuple [.int 1, .int 1]]) ∧
      (s.value 3).toOption = none := by
  decide +kernel

end Store

end ValueInference
