/-
Types of literals.

A literal has a type of its own, and what it is built as has the type that is read off its form.  A
tuple and a record have the same type on both sides; for a list, the one side unites the types of
the items, and the other side merges the items into one element.  The two agree where all items have
one type: the dead value that the element starts as gives way to the first item, and merges of
values of one type keep the type.

* **`Constant.Uniform`** — a constant whose lists have items, all of one type;
* **`Infer.Secures`** — what holds when a computation succeeds;
* **`Store.Describes`** — the node is an elementary value of the type;
* **`Infer.secures_ofItems`** — the loop over the items of a list;
* **`Infer.ofConstant_secures`** — every uniform literal is built as a value of its type;
* **`Infer.ofConstant_type`** — the two types of a literal agree.
-/
import ValueInference.Proofs.Elementary
import ValueInference.Proofs.Literals

namespace ValueInference

/-! ### Uniform constants -/

/-- The union of one type, however often it is listed. -/
theorem Ty.union?_of_forall_eq {ts : List Ty} {t : Ty} (hts : ts ≠ []) (h : ∀ u ∈ ts, u = t)
    (ht : t.isUnion = false) : Ty.union? ts = some t := by
  have hcanonical := Ty.canonical_of_not_union ht
  refine (Ty.union?_eq_some_iff fun u hu => h u hu ▸ hcanonical.wellFormed).mpr
    ⟨hcanonical, fun u => ?_⟩
  rw [List.mem_flatMap]
  constructor
  · rintro ⟨v, hv, huv⟩
    exact h v hv ▸ huv
  · intro hu
    obtain ⟨v, hv⟩ := List.exists_mem_of_ne_nil ts hts
    exact ⟨v, hv, (h v hv).symm ▸ hu⟩

namespace Constant

variable {c x : Constant} {items : List Constant}

/-- A constant in which every list has items, all of one type. -/
def Uniform (c : Constant) : Prop :=
  ∀ items, (list items).Within c → items ≠ [] ∧ ∀ x ∈ items, ∀ y ∈ items, x.typeOf = y.typeOf

theorem Uniform.part (h : c.Uniform) (hx : x ∈ c.parts) : x.Uniform :=
  fun items hw => h items (.head hx hw)

/-- A constant is uniform if its parts are, and it is no list of items of different types. -/
theorem Uniform.of_parts
    (hlist : ∀ items, c = list items →
      items ≠ [] ∧ ∀ x ∈ items, ∀ y ∈ items, x.typeOf = y.typeOf)
    (hparts : ∀ x ∈ c.parts, x.Uniform) : c.Uniform := by
  intro items hw
  rcases Relation.ReflTransGen.cases_head hw with h | ⟨x, hx, hw⟩
  · exact hlist items h
  · exact hparts x hx items hw

theorem typesOf_eq_map (cs : List Constant) : typesOf cs = cs.map typeOf := by
  induction cs with
  | nil => rfl
  | cons c cs ih => rw [typesOf, ih, List.map_cons]

theorem typeOf_not_union (c : Constant) : c.typeOf.isUnion = false := by
  cases c <;> rfl

/-- The type of a list is that of its items, if they have one type. -/
theorem typeOf_list {t : Ty} (hitems : items ≠ []) (h : ∀ x ∈ items, x.typeOf = t)
    (ht : t.isUnion = false) : (list items).typeOf = .list t := by
  have hunion : Ty.union? (items.map typeOf) = some t := by
    refine Ty.union?_of_forall_eq (by simpa using hitems) (fun u hu => ?_) ht
    obtain ⟨x, hx, rfl⟩ := List.mem_map.mp hu
    exact h x hx
  rw [typeOf, typesOf_eq_map, hunion, Option.getD_some]

end Constant

namespace Store

variable {s t : Store} {n : NodeId} {T : Ty}

/-- The node is an elementary value of the type. -/
structure Describes (s : Store) (n : NodeId) (T : Ty) : Prop where
  elementary : s.Elementary n
  hasType : s.HasType n T

theorem Grows.describes (h : s.Grows t) (hn : s.Describes n T) : t.Describes n T :=
  ⟨h.elementary hn.elementary, h.hasType hn.elementary.founded hn.hasType⟩

end Store

namespace Infer

open Store

variable {α β : Type} {s t : Store} {a b n : NodeId} {k : Kind} {T : Ty} {c : Constant}
  {cs : List Constant}

/-! ### What successful computations secure -/

/-- If the computation succeeds, the store has only grown, to a whole one in which `Q` holds of the
result. -/
def Secures (x : Infer α) (s : Store) (Q : Store → α → Prop) : Prop :=
  ∀ a t, x.outcome s = (.ok a, t) → s.Grows t ∧ t.Whole ∧ Q t a

theorem secures_pure {a : α} {Q : Store → α → Prop} (hs : s.Whole) (h : Q s a) :
    (pure a : Infer α).Secures s Q := by
  rintro _ _ ⟨⟩
  exact ⟨.refl s, hs, h⟩

theorem Secures.bind {x : Infer α} {f : α → Infer β} {P : Store → α → Prop} {Q : Store → β → Prop}
    (hx : x.Secures s P) (hf : ∀ a t, s.Grows t → t.Whole → P t a → (f a).Secures t Q) :
    (x >>= f).Secures s Q := by
  intro b u h
  obtain ⟨a, t, hxa, hfa⟩ := outcome_bind_ok.mp h
  obtain ⟨hst, ht, hP⟩ := hx a t hxa
  obtain ⟨htu, hu, hQ⟩ := hf a t hst ht hP b u hfa
  exact ⟨hst.trans htu, hu, hQ⟩

theorem Secures.congr {x y : Infer α} {Q : Store → α → Prop} (h : x.Secures s Q)
    (hxy : y.outcome s = x.outcome s) : y.Secures s Q :=
  fun a t hy => h a t (hxy.symm.trans hy)

/-- **An elementary form** becomes an elementary value. -/
theorem secures_make (hs : s.Whole) (hk : k.Elementary)
    (hchildren : ∀ c ∈ k.children, s.Elementary c)
    (hslot : k.slot? = none ∨ ∃ c, k.slot? = some (.constant c)) :
    (make k).Secures s fun t n => t.Elementary n ∧ (t.kind n).Alike (· = ·) k := by
  have hadmitted : ∀ v, k.slot? = some v → s.AdmitsSlot v := by
    rintro v hv p rfl
    rcases hslot with hnone | ⟨c, hc⟩
    · cases hnone.symm.trans hv
    · cases hc.symm.trans hv
  intro n t h
  obtain ⟨n', t', hmake, hmade, ht⟩ := hs.exists_made (outcome_make_ok h).1 hadmitted
  cases hmake.symm.trans h
  refine ⟨hmade.grows, ht, .of_children (hmade.alike.elementary hk) fun c hc => ?_, hmade.alike⟩
  exact hmade.grows.elementary (hchildren c (hmade.below c hc))

/-- **A form over values of some types** becomes a value of the type that it has over them. -/
theorem secures_make_typed (hs : s.Whole) (hk : k.Elementary)
    (hchildren : ∀ c ∈ k.children, s.Elementary c)
    (hslot : k.slot? = none ∨ ∃ c, k.slot? = some (.constant c)) (hT : k.TypedBy s.HasType T) :
    (make k).Secures s fun t n => t.Describes n T := by
  intro n t h
  obtain ⟨hgrows, ht, hn, halike⟩ := secures_make hs hk hchildren hslot n t h
  refine ⟨hgrows, ht, hn, hasType_iff.mpr (Kind.Alike.typedBy (P := s.HasType) ?_ hk hT)⟩
  refine halike.imp fun a _ b hb hab U hU => ?_
  exact hab ▸ hgrows.hasType (hchildren b hb).founded hU

/-- The dead value. -/
theorem secures_dead (hs : s.Whole) :
    dead.Secures s fun t n => t.Elementary n ∧ t.kind n = .error .dead := by
  intro n t h
  obtain ⟨hgrows, ht, hn, halike⟩ :=
    secures_make (k := .error .dead) hs trivial (fun _ hc => absurd hc List.not_mem_nil)
      (.inl rfl) n t h
  exact ⟨hgrows, ht, hn, Kind.eq_error_of_head halike.head_eq⟩

/-- A broadening keeps the type. -/
theorem secures_broaden (hs : s.Whole) (hn : s.Describes n T) :
    (broaden n).Secures s fun t out => t.Describes out T := by
  obtain ⟨out, t, hbroaden, hgrows, ht, hbroadened, -⟩ :=
    outcome_broaden hs hn.elementary.founded hn.elementary.flatBelow
  have hlater := hgrows.describes hn
  intro out' t' h
  cases hbroaden.symm.trans h
  exact ⟨hgrows, ht, hbroadened.elementary hlater.elementary,
    hbroadened.hasType hlater.elementary T hlater.hasType⟩

/-- **A merge into the element** of a list gives a value of the type of the item: the element has
this type, or it is still the dead value. -/
theorem secures_merge (hs : s.Whole) (ha : s.Elementary a)
    (hTa : s.kind a = .error .dead ∨ s.HasType a T) (hb : s.Describes b T) :
    (merge {} false a b).Secures s fun t r => t.Describes r T := by
  intro r t h
  cases merge_ends {} false (ha.proper hs) (hb.elementary.proper hs) s (.refl s) hs.sound with
  | mismatches hrun => exact nomatch congrArg Prod.fst (h.symm.trans hrun)
  | gives hrun hgrows ht hr =>
    cases h.symm.trans hrun
    have hstore : ((ExceptT.run (merge {} false a b)).run s).2 = t := congrArg Prod.snd h
    have hwhole := hs.evolves (hstore ▸ (ExceptT.run (merge {} false a b)).evolves s) ht
    have hjoined := hr.joined (ha.ground hs) (hb.elementary.ground hs) t (.refl t)
    refine ⟨hgrows, hwhole, hjoined.elementary hgrows hwhole ha hb.elementary, ?_⟩
    rcases hTa with hdead | hTa
    · cases hjoined with
      | same hequals =>
        -- nothing of a type equals the dead value
        have hhead := head_of_equals hequals
        rw [hdead] at hhead
        have htyped := hasType_iff.mp hb.hasType
        rw [Kind.eq_error_of_head hhead.symm] at htyped
        exact htyped.elim
      | step J _ _ hstep =>
        rw [JoinStep, if_pos hdead] at hstep
        exact hstep ▸ hgrows.hasType hb.elementary.founded hb.hasType
    · exact hjoined.hasType hgrows (ha.typable hs) (hb.elementary.typable hs) T hTa hb.hasType

/-! ### Literals -/

/-- **The items of a list** are merged to one element of their type. -/
theorem secures_ofItems (hcs : ∀ c ∈ cs, c.typeOf = T)
    (hof : ∀ c ∈ cs, ∀ s : Store, s.Whole →
      (ofConstant c).Secures s fun t n => t.Describes n c.typeOf) :
    ∀ {s : Store} {a : NodeId}, s.Whole → s.Elementary a →
      s.kind a = .error .dead ∧ cs ≠ [] ∨ s.HasType a T →
        (ofItems a cs).Secures s fun t n => t.Describes n T := by
  induction cs with
  | nil =>
    intro s a hs ha hTa
    rw [ofItems]
    exact secures_pure hs ⟨ha, hTa.resolve_left fun h => h.2 rfl⟩
  | cons c cs ih =>
    intro s a hs ha hTa
    have hc := hcs c List.mem_cons_self
    rw [ofItems]
    refine (hof c List.mem_cons_self s hs).bind fun n t hst ht hn => ?_
    refine (secures_broaden ht (hc ▸ hn)).bind fun item u htu hu hitem => ?_
    have hgrows := hst.trans htu
    have hTa' : u.kind a = .error .dead ∨ u.HasType a T := by
      refine hTa.imp (fun h => ?_) (hgrows.hasType ha.founded)
      rw [hgrows.kind_eq ha.founded.present, h.1]
    refine (secures_merge hu (hgrows.elementary ha) hTa' hitem).bind fun r v _ hv hr => ?_
    exact ih (fun x hx => hcs x (List.mem_cons_of_mem c hx))
      (fun x hx => hof x (List.mem_cons_of_mem c hx)) hv hr.elementary (.inr hr.hasType)

/-- Some constants become values of their types. -/
theorem secures_ofEach (hof : ∀ c ∈ cs, ∀ s : Store, s.Whole →
      (ofConstant c).Secures s fun t n => t.Describes n c.typeOf) :
    ∀ {s : Store}, s.Whole →
      (ofEach cs).Secures s fun t ns => List.Forall₂ t.Describes ns (cs.map Constant.typeOf) := by
  induction cs with
  | nil =>
    intro s hs
    rw [ofEach]
    exact secures_pure hs .nil
  | cons c cs ih =>
    intro s hs
    rw [ofEach]
    refine (hof c List.mem_cons_self s hs).bind fun n t _ ht hn => ?_
    refine (ih (fun x hx => hof x (List.mem_cons_of_mem c hx)) ht).bind fun ns u htu hu hns => ?_
    exact secures_pure hu (.cons (htu.describes hn) hns)

/-- **A uniform literal** is built as an elementary value of its type. -/
theorem ofConstant_secures (hc : c.Uniform) (hs : s.Whole) :
    (ofConstant c).Secures s fun t n => t.Describes n c.typeOf := by
  induction c using Constant.induct generalizing s with
  | h c ih =>
    have hparts : ∀ x ∈ c.parts, ∀ s : Store, s.Whole →
        (ofConstant x).Secures s fun t n => t.Describes n x.typeOf :=
      fun x hx _ hs => ih x hx (hc.part hx) hs
    have hnone : ∀ x ∈ ([] : List NodeId), s.Elementary x := fun _ hx => absurd hx List.not_mem_nil
    cases c with
    | tuple items =>
      rw [ofConstant]
      refine (secures_ofEach hparts hs).bind fun ns t _ ht hns => ?_
      refine secures_make_typed ht trivial (fun n hn => ?_) (.inl rfl) ?_
      · obtain ⟨T, -, hT⟩ := exists_of_forall₂ hns n hn
        exact hT.elementary
      · rw [Constant.typeOf, Constant.typesOf_eq_map]
        exact ⟨_, hns.imp fun _ _ => Describes.hasType, rfl⟩
    | list items =>
      obtain ⟨hitems, hsame⟩ := hc items .refl
      obtain ⟨x, hx⟩ := List.exists_mem_of_ne_nil items hitems
      have htypes : ∀ y ∈ items, y.typeOf = x.typeOf := fun y hy => hsame y hy x hx
      rw [Constant.typeOf_list hitems htypes x.typeOf_not_union, ofConstant]
      refine (secures_dead hs).bind fun a t _ ht ha => ?_
      refine (secures_ofItems htypes hparts ht ha.1 (.inl ⟨ha.2, hitems⟩)).bind
        fun element u _ hu helement => ?_
      refine secures_make_typed hu trivial (fun n hn => ?_) (.inl rfl)
        ⟨_, helement.hasType, rfl⟩
      exact List.mem_singleton.mp hn ▸ helement.elementary
    | record tag fields =>
      rw [ofConstant]
      have hfields : (ofFields fields).Secures s fun t ns =>
          ∀ n ∈ ns.map Prod.snd, t.Elementary n := by
        refine Secures.congr ?_ (outcome_ofFields fields s)
        refine (secures_ofEach hparts hs).bind fun ns t _ ht hns => secures_pure ht fun n hn => ?_
        obtain ⟨f, hf, rfl⟩ := List.mem_map.mp hn
        obtain ⟨T, -, hT⟩ := exists_of_forall₂ hns f.2 (List.of_mem_zip hf).2
        exact hT.elementary
      -- the type of a record is its tag, so that those of the fields do not matter
      exact hfields.bind fun ns t _ ht hns => secures_make_typed ht trivial hns (.inl rfl) rfl
    | type ty =>
      rw [ofConstant]
      exact secures_make_typed hs trivial hnone (.inl rfl) rfl
    | _ =>
      rw [ofConstant]
      exact secures_make_typed hs ⟨rfl, rfl⟩ hnone (.inr ⟨_, rfl⟩) rfl

/-- **The two types of a literal agree.**  If every list in a literal has items, all of one type,
then whatever the literal is built as has the type of the literal. -/
theorem ofConstant_type (hs : s.Attained) (hc : c.Uniform)
    (h : (ofConstant c).outcome s = (.ok n, t)) : t.typeOf n = .ok c.typeOf := by
  obtain ⟨-, -, hn⟩ := ofConstant_secures hc hs.whole n t h
  exact (typeOf_iff hn.elementary.clear).mpr hn.hasType

/-- A list of lists next to a record with a list in it and a type. -/
def nestedLiteral : Constant :=
  .tuple [.list [.list [.int 1, .int 2], .list [.int 3]], .record "P" [("a", .list [.nil])],
    .type .i64]

theorem ofConstant_type_nestedLiteral :
    ∃ t, (ofConstant nestedLiteral).outcome (ofForms [.scalar (.constant (.int 3)) .i64]) =
        (.ok 12, t) ∧
      t.typeOf 12 = .ok (.tuple [.list (.list .i64), .record "P", .typeType]) := by
  have hs : (ofForms [.scalar (.constant (.int 3)) .i64]).Reachable :=
    reachable_ofForms (by simp [Kind.slot?])
  have hnumbers : ∀ items : List Constant, items ≠ [] → (∀ x ∈ items, ∃ n, x = .int n) →
      (Constant.list items).Uniform := by
    refine fun items hitems hints => .of_parts ?_ fun x hx => ?_
    · rintro _ ⟨⟩
      refine ⟨hitems, fun x hx y hy => ?_⟩
      obtain ⟨m, rfl⟩ := hints x hx
      obtain ⟨n, rfl⟩ := hints y hy
      rfl
    · obtain ⟨n, rfl⟩ := hints x hx
      exact .of_parts (by simp) (by simp [Constant.parts])
  have hlists : (Constant.list [.list [.int 1, .int 2], .list [.int 3]]).Uniform := by
    refine .of_parts (by rintro _ ⟨⟩; decide) fun x hx => ?_
    rcases List.mem_pair.mp hx with rfl | rfl
    · exact hnumbers _ (by simp) (by simp)
    · exact hnumbers _ (by simp) (by simp)
  have hrecord : (Constant.record "P" [("a", .list [.nil])]).Uniform := by
    refine .of_parts (by simp) fun x hx => ?_
    obtain rfl := List.mem_singleton.mp hx
    refine .of_parts (by rintro _ ⟨⟩; decide) fun y hy => ?_
    obtain rfl := List.mem_singleton.mp hy
    exact .of_parts (by simp) (by simp [Constant.parts])
  have huniform : nestedLiteral.Uniform := by
    refine .of_parts (by simp [nestedLiteral]) fun x hx => ?_
    rcases List.mem_cons.mp hx with rfl | hx
    · exact hlists
    rcases List.mem_pair.mp hx with rfl | rfl
    · exact hrecord
    · exact .of_parts (by simp) (by simp [Constant.parts])
  have hrun := outcome_of_toOption (x := ofConstant nestedLiteral) (a := 12)
    (s := ofForms [.scalar (.constant (.int 3)) .i64]) (by decide +kernel)
  exact ⟨_, hrun, ofConstant_type hs.attained huniform hrun⟩

end Infer

end ValueInference
