/-
Literals and what is read back from them.

A literal is built from its parts, and a form over interned nodes gives the interned node that
already has it.  Forms of records have no order, so a record may turn out as one that was built
before with its fields in another order, and then this one is read back.  Nothing else is lost.

* **`Constant.Plain`** — the constants that have a node of their own: a list is described by one
  element, and a record with two fields of one name has no node;
* **`Constant.arranged`** — a constant with the fields of its records in the order of their names;
* **`Store.Holds`** — the node has the form of a literal, with the fields in their order;
* **`Store.Holds.shared`** — interned nodes of one literal are the same, in whatever order the
  fields are;
* **`Store.Holds.value`** — the literal is read off its node;
* **`Infer.ofConstant_built`** — every plain literal is built from every store;
* **`Infer.literal_round_trip`** — what is read back, and when it is exactly the literal.
-/
import ValueInference.Literal
import ValueInference.Proofs.Canonical
import ValueInference.Proofs.Distinct
import ValueInference.Proofs.Fitting
import ValueInference.Proofs.Values

namespace ValueInference

/-! ### Constants -/

namespace Constant

/-- The constants directly inside a constant. -/
def parts : Constant → List Constant
  | .tuple items | .list items => items
  | .record _ fields => fields.map Prod.snd
  | _ => []

/-- The first constant is the second one, or stands somewhere inside it. -/
def Within (x c : Constant) : Prop := Relation.ReflTransGen (fun c x => x ∈ c.parts) c x

/-- A constant with no list in it, and no record with two fields of one name. -/
structure Plain (c : Constant) : Prop where
  lists : ∀ items, ¬ (list items).Within c
  labels : ∀ tag fields, (record tag fields).Within c → (fields.map Prod.fst).Nodup

mutual

/-- The constant with the fields of every record in it in the order of their names. -/
def arranged : Constant → Constant
  | .tuple items => .tuple (arrangedEach items)
  | .list items => .list (arrangedEach items)
  | .record tag fields => .record tag (stableSort (fun f g => f.1 ≤ g.1) (arrangedFields fields))
  | c => c

def arrangedEach : List Constant → List Constant
  | [] => []
  | c :: cs => arranged c :: arrangedEach cs

def arrangedFields : List (String × Constant) → List (String × Constant)
  | [] => []
  | (name, c) :: fields => (name, arranged c) :: arrangedFields fields

end

variable {x c : Constant}

theorem sizeOf_lt_of_mem_parts (h : x ∈ c.parts) : sizeOf x < sizeOf c := by
  cases c with
  | tuple items =>
    have := List.sizeOf_lt_of_mem (show x ∈ items from h)
    simp only [tuple.sizeOf_spec]
    omega
  | list items =>
    have := List.sizeOf_lt_of_mem (show x ∈ items from h)
    simp only [list.sizeOf_spec]
    omega
  | record tag fields =>
    obtain ⟨⟨name, d⟩, hf, rfl⟩ := List.mem_map.mp h
    have := List.sizeOf_lt_of_mem hf
    simp only [record.sizeOf_spec, Prod.mk.sizeOf_spec] at this ⊢
    omega
  | _ => exact absurd h List.not_mem_nil

/-- Induction from the parts of a constant to the constant. -/
theorem induct {motive : Constant → Prop} (h : ∀ c, (∀ x ∈ c.parts, motive x) → motive c)
    (c : Constant) : motive c :=
  h c fun x hx =>
    have := sizeOf_lt_of_mem_parts hx
    induct h x
termination_by sizeOf c

theorem Plain.part (h : c.Plain) (hx : x ∈ c.parts) : x.Plain where
  lists items hw := h.lists items (.head hx hw)
  labels tag fields hw := h.labels tag fields (.head hx hw)

/-- A constant is plain if its parts are, and it is no list and no record that repeats a name. -/
theorem Plain.of_parts (hlist : ∀ items, c ≠ list items)
    (hlabels : ∀ tag fields, c = record tag fields → (fields.map Prod.fst).Nodup)
    (hparts : ∀ x ∈ c.parts, x.Plain) : c.Plain where
  lists items hw := by
    rcases Relation.ReflTransGen.cases_head hw with h | ⟨x, hx, hw⟩
    · exact hlist items h
    · exact (hparts x hx).lists items hw
  labels tag fields hw := by
    rcases Relation.ReflTransGen.cases_head hw with h | ⟨x, hx, hw⟩
    · exact hlabels tag fields h
    · exact (hparts x hx).labels tag fields hw

theorem Plain.nodup {tag : String} {fields : List (String × Constant)}
    (h : (record tag fields).Plain) : (fields.map Prod.fst).Nodup :=
  h.labels tag fields .refl

theorem arrangedEach_eq_map (cs : List Constant) : arrangedEach cs = cs.map arranged := by
  induction cs with
  | nil => rfl
  | cons c cs ih => rw [arrangedEach, ih, List.map_cons]

theorem arrangedFields_eq_map (fields : List (String × Constant)) :
    arrangedFields fields = fields.map (Prod.map id arranged) := by
  induction fields with
  | nil => rfl
  | cons f fields ih =>
    obtain ⟨name, c⟩ := f
    rw [arrangedFields, ih, List.map_cons]
    rfl

theorem arranged_tuple (items : List Constant) :
    (tuple items).arranged = .tuple (items.map arranged) := by
  rw [arranged, arrangedEach_eq_map]

/-- The fields of a record are told apart by their names, so that sorting forgets their order. -/
theorem arranged_record_congr {tag : String} {fs gs : List (String × Constant)}
    (hfs : (fs.map Prod.fst).Nodup)
    (h : (fs.map (Prod.map id arranged)).Perm (gs.map (Prod.map id arranged))) :
    (record tag fs).arranged = (record tag gs).arranged := by
  have hlabels : ((fs.map (Prod.map id arranged)).map Prod.fst).Nodup := by
    rwa [List.map_map, show Prod.fst ∘ Prod.map id arranged = Prod.fst from rfl]
  rw [arranged, arranged, arrangedFields_eq_map, arrangedFields_eq_map,
    stableSort_labels_congr hlabels h]

/-- A constant that is described by a scalar. -/
def isAtom : Constant → Bool
  | .tuple _ | .list _ | .record _ _ | .type _ => false
  | _ => true

theorem atom_of_arranged (hc : c.isAtom = true) (h : c.arranged = x.arranged) : x = c := by
  cases c <;> cases x <;> simp_all [arranged, isAtom]

theorem type_of_arranged {ty : Ty} (h : (type ty).arranged = x.arranged) : x = type ty := by
  cases x <;> simp_all [arranged]

theorem tuple_of_arranged {cs : List Constant} (h : (tuple cs).arranged = x.arranged) :
    ∃ ds, x = tuple ds ∧ cs.map arranged = ds.map arranged := by
  cases x <;> simp_all [arranged, arrangedEach_eq_map]

theorem record_of_arranged {tag : String} {fs : List (String × Constant)}
    (h : (record tag fs).arranged = x.arranged) :
    ∃ gs, x = record tag gs ∧
      (fs.map (Prod.map id arranged)).Perm (gs.map (Prod.map id arranged)) := by
  cases x with
  | record tag' gs =>
    simp only [arranged, arrangedFields_eq_map, record.injEq] at h
    obtain ⟨rfl, hsorted⟩ := h
    have hsort := stableSort_perm fun f g : String × Constant => decide (f.1 ≤ g.1)
    exact ⟨gs, rfl, (hsort _).symm.trans ((List.Perm.of_eq hsorted).trans (hsort _))⟩
  | _ => simp [arranged] at h

end Constant

/-! ### Nodes of literals -/

namespace Store

variable {s t : Store} {c d : Constant} {m n : NodeId}

/-- The node has the form of a literal, with the fields of records in their order. -/
inductive Holds (s : Store) : Constant → NodeId → Prop
  | atom {c : Constant} {n : NodeId} (hc : c.isAtom = true)
      (kind : s.kind n = .scalar (.constant c) c.typeOf) : Holds s c n
  | type {ty : Ty} {n : NodeId} (kind : s.kind n = .type ty) : Holds s (.type ty) n
  | tuple {cs : List Constant} {ms : List NodeId} {n : NodeId} (kind : s.kind n = .tuple ms)
      (items : List.Forall₂ s.Holds cs ms) : Holds s (.tuple cs) n
  | record {tag : String} {fs : List (String × Constant)} {ms : List (String × NodeId)}
      {n : NodeId} (kind : s.kind n = .record tag ms) (labels : fs.map Prod.fst = ms.map Prod.fst)
      (fields : List.Forall₂ s.Holds (fs.map Prod.snd) (ms.map Prod.snd)) :
      Holds s (.record tag fs) n

/-- A node has the form of one literal. -/
theorem Holds.unique (hc : s.Holds c n) (hd : s.Holds d n) : c = d := by
  induction c using Constant.induct generalizing d n with
  | h c ih =>
    cases hc with
    | atom hatom hkind =>
      cases hd with
      | atom _ hkind' =>
        rw [hkind] at hkind'
        cases hkind'
        rfl
      | _ hkind' => exact nomatch hkind.symm.trans hkind'
    | type hkind =>
      cases hd with
      | type hkind' =>
        rw [hkind] at hkind'
        cases hkind'
        rfl
      | atom _ hkind' => exact nomatch hkind.symm.trans hkind'
      | _ hkind' => exact nomatch hkind.symm.trans hkind'
    | tuple hkind hitems =>
      cases hd with
      | tuple hkind' hitems' =>
        rw [hkind] at hkind'
        cases hkind'
        rw [eq_of_forall₂ hitems hitems' fun x hx y _ m hxm hym => ih x hx hxm hym]
      | atom _ hkind' => exact nomatch hkind.symm.trans hkind'
      | _ hkind' => exact nomatch hkind.symm.trans hkind'
    | record hkind hlabels hfields =>
      cases hd with
      | record hkind' hlabels' hfields' =>
        rw [hkind] at hkind'
        cases hkind'
        have hsnd := eq_of_forall₂ hfields hfields' fun x hx y _ m hxm hym => ih x hx hxm hym
        rw [List.zip_of_prod hlabels hsnd, ← List.zip_of_prod hlabels' rfl]
      | atom _ hkind' => exact nomatch hkind.symm.trans hkind'
      | _ hkind' => exact nomatch hkind.symm.trans hkind'

/-- The node has the form of a literal that is this one when it is arranged. -/
def Shows (s : Store) (e : Constant) (n : NodeId) : Prop := ∃ c, s.Holds c n ∧ c.arranged = e

theorem shows_items {cs : List Constant} {ms : List NodeId} (h : List.Forall₂ s.Holds cs ms) :
    List.Forall₂ s.Shows (cs.map Constant.arranged) ms :=
  List.forall₂_map_left_iff.mpr (h.imp fun c _ hc => ⟨c, hc, rfl⟩)

theorem shows_fields {fs : List (String × Constant)} {ms : List (String × NodeId)}
    (hlabels : fs.map Prod.fst = ms.map Prod.fst)
    (hfields : List.Forall₂ s.Holds (fs.map Prod.snd) (ms.map Prod.snd)) :
    List.Forall₂ (fun x m => x.1 = m.1 ∧ s.Shows x.2 m.2)
      (fs.map (Prod.map id Constant.arranged)) ms :=
  List.forall₂_map_left_iff.mpr
    ((forall₂_labelled_iff.mpr ⟨hlabels, hfields⟩).imp fun f _ h => ⟨h.1, f.2, h.2, rfl⟩)

/-- Every part of a literal has a node. -/
theorem Holds.part {x : Constant} (h : s.Holds c n) (hx : x ∈ c.parts) :
    ∃ m ∈ (s.kind n).children, s.Holds x m := by
  cases h with
  | atom hatom _ =>
    have hnone : c.parts = [] := by cases c <;> first | rfl | exact nomatch hatom
    exact absurd (hnone ▸ hx) List.not_mem_nil
  | type _ => exact absurd hx List.not_mem_nil
  | tuple hkind hitems => exact hkind ▸ exists_of_forall₂ hitems x hx
  | record hkind _ hfields => exact hkind ▸ exists_of_forall₂ hfields x hx

theorem Holds.within {x : Constant} (hs : s.Sound) (h : s.Holds c n) (hn : s.isInterned n = true)
    (hx : x.Within c) : ∃ m, s.isInterned m = true ∧ s.Holds x m := by
  induction hx with
  | refl => exact ⟨n, hn, h⟩
  | tail _ hx ih =>
    obtain ⟨m, hm, hy⟩ := ih
    obtain ⟨k, hk, hx⟩ := hy.part hx
    exact ⟨k, (hs.interned m hm).2 k hk, hx⟩

/-- Interned nodes of literals that are the same up to the order of fields are the same. -/
theorem Holds.shared (hs : s.Reachable) (hm : s.isInterned m = true) (hn : s.isInterned n = true)
    (hc : s.Holds c m) (hd : s.Holds d n) (hcd : c.arranged = d.arranged) : m = n := by
  refine (founded_of_interned hs hm).induct (motive := fun m => s.isInterned m = true →
    ∀ c d n, s.isInterned n = true → s.Holds c m → s.Holds d n → c.arranged = d.arranged → m = n)
    ?_ hm c d n hn hc hd hcd
  intro a _ ih ha c d b hb hc hd hcd
  -- a node below `a` is the only one of its literal, as far as this is arranged
  have hone : ∀ {k : Kind}, s.kind a = k → ∀ x ∈ k.children, ∀ y, s.isInterned y = true →
      ∀ {e}, s.Shows e x → s.Shows e y → x = y := by
    rintro _ rfl x hx y hy e ⟨c, hcx, hce⟩ ⟨d, hdy, hde⟩
    exact ih x hx ((hs.sound.interned a ha).2 x hx) c d y hy hcx hdy (hce.trans hde.symm)
  have hbelow : ∀ {k : Kind}, s.kind b = k → ∀ y ∈ k.children, s.isInterned y = true := by
    rintro _ rfl
    exact (hs.sound.interned b hb).2
  refine eq_of_reordered hs.sound ha hb ?_
  cases hc with
  | atom hatom hkind =>
    obtain rfl := Constant.atom_of_arranged hatom hcd
    cases hd with
    | atom _ hkind' => exact hkind.trans hkind'.symm ▸ .same _
    | _ => exact nomatch hatom
  | type hkind =>
    obtain rfl := Constant.type_of_arranged hcd
    cases hd with
    | type hkind' => exact hkind.trans hkind'.symm ▸ .same _
    | atom hatom _ => exact nomatch hatom
  | tuple hkind hitems =>
    obtain ⟨ds, rfl, hmap⟩ := Constant.tuple_of_arranged hcd
    cases hd with
    | atom hatom _ => exact nomatch hatom
    | tuple hkind' hitems' =>
      obtain rfl := eq_of_forall₂ (shows_items hitems).flip (hmap ▸ shows_items hitems').flip
        fun x hx y hy e hxe hye => hone hkind x hx y (hbelow hkind' y hy) hxe hye
      exact hkind.trans hkind'.symm ▸ .same _
  | @record _ _ ms _ hkind hlabels hfields =>
    obtain ⟨gs, rfl, hperm⟩ := Constant.record_of_arranged hcd
    cases hd with
    | atom hatom _ => exact nomatch hatom
    | @record _ _ ms' _ hkind' hlabels' hfields' =>
      -- the fields in the order of the first record, with the nodes of the second one
      obtain ⟨ms'', hms'', hperm'⟩ :=
        List.perm_comp_forall₂ hperm (shows_fields hlabels' hfields')
      have hsame : ms = ms'' := by
        refine eq_of_forall₂ (shows_fields hlabels hfields).flip hms''.flip
          fun x hx y hy e hxe hye => Prod.ext (hxe.1.symm.trans hye.1) ?_
        refine hone hkind x.2 (List.mem_map_of_mem hx) y.2 ?_ hxe.2 hye.2
        exact hbelow hkind' y.2 (List.mem_map_of_mem (hperm'.mem_iff.mp hy))
      rw [hkind, hkind', hsame]
      exact .record _ hperm'

/-- A node keeps its literal in a store that has the same forms below it. -/
theorem Holds.transfer (h : s.Holds c n) {P : NodeId → Prop} (hn : P n)
    (hkind : ∀ m, P m → t.kind m = s.kind m) (hbelow : ∀ m, P m → ∀ x ∈ (s.kind m).children, P x) :
    t.Holds c n := by
  induction c using Constant.induct generalizing n with
  | h c ih =>
    cases h with
    | atom hatom hk => exact .atom hatom ((hkind n hn).trans hk)
    | type hk => exact .type ((hkind n hn).trans hk)
    | tuple hk hitems =>
      refine .tuple ((hkind n hn).trans hk) (forall₂_imp_mem hitems fun x hx m hm hxm => ?_)
      exact ih x hx hxm (hbelow n hn m (hk ▸ hm))
    | record hk hlabels hfields =>
      refine .record ((hkind n hn).trans hk) hlabels
        (forall₂_imp_mem hfields fun x hx m hm hxm => ?_)
      exact ih x hx hxm (hbelow n hn m (hk ▸ hm))

/-- The nodes that a store has keep their literals when it grows. -/
theorem Grows.holds_iff (h : s.Grows t) (hs : s.Sound) (hn : n < s.nodes.size) :
    t.Holds c n ↔ s.Holds c n := by
  have hback : ∀ m, m < s.nodes.size → ∀ x ∈ (t.kind m).children, x < s.nodes.size := by
    intro m hm x hx
    rw [h.kind_eq hm] at hx
    exact hs.child_lt hx
  refine ⟨fun hc => ?_, fun hc => ?_⟩
  · exact hc.transfer (P := (· < s.nodes.size)) hn (fun m hm => (h.kind_eq hm).symm) hback
  · exact hc.transfer (P := (· < s.nodes.size)) hn (fun m hm => h.kind_eq hm)
      fun m _ x hx => hs.child_lt hx

/-! ### Reading -/

/-- A node with the form of a literal has it for its value. -/
theorem Holds.hasValue (h : s.Holds c n) : s.HasValue n c := by
  induction c using Constant.induct generalizing n with
  | h c ih =>
    refine hasValue_iff.mpr ?_
    cases h with
    | atom _ hk =>
      rw [hk]
      exact .constant c
    | type hk =>
      rw [hk]
      rfl
    | tuple hk hitems =>
      rw [hk]
      exact ⟨_, forall₂_imp_mem hitems.flip fun m _ x hx hxm => ih x hx hxm, rfl⟩
    | record hk hlabels hfields =>
      have hall := (forall₂_labelled_iff.mpr ⟨hlabels, hfields⟩).flip
      rw [hk]
      exact ⟨_, forall₂_imp_mem hall fun f _ d hd hdf =>
        ⟨hdf.1, ih d.2 (List.mem_map_of_mem hd) hdf.2⟩, rfl⟩

/-- **The literal is read off its node.** -/
theorem Holds.value (h : s.Holds c n) : s.value n = .ok c := value_iff.mpr h.hasValue

/-! ### Building -/

/-- Wherever one of some literals is an interned node up to the order of fields, it is one as it
is. -/
def InOrder (s : Store) (P : Constant → Prop) : Prop :=
  ∀ c, P c → ∀ n d, s.isInterned n = true → s.Holds d n → d.arranged = c.arranged → d = c

/-- No record of the literal stands in the store, or elsewhere in the literal, with its fields in
another order. -/
structure Orderly (s : Store) (c : Constant) : Prop where
  inside : ∀ x y : Constant, x.Within c → y.Within c → x.arranged = y.arranged → x = y
  stored : s.InOrder fun x => x.Within c

/-- What building some literals leaves: interned nodes that have their forms, up to the order of
fields, and exactly their forms if nothing is out of order. -/
structure BuiltEach (s t : Store) (cs ds : List Constant) (ns : List NodeId) : Prop where
  grows : s.Grows t
  reachable : t.Reachable
  interned : ∀ n ∈ ns, t.isInterned n = true
  holds : List.Forall₂ t.Holds ds ns
  arranged : ds.map Constant.arranged = cs.map Constant.arranged
  ordered : ∀ P : Constant → Prop, (∀ x y, P x → P y → x.arranged = y.arranged → x = y) →
    (∀ c ∈ cs, ∀ x, x.Within c → P x) → s.InOrder P → ds = cs ∧ t.InOrder P

/-- What building one literal leaves. -/
abbrev Built (s t : Store) (c d : Constant) (n : NodeId) : Prop := s.BuiltEach t [c] [d] [n]

/-- A form without sets over interned nodes that has no fault becomes an interned node, and at
most this one is new. -/
theorem make_interned {k : Kind} (hs : s.Reachable)
    (hslot : ∀ slot, k.slot? = some slot → s.AdmitsSlot slot) (hplain : s.Unmistaken k)
    (hbelow : ∀ x ∈ k.children, s.isInterned x = true) (hfault : s.fault? k = none) :
    ∃ n t, (Infer.make k).outcome s = (.ok n, t) ∧ s.Grows t ∧ t.Reachable ∧
      t.isInterned n = true ∧ (t.kind n).Reordered k ∧
      (t = s ∨ t.kind n = k ∧ ∀ m, t.isInterned m = true → m = n ∨ s.isInterned m = true) := by
  have hbuild : s.build k = (.ok (s.place k).1, (s.place k).2) := by rw [build, hfault]
  have hmake : (Infer.make k).outcome s = (.ok (s.place k).1, (s.place k).2) := by
    rw [Infer.outcome_make, hbuild]
    rfl
  obtain ⟨hinterned, hreordered⟩ := place_interned hs.sound hbelow hslot hplain rfl
  have hreachable : (s.place k).2.Reachable := by
    have := Reachable.step (.build k) hs hslot
    rwa [Change.apply, hbuild] at this
  refine ⟨_, _, hmake, (make_spec hs.sound hslot hmake).grows, hreachable, hinterned, hreordered, ?_⟩
  rcases place_cases hs.sound.interned (Prod.eta (s.place k)).symm with ⟨hsame, -⟩ | ⟨-, d, i, hfiled⟩
  · exact .inl hsame
  · refine .inr ⟨hfiled.kind_eq, fun m hm => ?_⟩
    by_cases hmn : m = (s.place k).1
    · exact .inl hmn
    · exact .inr (by rwa [hfiled.isInterned_of_ne hmn] at hm)

theorem BuiltEach.nil (hs : s.Reachable) : s.BuiltEach s [] [] [] :=
  ⟨.refl s, hs, nofun, .nil, rfl, fun _ _ _ hin => ⟨rfl, hin⟩⟩

/-- Literals are built one after the other. -/
theorem BuiltEach.cons {u : Store} {cs ds : List Constant} {ns : List NodeId}
    (h : s.Built t c d n) (h' : t.BuiltEach u cs ds ns) :
    s.BuiltEach u (c :: cs) (d :: ds) (n :: ns) where
  grows := h.grows.trans h'.grows
  reachable := h'.reachable
  interned m hm := by
    rcases List.mem_cons.mp hm with rfl | hm
    · have hinterned := h.interned m (List.mem_singleton_self m)
      rwa [h'.grows.isInterned_eq (lt_of_isInterned hinterned)]
    · exact h'.interned m hm
  holds := by
    have hinterned := h.interned n (List.mem_singleton_self n)
    obtain ⟨hhead, -⟩ := List.forall₂_cons.mp h.holds
    refine .cons ?_ h'.holds
    exact (h'.grows.holds_iff h.reachable.sound (lt_of_isInterned hinterned)).mpr hhead
  arranged := by
    rw [List.map_cons, List.map_cons, h'.arranged, (List.cons.inj h.arranged).1]
  ordered P hP hwithin hin := by
    obtain ⟨hd, hin⟩ := h.ordered P hP (fun x hx => hwithin x (by simp_all)) hin
    obtain ⟨hds, hin⟩ := h'.ordered P hP (fun x hx => hwithin x (List.mem_cons_of_mem _ hx)) hin
    exact ⟨by rw [(List.cons.inj hd).1, hds], hin⟩

/-- The literals that were built stay in a store that grows. -/
theorem BuiltEach.later {u : Store} {cs ds : List Constant} {ns : List NodeId}
    (h : s.BuiltEach t cs ds ns) (hgrows : t.Grows u) : List.Forall₂ u.Holds ds ns :=
  forall₂_imp_mem h.holds fun _ _ m hm hx =>
    (hgrows.holds_iff h.reachable.sound (lt_of_isInterned (h.interned m hm))).mpr hx

/-- **A literal is built from its parts.**  `e` has the parts that were built; it is the literal
that the new node would have, and a node that was there before may have it in another order. -/
theorem BuiltEach.make {u : Store} {ds : List Constant} {ns : List NodeId} {k : Kind}
    {e : Constant} (h : s.BuiltEach u c.parts ds ns)
    (hslot : ∀ slot, k.slot? = some slot → u.AdmitsSlot slot) (hplain : u.Unmistaken k)
    (hbelow : ∀ x ∈ k.children, x ∈ ns) (hfault : u.fault? k = none)
    (harranged : e.arranged = c.arranged) (hexact : ds = c.parts → e = c)
    (hnew : ∀ {v m}, u.Grows v → v.kind m = k → v.Holds e m)
    (hold : ∀ {v m}, u.Grows v → (v.kind m).Reordered k →
      ∃ d, v.Holds d m ∧ d.arranged = e.arranged) :
    ∃ n t d, (Infer.make k).outcome u = (.ok n, t) ∧ s.Built t c d n := by
  obtain ⟨n, t, hmake, hgrows, hreachable, hinterned, hreordered, hcases⟩ :=
    make_interned h.reachable hslot hplain (fun x hx => h.interned x (hbelow x hx)) hfault
  obtain ⟨d, hd, hde⟩ := hold hgrows hreordered
  have hdc : d.arranged = c.arranged := hde.trans harranged
  refine ⟨n, t, d, hmake, h.grows.trans hgrows, hreachable, ?_, .cons hd .nil, ?_, ?_⟩
  · simpa using hinterned
  · simpa using hdc
  intro P hP hwithin hin
  have hc : P c := hwithin c (List.mem_singleton_self c) c .refl
  obtain ⟨hds, hin⟩ := h.ordered P hP
    (fun x hx y hy => hwithin c (List.mem_singleton_self c) y (.head hx hy)) hin
  rcases hcases with rfl | ⟨hkind, hothers⟩
  · exact ⟨by rw [hin c hc n d hinterned hd hdc], hin⟩
  · -- the node is new and has the literal as it is
    have hn : t.Holds c n := hexact hds ▸ hnew hgrows hkind
    refine ⟨by rw [hd.unique hn], fun x hx m e hm he hex => ?_⟩
    rcases hothers m hm with rfl | hm
    · obtain rfl := he.unique hn
      exact hP e x hc hx hex
    · exact hin x hx m e hm ((hgrows.holds_iff h.reachable.sound (lt_of_isInterned hm)).mp he) hex

end Store

namespace Infer

open Store

variable {s : Store} {c : Constant}

/-- The fields of a record are built as their values are. -/
theorem outcome_ofFields (fs : List (String × Constant)) (s : Store) :
    (ofFields fs).outcome s = (do return (fs.map Prod.fst).zip (← ofEach (fs.map Prod.snd)) :
      Infer (List (String × NodeId))).outcome s := by
  induction fs generalizing s with
  | nil => rfl
  | cons f fs ih =>
    obtain ⟨name, c⟩ := f
    rw [ofFields, List.map_cons, List.map_cons, ofEach]
    simp only [outcome_bind, ih]
    rcases (ofConstant c).outcome s with ⟨e | n, t⟩
    · rfl
    · simp only []
      rcases (ofEach (fs.map Prod.snd)).outcome t with ⟨e | ns, u⟩ <;> rfl

/-- The parts are built if each of them is, from any store. -/
theorem ofEach_built {cs : List Constant}
    (h : ∀ c ∈ cs, ∀ s : Store, s.Reachable →
      ∃ n t d, (ofConstant c).outcome s = (.ok n, t) ∧ s.Built t c d n) (hs : s.Reachable) :
    ∃ ns t ds, (ofEach cs).outcome s = (.ok ns, t) ∧ s.BuiltEach t cs ds ns := by
  induction cs generalizing s with
  | nil => exact ⟨[], s, [], rfl, .nil hs⟩
  | cons c cs ih =>
    obtain ⟨n, t, d, hout, hbuilt⟩ := h c List.mem_cons_self s hs
    obtain ⟨ns, u, ds, hout', hbuilt'⟩ :=
      ih (fun x hx => h x (List.mem_cons_of_mem c hx)) hbuilt.reachable
    refine ⟨n :: ns, u, d :: ds, ?_, hbuilt.cons hbuilt'⟩
    rw [ofEach, outcome_bind_of_ok hout, outcome_bind_of_ok hout', outcome_pure]

/-- A constant without parts is built at once. -/
theorem leaf_built {k : Kind} (hparts : c.parts = [])
    (hof : (ofConstant c).outcome s = (make k).outcome s) (hchildren : k.children = [])
    (hslot : ∀ p, k.slot? ≠ some (.possibilities p)) (hfault : s.fault? k = none)
    (hkind : ∀ k' : Kind, k'.Reordered k → k' = k)
    (hholds : ∀ (v : Store) (m : NodeId), v.kind m = k → v.Holds c m) (hs : s.Reachable) :
    ∃ n t d, (ofConstant c).outcome s = (.ok n, t) ∧ s.Built t c d n := by
  have hnil := BuiltEach.nil hs
  rw [← hparts] at hnil
  have hplain : s.Unmistaken k := by
    rintro ms rfl
    obtain rfl : ms = [] := hchildren
    exact .inl nofun
  rw [hof]
  refine hnil.make ?_ hplain (by simp [hchildren]) hfault rfl (fun _ => rfl)
    (fun _ hk => hholds _ _ hk) fun _ hk => ⟨c, hholds _ _ (hkind _ hk), rfl⟩
  rintro _ hk p rfl
  exact absurd hk (hslot p)

/-- The fields of a record in another order are those of the literal in this order. -/
theorem holds_record_of_reordered {tag : String} {fs : List (String × Constant)}
    {ms : List (String × NodeId)} {n : NodeId} (hfs : (fs.map Prod.fst).Nodup)
    (hlabels : fs.map Prod.fst = ms.map Prod.fst)
    (hfields : List.Forall₂ s.Holds (fs.map Prod.snd) (ms.map Prod.snd))
    (hkind : (s.kind n).Reordered (.record tag ms)) :
    ∃ d, s.Holds d n ∧ d.arranged = (Constant.record tag fs).arranged := by
  obtain ⟨gs, hkind, hperm⟩ := hkind.record_inv
  obtain ⟨hs, hhs, hperm'⟩ := List.perm_comp_forall₂ hperm
    (forall₂_labelled_iff.mpr ⟨hlabels, hfields⟩).flip
  obtain ⟨hlabels', hfields'⟩ := forall₂_labelled_iff.mp hhs.flip
  refine ⟨.record tag hs, .record hkind hlabels' hfields', ?_⟩
  exact (Constant.arranged_record_congr hfs (hperm'.symm.map _)).symm

/-- A record is built from its fields. -/
theorem record_built {tag : String} {fs : List (String × Constant)} {u : Store}
    {ds : List Constant} {ns : List NodeId} (hfs : (fs.map Prod.fst).Nodup)
    (h : s.BuiltEach u (fs.map Prod.snd) ds ns) :
    ∃ n t d, (record tag ((fs.map Prod.fst).zip ns)).outcome u = (.ok n, t) ∧
      s.Built t (.record tag fs) d n := by
  have hlength : fs.length = ds.length := by simpa using (congrArg List.length h.arranged).symm
  have hlength' : fs.length = ns.length := hlength.trans h.holds.length_eq
  have hns : ((fs.map Prod.fst).zip ns).map Prod.snd = ns :=
    List.map_snd_zip (by simp [hlength'])
  have hds : ((fs.map Prod.fst).zip ds).map Prod.snd = ds :=
    List.map_snd_zip (by simp [hlength])
  -- zipping with the names changes neither the names nor what is zipped
  have hnames : ∀ {α : Type} (as : List α), fs.length = as.length →
      ((fs.map Prod.fst).zip as).map Prod.fst = fs.map Prod.fst :=
    fun as has => List.map_fst_zip (by simp [has])
  have hlabels := (hnames ds hlength).trans (hnames ns hlength').symm
  have hfields : ∀ {v : Store}, u.Grows v →
      List.Forall₂ v.Holds (((fs.map Prod.fst).zip ds).map Prod.snd)
        (((fs.map Prod.fst).zip ns).map Prod.snd) := by
    intro v hgrows
    rw [hds, hns]
    exact h.later hgrows
  have hnodup : (((fs.map Prod.fst).zip ds).map Prod.fst).Nodup := by rwa [hnames ds hlength]
  refine h.make (c := .record tag fs) (k := .record tag ((fs.map Prod.fst).zip ns))
    (e := .record tag ((fs.map Prod.fst).zip ds)) nofun nofun (fun x hx => hns ▸ hx) ?_ ?_ ?_
    (fun hgrows hkind => .record hkind hlabels (hfields hgrows))
    fun hgrows hkind => holds_record_of_reordered hnodup hlabels (hfields hgrows) hkind
  · have hpresent : ∀ m ∈ ((fs.map Prod.fst).zip ns).map Prod.snd, m < u.nodes.size := by
      rw [hns]
      exact fun m hm => lt_of_isInterned (h.interned m hm)
    have hnames' : (((fs.map Prod.fst).zip ns).map Prod.fst).Nodup := by rwa [hnames ns hlength']
    have hknows : u.knows (.record tag ((fs.map Prod.fst).zip ns)) = true :=
      knows_iff.mpr ⟨hpresent, nofun⟩
    simp [fault?, hknows, repeated?_eq_none.mpr ⟨hnames', fun _ _ => List.not_mem_nil⟩]
  · refine Constant.arranged_record_congr hnodup (.of_eq ?_)
    have hfst : ∀ fs : List (String × Constant),
        (fs.map (Prod.map id Constant.arranged)).map Prod.fst = fs.map Prod.fst := fun fs => by
      rw [List.map_map]
      rfl
    have hsnd : ∀ fs : List (String × Constant), (fs.map (Prod.map id Constant.arranged)).map
        Prod.snd = (fs.map Prod.snd).map Constant.arranged := fun fs => by
      rw [List.map_map, List.map_map]
      rfl
    refine (List.zip_of_prod ?_ ?_).trans (List.zip_of_prod rfl rfl).symm
    · rw [hfst, hfst, hnames ds hlength]
    · rw [hsnd, hsnd, hds, h.arranged]
  · intro hparts
    rw [hparts]
    exact congrArg (Constant.record tag) (List.zip_of_prod rfl rfl).symm

/-- **Every plain literal is built**, from any store. -/
theorem ofConstant_built (hc : c.Plain) (hs : s.Reachable) :
    ∃ n t d, (ofConstant c).outcome s = (.ok n, t) ∧ s.Built t c d n := by
  induction c using Constant.induct generalizing s with
  | h c ih =>
    by_cases hatom : c.isAtom = true
    · refine leaf_built (k := .scalar (.constant c) c.typeOf) ?_ ?_ rfl (by simp [Kind.slot?]) ?_ ?_
        (fun _ _ => .atom hatom) hs
      · cases c <;> first | rfl | cases hatom
      · cases c <;> first | rfl | cases hatom
      · simp [fault?, knows, Kind.children, Slot.children, Kind.slot?, Slot.pendings, valueFault?,
          Constant.fits_typeOf c]
      · intro k' hk
        obtain ⟨v, rfl, hv⟩ := hk.scalar_inv
        cases hv
        rfl
    obtain ⟨ns, u, ds, hout, hbuilt⟩ :=
      ofEach_built (fun x hx s hs => ih x hx (hc.part hx) hs) hs
    cases c with
    | list items => exact absurd .refl (hc.lists items)
    | type ty =>
      refine leaf_built rfl rfl rfl (by simp [Kind.slot?]) rfl (fun k' hk => ?_)
        (fun _ _ => .type) hs
      cases hk
      rfl
    | tuple cs =>
      have hpresent : ∀ m ∈ ns, m < u.nodes.size := fun m hm =>
        lt_of_isInterned (hbuilt.interned m hm)
      rw [ofConstant, outcome_bind_of_ok (show (ofEach cs).outcome s = _ from hout)]
      refine hbuilt.make (k := .tuple ns) (e := .tuple ds) (by simp [Kind.slot?])
        (by simp [Unmistaken]) (fun _ hx => hx) ?_ ?_ ?_
        (fun hgrows hkind => .tuple hkind (hbuilt.later hgrows))
        fun hgrows hkind => ⟨_, .tuple hkind.tuple_inv (hbuilt.later hgrows), rfl⟩
      · simpa [fault?, knows, Kind.children, Kind.slot?] using hpresent
      · rw [Constant.arranged_tuple, Constant.arranged_tuple, hbuilt.arranged]
        rfl
      · rintro rfl
        rfl
    | record tag fs =>
      have hfields : (ofFields fs).outcome s = (.ok ((fs.map Prod.fst).zip ns), u) := by
        rw [outcome_ofFields,
          outcome_bind_of_ok (show (ofEach (fs.map Prod.snd)).outcome s = _ from hout), outcome_pure]
      rw [ofConstant, outcome_bind_of_ok hfields]
      exact record_built hc.nodup hbuilt
    | _ => exact absurd rfl hatom

/-- **A literal is read back** from what it was built as, from any store: it is the same but for the
order of fields, and exactly the same if and only if no record in it stands somewhere with its
fields in another order. -/
theorem literal_round_trip (hs : s.Reachable) (hc : c.Plain) :
    ∃ n t d, (ofConstant c).outcome s = (.ok n, t) ∧ t.value n = .ok d ∧
      d.arranged = c.arranged ∧ (d = c ↔ s.Orderly c) := by
  obtain ⟨n, t, d, hout, hbuilt⟩ := ofConstant_built hc hs
  have hn : t.isInterned n = true := hbuilt.interned n (List.mem_singleton_self n)
  obtain ⟨hd, -⟩ := List.forall₂_cons.mp hbuilt.holds
  have hreachable := hbuilt.reachable
  refine ⟨n, t, d, hout, hd.value,
    (List.cons.inj hbuilt.arranged).1, ?_, fun horderly => ?_⟩
  · rintro rfl
    -- every part has a node, which all its arrangements share
    have hone : ∀ x y : Constant, x.Within d → ∀ m, t.isInterned m = true → t.Holds y m →
        y.arranged = x.arranged → y = x := by
      intro x y hx m hm hy hyx
      obtain ⟨k, hk, hxk⟩ := hd.within hreachable.sound hn hx
      obtain rfl := hy.shared hreachable hm hk hxk hyx
      exact hy.unique hxk
    refine ⟨fun x y hx hy hxy => ?_, fun x hx m e hm he hex => ?_⟩
    · obtain ⟨k, hk, hxk⟩ := hd.within hreachable.sound hn hx
      exact hone y x hy k hk hxk hxy
    · have hlt := lt_of_isInterned hm
      refine hone x e hx m ?_ ((hbuilt.grows.holds_iff hs.sound hlt).mpr he) hex
      rwa [hbuilt.grows.isInterned_eq hlt]
  · have hexact := hbuilt.ordered (fun x => x.Within c) horderly.inside ?_ horderly.stored
    · exact (List.cons.inj hexact.1).1
    · intro x hx y hy
      rwa [List.mem_singleton.mp hx] at hy

/-- A store with the node of a record that lists `b` before `a`. -/
def swappedRecord : Store :=
  ofForms [.scalar (.constant (.int 2)) .i64, .scalar (.constant (.int 1)) .i64,
    .record "P" [("b", 0), ("a", 1)]]

/-- The same record with its fields in the order of their names. -/
def recordLiteral : Constant := .record "P" [("a", .int 1), ("b", .int 2)]

theorem literal_round_trip_swappedRecord :
    ¬ swappedRecord.Orderly recordLiteral ∧
    ∃ n t d, (ofConstant recordLiteral).outcome swappedRecord = (.ok n, t) ∧ t.value n = .ok d ∧
      d.arranged = recordLiteral.arranged ∧ d ≠ recordLiteral := by
  have hreachable : swappedRecord.Reachable := reachable_ofForms (by simp [Kind.slot?])
  have hplain : recordLiteral.Plain := by
    refine .of_parts (by simp [recordLiteral]) (by rintro _ _ ⟨⟩; decide)
      fun x hx => .of_parts ?_ ?_ ?_
    all_goals rcases List.mem_pair.mp hx with rfl | rfl <;> simp [Constant.parts]
  obtain ⟨n, t, d, hout, hvalue, harranged, hexact⟩ := literal_round_trip hreachable hplain
  have hswapped : ¬ swappedRecord.Orderly recordLiteral := by
    intro h
    have hkind : swappedRecord.kind 2 = .record "P" [("b", 0), ("a", 1)] := by decide +kernel
    have hother : swappedRecord.Holds (.record "P" [("b", .int 2), ("a", .int 1)]) 2 :=
      .record hkind rfl
        (.cons (.atom rfl (by decide +kernel)) (.cons (.atom rfl (by decide +kernel)) .nil))
    have hsame := h.stored recordLiteral .refl 2 _ (by decide +kernel) hother (by decide +kernel)
    exact absurd hsame (by decide)
  exact ⟨hswapped, n, t, d, hout, hvalue, harranged, fun h => hswapped (hexact.mp h)⟩

end Infer

end ValueInference
