/-
Unions of the same values are the same union.

A union is put together from the members of some values.  Among interned nodes, equal ones are the
same, so each member is listed once, and a form over interned nodes gives the interned node that has
it in whatever order.  So neither the order of the values shows in the result, nor how often they
come, nor how they are grouped into unions of unions.

* **`Store.Neat`** — an interned node that is no union, or a normalised one;
* **`Store.Neat.eq_of_members`** — neat nodes with the same members are the same;
* **`Store.Gathers`**, **`Store.gathers_union`** — what the union of neat nodes is;
* **`Grouping`** — unions of unions, with the values that they are of;
* **`Infer.union_canonical`** — groupings of the same values come to the same node.
-/
import ValueInference.Proofs.Canonical
import ValueInference.Proofs.Frozen

namespace ValueInference

/-- A value, or the union of what some groupings come to. -/
inductive Grouping where
  | value (n : NodeId)
  | union (first : Grouping) (rest : List Grouping)

namespace Grouping

mutual

/-- The values that are put together. -/
def values : Grouping → List NodeId
  | .value n => [n]
  | .union first rest => first.values ++ valuesOfEach rest

def valuesOfEach : List Grouping → List NodeId
  | [] => []
  | g :: gs => g.values ++ valuesOfEach gs

end

mutual

/-- Puts the values together, inner unions first. -/
def unite : Grouping → Infer NodeId
  | .value n => return n
  | .union first rest => do
    let n ← first.unite
    let ns ← uniteEach rest
    Infer.union (n :: ns)

def uniteEach : List Grouping → Infer (List NodeId)
  | [] => return []
  | g :: gs => return (← g.unite) :: (← uniteEach gs)

end

end Grouping

namespace Store

variable {s t u : Store} {m n x y : NodeId} {ms ns vs ws xs ys : List NodeId}

/-! ### Neat nodes -/

/-- An interned node that is no union, or a normalised one. -/
structure Neat (s : Store) (n : NodeId) : Prop where
  interned : s.isInterned n = true
  normalised : ∀ ms, s.kind n = .union ms → s.Normalised ms

theorem Sound.isComplete_of_isInterned (hs : s.Sound) (hn : s.isInterned n = true) :
    s.isComplete n = true := by
  by_contra hblank
  rw [(hs.blank n (Bool.eq_false_iff.mpr hblank)).2] at hn
  exact nomatch hn

/-- Interned nodes that differ are listed once each. -/
theorem Normalised.nodup (h : s.Normalised ms) : ms.Nodup := by
  refine h.distinct.imp fun {m n} hmn => ?_
  rintro rfl
  have hself : s.equal m m = true := s.equals_refl m
  exact nomatch hself.symm.trans hmn.1

namespace Neat

theorem members_interned (h : s.Neat n) (hs : s.Sound) :
    ∀ m ∈ s.members n, s.isInterned m = true := by
  intro m hm
  rcases (s.kind n).isUnion_cases with ⟨ms, hk⟩ | hnot
  · rw [members_of_union hk] at hm
    refine (hs.interned n h.interned).2 m ?_
    rwa [hk]
  · rw [members_of_not_union hnot, List.mem_singleton] at hm
    exact hm ▸ h.interned

theorem members_flat (h : s.Neat n) : ∀ m ∈ s.members n, (s.kind m).isUnion = false :=
  members_flat_of fun ms hk => (h.normalised ms hk).flat

/-- A node that is no member of itself has several different members. -/
theorem exists_members (h : s.Neat n) (hk : s.kind n = .union ms) : ∃ x ∈ ms, ∃ y ∈ ms, x ≠ y := by
  have hnormalised := h.normalised ms hk
  match ms, hnormalised.several, hnormalised.nodup with
  | x :: y :: rest, _, hnodup =>
    refine ⟨x, List.mem_cons_self, y, List.mem_cons_of_mem x List.mem_cons_self, ?_⟩
    rintro rfl
    exact (List.nodup_cons.mp hnodup).1 List.mem_cons_self

theorem of_not_union (hn : s.isInterned n = true) (hk : (s.kind n).isUnion = false) : s.Neat n where
  interned := hn
  normalised ms h := by
    rw [h] at hk
    exact nomatch hk

/-- **Neat nodes with the same members are the same.** -/
theorem eq_of_members (hm : s.Neat m) (hn : s.Neat n) (hs : s.Sound)
    (h : ∀ x, x ∈ s.members m ↔ x ∈ s.members n) : m = n := by
  rcases (s.kind m).isUnion_cases with ⟨ms, hk⟩ | hnot <;>
    rcases (s.kind n).isUnion_cases with ⟨ns, hk'⟩ | hnot'
  · rw [members_of_union hk, members_of_union hk'] at h
    refine eq_of_reordered hs hm.interned hn.interned ?_
    rw [hk, hk']
    exact .union ((List.perm_ext_iff_of_nodup (hm.normalised ms hk).nodup
      (hn.normalised ns hk').nodup).mpr h)
  · -- a union has two members, and the other node has one
    obtain ⟨x, hx, y, hy, hxy⟩ := hm.exists_members hk
    rw [members_of_union hk, members_of_not_union hnot'] at h
    exact absurd ((List.mem_singleton.mp ((h x).mp hx)).trans
      (List.mem_singleton.mp ((h y).mp hy)).symm) hxy
  · obtain ⟨x, hx, y, hy, hxy⟩ := hn.exists_members hk'
    rw [members_of_not_union hnot, members_of_union hk'] at h
    exact absurd ((List.mem_singleton.mp ((h x).mpr hx)).trans
      (List.mem_singleton.mp ((h y).mpr hy)).symm) hxy
  · rw [members_of_not_union hnot, members_of_not_union hnot'] at h
    exact List.mem_singleton.mp ((h m).mp List.mem_cons_self)

theorem members_keeps (h : s.Neat n) (hs : s.Sound) (ht : s.Keeps t) :
    t.members n = s.members n := by
  rw [members, ht.kind_eq (hs.isComplete_of_isInterned h.interned), members]

/-- A neat node stays neat. -/
theorem keeps (h : s.Neat n) (hs : s.Sound) (ht : s.Keeps t) : t.Neat n := by
  have hstays : ∀ m, s.isInterned m = true → t.kind m = s.kind m ∧ t.isInterned m = true := by
    intro m hm
    have hcomplete := hs.isComplete_of_isInterned hm
    exact ⟨ht.kind_eq hcomplete, (ht.isInterned_eq hcomplete).trans hm⟩
  refine ⟨(hstays n h.interned).2, fun ms hk => ?_⟩
  rw [(hstays n h.interned).1] at hk
  have hnormalised := h.normalised ms hk
  have hinterned : ∀ m ∈ ms, s.isInterned m = true := by
    rw [← members_of_union hk]
    exact h.members_interned hs
  refine ⟨hnormalised.several, fun m hm => ?_, ?_⟩
  · rw [(hstays m (hinterned m hm)).1]
    exact hnormalised.flat m hm
  · refine hnormalised.nodup.imp_of_mem fun hx hy hxy => ?_
    have hx' := (hstays _ (hinterned _ hx)).2
    have hy' := (hstays _ (hinterned _ hy)).2
    rw [equal_interned hx' hy', equal_interned hy' hx']
    exact ⟨decide_eq_false hxy, decide_eq_false hxy.symm⟩

end Neat

theorem flatMap_members_keeps (hs : s.Sound) (ht : s.Keeps t) (hns : ∀ n ∈ ns, s.Neat n) :
    ns.flatMap t.members = ns.flatMap s.members := by
  rw [List.flatMap_def, List.flatMap_def]
  exact congrArg List.flatten (List.map_congr_left fun n hn => (hns n hn).members_keeps hs ht)

/-- The members of neat nodes are interned. -/
theorem interned_of_members (hs : s.Sound) (hns : ∀ n ∈ ns, s.Neat n) :
    ∀ x ∈ ns.flatMap s.members, s.isInterned x = true := by
  intro x hx
  obtain ⟨n, hn, hxn⟩ := List.mem_flatMap.mp hx
  exact (hns n hn).members_interned hs x hxn

/-! ### Unions of neat nodes -/

/-- A union of some of the members is not mistaken if a union of all of them is not. -/
theorem Unmistaken.subset (h : s.Unmistaken (.union xs)) (hsub : ∀ y ∈ ys, y ∈ xs) :
    s.Unmistaken (.union ys) := by
  rintro _ ⟨⟩
  refine (h xs rfl).imp (fun hdiffer x hx y hy => ?_) id
  exact hdiffer x (hsub x hx) y (hsub y hy)

/-- What becomes of some values when a list of nodes is put together from them: neat nodes, which
have exactly the members of the values, in a store that has grown by nothing that lists a node
twice. -/
structure Gathers (s : Store) (vs ns : List NodeId) (t : Store) : Prop where
  grows : s.Grows t
  sound : t.Sound
  neat : ∀ n ∈ ns, t.Neat n
  members : ∀ x, x ∈ ns.flatMap t.members ↔ x ∈ vs.flatMap s.members
  unmistaken : ∀ xs, (∀ x ∈ xs, s.isInterned x = true) → s.Unmistaken (.union xs) →
    t.Unmistaken (.union xs)

namespace Gathers

theorem refl (hs : s.Sound) (hns : ∀ n ∈ ns, s.Neat n) : s.Gathers ns ns s :=
  ⟨.refl s, hs, hns, fun _ => .rfl, fun _ _ => id⟩

theorem isInterned (h : s.Gathers vs ns t) (hx : s.isInterned x = true) : t.isInterned x = true :=
  (h.grows.isInterned_eq (lt_of_isInterned hx)).trans hx

theorem trans (h : s.Gathers vs ns t) (h' : t.Gathers ns ms u) : s.Gathers vs ms u where
  grows := h.grows.trans h'.grows
  sound := h'.sound
  neat := h'.neat
  members x := (h'.members x).trans (h.members x)
  unmistaken xs hxs hplain :=
    h'.unmistaken xs (fun x hx => h.isInterned (hxs x hx)) (h.unmistaken xs hxs hplain)

/-- Values that are put together after others. -/
theorem append (h : s.Gathers vs ns t) (h' : t.Gathers ws ms u) (hs : s.Sound)
    (hws : ∀ w ∈ ws, s.Neat w) : s.Gathers (vs ++ ws) (ns ++ ms) u where
  grows := h.grows.trans h'.grows
  sound := h'.sound
  neat := List.forall_mem_append.mpr
    ⟨fun n hn => (h.neat n hn).keeps h.sound h'.grows.keeps, h'.neat⟩
  members x := by
    rw [List.flatMap_append, List.flatMap_append, List.mem_append, List.mem_append,
      flatMap_members_keeps h.sound h'.grows.keeps h.neat, h.members, h'.members,
      flatMap_members_keeps hs h.grows.keeps hws]
  unmistaken xs hxs hplain :=
    h'.unmistaken xs (fun x hx => h.isInterned (hxs x hx)) (h.unmistaken xs hxs hplain)

end Gathers

/-- The distinct members of neat nodes are their members, each of them once. -/
theorem distinctMembers_neat (hs : s.Sound) (hns : ∀ n ∈ ns, s.Neat n) :
    (s.distinctMembers ns).Nodup ∧ ∀ x, x ∈ s.distinctMembers ns ↔ x ∈ ns.flatMap s.members := by
  have hthinned : Thinned s.equal (s.distinctMembers ns) (ns.flatMap s.members) :=
    thinned_foldl (fun _ _ => rfl) _
  have hinterned := interned_of_members hs hns
  refine ⟨hthinned.distinct.imp fun {x y} hxy => ?_,
    fun x => ⟨fun hx => hthinned.sublist.mem hx, ?_⟩⟩
  · rintro rfl
    have hself : s.equal x x = true := s.equals_refl x
    exact nomatch hself.symm.trans hxy
  · intro hx
    obtain ⟨y, hy, rfl | hyx⟩ := hthinned.covered x hx
    · exact hy
    · rw [equal_interned (hinterned y (hthinned.sublist.mem hy)) (hinterned x hx),
        decide_eq_true_iff] at hyx
      exact hyx ▸ hy

/-- Placing a union that lists no node twice. -/
theorem gathers_make (hs : s.Sound) (hvs : ∀ v ∈ vs, s.Neat v)
    (hplain : s.Unmistaken (.union (vs.flatMap s.members))) (hsome : 2 ≤ ms.length)
    (hnodup : ms.Nodup) (hms : ∀ x, x ∈ ms ↔ x ∈ vs.flatMap s.members) :
    ∃ n t, (Infer.make (.union ms)).outcome s = (.ok n, t) ∧ s.Gathers vs [n] t := by
  have hinterned : ∀ x ∈ ms, s.isInterned x = true := fun x hx =>
    interned_of_members hs hvs x ((hms x).mp hx)
  have hflat : ∀ x ∈ ms, (s.kind x).isUnion = false := by
    intro x hx
    obtain ⟨v, hv, hxv⟩ := List.mem_flatMap.mp ((hms x).mp hx)
    exact (hvs v hv).members_flat x hxv
  have hfault : s.fault? (.union ms) = none := by
    refine fault?_eq_none (knows_iff.mpr ⟨fun x hx => ?_, nofun⟩) trivial hsome nofun ?_
    · exact lt_of_isInterned (hinterned x hx)
    · rintro _ ⟨⟩
      exact hflat
  rcases hplace : s.place (.union ms) with ⟨n, t⟩
  have hmake := Infer.outcome_make_of_place hfault hplace
  have hnoslot : ∀ slot, (Kind.union ms).slot? = some slot → s.AdmitsSlot slot := by simp [Kind.slot?]
  have hmade := make_spec hs hnoslot hmake
  obtain ⟨hn, hreordered⟩ := place_interned (k := .union ms) hs hinterned hnoslot
    (hplain.subset fun x hx => (hms x).mp hx) hplace
  obtain ⟨ks, hk, hperm⟩ := hreordered.union_inv
  have hkeeps := hmade.grows.keeps
  -- what is interned is left as it was by the placing
  have hstays : ∀ x, s.isInterned x = true → t.kind x = s.kind x ∧ t.isInterned x = true := by
    intro x hx
    have hcomplete := hs.isComplete_of_isInterned hx
    exact ⟨hkeeps.kind_eq hcomplete, (hkeeps.isInterned_eq hcomplete).trans hx⟩
  have hneat : t.Neat n := by
    refine ⟨hn, fun bs hbs => ?_⟩
    obtain rfl : ks = bs := Kind.union.inj (hk.symm.trans hbs)
    refine ⟨hperm.length_eq ▸ hsome, fun x hx => ?_, ?_⟩
    · have hx := hperm.mem_iff.mp hx
      rw [(hstays x (hinterned x hx)).1]
      exact hflat x hx
    · refine (hperm.nodup_iff.mpr hnodup).imp_of_mem fun hx hy hxy => ?_
      have hx := (hstays _ (hinterned _ (hperm.mem_iff.mp hx))).2
      have hy := (hstays _ (hinterned _ (hperm.mem_iff.mp hy))).2
      rw [equal_interned hx hy, equal_interned hy hx]
      exact ⟨decide_eq_false hxy, decide_eq_false hxy.symm⟩
  refine ⟨n, t, hmake, hmade.grows, hmade.sound, List.forall_mem_singleton.mpr hneat,
    fun x => ?_, fun xs hxs hxplain => ?_⟩
  · rw [List.flatMap_singleton, members_of_union hk, hperm.mem_iff]
    exact hms x
  · rintro _ ⟨⟩
    refine (hxplain xs rfl).imp (fun hdiffer x hx y hy => ?_) fun hunions m bs hm hbs => ?_
    · have hdigest : ∀ x ∈ xs, t.digest x = s.digest x := fun x hx =>
        hkeeps.digest_eq (hs.isComplete_of_isInterned (hxs x hx))
      rw [hdigest x hx, hdigest y hy]
      exact hdiffer x hx y hy
    · rcases place_cases hs.interned hplace with ⟨rfl, -⟩ | ⟨-, d, i, hfiled⟩
      · exact hunions m bs hm hbs
      by_cases hmn : m = n
      · rw [hmn, hfiled.kind_eq] at hbs
        exact Kind.union.inj hbs ▸ hnodup
      · rw [hfiled.isInterned_of_ne hmn] at hm
        rw [hfiled.kind_of_ne hmn] at hbs
        exact hunions m bs hm hbs

/-- **The union of neat nodes** is a neat node with exactly their members. -/
theorem gathers_union (hs : s.Sound) (hns : ∀ n ∈ ns, s.Neat n) (hsome : ns ≠ [])
    (hplain : s.Unmistaken (.union (ns.flatMap s.members))) :
    ∃ n t, (Infer.union ns).outcome s = (.ok n, t) ∧ s.Gathers ns [n] t := by
  obtain ⟨hnodup, hmem⟩ := distinctMembers_neat hs hns
  match hds : s.distinctMembers ns with
  | [] =>
    -- each of the values has a member
    obtain ⟨v, hv⟩ := List.exists_mem_of_ne_nil ns hsome
    obtain ⟨x, hx⟩ : ∃ x, x ∈ s.members v := by
      rcases (s.kind v).isUnion_cases with ⟨ms, hk⟩ | hnot
      · obtain ⟨x, hx, -⟩ := (hns v hv).exists_members hk
        exact ⟨x, by rwa [members_of_union hk]⟩
      · exact ⟨v, by rw [members_of_not_union hnot]; exact List.mem_cons_self⟩
    have habsurd := (hmem x).mpr (List.mem_flatMap.mpr ⟨v, hv, hx⟩)
    rw [hds] at habsurd
    exact absurd habsurd List.not_mem_nil
  | [m] =>
    rw [hds] at hmem
    have hm := (hmem m).mp List.mem_cons_self
    obtain ⟨v, hv, hmv⟩ := List.mem_flatMap.mp hm
    have hnot := (hns v hv).members_flat m hmv
    refine ⟨m, s, Infer.outcome_union_single hds, .refl s, hs, List.forall_mem_singleton.mpr
      (.of_not_union (interned_of_members hs hns m hm) hnot), fun x => ?_, fun _ _ => id⟩
    rw [List.flatMap_singleton, members_of_not_union hnot]
    exact hmem x
  | m :: m' :: rest =>
    have hlength : 2 ≤ (s.distinctMembers ns).length := by
      rw [hds]
      exact Nat.le_add_left 2 rest.length
    have hperm := s.sortMembers_perm (s.distinctMembers ns)
    rw [Infer.outcome_union_several hlength]
    exact gathers_make hs hns hplain (hperm.length_eq ▸ hlength) (hperm.nodup_iff.mpr hnodup)
      fun x => hperm.mem_iff.trans (hmem x)

end Store

/-! ### Groupings -/

namespace Grouping

open Store

variable {s : Store} {α : Type} {x : Infer NodeId} {y : Infer (List NodeId)} {vs ws : List NodeId}

/-- The computation puts nodes together from the values, on every store where these are neat and
their union is not mistaken. -/
def Assembles (x : Infer α) (nodes : α → List NodeId) (vs : List NodeId) : Prop :=
  ∀ s : Store, s.Sound → (∀ v ∈ vs, s.Neat v) → s.Unmistaken (.union (vs.flatMap s.members)) →
    ∃ a t, x.outcome s = (.ok a, t) ∧ s.Gathers vs (nodes a) t

/-- Computations that put nodes together, one after the other. -/
theorem Assembles.both (hx : Assembles x (fun n => [n]) vs) (hy : Assembles y id ws) (hs : s.Sound)
    (hneat : ∀ v ∈ vs ++ ws, s.Neat v)
    (hplain : s.Unmistaken (.union ((vs ++ ws).flatMap s.members))) :
    ∃ n t ns u, x.outcome s = (.ok n, t) ∧ y.outcome t = (.ok ns, u) ∧
      s.Gathers (vs ++ ws) (n :: ns) u := by
  obtain ⟨hvs, hws⟩ := List.forall_mem_append.mp hneat
  rw [List.flatMap_append] at hplain
  obtain ⟨n, t, hn, hgathers⟩ := hx s hs hvs (hplain.subset fun _ => List.mem_append_left _)
  -- the other values are as neat as they were, with the members that they had
  have hkeeps := hgathers.grows.keeps
  have hplain' : t.Unmistaken (.union (ws.flatMap t.members)) := by
    rw [flatMap_members_keeps hs hkeeps hws]
    exact hgathers.unmistaken _ (interned_of_members hs hws)
      (hplain.subset fun _ => List.mem_append_right _)
  obtain ⟨ns, u, hns, hgathers'⟩ :=
    hy t hgathers.sound (fun w hw => (hws w hw).keeps hs hkeeps) hplain'
  exact ⟨n, t, ns, u, hn, hns, hgathers.append hgathers' hs hws⟩

mutual

/-- **A grouping comes to a neat node** with the members of all its values. -/
theorem assembles_unite : ∀ g : Grouping, Assembles g.unite (fun n => [n]) g.values
  | .value n => fun s hs hvs _ => ⟨n, s, rfl, .refl hs hvs⟩
  | .union first rest => by
    intro s hs hvs hplain
    obtain ⟨n, t, ns, u, hn, hns, hall⟩ :=
      (assembles_unite first).both (assembles_uniteEach rest) hs hvs hplain
    obtain ⟨m, u', hm, hunion⟩ := gathers_union hall.sound hall.neat (List.cons_ne_nil n ns)
      ((hall.unmistaken _ (interned_of_members hs hvs) hplain).subset fun x hx =>
        (hall.members x).mp hx)
    refine ⟨m, u', ?_, hall.trans hunion⟩
    rw [unite, Infer.outcome_bind_of_ok hn, Infer.outcome_bind_of_ok hns]
    exact hm

theorem assembles_uniteEach : ∀ gs : List Grouping, Assembles (uniteEach gs) id (valuesOfEach gs)
  | [] => fun s hs hvs _ => ⟨[], s, rfl, .refl hs hvs⟩
  | g :: gs => by
    intro s hs hvs hplain
    obtain ⟨n, t, ns, u, hn, hns, hall⟩ :=
      (assembles_unite g).both (assembles_uniteEach gs) hs hvs hplain
    refine ⟨n :: ns, u, ?_, hall⟩
    rw [uniteEach, Infer.outcome_bind_of_ok hn, Infer.outcome_bind_of_ok hns]
    rfl

end

/-- The union of some values is a grouping of them. -/
theorem outcome_unite_values (n : NodeId) (ns : List NodeId) (s : Store) :
    (Grouping.union (.value n) (ns.map .value)).unite.outcome s =
      (Infer.union (n :: ns)).outcome s := by
  have hvalues : ∀ ns : List NodeId, (uniteEach (ns.map .value)).outcome s = (.ok ns, s) := by
    intro ns
    induction ns with
    | nil => rfl
    | cons m ns ih =>
      have hm : (unite (.value m)).outcome s = (.ok m, s) := rfl
      rw [List.map_cons, uniteEach, Infer.outcome_bind_of_ok hm, Infer.outcome_bind_of_ok ih]
      rfl
  have hn : (unite (.value n)).outcome s = (.ok n, s) := rfl
  rw [unite, Infer.outcome_bind_of_ok hn, Infer.outcome_bind_of_ok (hvalues ns)]

end Grouping

namespace Infer

open Store

variable {s : Store}

/-- **Unions are canonical.**  In a sound store, as every reachable one is, a grouping of interned
values whose unions are normalised comes to an interned node: to the only member of the values if
they have only one, and otherwise to a union that lists each of their members once.  In every later
store, any other grouping of such values with the same members comes to the same node.  Neither
union may be mistaken for one that lists a node twice. -/
theorem union_canonical (hs : s.Sound) (g : Grouping) (hg : ∀ v ∈ g.values, s.Neat v)
    (hplain : s.Unmistaken (.union (g.values.flatMap s.members))) :
    ∃ n t, g.unite.outcome s = (.ok n, t) ∧ s.Grows t ∧ t.Sound ∧ t.isInterned n = true ∧
      (∀ x, (∀ y, y ∈ g.values.flatMap s.members ↔ y = x) → n = x) ∧
      ((¬ ∃ x, ∀ y, y ∈ g.values.flatMap s.members ↔ y = x) →
        ∃ ms, t.kind n = .union ms ∧ ms.Nodup ∧ ∀ y, y ∈ ms ↔ y ∈ g.values.flatMap s.members) ∧
      ∀ (u : Store) (g' : Grouping), t.Keeps u → u.Sound → (∀ v ∈ g'.values, u.Neat v) →
        u.Unmistaken (.union (g'.values.flatMap u.members)) →
        (∀ y, y ∈ g'.values.flatMap u.members ↔ y ∈ g.values.flatMap s.members) →
          ∃ u', g'.unite.outcome u = (.ok n, u') := by
  obtain ⟨n, t, hn, hgathers⟩ := g.assembles_unite s hs hg hplain
  have hneat : t.Neat n := hgathers.neat n List.mem_cons_self
  have hmembers : ∀ y, y ∈ t.members n ↔ y ∈ g.values.flatMap s.members := by
    intro y
    rw [← hgathers.members, List.flatMap_singleton]
  refine ⟨n, t, hn, hgathers.grows, hgathers.sound, hneat.interned, fun x hx => ?_,
    fun hseveral => ?_, fun u g' hkeeps hu hg' hplain' hsame => ?_⟩
  · rcases (t.kind n).isUnion_cases with ⟨ms, hk⟩ | hnot
    · -- a union has two different members
      obtain ⟨y, hy, z, hz, hyz⟩ := hneat.exists_members hk
      rw [members_of_union hk] at hmembers
      exact absurd (((hx y).mp ((hmembers y).mp hy)).trans
        ((hx z).mp ((hmembers z).mp hz)).symm) hyz
    · rw [members_of_not_union hnot] at hmembers
      exact (hx n).mp ((hmembers n).mp List.mem_cons_self)
  · rcases (t.kind n).isUnion_cases with ⟨ms, hk⟩ | hnot
    · rw [members_of_union hk] at hmembers
      exact ⟨ms, hk, (hneat.normalised ms hk).nodup, hmembers⟩
    · rw [members_of_not_union hnot] at hmembers
      exact absurd ⟨n, fun y => (hmembers y).symm.trans List.mem_singleton⟩ hseveral
  · obtain ⟨m, u', hm, hgathers'⟩ := g'.assembles_unite u hu hg' hplain'
    have hlater : t.Keeps u' := hkeeps.trans hgathers'.grows.keeps
    have hsame' : ∀ y, y ∈ u'.members n ↔ y ∈ u'.members m := by
      intro y
      rw [hneat.members_keeps hgathers.sound hlater, hmembers, ← hsame, ← hgathers'.members,
        List.flatMap_singleton]
    have hnm : n = m := (hneat.keeps hgathers.sound hlater).eq_of_members
      (hgathers'.neat m List.mem_cons_self) hgathers'.sound hsame'
    exact ⟨u', hnm ▸ hm⟩

/-- Lists of lists, and a union of the first two of four nodes. -/
def unitedLists : Store := ofForms [.type .nil, .list 0, .list 1, .union [1, 0]]

/-- The union and the list that is not in it come to the same node as a grouping of what is in
both. -/
theorem union_canonical_unitedLists :
    let g := Grouping.union (.value 2) [.union (.value 0) [.value 1, .value 0]]
    ∃ n t u ms, (union [3, 2]).outcome unitedLists = (.ok n, t) ∧ t.isInterned n = true ∧
      t.kind n = .union ms ∧ ms.Nodup ∧ (∀ y, y ∈ ms ↔ y ∈ [1, 0, 2]) ∧
      g.unite.outcome t = (.ok n, u) := by
  intro g
  have hs : unitedLists.Sound := (reachable_ofForms (by simp [Kind.slot?])).sound
  have hlists : ∀ n < 3, unitedLists.Neat n := fun n hn => .of_not_union
    ((by decide +kernel : ∀ n < 3, unitedLists.isInterned n = true) n hn)
    ((by decide +kernel : ∀ n < 3, (unitedLists.kind n).isUnion = false) n hn)
  have hunion : unitedLists.Neat 3 := by
    refine ⟨by decide +kernel, fun ms hms => ?_⟩
    have hkind : unitedLists.kind 3 = .union [1, 0] := by decide +kernel
    obtain rfl := Kind.union.inj (hkind.symm.trans hms)
    exact ⟨by decide, by decide +kernel, by decide +kernel⟩
  have hmembers : [3, 2].flatMap unitedLists.members = [1, 0, 2] := by decide +kernel
  let operands := Grouping.union (.value 3) ([2].map .value)
  have hdiffer : ∀ x ∈ [1, 0, 2], ∀ y ∈ [1, 0, 2],
      unitedLists.digest x = unitedLists.digest y → x = y := by decide +kernel
  obtain ⟨n, t, hn, hgrows, ht, hinterned, -, hseveral, hagain⟩ :=
    union_canonical hs operands
      (List.forall_mem_cons.mpr ⟨hunion, List.forall_mem_singleton.mpr (hlists 2 (by decide))⟩)
      (by rintro _ ⟨⟩; exact .inl (hmembers ▸ hdiffer))
  obtain ⟨ms, hk, hnodup, hms⟩ := hseveral (by
    rintro ⟨x, hx⟩
    have h0 := (hx 0).mp (hmembers ▸ by decide)
    have h1 := (hx 1).mp (hmembers ▸ by decide)
    exact absurd (h0.trans h1.symm) (by decide))
  have hkeeps := hgrows.keeps
  have hleaves : ∀ v ∈ g.values, unitedLists.Neat v := by
    intro v hv
    exact hlists v ((by decide : ∀ v ∈ [2, 0, 1, 0], v < 3) v hv)
  have hsame : g.values.flatMap t.members = [2, 0, 1, 0] :=
    (flatMap_members_keeps hs hkeeps hleaves).trans (by decide +kernel)
  have hdigest : ∀ x ∈ [1, 0, 2], t.digest x = unitedLists.digest x := fun x hx =>
    hkeeps.digest_eq (hs.isComplete_of_isInterned
      (hlists x ((by decide : ∀ v ∈ [1, 0, 2], v < 3) x hx)).interned)
  obtain ⟨u, hu⟩ := hagain t g (.refl t) ht (fun v hv => (hleaves v hv).keeps hs hkeeps) (by
    rintro _ ⟨⟩
    rw [hsame]
    refine .inl fun x hx y hy hxy => ?_
    have hperm := (by decide : ∀ v ∈ [2, 0, 1, 0], v ∈ [1, 0, 2])
    rw [hdigest x (hperm x hx), hdigest y (hperm y hy)] at hxy
    exact hdiffer x (hperm x hx) y (hperm y hy) hxy) (by
    intro y
    rw [hsame]
    exact (hmembers ▸ (by simp only [List.mem_cons]; tauto : y ∈ [2, 0, 1, 0] ↔ y ∈ [1, 0, 2])))
  refine ⟨n, t, u, ms, ?_, hinterned, hk, hnodup, fun y => ?_, hu⟩
  · rw [← Grouping.outcome_unite_values]
    exact hn
  · rw [hms y]
    exact hmembers ▸ Iff.rfl

end Infer

end ValueInference
