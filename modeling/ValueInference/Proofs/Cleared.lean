/-
Values cleared of pendings.

A value is cleared if every pending that it leads to is replaced by what the pending stands for, and
what is in there is cleared in the same way.  A union whose members change is put together anew, and
so is a set of function candidates that changes; whatever reaches no pending stays the same node.

* **`Store.Clear`** — a node that reaches no pending;
* **`Store.ClearedOf`**, **`Store.Cleared`** — a node that is another one, cleared of pendings;
* **`Store.ClearCopy`** — a node that serves for another one, at some point on the way;
* **`Store.exists_made`** — a form over nodes that reach no pending becomes a node that has it.
-/
import ValueInference.Proofs.Canonical
import ValueInference.Proofs.Distinct
import ValueInference.Proofs.Followed

namespace ValueInference

/-! ### Pairs -/

section

variable {α : Type} {R : α → α → Prop} {as bs cs : List α}

theorem pairs_of_forall₂ (h : List.Forall₂ R as bs) : Pairs R as bs := by
  induction h with
  | nil => exact .zero
  | cons hab _ ih => exact .cons hab ih

theorem Pairs.of_perm (h : Pairs R as bs) (hcs : cs.Perm as) : Pairs R cs bs := by
  rw [Pairs, Multiset.coe_eq_coe.mpr hcs]
  exact h

theorem Pairs.exists_mem (h : Pairs R as bs) : ∀ a ∈ as, ∃ b ∈ bs, R a b := fun _ ha =>
  Multiset.exists_mem_of_rel_of_mem h ha

theorem Pairs.length_eq (h : Pairs R as bs) : as.length = bs.length :=
  Multiset.card_eq_card_of_rel h

theorem Pairs.map_perm {β : Type} {f : α → β} (h : Pairs R as bs)
    (hf : ∀ a b, R a b → f a = f b) : (as.map f).Perm (bs.map f) := by
  have hmap : Multiset.Rel (· = ·) ((as : Multiset α).map f) ((bs : Multiset α).map f) :=
    Multiset.rel_map.mpr (h.mono fun a _ b _ => hf a b)
  exact Multiset.coe_eq_coe.mp (Multiset.rel_eq.mp hmap)

end

section

variable {R : NodeId → NodeId → Prop}

theorem Slot.Paired.of_reordered {u v w : Slot} (h : v.Paired R w) (hu : u.Reordered v) :
    u.Paired R w := by
  cases hu with
  | same => exact h
  | possibilities hperm =>
    cases w with
    | possibilities q => exact Pairs.of_perm h hperm
    | _ => exact h.elim

/-- What has no order in a form may be reordered. -/
theorem Kind.Paired.of_reordered {k k' k'' : Kind} (h : k'.Paired R k'') (hk : k.Reordered k') :
    k.Paired R k'' := by
  cases hk with
  | same => exact h
  | scalar ty hv =>
    cases k'' with
    | scalar w u => exact ⟨h.1, h.2.of_reordered hv⟩
    | _ => exact h.elim
  | record tag hperm =>
    cases k'' with
    | record tag' gs => exact ⟨h.1, h.2.of_perm hperm⟩
    | _ => exact h.elim
  | union hperm =>
    cases k'' with
    | union bs => exact Pairs.of_perm h hperm
    | _ => exact h.elim
  | tagged hperm =>
    cases k'' with
    | tagged bs => exact Pairs.of_perm h hperm
    | _ => exact h.elim
  | function hv =>
    cases k'' with
    | function w => exact Slot.Paired.of_reordered h hv
    | _ => exact h.elim

theorem Slot.Alike.pendings_eq {v w : Slot} (h : v.Alike R w) : v.pendings = w.pendings := by
  cases v <;> cases w <;> first | rfl | exact h.elim | exact congrArg (fun p => [p]) h

/-- Alike forms wait for the same pending. -/
theorem Kind.Alike.pendings_eq {k k' : Kind} (h : k.Alike R k') : k.pendings = k'.pendings := by
  cases k <;> cases k' <;> first | rfl | exact h.elim | exact h.2.pendings_eq |
    exact Slot.Alike.pendings_eq h

/-- A form is paired with itself where the nodes in it are related to themselves. -/
theorem Kind.Paired.refl {k : Kind} (h : ∀ c ∈ k.children, R c c) : k.Paired R k :=
  (Kind.paired_eq_iff.mpr (.same k)).imp fun c hc _ _ heq => heq ▸ h c hc

theorem Kind.Paired.isUnion {k k' : Kind} (h : k.Paired R k') : k.isUnion = k'.isUnion := by
  cases k <;> cases k' <;> first | rfl | exact h.elim

/-- Paired forms wait for the same pending. -/
theorem Kind.Paired.pendings_eq {k k' : Kind} (h : k.Paired R k') : k.pendings = k'.pendings := by
  have hslots : ∀ {v w : Slot}, v.Paired R w → v.pendings = w.pendings := fun {v w} h => by
    cases v <;> cases w <;> first | rfl | exact h.elim | exact congrArg (fun p => [p]) h
  cases k <;> cases k' <;> first | rfl | exact h.elim | exact hslots h.2 | exact hslots h

/-- What is below a form without a slot is paired with something below the other one. -/
theorem Kind.Paired.exists_child {k k' : Kind} (h : k.Paired R k') (hslot : k'.slot? = none) :
    ∀ c ∈ k.children, ∃ m ∈ k'.children, R c m := by
  have hlabels : ∀ {β : Type} {xs ys : List (β × NodeId)}, Pairs (SameLabel R) xs ys →
      ∀ c ∈ xs.map Prod.snd, ∃ m ∈ ys.map Prod.snd, R c m := by
    intro β xs ys hpairs c hc
    obtain ⟨x, hx, rfl⟩ := List.mem_map.mp hc
    obtain ⟨y, hy, -, hxy⟩ := hpairs.exists_mem x hx
    exact ⟨y.2, List.mem_map_of_mem hy, hxy⟩
  have hsingle : ∀ {a b : NodeId}, R a b → ∀ c ∈ [a], ∃ m ∈ [b], R c m :=
    fun hab => exists_of_forall₂ (.cons hab .nil)
  cases k with
  | scalar v ty => cases k' <;> first | exact h.elim | exact nomatch hslot
  | function v => cases k' <;> first | exact h.elim | exact nomatch hslot
  | tuple as => cases k' <;> first | exact h.elim | exact exists_of_forall₂ h
  | list a => cases k' <;> first | exact h.elim | exact hsingle h
  | array a shape => cases k' <;> first | exact h.elim | exact hsingle h.2
  | record tag fs => cases k' <;> first | exact h.elim | exact hlabels h.2
  | union as => cases k' <;> first | exact h.elim | exact Pairs.exists_mem h
  | tagged as => cases k' <;> first | exact h.elim | exact hlabels h
  | jtagged a => cases k' <;> first | exact h.elim | exact hsingle h
  | error r => exact fun _ hc => absurd hc List.not_mem_nil
  | type ty => exact fun _ hc => absurd hc List.not_mem_nil

/-- Paired forms without slots follow the same rules. -/
theorem Kind.Paired.conforms {k k' : Kind} (h : k.Paired R k') (hslot : k'.slot? = none)
    (hk' : k'.Conforms) : k.Conforms := by
  cases k with
  | scalar v ty => cases k' <;> first | exact h.elim | exact nomatch hslot
  | function v => cases k' <;> first | exact h.elim | exact nomatch hslot
  | record tag fs =>
    cases k' with
    | record tag' gs => exact ((h.2.map_perm fun _ _ hxy => hxy.1).nodup_iff).mpr hk'
    | _ => exact h.elim
  | union as =>
    cases k' with
    | union bs => exact hk'.trans_eq (Pairs.length_eq h).symm
    | _ => exact h.elim
  | tagged as =>
    cases k' with
    | tagged bs =>
      refine ⟨?_, ((Pairs.map_perm h fun _ _ hxy => hxy.1).nodup_iff).mpr hk'.2⟩
      rintro rfl
      exact hk'.1 (List.length_eq_zero_iff.mp (Pairs.length_eq h).symm)
    | _ => exact h.elim
  | _ => trivial

end

namespace Store

variable {s t T : Store} {v n m x c : NodeId} {R S : NodeId → NodeId → Prop}

/-! ### Nodes that reach no pending -/

/-- No pending is reached from the node. -/
def Clear (s : Store) (n : NodeId) : Prop := ∀ m, s.Leads n m → (s.kind m).pendings = []

theorem Clear.child (h : s.Clear n) (hc : c ∈ (s.kind n).children) : s.Clear c :=
  fun m hm => h m (.head hc hm)

theorem clear_of_children (hn : (s.kind n).pendings = [])
    (h : ∀ c ∈ (s.kind n).children, s.Clear c) : s.Clear n := by
  intro m hm
  rcases Relation.ReflTransGen.cases_head hm with rfl | ⟨c, hc, hcm⟩
  · exact hn
  · exact h c hc m hcm

theorem Clear.kind_followed (h : T.Clear n) : T.followed.kind n = T.kind n := by
  refine kind_followed_eq fun w hw => T.resolve_self w ?_
  have hnone := h n .refl
  rwa [Kind.pendings, hw] at hnone

theorem finished_of_children (hn : s.isComplete n = true)
    (h : ∀ c ∈ (s.kind n).children, s.Finished c) : s.Finished n := by
  intro m hm
  rcases Relation.ReflTransGen.cases_head hm with rfl | ⟨c, hc, hcm⟩
  · exact hn
  · exact h c hc m hcm

theorem Keeps.clear (h : s.Keeps t) (hn : s.Finished n) (hclear : s.Clear n) : t.Clear n := by
  intro m hm
  have hlead := (h.leads_iff hn).mp hm
  rw [h.kind_eq (hn m hlead)]
  exact hclear m hlead

theorem Keeps.founded (h : s.Keeps t) (hn : s.Finished n) (hfounded : s.Founded n) :
    t.Founded n := by
  refine hfounded.induct (motive := fun n => s.Finished n → t.Founded n) ?_ hn
  intro m _ ih hm
  refine .of_children (h.finished hm).present fun c hc => ?_
  rw [h.kind_eq hm.complete] at hc
  exact ih c hc (hm.child hc)

/-- What equals a node that reaches no pending reaches none. -/
theorem clear_of_equalIn (hs : s.Sound) (h : s.EqualIn n m) (hm : s.Clear m) : s.Clear n := by
  intro x hx
  obtain ⟨y, hy, hxy⟩ := leads_of_equalIn hs h hx
  rw [(alike_of_equalIn hs hxy).pendings_eq]
  exact hm y hy

/-! ### Cleared nodes -/

/-- The node is the union of some values, up to the order of its members. -/
def UnionOf (s : Store) (x : NodeId) (ns : List NodeId) : Prop :=
  s.distinctMembers ns = [x] ∨
    ∃ ms, s.kind x = .union ms ∧ 2 ≤ ms.length ∧ ms.Perm (s.distinctMembers ns)

/-- The first node is the second one, cleared of pendings, where `R` says the same of the nodes
below: it has the form of the second one, followed.  Unions and sets of functions that change are
put together anew. -/
def ClearedOf (T : Store) (R : NodeId → NodeId → Prop) (x n : NodeId) : Prop :=
  (T.Clear n → x = n) ∧
    match T.followed.kind n with
    | .union ms => ∃ xs, List.Forall₂ R xs ms ∧ if xs = ms then x = n else T.UnionOf x xs
    | .function (.possibilities p) => ∃ cs q, List.Forall₂ (Candidate.Alike R) cs p.candidates ∧
        T.kind x = .function (.possibilities q) ∧
          q.candidates.Perm (if cs = p.candidates then cs else T.addCandidates [] cs)
    | k => (T.kind x).Paired R k

/-- The first node is the second one with all pendings replaced by what they stand for. -/
def Cleared (T : Store) (x n : NodeId) : Prop :=
  ∃ R : NodeId → NodeId → Prop, (∀ y m, R y m → T.ClearedOf R y m) ∧ R x n

theorem ClearedOf.imp (h : T.ClearedOf R x n) (hRS : ∀ y m, R y m → S y m) :
    T.ClearedOf S x n := by
  refine ⟨h.1, ?_⟩
  have hform := h.2
  split
  · next ms hk =>
    rw [hk] at hform
    obtain ⟨xs, hxs, hx⟩ := hform
    exact ⟨xs, hxs.imp hRS, hx⟩
  · next p hk =>
    rw [hk] at hform
    obtain ⟨cs, q, hcs, hq⟩ := hform
    exact ⟨cs, q, hcs.imp fun _ _ hcd => hcd.imp fun a _ b _ => hRS a b, hq⟩
  · next k hunion hset =>
    split at hform
    · next ms hk => exact absurd hk (hunion ms)
    · next p hk => exact absurd hk (hset p)
    · exact hform.imp fun a _ b _ => hRS a b

namespace Cleared

theorem clearedOf (h : T.Cleared x n) : T.ClearedOf T.Cleared x n := by
  obtain ⟨R, hR, hx⟩ := h
  exact (hR x n hx).imp fun y m hy => ⟨R, hR, hy⟩

theorem eq_of_clear (h : T.Cleared x n) (hn : T.Clear n) : x = n := h.clearedOf.1 hn

/-- What is no union does not become one. -/
theorem isUnion (h : T.Cleared x n) (hn : (T.kind n).isUnion = false) :
    (T.kind x).isUnion = false := by
  have hfollowed : (T.followed.kind n).isUnion = false := by
    rw [kind_followed]
    cases hk : T.kind n <;> rw [hk] at hn <;> first | rfl | exact nomatch hn
  have hform := h.clearedOf.2
  split at hform
  · next ms hk =>
    rw [hk] at hfollowed
    exact nomatch hfollowed
  · obtain ⟨_, _, _, hx, _⟩ := hform
    rw [hx]
    rfl
  · rw [hform.isUnion, hfollowed]

end Cleared

theorem ClearedOf.cleared (h : T.ClearedOf T.Cleared x n) : T.Cleared x n := by
  refine ⟨fun y m => T.Cleared y m ∨ y = x ∧ m = n, ?_, .inr ⟨rfl, rfl⟩⟩
  rintro y m (hy | ⟨rfl, rfl⟩)
  · exact hy.clearedOf.imp fun _ _ => .inl
  · exact h.imp fun _ _ => .inl

/-! ### Copies on the way -/

/-- The node serves for another one in the store: it is complete, reaches no pending and lies on no
cycle, and it is the other one, cleared of pendings. -/
structure ClearCopy (T s : Store) (x n : NodeId) : Prop where
  finished : s.Finished x
  clear : s.Clear x
  founded : s.Founded x
  cleared : T.Cleared x n

theorem ClearCopy.later (h : T.ClearCopy s x n) (hst : s.Keeps t) : T.ClearCopy t x n :=
  ⟨hst.finished h.finished, hst.clear h.finished h.clear, hst.founded h.finished h.founded,
    h.cleared⟩

/-- A node over nodes that serve for others serves for another one itself, if it has the form. -/
theorem clearCopy_of_children (hx : s.isComplete x = true) (hpendings : (s.kind x).pendings = [])
    (hchildren : ∀ c ∈ (s.kind x).children, ∃ m, T.ClearCopy s c m)
    (h : T.ClearedOf T.Cleared x n) : T.ClearCopy s x n where
  finished := finished_of_children hx fun c hc => (hchildren c hc).elim fun _ h => h.finished
  clear := clear_of_children hpendings fun c hc => (hchildren c hc).elim fun _ h => h.clear
  founded := .of_children (present_of_isComplete hx) fun c hc =>
    (hchildren c hc).elim fun _ h => h.founded
  cleared := h.cleared

/-- **A form without a fault** becomes a node that has it.  An interned union is not taken for
another one whose members have the same digests, as members that reach no pending are told apart by
their digests. -/
theorem exists_made {k : Kind} (hs : s.Sound) (hfault : s.fault? k = none)
    (hslot : ∀ slot, k.slot? = some slot → s.AdmitsSlot slot)
    (hunion : ∀ ms, k = .union ms → ∀ m ∈ ms, s.Founded m ∧ s.Clear m) :
    ∃ x t, (Infer.make k).outcome s = (.ok x, t) ∧ t.isComplete x = true ∧
      (t.kind x).Reordered k := by
  rcases hplace : s.place k with ⟨x, t⟩
  refine ⟨x, t, Infer.outcome_make_of_place hfault hplace, ?_⟩
  rcases place_cases hs.interned hplace with ⟨rfl, hinterned, hchildren, -⟩ | ⟨-, d, i, hfiled⟩
  · have hplain : t.Unmistaken k := by
      rintro ms rfl
      refine .inl fun a ha b hb => ?_
      obtain ⟨hfounded, hclear⟩ := hunion ms rfl a ha
      refine eq_of_digest_below hs hfounded (fun n hn p hp => ?_) (hchildren a ha) (hchildren b hb)
      rw [hclear n hn] at hp
      exact absurd hp List.not_mem_nil
    refine ⟨?_, (place_interned hs hchildren hslot hplain hplace).2⟩
    by_contra hblank
    have hnot := (hs.blank x (Bool.eq_false_iff.mpr hblank)).2
    rw [hinterned] at hnot
    cases hnot
  · refine ⟨hfiled.isComplete_eq, ?_⟩
    rw [hfiled.kind_eq]
    exact .same k

end Store

end ValueInference
