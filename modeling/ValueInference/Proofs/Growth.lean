/-
Stores that grow.

A merge of ground values only adds nodes to a store: it changes no node and no pending.  What was
true of founded nodes stays true.

* **`Store.Grows`** — nodes and tokens are added, and nothing else changes;
* **`Store.Grows.equals_iff`**, **`Store.Grows.isSubset_iff`** — equality of founded nodes and
  comparisons of their candidates stay as they are;
* **`Store.make_spec`** — a node that is made has its form, up to the order of what has no order.
-/
import ValueInference.Proofs.Equal
import ValueInference.Proofs.Outcome
import ValueInference.Proofs.Sound

namespace ValueInference

namespace Store

variable {s t u : Store} {a b : NodeId}

/-- How slots are followed depends on the results of the pendings alone. -/
theorem follow_congr (h : ∀ p, t.result? p = s.result? p) (fuel : Nat) (slot : Slot) :
    t.follow fuel slot = s.follow fuel slot := by
  induction fuel generalizing slot with
  | zero => cases slot <;> rfl
  | succ fuel ih =>
    cases slot with
    | pending p =>
      simp only [follow, h]
      split
      · exact ih _
      · rfl
    | _ => rfl

/-- What slots stand for depends on the pendings alone. -/
theorem resolve_congr (h : t.pendings = s.pendings) : t.resolve = s.resolve := by
  have hresult : ∀ p, t.result? p = s.result? p := fun p => by
    rw [result?, pendingStatus, h, ← pendingStatus, ← result?]
  funext slot
  rw [resolve, resolve, h, follow_congr hresult]

/-- Where nodes are kept, there are as many of them. -/
theorem size_le_of_nodes (h : ∀ n < s.nodes.size, t.nodes[n]? = s.nodes[n]?) :
    s.nodes.size ≤ t.nodes.size := by
  by_contra hlt
  have hnone : s.nodes[t.nodes.size]? = none := by
    rw [← h _ (Nat.not_le.mp hlt)]
    exact Array.getElem?_eq_none (Nat.le_refl _)
  exact hlt (Array.getElem?_eq_none_iff.mp hnone)

/-- Nodes and tokens are added, and nothing else changes. -/
structure Grows (s t : Store) : Prop where
  nodes : ∀ n, n < s.nodes.size → t.nodes[n]? = s.nodes[n]?
  pendings : t.pendings = s.pendings
  tokens : s.tokens ≤ t.tokens

namespace Grows

theorem refl (s : Store) : s.Grows s := ⟨fun _ _ => rfl, rfl, Nat.le_refl _⟩

theorem size_le (h : s.Grows t) : s.nodes.size ≤ t.nodes.size :=
  size_le_of_nodes h.nodes

theorem trans (h : s.Grows t) (h' : t.Grows u) : s.Grows u where
  nodes n hn := (h'.nodes n (Nat.lt_of_lt_of_le hn h.size_le)).trans (h.nodes n hn)
  pendings := h'.pendings.trans h.pendings
  tokens := h.tokens.trans h'.tokens

theorem kind_eq (h : s.Grows t) (ha : a < s.nodes.size) : t.kind a = s.kind a := by
  rw [kind, h.nodes a ha, kind]

theorem digest_eq (h : s.Grows t) (ha : a < s.nodes.size) : t.digest a = s.digest a := by
  rw [digest, h.nodes a ha, digest]

theorem isInterned_eq (h : s.Grows t) (ha : a < s.nodes.size) :
    t.isInterned a = s.isInterned a := by
  rw [isInterned, h.nodes a ha, isInterned]

theorem resolve_eq (h : s.Grows t) : t.resolve = s.resolve := resolve_congr h.pendings

theorem waitsOn_eq (h : s.Grows t) (slot : Slot) : t.waitsOn slot = s.waitsOn slot := by
  rw [waitsOn, h.resolve_eq, waitsOn]

theorem founded (h : s.Grows t) (ha : s.Founded a) : t.Founded a :=
  EndsWithin.founded (EndsWithin.mono (Nat.le_refl _) (fun _ hm =>
    ⟨Nat.lt_of_lt_of_le hm h.size_le, h.kind_eq hm⟩) ha)

theorem mentions_eq (h : s.Grows t) (ha : a < s.nodes.size) : t.mentions a = s.mentions a := by
  rw [mentions, h.kind_eq ha, h.resolve_eq, mentions]

theorem reaches {n : NodeId} (h : s.Grows t) (ha : s.Closed a) (hn : t.Reaches a n) :
    s.Reaches a n := by
  induction hn with
  | refl => exact .refl
  | @tail m n _ hmn ih =>
    refine ih.tail ?_
    rwa [h.mentions_eq (ha m ih).1.present] at hmn

theorem closed (h : s.Grows t) (ha : s.Closed a) : t.Closed a := by
  intro n hn
  obtain ⟨hfounded, hslot⟩ := ha n (h.reaches ha hn)
  refine ⟨h.founded hfounded, fun slot hs => ?_⟩
  rw [h.kind_eq hfounded.present] at hs
  rw [h.waitsOn_eq]
  exact hslot slot hs

theorem settled {slot : Slot} (h : s.Grows t) (hslot : s.Settled slot) : t.Settled slot where
  known := by rw [h.waitsOn_eq, hslot.known]
  closed c hc := by
    rw [h.resolve_eq] at hc
    exact h.closed (hslot.closed c hc)

theorem mayEqual_iff (h : s.Grows t) (ha : a < s.nodes.size) (hb : b < s.nodes.size) :
    t.MayEqual a b ↔ s.MayEqual a b := by
  rw [MayEqual, MayEqual, h.digest_eq ha, h.digest_eq hb, h.isInterned_eq ha, h.isInterned_eq hb]

/-- **Equality of founded nodes stays as it is.** -/
theorem equals_iff (h : s.Grows t) (ha : s.Founded a) : ∀ {b}, s.Founded b →
    (t.Equals a b ↔ s.Equals a b) := by
  refine ha.induct (motive := fun a => ∀ {b}, s.Founded b → (t.Equals a b ↔ s.Equals a b)) ?_
  intro m hm ih b hb
  rw [equal_iff hm, equal_iff (h.founded hm), EqualStep, EqualStep, h.kind_eq hm.present,
    h.kind_eq hb.present, h.mayEqual_iff hm.present hb.present]
  refine or_congr_right (and_congr_right fun _ => ⟨fun halike => ?_, fun halike => ?_⟩)
  · exact halike.imp fun x hx y hy => (ih x hx (hb.child hy)).mp
  · exact halike.imp fun x hx y hy => (ih x hx (hb.child hy)).mpr

theorem foundedIn {c : Candidate} (h : s.Grows t) (hc : s.FoundedIn c) : t.FoundedIn c :=
  fun n hn => h.founded (hc n hn)

theorem alike_iff {c d : Candidate} (h : s.Grows t) (hc : s.FoundedIn c) (hd : s.FoundedIn d) :
    c.Alike t.Equals d ↔ c.Alike s.Equals d :=
  ⟨fun halike => halike.imp fun x hx y hy => (h.equals_iff (hc x hx) (hd y hy)).mp,
    fun halike => halike.imp fun x hx y hy => (h.equals_iff (hc x hx) (hd y hy)).mpr⟩

/-- **Comparisons of founded candidates stay as they are.** -/
theorem isSubset_iff {cs ds : List Candidate} (h : s.Grows t) (hcs : ∀ c ∈ cs, s.FoundedIn c)
    (hds : ∀ d ∈ ds, s.FoundedIn d) : t.isSubset cs ds = true ↔ s.isSubset cs ds = true := by
  rw [Store.isSubset_iff hds, Store.isSubset_iff fun d hd => h.foundedIn (hds d hd)]
  refine forall₂_congr fun c hc => exists_congr fun d => and_congr_right fun hd => ?_
  exact h.alike_iff (hds d hd) (hcs c hc)

theorem normalised {ms : List NodeId} (h : s.Grows t) (hms : ∀ m ∈ ms, s.Founded m)
    (hn : s.Normalised ms) : t.Normalised ms where
  several := hn.several
  flat m hm := by
    rw [h.kind_eq (hms m hm).present]
    exact hn.flat m hm
  distinct := by
    refine List.Pairwise.imp_of_mem (fun {m n} hm hn hdiff => ?_) hn.distinct
    simp only [Bool.eq_false_iff] at hdiff ⊢
    exact ⟨fun heq => hdiff.1 ((h.equals_iff (hms m hm) (hms n hn)).mp heq),
      fun heq => hdiff.2 ((h.equals_iff (hms n hn) (hms m hm)).mp heq)⟩

theorem ground (h : s.Grows t) (ha : s.Ground a) : t.Ground a := by
  have hback : ∀ {n}, t.Reaches a n → s.Ground n := fun hn => ha.reaches (h.reaches ha.closed hn)
  have hkind : ∀ {n}, t.Reaches a n → t.kind n = s.kind n := fun hn =>
    h.kind_eq (hback hn).closed.present
  refine ⟨fun n hn => ?_, fun n hn => ?_, fun n slot hn hslot => ?_, fun n ms hn hms => ?_⟩
  · rw [isComplete, h.nodes n (hback hn).closed.present]
    exact (hback hn).complete n .refl
  · exact EndsWithin.acyclic (h.founded (hback hn).founded)
  · rw [hkind hn] at hslot
    rw [h.waitsOn_eq]
    exact (hback hn).settled n slot .refl hslot
  · rw [hkind hn] at hms
    refine h.normalised (fun m hm => (hback hn).founded.child ?_) ((hback hn).union_normalised hms)
    rw [hms]
    exact hm

end Grows

end Store

/-! ### Making nodes -/

section

variable {R : NodeId → NodeId → Prop}

/-- What is below a reference is related to what is below one that is alike. -/
theorem FunctionRef.Alike.exists_child {f g : FunctionRef} (h : f.Alike R g) :
    ∀ a ∈ f.children, ∃ b ∈ g.children, R a b := by
  have happend : ∀ {as bs cs ds : List NodeId}, (∀ a ∈ as, ∃ b ∈ bs, R a b) →
      (∀ a ∈ cs, ∃ b ∈ ds, R a b) → ∀ a ∈ as ++ cs, ∃ b ∈ bs ++ ds, R a b := by
    intro as bs cs ds h h' a ha
    rcases List.mem_append.mp ha with ha | ha
    · obtain ⟨b, hb, hab⟩ := h a ha
      exact ⟨b, List.mem_append_left _ hb, hab⟩
    · obtain ⟨b, hb, hab⟩ := h' a ha
      exact ⟨b, List.mem_append_right _ hb, hab⟩
  have hsingle : ∀ {a b : NodeId}, R a b → ∀ c ∈ [a], ∃ d ∈ [b], R c d :=
    fun hab => exists_of_forall₂ (.cons hab .nil)
  induction h using FunctionRef.Alike.rule_induction with
  | primitive p => exact fun _ ha => absurd ha List.not_mem_nil
  | typed p as bs a b has hab => exact happend (exists_of_forall₂ has) (hsingle hab)
  | partialApp f g as bs hfg has ih => exact happend ih (exists_of_forall₂ has)
  | virtual as bs a b has hab => exact happend (exists_of_forall₂ has) (hsingle hab)
  | graph n => exact fun _ ha => absurd ha List.not_mem_nil

theorem Candidate.Alike.exists_child {c d : Candidate} (h : c.Alike R d) :
    ∀ a ∈ c.children, ∃ b ∈ d.children, R a b := by
  intro a ha
  cases c with
  | constant x => exact absurd ha List.not_mem_nil
  | function f =>
    cases d with
    | constant y => exact h.elim
    | function g => exact FunctionRef.Alike.exists_child h a ha

/-- What is below a form is related to what is below one that is alike, if that holds of their
slots. -/
theorem Kind.Alike.exists_child_of_slots {k k' : Kind} (h : k.Alike R k')
    (hslots : ∀ v w, k.slot? = some v → k'.slot? = some w → v.Alike R w →
      ∀ a ∈ v.children, ∃ b ∈ w.children, R a b) :
    ∀ a ∈ k.children, ∃ b ∈ k'.children, R a b := by
  have hlabels : ∀ {β : Type} {xs ys : List (β × NodeId)}, Matches (SameLabel R) xs ys →
      ∀ a ∈ xs.map Prod.snd, ∃ b ∈ ys.map Prod.snd, R a b := by
    intro β xs ys hmatch a ha
    obtain ⟨x, hx, rfl⟩ := List.mem_map.mp ha
    obtain ⟨y, hy, -, hxy⟩ := hmatch.2 x hx
    exact ⟨y.2, List.mem_map_of_mem hy, hxy⟩
  have hsingle : ∀ {a b : NodeId}, R a b → ∀ c ∈ [a], ∃ d ∈ [b], R c d :=
    fun hab => exists_of_forall₂ (.cons hab .nil)
  cases h.sameForm with
  | scalar v w t u => exact hslots v w rfl rfl h.2
  | tuple as bs => exact exists_of_forall₂ h
  | list a b => exact hsingle h
  | array a b shape shape' => exact hsingle h.2
  | record tag tag' fs gs => exact hlabels h.2
  | union as bs => exact h.2
  | tagged as bs => exact hlabels h
  | function v w => exact hslots v w rfl rfl h
  | jtagged a b => exact hsingle h
  | error r r' => exact fun _ hc => absurd hc List.not_mem_nil
  | type t u => exact fun _ hc => absurd hc List.not_mem_nil

/-- **What is below a form** is related to what is below one that is alike, if sets with one token
have the same candidates. -/
theorem Kind.Alike.exists_child {k k' : Kind} (h : k.Alike R k') (hR : ∀ a ∈ k.children, R a a)
    (hsets : k.Coherent k') : ∀ a ∈ k.children, ∃ b ∈ k'.children, R a b := by
  refine h.exists_child_of_slots fun v w hv hw hvw a ha => ?_
  cases v with
  | possibilities p =>
    cases w with
    | possibilities q =>
      obtain ⟨c, hc, hac⟩ := List.mem_flatMap.mp ha
      rcases hvw with htoken | hmatch
      · refine ⟨a, List.mem_flatMap_of_mem (hsets _ _ hv hw p q rfl rfl htoken ▸ hc) hac, hR a ?_⟩
        rwa [Kind.children_of_slot hv]
      · obtain ⟨d, hd, hcd⟩ := hmatch.2 c hc
        obtain ⟨b, hb, hab⟩ := hcd.exists_child a hac
        exact ⟨b, List.mem_flatMap_of_mem hd hb, hab⟩
    | _ => exact hvw.elim
  | _ => exact absurd ha List.not_mem_nil

end

namespace Store

variable {s t : Store}

/-- A node that was made of a form: it has the form, up to the order of what has no order, where
only a union that lists members twice may have fewer different ones. -/
structure Made (s t : Store) (k : Kind) (n : NodeId) : Prop where
  grows : s.Grows t
  sound : t.Sound
  present : n < t.nodes.size
  alike : (t.kind n).Alike (· = ·) k
  coherent : (t.kind n).Coherent k
  reordered : (∀ ms, t.kind n = .union ms → ms.Nodup) → (t.kind n).Reordered k

theorem Made.below {k : Kind} {n : NodeId} (h : s.Made t k n) :
    ∀ c ∈ (t.kind n).children, c ∈ k.children := by
  intro c hc
  obtain ⟨d, hd, rfl⟩ := h.alike.exists_child (fun _ _ => rfl) h.coherent c hc
  exact hd

theorem Filed.grows {n : NodeId} {k : Kind} {d : Option Nat} {i : Bool} (h : s.Filed n k d i t)
    (hn : n = s.nodes.size) : s.Grows t where
  nodes m hm := h.others m (hn ▸ Nat.ne_of_lt hm)
  pendings := h.pendings
  tokens := Nat.le_of_eq h.tokens.symm

/-- A node that is newer than a store gets a form. -/
theorem Grows.file {n : NodeId} {k : Kind} {d : Option Nat} {i : Bool} {u : Store}
    (h : s.Grows t) (hfiled : t.Filed n k d i u) (hn : s.nodes.size ≤ n) : s.Grows u where
  nodes m hm := by
    rw [hfiled.others m (Nat.ne_of_lt (Nat.lt_of_lt_of_le hm hn)), h.nodes m hm]
  pendings := hfiled.pendings.trans h.pendings
  tokens := hfiled.tokens ▸ h.tokens

theorem grows_token (s : Store) : s.Grows { s with tokens := s.tokens + 1 } :=
  ⟨fun _ _ => rfl, rfl, Nat.le_succ _⟩

/-- A set with a new token may be brought in. -/
theorem Sound.admits_new {cs : List Candidate} (hs : s.Sound) (hcs : cs.Nodup) :
    AdmitsSet { s with tokens := s.tokens + 1 } ⟨s.tokens, cs⟩ := by
  refine ⟨Nat.lt_succ_self _, hcs, fun q hq htoken => ?_⟩
  -- no set that the store held has the new token
  have hissued : q.token < s.tokens := (hs.sets q hq).issued
  exact absurd htoken (Nat.ne_of_lt hissued)

/-- A set that may be brought in is the one that is there with its token. -/
theorem sets_coherent {k : Kind} (hnew : ∀ slot, k.slot? = some slot → s.AdmitsSlot slot) (n : NodeId) :
    (s.kind n).Coherent k := by
  rintro v w hv hw p q rfl rfl htoken
  exact (hnew _ hw q rfl).coherent p (.inl ⟨n, hv⟩) htoken

/-- In a sound store, nothing in a form is the same as two things in another form. -/
theorem Sound.apart (hs : s.Sound) {n : NodeId} {k : Kind}
    (hnew : ∀ slot, k.slot? = some slot → s.AdmitsSlot slot)
    (hunion : ∀ ms, s.kind n = .union ms → ms.Nodup) : (s.kind n).Apart (· = ·) k := by
  have hset := sets_coherent hnew n
  have hdistinct : ∀ p, (s.kind n).slot? = some (.possibilities p) → p.candidates.Nodup :=
    fun p hp => (hs.sets p (.inl ⟨n, hp⟩)).distinct
  have hslot : ∀ {v w : Slot}, (s.kind n).slot? = some v → k.slot? = some w →
      v.Apart (· = ·) w := by
    intro v w hv hw
    cases v with
    | possibilities p =>
      cases w with
      | possibilities q =>
        refine ⟨hset _ _ hv hw p q rfl rfl, (apartIn_eq (hdistinct p hv)).anti fun _ _ _ _ => ?_⟩
        exact Candidate.alike_eq.mp
      | _ => trivial
    | _ => trivial
  refine Kind.apart_of_labelled (hs.labelled n) (fun v w hv hw => hslot hv hw) fun as bs hk _ => ?_
  exact apartIn_eq (hunion as hk)

/-- **A node that is made has its form.** -/
theorem make_spec {k : Kind} {n : NodeId} (hs : s.Sound)
    (hnew : ∀ slot, k.slot? = some slot → s.AdmitsSlot slot)
    (h : (Infer.make k).outcome s = (.ok n, t)) : s.Made t k n := by
  obtain ⟨hfault, hplace⟩ := Infer.outcome_make_ok h
  have hsound := hs.place hplace hfault hnew
  rcases place_cases hs.interned hplace with ⟨rfl, hn, -, halike⟩ | ⟨hn, d, i, hfiled⟩
  · refine ⟨.refl t, hsound, lt_of_isInterned hn, halike, ?_, fun hunion => ?_⟩
    · exact sets_coherent hnew n
    · exact halike.reordered (hs.apart hnew hunion)
  · have hkind : t.kind n = k := hfiled.kind_eq
    refine ⟨hfiled.grows hn, hsound, ?_, ?_, ?_, fun _ => ?_⟩
    · have hnode := hfiled.node
      exact (Array.getElem?_eq_some_iff.mp hnode).1
    · rw [hkind]
      exact .refl fun _ _ => rfl
    · rw [hkind]
      exact .refl k
    · rw [hkind]
      exact .same k

end Store

end ValueInference
