/-
What a merge that fails leaves behind.

A merge works from left to right, and puts off what waits for a pending as it gets there.  Nothing
is taken back when it fails later on, as a run ends with the first merge that contradicts what is
known.  So what was put off stays; everything that was there before is kept.

* **`Store.Interrupted`** — somewhere in two values, a part that has to wait stands before the one
  that fails, which is the only way for a failing merge to have put anything off;
* **`Infer.Hazard`**, **`Infer.Goes`** — whether a computation puts anything off, with which errors
  it fails, and with which after it has put something off; **`Infer.Goes.bind`** composes this;
* **`Infer.mergeStep_goes`**, **`Infer.mergeWithin_goes`** — how a merge goes, for two values of any
  forms and to any depth;
* **`Infer.merge_error_keeps`** — a merge that fails has only put off whole merges, and none at all
  unless it is interrupted.
-/
import ValueInference.Proofs.PutOff
import ValueInference.Proofs.Widened

namespace ValueInference

namespace Store

/-- The parts of two values that a merge takes up, one after the other.  A field or an option that
is missing on the left stands as `none`. -/
def parts (s : Store) (a b : NodeId) : List (Option (NodeId × NodeId)) :=
  match s.kind a, s.kind b with
  | .tuple xs, .tuple ys => (xs.zip ys).map some
  | .list x, .list y | .array x _, .array y _ | .jtagged x, .jtagged y => [some (x, y)]
  | .record _ fs, .record _ gs => fs.map fun f => (gs.lookup f.1).map (f.2, ·)
  | .tagged xs, .tagged ys => ys.map fun o => (xs.lookup o.1).map (·, o.2)
  | _, _ => []

/-- The slots of two values that a merge takes up. -/
def slotPair? (s : Store) (a b : NodeId) : Option (Slot × Slot) :=
  match s.kind a, s.kind b with
  | .scalar v _, .scalar w _ | .function v, .function w => some (v, w)
  | _, _ => none

/-- Somewhere in the two values are slots whose merge has to be put off. -/
inductive Waits (s : Store) : NodeId → NodeId → Prop
  | slots {a b : NodeId} {v w : Slot} (h : s.slotPair? a b = some (v, w))
      (hwait : ¬ s.Ready v w) : Waits s a b
  | part {a b x y : NodeId} (h : some (x, y) ∈ s.parts a b) (hwait : Waits s x y) : Waits s a b

/-- The merge of a part is put off, if only in part. -/
def PartWaits (s : Store) (p : Option (NodeId × NodeId)) : Prop :=
  ∃ x y, p = some (x, y) ∧ s.Waits x y

/-- The merge of a part fails with an error at some later time, or there is nothing to merge. -/
def PartFails (s : Store) (scope : MergeScope) (forced : Bool) (e : InferError)
    (p : Option (NodeId × NodeId)) : Prop :=
  ∀ x y, p = some (x, y) → ∃ fuel u t, s.Precedes u ∧
    (Infer.mergeWithin fuel scope forced x y).outcome u = (.error e, t)

/-- Somewhere in the two values, a part that has to wait stands before the one that fails. -/
inductive Interrupted (s : Store) (scope : MergeScope) (forced : Bool) (e : InferError) :
    NodeId → NodeId → Prop
  | here {a b : NodeId} {before after : List (Option (NodeId × NodeId))}
      {p : Option (NodeId × NodeId)} (h : s.parts a b = before ++ p :: after)
      (hwaits : ∃ q ∈ before, s.PartWaits q) (hfails : s.PartFails scope forced e p) :
      Interrupted s scope forced e a b
  | part {a b x y : NodeId} (h : some (x, y) ∈ s.parts a b)
      (hpart : Interrupted s scope forced e x y) : Interrupted s scope forced e a b

end Store

namespace Infer

open Store

variable {α β : Type} {s t u : Store} {x : Infer α} {f : α → Infer β} {l : Option LoopId}

/-! ### How a computation goes -/

/-- What may become of a computation: whether it puts anything off, with which errors it fails, and
with which it fails after it has put something off. -/
structure Hazard where
  waits : Prop
  fails : InferError → Prop
  breaks : InferError → Prop

namespace Hazard

/-- Nothing is put off, and nothing fails. -/
def none : Hazard := ⟨False, fun _ => False, fun _ => False⟩

/-- Nothing is put off. -/
def quiet : Hazard := ⟨False, fun _ => True, fun _ => False⟩

/-- One computation after another.  What the second fails with comes after what the first puts
off. -/
def andThen (h h' : Hazard) : Hazard where
  waits := h.waits ∨ h'.waits
  fails e := h.fails e ∨ h'.fails e
  breaks e := h.breaks e ∨ h.waits ∧ h'.fails e ∨ h'.breaks e

/-- The first hazard is no more than the second. -/
structure Le (h h' : Hazard) : Prop where
  waits : h.waits → h'.waits
  fails : ∀ e, h.fails e → h'.fails e
  breaks : ∀ e, h.breaks e → h'.breaks e

variable {h h' : Hazard}

theorem Le.refl (h : Hazard) : h.Le h := ⟨id, fun _ => id, fun _ => id⟩

theorem none_le (h : Hazard) : none.Le h :=
  ⟨False.elim, fun _ => False.elim, fun _ => False.elim⟩

theorem le_andThen (h h' : Hazard) : h.Le (h.andThen h') :=
  ⟨.inl, fun _ => .inl, fun _ => .inl⟩

theorem andThen_none_le (h : Hazard) : (h.andThen none).Le h where
  waits hw := hw.elim id False.elim
  fails _ hf := hf.elim id False.elim
  breaks _ hb := hb.elim id fun hb => hb.elim (fun hb => hb.2.elim) False.elim

theorem quiet_andThen_le (hfails : ∀ e, h.fails e) : (quiet.andThen h).Le h where
  waits hw := hw.elim False.elim id
  fails e _ := hfails e
  breaks _ hb := hb.elim False.elim fun hb => hb.elim (fun hb => hb.1.elim) id

end Hazard

/-- From every store with `P` that `s` precedes, the computation goes as the hazard says, and has a
result with `Q` if it succeeds. -/
def Goes (s : Store) (l : Option LoopId) (P : Store → Prop) (x : Infer α) (h : Hazard)
    (Q : Store → α → Prop) : Prop :=
  ∀ u t res, s.Precedes u → P u → x.outcome u = (res, t) →
    ∃ ds, u.PutsOff l ds t ∧ (ds ≠ [] → h.waits) ∧
      (∀ e, res = .error e → h.fails e ∧ (ds ≠ [] → h.breaks e)) ∧ ∀ r, res = .ok r → Q t r

namespace Goes

variable {P P' : Store → Prop} {Q Q' : Store → α → Prop} {R : Store → β → Prop} {h h' : Hazard}

theorem mono (hx : Goes s l P x h Q) (hP : ∀ u, s.Precedes u → P' u → P u)
    (hQ : ∀ t r, Q t r → Q' t r) : Goes s l P' x h Q' := by
  intro u t res hu hPu hout
  obtain ⟨ds, hputs, hwaits, herror, hok⟩ := hx u t res hu (hP u hu hPu) hout
  exact ⟨ds, hputs, hwaits, herror, fun r hr => hQ t r (hok r hr)⟩

theorem weaken (hx : Goes s l P x h Q) (hle : h.Le h') : Goes s l P x h' Q := by
  intro u t res hu hPu hout
  obtain ⟨ds, hputs, hwaits, herror, hok⟩ := hx u t res hu hPu hout
  refine ⟨ds, hputs, fun hds => hle.waits (hwaits hds), fun e he => ?_, hok⟩
  exact ⟨hle.fails e (herror e he).1, fun hds => hle.breaks e ((herror e he).2 hds)⟩

/-- What stores keep as they grow is still there. -/
theorem frame (hx : Goes s l (fun _ => True) x h Q)
    (hP : ∀ u t : Store, u.nodes.size ≤ t.nodes.size → P u → P t) :
    Goes s l P x h fun t r => Q t r ∧ P t := by
  intro u t res hu hPu hout
  obtain ⟨ds, hputs, hwaits, herror, hok⟩ := hx u t res hu trivial hout
  exact ⟨ds, hputs, hwaits, herror, fun r hr => ⟨hok r hr, hP u t hputs.nodes_le hPu⟩⟩

theorem pure {a : α} (ha : ∀ u, s.Precedes u → P u → Q u a) :
    Goes s l P (Pure.pure a) .none Q := by
  rintro u t res hu hPu hout
  cases hout
  refine ⟨[], .refl u, fun hds => absurd rfl hds, nofun, fun r hr => ?_⟩
  cases hr
  exact ha u hu hPu

theorem throw (e : InferError) : Goes s l P (MonadExcept.throw e : Infer α) .quiet Q := by
  rintro u t res - - hout
  cases hout
  exact ⟨[], .refl u, fun hds => absurd rfl hds,
    fun e _ => ⟨trivial, fun hds => absurd rfl hds⟩, nofun⟩

/-- What leaves pendings and loops alone puts nothing off. -/
theorem of_leaves (hx : Leaves x)
    (hQ : ∀ u t r, s.Precedes u → P u → x.outcome u = (.ok r, t) → Q t r) :
    Goes s l P x .quiet Q := by
  intro u t res hu hPu hout
  have hleaves := hx u
  rw [hout] at hleaves
  refine ⟨[], hleaves.of_none l, fun hds => absurd rfl hds,
    fun e _ => ⟨trivial, fun hds => absurd rfl hds⟩, fun r hr => ?_⟩
  exact hQ u t r hu hPu (hr ▸ hout)

/-- **One computation after another.** -/
theorem bind (hx : Goes s l P x h Q) (hf : ∀ a, Goes s l (Q · a) (f a) h' R) :
    Goes s l P (x >>= f) (h.andThen h') R := by
  intro u t res hu hPu hout
  rcases hfirst : x.outcome u with ⟨e | a, v⟩
  · rw [outcome_bind_of_error hfirst] at hout
    cases hout
    obtain ⟨ds, hputs, hwaits, herror, -⟩ := hx u t _ hu hPu hfirst
    refine ⟨ds, hputs, fun hds => .inl (hwaits hds), fun e' he => ?_, nofun⟩
    cases he
    exact ⟨.inl (herror e rfl).1, fun hds => .inl ((herror e rfl).2 hds)⟩
  · rw [outcome_bind_of_ok hfirst] at hout
    obtain ⟨ds, hputs, hwaits, -, hok⟩ := hx u v _ hu hPu hfirst
    obtain ⟨es, hputs', hwaits', herror', hok'⟩ :=
      hf a v t res (hu.trans hputs.precedes) (hok a rfl) hout
    refine ⟨ds ++ es, hputs.trans hputs', fun hne => ?_, fun e he => ?_, hok'⟩
    · by_cases hds : ds = []
      · exact .inr (hwaits' fun hes => hne (by rw [hds, hes]; rfl))
      · exact .inl (hwaits hds)
    · refine ⟨.inr (herror' e he).1, fun hne => .inr ?_⟩
      by_cases hds : ds = []
      · exact .inr ((herror' e he).2 fun hes => hne (by rw [hds, hes]; rfl))
      · exact .inl ⟨hwaits hds, (herror' e he).1⟩

/-- What comes after cannot fail. -/
theorem before (hx : Goes s l P x h Q) (hf : ∀ a, Goes s l (Q · a) (f a) .none R) :
    Goes s l P (x >>= f) h R :=
  (hx.bind hf).weaken h.andThen_none_le

/-- What comes before puts nothing off. -/
theorem after (hx : Goes s l P x .quiet Q) (hf : ∀ a, Goes s l (Q · a) (f a) h R)
    (hfails : ∀ e, h.fails e) : Goes s l P (x >>= f) h R :=
  (hx.bind hf).weaken (Hazard.quiet_andThen_le hfails)

theorem ite {c : Prop} [Decidable c] {y : Infer α} (hx : Goes s l P x h Q)
    (hy : Goes s l P y h Q) : Goes s l P (if c then x else y) h Q := by
  split
  · exact hx
  · exact hy

/-- A computation that depends on the store it starts in. -/
theorem store {f : Store → Infer α} (hf : ∀ u, s.Precedes u → Goes s l P (f u) h Q) :
    Goes s l P (Infer.store >>= f) h Q :=
  fun u t res hu hPu hout => hf u hu u t res hu hPu hout

/-- Without a loop nothing is put off. -/
theorem of_none (hx : Goes s .none P x h Q) (l : Option LoopId) : Goes s l P x .quiet Q := by
  intro u t res hu hPu hout
  obtain ⟨ds, hputs, -, -, hok⟩ := hx u t res hu hPu hout
  exact ⟨[], hputs.of_none l, fun hds => absurd rfl hds,
    fun e _ => ⟨trivial, fun hds => absurd rfl hds⟩, hok⟩

/-- A form without fault becomes a node. -/
theorem make {k : Kind} (hfault : ∀ u, s.Precedes u → P u → u.fault? k = .none) :
    Goes s l P (Infer.make k) .none fun t n => n < t.nodes.size := by
  intro u t res hu hPu hout
  have hleaves := Leaves.make k u
  rw [hout] at hleaves
  rw [outcome_make, build, hfault u hu hPu] at hout
  cases hout
  refine ⟨[], hleaves.of_none l, fun hds => absurd rfl hds, by simp [Except.mapError],
    fun r hr => ?_⟩
  cases hr
  exact u.lt_place k

/-- A trial that fails is no error. -/
theorem attempt (hx : Goes s .none P x h Q) :
    Goes s .none P (Infer.attempt x) .quiet fun _ _ => True := by
  intro u t res hu hPu hout
  rw [outcome_attempt] at hout
  cases hout
  obtain ⟨ds, hputs, -⟩ := hx u _ _ hu hPu rfl
  exact ⟨[], hputs.of_none .none, fun hds => absurd rfl hds,
    fun e _ => ⟨trivial, fun hds => absurd rfl hds⟩, fun _ _ => trivial⟩

end Goes

/-! ### Merges of parts -/

/-- A value that exists. -/
abbrev Present (t : Store) (n : NodeId) : Prop := n < t.nodes.size

/-- A merge of a part, or of none. -/
def partHazard (s : Store) (scope : MergeScope) (forced : Bool) (p : Option (NodeId × NodeId)) :
    Hazard where
  waits := s.PartWaits p
  fails e := s.PartFails scope forced e p
  breaks e := ∃ x y, p = some (x, y) ∧ s.Interrupted scope forced e x y

/-- Merges of parts, one after the other. -/
def partsHazard (s : Store) (scope : MergeScope) (forced : Bool) :
    List (Option (NodeId × NodeId)) → Hazard
  | [] => .none
  | p :: ps => (partHazard s scope forced p).andThen (partsHazard s scope forced ps)

/-- A merge of two values. -/
def nodeHazard (s : Store) (scope : MergeScope) (forced : Bool) (a b : NodeId) : Hazard where
  waits := s.Waits a b
  fails _ := True
  breaks e := s.Interrupted scope forced e a b

/-- A merge of two slots. -/
def slotHazard (s : Store) (v w : Slot) : Hazard :=
  ⟨¬ s.Ready v w, fun _ => True, fun _ => False⟩

section

variable {scope : MergeScope} {forced : Bool} {e : InferError} {a b : NodeId}
  {ps : List (Option (NodeId × NodeId))} {m : NodeId → NodeId → Infer NodeId}

theorem waits_partsHazard (h : (partsHazard s scope forced ps).waits) :
    ∃ p ∈ ps, s.PartWaits p := by
  induction ps with
  | nil => exact h.elim
  | cons p ps ih =>
    rcases h with h | h
    · exact ⟨p, List.mem_cons_self, h⟩
    · obtain ⟨q, hq, hw⟩ := ih h
      exact ⟨q, List.mem_cons_of_mem p hq, hw⟩

theorem fails_partsHazard (h : (partsHazard s scope forced ps).fails e) :
    ∃ p ∈ ps, s.PartFails scope forced e p := by
  induction ps with
  | nil => exact h.elim
  | cons p ps ih =>
    rcases h with h | h
    · exact ⟨p, List.mem_cons_self, h⟩
    · obtain ⟨q, hq, hf⟩ := ih h
      exact ⟨q, List.mem_cons_of_mem p hq, hf⟩

/-- Parts fail after something was put off within one of them, or after one that waits. -/
theorem breaks_partsHazard (h : (partsHazard s scope forced ps).breaks e) :
    (∃ before p after, ps = before ++ p :: after ∧ (∃ q ∈ before, s.PartWaits q) ∧
      s.PartFails scope forced e p) ∨
    ∃ x y, some (x, y) ∈ ps ∧ s.Interrupted scope forced e x y := by
  induction ps with
  | nil => exact h.elim
  | cons p ps ih =>
    rcases h with ⟨x, y, rfl, h⟩ | ⟨hw, hf⟩ | h
    · exact .inr ⟨x, y, List.mem_cons_self, h⟩
    · obtain ⟨q, hq, hfails⟩ := fails_partsHazard hf
      obtain ⟨before, after, rfl⟩ := List.append_of_mem hq
      exact .inl ⟨p :: before, q, after, rfl, ⟨p, List.mem_cons_self, hw⟩, hfails⟩
    · rcases ih h with ⟨before, q, after, rfl, ⟨r, hr, hw⟩, hfails⟩ | ⟨x, y, hmem, h⟩
      · exact .inl ⟨p :: before, q, after, rfl, ⟨r, List.mem_cons_of_mem p hr, hw⟩, hfails⟩
      · exact .inr ⟨x, y, List.mem_cons_of_mem p hmem, h⟩

/-- The hazard of the parts is one of the whole. -/
theorem partsHazard_le :
    (partsHazard s scope forced (s.parts a b)).Le (nodeHazard s scope forced a b) where
  waits h := by
    obtain ⟨p, hp, x, y, rfl, hw⟩ := waits_partsHazard h
    exact .part hp hw
  fails _ _ := trivial
  breaks e h := by
    rcases breaks_partsHazard h with ⟨before, p, after, hparts, hwaits, hfails⟩ | ⟨x, y, hp, h⟩
    · exact .here hparts hwaits hfails
    · exact .part hp h

theorem quiet_le_nodeHazard : Hazard.quiet.Le (nodeHazard s scope forced a b) :=
  ⟨False.elim, fun _ _ => trivial, fun _ => False.elim⟩

/-- What is missing on the left is an error. -/
theorem missing_goes {P : Store → Prop} {Q : Store → α → Prop} (e : InferError) :
    Goes s l P (throw e : Infer α) (partHazard s scope forced none) Q :=
  (Goes.throw e).weaken ⟨False.elim, fun _ _ => nofun, fun _ => False.elim⟩

/-- Items are merged one after the other. -/
theorem mergeEach_goes {xs ys : List NodeId}
    (hm : ∀ x ∈ xs, ∀ y ∈ ys, Goes s l (fun _ => True) (m x y)
      (partHazard s scope forced (some (x, y))) Present) :
    Goes s l (fun _ => True) (mergeEach m xs ys)
      (partsHazard s scope forced ((xs.zip ys).map some)) fun t ns => ∀ n ∈ ns, Present t n := by
  induction xs generalizing ys with
  | nil => exact .pure fun _ _ _ n hn => absurd hn List.not_mem_nil
  | cons x xs ih =>
    cases ys with
    | nil => exact .pure fun _ _ _ n hn => absurd hn List.not_mem_nil
    | cons y ys =>
      have hhead := hm x List.mem_cons_self y List.mem_cons_self
      have htail := ih fun x hx y hy =>
        hm x (List.mem_cons_of_mem _ hx) y (List.mem_cons_of_mem _ hy)
      refine hhead.bind fun n => (htail.frame (P := (Present · n)) ?_).before fun ns => ?_
      · exact fun u t hut hn => Nat.lt_of_lt_of_le hn hut
      · exact .pure fun u _ hu => List.forall_mem_cons.mpr ⟨hu.2, hu.1⟩

/-- Fields are merged one after the other; they keep their names. -/
theorem mergeFields_goes {fs gs : List (String × NodeId)}
    (hm : ∀ f ∈ fs, ∀ y, gs.lookup f.1 = some y → Goes s l (fun _ => True) (m f.2 y)
      (partHazard s scope forced (some (f.2, y))) Present) :
    Goes s l (fun _ => True) (mergeFields m (throw e) gs fs)
      (partsHazard s scope forced (fs.map fun f => (gs.lookup f.1).map (f.2, ·)))
      fun t rs => rs.map Prod.fst = fs.map Prod.fst ∧ ∀ n ∈ rs.map Prod.snd, Present t n := by
  induction fs with
  | nil => exact .pure fun _ _ _ => ⟨rfl, fun n hn => absurd hn List.not_mem_nil⟩
  | cons f fs ih =>
    obtain ⟨name, x⟩ := f
    have htail := ih fun f hf => hm f (List.mem_cons_of_mem _ hf)
    rw [mergeFields_cons]
    refine Goes.bind (Q := Present) ?_ fun n =>
      (htail.frame (P := (Present · n)) ?_).before fun rs => ?_
    · dsimp only
      cases hy : gs.lookup name with
      | some y => exact hm (name, x) List.mem_cons_self y hy
      | none => exact missing_goes e
    · exact fun u t hut hn => Nat.lt_of_lt_of_le hn hut
    · refine .pure ?_
      rintro u - ⟨⟨hnames, hrs⟩, hn⟩
      exact ⟨by simp [hnames], List.forall_mem_cons.mpr ⟨hn, hrs⟩⟩

/-- Options as a tagged union has them: some, present, and with different tags. -/
structure Options (t : Store) (options : List (UInt32 × NodeId)) : Prop where
  some : options ≠ []
  tags : (options.map Prod.fst).Nodup
  present : ∀ o ∈ options, Present t o.2

namespace Options

variable {options : List (UInt32 × NodeId)} {tag : UInt32} {n : NodeId}

theorem later (u t : Store) (hut : u.nodes.size ≤ t.nodes.size) (hu : Options u options) :
    Options t options :=
  ⟨hu.some, hu.tags, fun o ho => Nat.lt_of_lt_of_le (hu.present o ho) hut⟩

theorem set (hu : Options u options) (hn : Present u n) :
    Options u (setOption tag n options) := by
  refine ⟨by simpa [setOption] using hu.some, by rw [setOption_labels]; exact hu.tags, ?_⟩
  intro o' ho'
  obtain ⟨o, ho, rfl⟩ := List.mem_map.mp ho'
  show (if o.1 = tag then (o.1, n) else (o.1, o.2)).2 < u.nodes.size
  split
  · exact hn
  · exact hu.present o ho

theorem add (hu : Options u options) (hn : Present u n) (htag : options.lookup tag = none) :
    Options u (options ++ [(tag, n)]) := by
  refine ⟨by simp, ?_, fun o ho => ?_⟩
  · rw [List.map_append]
    refine List.nodup_append.mpr ⟨hu.tags, List.nodup_singleton _, ?_⟩
    rintro _ hold _ hnew rfl
    obtain ⟨o, ho, heq⟩ := List.mem_map.mp hold
    have hne := List.lookup_eq_none_iff.mp htag o ho
    simp_all
  · rcases List.mem_append.mp ho with ho | ho
    · exact hu.present o ho
    · rw [List.mem_singleton.mp ho]
      exact hn

end Options

/-- Options are merged one after the other into those of the left.  As their tags differ, what was
merged before is not among those that are still to come. -/
theorem mergeOptions_goes {absent : UInt32 → Infer Unit} {xs : List (UInt32 × NodeId)}
    (habsent : ∀ tag, Goes s l (fun _ => True) (absent tag) (partHazard s scope forced none)
      fun _ _ => True) :
    ∀ {ys options : List (UInt32 × NodeId)}, (ys.map Prod.fst).Nodup →
      (∀ o ∈ ys, Present s o.2) →
      (∀ o ∈ ys, ∀ x, xs.lookup o.1 = some x → Goes s l (fun _ => True) (m x o.2)
        (partHazard s scope forced (some (x, o.2))) Present) →
      (∀ o ∈ ys, options.lookup o.1 = xs.lookup o.1) →
      Goes s l (Options · options) (mergeOptions m absent options ys)
        (partsHazard s scope forced (ys.map fun o => (xs.lookup o.1).map (·, o.2))) Options := by
  intro ys
  induction ys with
  | nil => exact fun _ _ _ _ => .pure fun _ _ hu => hu
  | cons o ys ih =>
    obtain ⟨tag, y⟩ := o
    intro options htags hys hm hlookup
    obtain ⟨htag, htags⟩ := List.nodup_cons.mp htags
    have hother : ∀ o ∈ ys, o.1 ≠ tag := fun o ho heq =>
      htag (List.mem_map.mpr ⟨o, ho, heq⟩)
    have hrest := fun o ho => hlookup o (List.mem_cons_of_mem (tag, y) ho)
    have hih := fun options => @ih options htags (fun o ho => hys o (List.mem_cons_of_mem _ ho))
      fun o ho => hm o (List.mem_cons_of_mem _ ho)
    have hhere : options.lookup tag = xs.lookup tag := hlookup (tag, y) List.mem_cons_self
    rw [mergeOptions, hhere, List.map_cons, partsHazard]
    cases hx : xs.lookup tag with
    | some x =>
      have hhead := (hm (tag, y) List.mem_cons_self x hx).frame (P := (Options · options))
        Options.later
      refine hhead.bind fun n => (hih (setOption tag n options) fun o ho => ?_).mono
        (fun u _ hu => hu.2.set hu.1) fun _ _ => id
      rw [lookup_setOption_of_some (hhere.trans hx), if_neg (hother o ho), hrest o ho]
    | none =>
      have hhead := (habsent tag).frame (P := (Options · options)) Options.later
      refine hhead.bind fun _ => (hih (options ++ [(tag, y)]) fun o ho => ?_).mono
        (fun u hu hoptions => ?_) fun _ _ => id
      · rw [List.lookup_append, hrest o ho, List.lookup_cons,
          beq_eq_false_iff_ne.mpr (hother o ho)]
        simp
      · have hy := Nat.lt_of_lt_of_le (hys (tag, y) List.mem_cons_self) hu.nodes_le
        exact hoptions.2.add hy (hhere.trans hx)

theorem absorbed_goes {n : NodeId} {ms : List NodeId}
    (hm : ∀ x ∈ ms, Goes s none (fun _ => True) (m x n) .quiet Present) :
    Goes s none (fun _ => True) (absorbed m n ms) .quiet fun _ _ => True := by
  induction ms with
  | nil => exact .of_leaves (.pure false) fun _ _ _ _ _ _ => trivial
  | cons x ms ih =>
    have htail := ih fun y hy => hm y (List.mem_cons_of_mem x hy)
    rw [absorbed]
    refine (hm x List.mem_cons_self).attempt.after (fun r => ?_) fun _ => trivial
    cases r with
    | ok merged => exact .ite (.of_leaves (.pure true) fun _ _ _ _ _ _ => trivial) htail
    | error e => exact htail

/-- Members are merged by trials, which put nothing off. -/
theorem mergeMembers_goes {uncovered : Infer Unit} (huncovered : Leaves uncovered) :
    ∀ {ns ms : List NodeId}, (∀ x ∈ ms ++ ns, ∀ n ∈ ns,
        Goes s none (fun _ => True) (m x n) .quiet Present) →
      Goes s none (fun _ => True) (mergeMembers m uncovered ms ns) .quiet
        fun _ rs => ∀ r ∈ rs, r ∈ ms ++ ns := by
  intro ns
  induction ns with
  | nil =>
    refine fun _ => .of_leaves (.pure _) fun _ _ rs _ _ h r hr => ?_
    cases h
    exact List.mem_append_left _ hr
  | cons n ns ih =>
    intro ms hm
    have hlater : ∀ {x}, x ∈ ms ++ ns → x ∈ ms ++ n :: ns := fun hx =>
      (List.mem_append.mp hx).elim (List.mem_append_left _) fun hx =>
        List.mem_append_right _ (List.mem_cons_of_mem n hx)
    rw [mergeMembers]
    refine (absorbed_goes fun x hx => hm x (List.mem_append_left _ hx) n List.mem_cons_self).after
      (fun taken => .ite ?_ ?_) fun _ => trivial
    · refine (ih fun x hx y hy => ?_).mono (fun _ _ => id) fun _ _ h r hr => hlater (h r hr)
      exact hm x (hlater hx) y (List.mem_cons_of_mem n hy)
    · refine (Goes.of_leaves huncovered fun _ _ _ _ _ _ => trivial).after
        (Q := fun _ _ => True) (fun _ => ?_) fun _ => trivial
      rw [List.append_cons ms n ns] at hm ⊢
      exact ih fun x hx y hy => hm x hx y (List.mem_cons_of_mem n hy)

/-- Slots are merged, and what becomes of them is put into a node, which is possible for a pending
that stands for their merge. -/
theorem mergeSlots_goes {v w : Slot} {f : Slot → Infer NodeId} {P : Store → Prop}
    (hleaves : ∀ x, Leaves (f x))
    (hpresent : ∀ x u t r, s.Precedes u → (f x).outcome u = (.ok r, t) → Present t r)
    (hpending : ∀ p (u : Store), p < u.pendings.size →
      ∃ r, ((f (.pending p)).outcome u).1 = .ok r) :
    Goes s scope.loop P (mergeSlots scope forced v w >>= f) (slotHazard s v w) Present := by
  intro u t res hu _ hout
  have hnothing : ∀ {res : Except InferError NodeId}, (∀ r, res = .ok r → Present t r) →
      u.PutsOff none [] t → ∃ ds, u.PutsOff scope.loop ds t ∧ (ds ≠ [] → ¬ s.Ready v w) ∧
        (∀ e, res = .error e → True ∧ (ds ≠ [] → False)) ∧ ∀ r, res = .ok r → Present t r :=
    fun hres hputs => ⟨[], hputs.of_none _, fun hds => absurd rfl hds,
      fun e _ => ⟨trivial, fun hds => hds rfl⟩, hres⟩
  rcases hslots : (mergeSlots scope forced v w).outcome u with ⟨e | x, u'⟩
  · rw [outcome_bind_of_error hslots] at hout
    cases hout
    rcases outcome_mergeSlots hu hslots with hputs | ⟨-, d, -, h⟩
    · exact hnothing nofun hputs
    · exact nomatch h
  · rw [outcome_bind_of_ok hslots] at hout
    have hrest := hleaves x u'
    rw [hout] at hrest
    rcases outcome_mergeSlots hu hslots with hputs | ⟨hwaits, d, hputs, hx⟩
    · refine hnothing (fun r hr => ?_) (hputs.trans hrest)
      exact hpresent x u' t r (hu.trans hputs.precedes) (hr ▸ hout)
    · cases hx
      have hlt : d.out < u'.pendings.size := by
        have hnew : [d.out] = [u.pendings.size] := hputs.outs
        rw [hputs.size, List.singleton_inj.mp hnew]
        exact Nat.lt_succ_self _
      obtain ⟨r, hr⟩ := hpending d.out u' hlt
      rw [hout] at hr
      refine ⟨[d], by simpa using hputs.trans (hrest.of_none _), fun _ => hwaits, fun e he => ?_,
        fun r hr => hpresent _ u' t r (hu.trans hputs.precedes) (hr ▸ hout)⟩
      exact nomatch hr.symm.trans he

/-! ### Merges of values -/

theorem kept_goes {n : NodeId} (hn : Present s n) :
    Goes s l (fun _ => True) (pure n) .none Present :=
  .pure fun _ hu _ => Nat.lt_of_lt_of_le hn hu.nodes_le

/-- A form without slots over nodes that there are, which keeps the rules and is no union, has no
fault. -/
theorem fault?_of_present {k : Kind} (hslot : k.slot? = none) (hk : k.Conforms)
    (hunion : k.isUnion = false) (hchildren : ∀ n ∈ k.children, Present u n) :
    u.fault? k = none := by
  refine fault?_eq_none_iff.mpr ⟨knows_iff.mpr ⟨hchildren, fun p hp => ?_⟩, hk, fun ms hms => ?_⟩
  · simp [Kind.pendings, hslot] at hp
  · rw [hms] at hunion
    cases hunion

/-- Forms of a pending have no fault. -/
theorem fault?_of_pending {k : Kind} {p : PendingId} (hslot : k.slot? = some (.pending p))
    (hp : p < u.pendings.size) : u.fault? k = none := by
  have hknows : u.knows k = true := by
    refine knows_iff.mpr ⟨fun n hn => ?_, fun q hq => ?_⟩
    · rw [Kind.children_of_slot hslot] at hn
      exact absurd hn List.not_mem_nil
    · rw [Kind.pendings, hslot] at hq
      exact List.mem_singleton.mp hq ▸ hp
  cases k with
  | scalar v ty =>
    cases hslot
    exact (fault?_scalar hknows).mpr fun c hc => absurd hc List.not_mem_nil
  | function v =>
    cases hslot
    exact (fault?_function hknows).mpr fun c hc => absurd hc List.not_mem_nil
  | _ => cases hslot

/-- The parts of two values are merged, and the results put together. -/
theorem parts_goes {x : Infer α} {Q : Store → α → Prop} {c : α → Prop} [DecidablePred c]
    {k : α → Kind} (ha : Present s a)
    (hx : Goes s l (fun _ => True) x (partsHazard s scope forced ps) Q) (hps : s.parts a b = ps)
    (hfault : ∀ u r, Q u r → u.fault? (k r) = none) :
    Goes s l (fun _ => True) (x >>= fun r => if c r then pure a else make (k r))
      (nodeHazard s scope forced a b) Present := by
  subst hps
  refine (hx.before fun r => .ite ?_ ?_).weaken partsHazard_le
  · exact (kept_goes ha).mono (fun _ _ _ => trivial) fun _ _ => id
  · exact .make fun u _ hr => hfault u r hr

/-- Slots are merged, and the result put into a node. -/
theorem slots_goes {v w : Slot} {c : Slot → Prop} [DecidablePred c] {k : Slot → Kind}
    (ha : Present s a) (hslots : s.slotPair? a b = some (v, w))
    (hk : ∀ x, (k x).slot? = some x) :
    Goes s scope.loop (fun _ => True)
      (mergeSlots scope forced v w >>= fun r => if c r then pure a else make (k r))
      (nodeHazard s scope forced a b) Present := by
  refine (mergeSlots_goes (fun x => .ite (.pure a) (.make (k x))) (fun x u t r hu h => ?_)
    fun p u hp => ?_).weaken ⟨.slots hslots, fun _ _ => trivial, fun _ => False.elim⟩
  · rw [outcome_ite] at h
    split at h
    · cases h
      exact Nat.lt_of_lt_of_le ha hu.nodes_le
    · obtain ⟨-, hplace⟩ := outcome_make_ok h
      have hlt := u.lt_place (k x)
      rwa [hplace] at hlt
  · rw [outcome_ite]
    split
    · exact ⟨a, rfl⟩
    · rw [outcome_make, build, fault?_of_pending (hk _) hp]
      exact ⟨_, rfl⟩

/-- The union of values that there are is there. -/
theorem present_union {ns : List NodeId} {r : NodeId}
    (hns : ∀ n ∈ ns, ∀ m ∈ u.members n, Present u m)
    (h : (union ns).outcome u = (.ok r, t)) : Present t r := by
  have hmem : ∀ m ∈ u.distinctMembers ns, Present u m := by
    intro m hm
    have hthinned : Thinned u.equal (u.distinctMembers ns) (ns.flatMap u.members) :=
      thinned_foldl (fun _ _ => rfl) _
    obtain ⟨n, hn, hmn⟩ := List.mem_flatMap.mp (hthinned.sublist.mem hm)
    exact hns n hn m hmn
  rw [union, outcome_store_bind] at h
  split at h
  · cases (congrArg Prod.fst h)
  · next m hm =>
    cases h
    exact hmem r (hm ▸ List.mem_singleton_self r)
  · obtain ⟨-, hplace⟩ := outcome_make_ok h
    have hlt := u.lt_place (.union (u.sortMembers (u.distinctMembers ns)))
    rwa [hplace] at hlt

section

variable {es : List (Store × Change)}
  {rec : MergeScope → Bool → NodeId → NodeId → Infer NodeId}

/-- The merges of all parts go as they should. -/
def PartsGo (s : Store) (rec : MergeScope → Bool → NodeId → NodeId → Infer NodeId) : Prop :=
  ∀ (scope : MergeScope) (forced : Bool) (x y : NodeId), Present s x → Present s y →
    Goes s scope.loop (fun _ => True) (rec scope forced x y)
      (partHazard s scope forced (some (x, y))) Present

/-- Values with one part each. -/
theorem single_goes {x y : NodeId} (k : NodeId → Kind) (hs : History es s) (hrec : PartsGo s rec)
    (ha : Present s a) (hparts : s.parts a b = [some (x, y)])
    (hx : (s.kind a).children = [x]) (hy : (s.kind b).children = [y])
    (hk : ∀ r, (k r).slot? = none ∧ (k r).Conforms ∧ (k r).isUnion = false ∧
      (k r).children = [r]) :
    Goes s scope.loop (fun _ => True)
      (rec scope forced x y >>= fun r => if r = x then pure a else make (k r))
      (nodeHazard s scope forced a b) Present := by
  have hpart := hrec scope forced x y (hs.known a x (hx ▸ List.mem_singleton_self x))
    (hs.known b y (hy ▸ List.mem_singleton_self y))
  refine parts_goes ha (hpart.weaken (Hazard.le_andThen _ .none)) hparts fun u r hr => ?_
  obtain ⟨hslot, hconforms, hunion, hchildren⟩ := hk r
  refine fault?_of_present hslot hconforms hunion fun n hn => ?_
  rw [hchildren, List.mem_singleton] at hn
  exact hn ▸ hr

theorem tuples_goes {xs ys : List NodeId} (hs : History es s) (hrec : PartsGo s rec)
    (ha : Present s a) (hka : s.kind a = .tuple xs) (hkb : s.kind b = .tuple ys) :
    Goes s scope.loop (fun _ => True)
      (mergeEach (rec scope forced) xs ys >>= fun rs => if rs = xs then pure a else tuple rs)
      (nodeHazard s scope forced a b) Present := by
  have hitems := mergeEach_goes (l := scope.loop) fun x (hx : x ∈ xs) y (hy : y ∈ ys) =>
    hrec scope forced x y (hs.known a x (hka ▸ hx)) (hs.known b y (hkb ▸ hy))
  refine parts_goes ha hitems (by rw [Store.parts, hka, hkb]) fun u rs hrs => ?_
  exact fault?_of_present rfl trivial rfl hrs

theorem records_goes {tag tag' : String} {fs gs : List (String × NodeId)} (hs : History es s)
    (hrec : PartsGo s rec) (ha : Present s a) (hka : s.kind a = .record tag fs)
    (hkb : s.kind b = .record tag' gs) :
    Goes s scope.loop (fun _ => True)
      (mergeFields (rec scope forced) (throw e) gs fs >>= fun rs =>
        if rs = fs then pure a else record tag rs)
      (nodeHazard s scope forced a b) Present := by
  have hfields := mergeFields_goes (l := scope.loop) (e := e) fun f (hf : f ∈ fs) y hy =>
    hrec scope forced f.2 y (hs.known a _ (hka ▸ List.mem_map_of_mem hf))
      (hs.known b y (hkb ▸ mem_snd_of_lookup hy))
  refine parts_goes ha hfields (by rw [Store.parts, hka, hkb]) fun u rs ⟨hnames, hrs⟩ => ?_
  refine fault?_of_present rfl ?_ rfl hrs
  have hnodup := hs.conforms a
  rw [hka] at hnodup
  show (rs.map Prod.fst).Nodup
  exact hnames ▸ hnodup

theorem tagged_goes {xs ys : List (UInt32 × NodeId)} {absent : UInt32 → Infer Unit}
    (hs : History es s) (hrec : PartsGo s rec) (ha : Present s a)
    (hka : s.kind a = .tagged xs) (hkb : s.kind b = .tagged ys)
    (habsent : ∀ tag, Goes s scope.loop (fun _ => True) (absent tag)
      (partHazard s scope forced none) fun _ _ => True) :
    Goes s scope.loop (fun _ => True)
      (mergeOptions (rec scope forced) absent xs ys >>= fun rs =>
        if rs = xs then pure a else tagged rs)
      (nodeHazard s scope forced a b) Present := by
  have hleft := hs.conforms a
  have hright := hs.conforms b
  rw [hka] at hleft
  rw [hkb] at hright
  have hxs : ∀ o ∈ xs, Present s o.2 := fun o ho => hs.known a _ (hka ▸ List.mem_map_of_mem ho)
  have hys : ∀ o ∈ ys, Present s o.2 := fun o ho => hs.known b _ (hkb ▸ List.mem_map_of_mem ho)
  have hoptions := mergeOptions_goes habsent hright.2 hys (fun o ho x hx =>
    hrec scope forced x o.2 (hs.known a x (hka ▸ mem_snd_of_lookup hx)) (hys o ho)) fun o _ => rfl
  have hstart : ∀ u, s.Precedes u → Options u xs := fun u hu =>
    ⟨hleft.1, hleft.2, fun o ho => Nat.lt_of_lt_of_le (hxs o ho) hu.nodes_le⟩
  refine parts_goes ha (hoptions.mono (fun u hu _ => hstart u hu) fun _ _ => id)
    (by rw [Store.parts, hka, hkb]) fun u rs hrs => ?_
  -- the options are put in the order of their tags
  have hperm := stableSort_perm (fun o o' : UInt32 × NodeId => decide (o.1 ≤ o'.1)) rs
  refine fault?_of_present rfl ⟨fun hnil => hrs.some ?_, ?_⟩ rfl fun n hn => ?_
  · rw [hnil] at hperm
    exact hperm.nil_eq.symm
  · exact (hperm.map Prod.fst).nodup_iff.mpr hrs.tags
  · obtain ⟨o, ho, rfl⟩ := List.mem_map.mp hn
    exact hrs.present o (hperm.mem_iff.mp ho)

theorem unions_goes {uncovered : Infer Unit} (hs : History es s) (hrec : PartsGo s rec)
    (ha : Present s a) (hb : Present s b) (huncovered : Leaves uncovered) :
    Goes s scope.loop (fun _ => True)
      (mergeMembers (rec { scope with loop := none } true) uncovered (s.members a)
        (s.members b) >>= fun rs =>
          if rs.length = (s.members a).length then pure a else union rs)
      (nodeHazard s scope forced a b) Present := by
  have hmember : ∀ {n m}, Present s n → m ∈ s.members n → Present s m := by
    intro n m hn hm
    rcases Store.mem_members hm with hm | ⟨rfl, -⟩
    · exact hs.known n m hm
    · exact hn
  have hboth : ∀ {m}, m ∈ s.members a ++ s.members b → Present s m := fun hm =>
    (List.mem_append.mp hm).elim (hmember ha) (hmember hb)
  have hmerged := mergeMembers_goes (s := s) huncovered fun x hx y (hy : y ∈ s.members b) =>
    (hrec { scope with loop := none } true x y (hboth hx) (hmember hb hy)).of_none none
  have hput : ∀ rs : List NodeId, Leaves
      (if rs.length = (s.members a).length then pure a else union rs) := fun rs =>
    .ite (.pure a) (.union rs)
  refine (hmerged.after (h := .quiet) (fun rs => .of_leaves (hput rs) fun u t r hu hrs h => ?_)
    fun _ => trivial).of_none scope.loop |>.weaken quiet_le_nodeHazard
  rw [outcome_ite] at h
  split at h
  · cases h
    exact Nat.lt_of_lt_of_le ha hu.nodes_le
  refine present_union (fun n hn m hm => ?_) h
  rw [Store.members, hu.kind_eq (hboth (hrs n hn)), ← Store.members] at hm
  exact Nat.lt_of_lt_of_le (hmember (hboth (hrs n hn)) hm) hu.nodes_le

/-- **A merge of two different values** puts off what waits in its parts, up to the first that
fails. -/
theorem mergeStep_goes (hs : History es s) (hrec : PartsGo s rec) (ha : Present s a)
    (hb : Present s b) :
    Goes s scope.loop (fun _ => True) (mergeStep rec scope forced a b)
      (nodeHazard s scope forced a b) Present := by
  have hkeep : ∀ n, Present s n → Goes s scope.loop (fun _ => True) (pure n)
      (nodeHazard s scope forced a b) Present := fun n hn => (kept_goes hn).weaken (Hazard.none_le _)
  have hrefuse : ∀ reason, Goes s scope.loop (fun _ => True) (mismatch a b reason : Infer NodeId)
      (nodeHazard s scope forced a b) Present := fun reason =>
    (Goes.throw _).weaken quiet_le_nodeHazard
  have huncovered : Leaves (if forced then mismatch a b .uncovered else return ()) :=
    .ite (.throw _) (.pure _)
  refine .store fun u hu => ?_
  have hmembers : ∀ {n}, Present s n → u.members n = s.members n := fun hn => by
    rw [Store.members, hu.kind_eq hn, Store.members]
  rw [hu.kind_eq ha, hu.kind_eq hb, hmembers ha, hmembers hb]
  split
  case h_1 => exact .ite (hrefuse _) (hkeep b hb)
  case h_2 => exact hkeep a ha
  case h_3 v t w u hka hkb =>
    refine (Goes.of_leaves (.mergeTypes forced t u) fun _ _ _ _ _ _ => trivial).after
      (Q := fun _ _ => True) (fun ty => ?_) fun _ => trivial
    exact slots_goes ha (by rw [Store.slotPair?, hka, hkb]) fun _ => rfl
  case h_4 xs ys hka hkb => exact .ite (hrefuse _) (tuples_goes hs hrec ha hka hkb)
  case h_5 x y hka hkb =>
    exact single_goes .list hs hrec ha (by rw [Store.parts, hka, hkb]) (by rw [hka]; rfl)
      (by rw [hkb]; rfl) fun _ => ⟨rfl, trivial, rfl, rfl⟩
  case h_6 x shape y shape' hka hkb =>
    refine .ite (hrefuse _) ?_
    exact single_goes (.array · shape) hs hrec ha (by rw [Store.parts, hka, hkb])
      (by rw [hka]; rfl) (by rw [hkb]; rfl) fun _ => ⟨rfl, trivial, rfl, rfl⟩
  case h_7 tag fs tag' gs hka hkb =>
    exact .ite (hrefuse _) (.ite (hrefuse _) (records_goes hs hrec ha hka hkb))
  case h_8 ms hka hdead' => exact unions_goes hs hrec ha hb huncovered
  case h_9 ns hkb hdead _ => exact unions_goes hs hrec ha hb huncovered
  case h_10 xs ys hka hkb =>
    refine tagged_goes hs hrec ha hka hkb fun tag => .ite (missing_goes _) ?_
    exact (Goes.pure fun _ _ _ => trivial).weaken (Hazard.none_le _)
  case h_11 v w hka hkb =>
    exact slots_goes ha (by rw [Store.slotPair?, hka, hkb]) fun _ => rfl
  case h_12 x y hka hkb =>
    exact single_goes .jtagged hs hrec ha (by rw [Store.parts, hka, hkb]) (by rw [hka]; rfl)
      (by rw [hkb]; rfl) fun _ => ⟨rfl, trivial, rfl, rfl⟩
  all_goals exact hrefuse _

/-- A merge that goes as merges of values do goes as the merge of a part. -/
theorem part_of_node {fuel : Nat} {x y : NodeId}
    (h : Goes s l (fun _ => True) (mergeWithin fuel scope forced x y)
      (nodeHazard s scope forced x y) Present) :
    Goes s l (fun _ => True) (mergeWithin fuel scope forced x y)
      (partHazard s scope forced (some (x, y))) Present := by
  intro u t res hu hP hout
  obtain ⟨ds, hputs, hwaits, herror, hok⟩ := h u t res hu hP hout
  refine ⟨ds, hputs, fun hds => ⟨x, y, rfl, hwaits hds⟩, fun e he => ⟨?_, fun hds => ?_⟩, hok⟩
  · rintro _ _ ⟨⟩
    exact ⟨fuel, u, t, hu, he ▸ hout⟩
  · exact ⟨x, y, rfl, (herror e he).2 hds⟩

/-- **A merge of two values** puts off what waits in them, up to the first part that fails. -/
theorem mergeWithin_goes (hs : History es s) (fuel : Nat) : ∀ (scope : MergeScope)
    (forced : Bool) (a b : NodeId), Present s a → Present s b →
      Goes s scope.loop (fun _ => True) (mergeWithin fuel scope forced a b)
        (nodeHazard s scope forced a b) Present := by
  induction fuel with
  | zero => exact fun scope forced a b _ _ => (Goes.throw _).weaken quiet_le_nodeHazard
  | succ fuel ih =>
    intro scope forced a b ha hb
    refine .store fun u hu => .ite ((kept_goes ha).weaken (Hazard.none_le _)) ?_
    exact mergeStep_goes hs (fun scope forced x y hx hy =>
      part_of_node (ih scope forced x y hx hy)) ha hb

/-- **A merge that fails leaves what was there.**  No pending and no other loop changes, and the
loop of the merge keeps its tasks, pendings and queue and has forced nothing.  All that is new are
merges that were put off as a whole, each an open pending with a task; and nothing is new at all
unless a part that had to wait stood before the one that failed. -/
theorem merge_error_keeps (hs : History es s) (ha : Present s a) (hb : Present s b)
    (h : (merge scope forced a b).outcome s = (.error e, t)) :
    ∃ ds, s.PutsOff scope.loop ds t ∧
      (∀ p < s.pendings.size, t.pendings[p]? = s.pendings[p]?) ∧
      (∀ (i : LoopId) loop, s.loops[i]? = some loop → ∃ ready, loop.ready <+: ready ∧
        t.loops[i]? = some (if scope.loop = some i then { loop with
          ready
          tasks := loop.tasks ++ ds.mapIdx fun i d => (loop.spawned + i, .merge d)
          pendings := loop.pendings ++ ds.map Deferral.out
          spawned := loop.spawned + ds.length } else loop)) ∧
      (t.pendings = s.pendings ∧ t.loops = s.loops ∨ s.Interrupted scope forced e a b) := by
  rw [merge, outcome_store_bind] at h
  obtain ⟨ds, hputs, -, herror, -⟩ :=
    mergeWithin_goes hs _ scope forced a b ha hb s t _ (.refl s) trivial h
  refine ⟨ds, hputs, fun p => hputs.pending_eq, fun i loop => hputs.loop_eq, ?_⟩
  by_cases hds : ds = []
  · subst hds
    exact .inl ⟨hputs.untouched.pendings, hputs.untouched.loops⟩
  · exact .inr ((herror e rfl).2 hds)

end

end

/-- A tuple of an open pending and a text, and one of a number and another text. -/
def tornTuples : List Change :=
  [.openLoop {}, .openPending 0 none .unranked,
    .build (.scalar (.pending 0) (.int 64)), .build (.scalar (.constant (.string "s")) .string),
    .build (.scalar (.constant (.int 1)) (.int 64)),
    .build (.scalar (.constant (.string "t")) .string),
    .build (.tuple [0, 1]), .build (.tuple [2, 3])]

/-- The texts contradict each other, but by then the merge of the numbers is put off: the loop has
a task and a pending more, and the task is queued. -/
theorem merge_error_adds_tornTuples :
    let s := tornTuples.foldl Change.apply {}
    let r := (merge (s.mergeScope (some 0)) false 4 5).outcome s
    r.1 = .error (.typeMismatch (.slot (.constant (.string "s"))) (.slot (.constant (.string "t")))
      .notWidenable) ∧
    (s.loops[0]?.map fun l => (l.tasks.length, l.ready, l.pendings)) = some (0, [], [0]) ∧
    (r.2.loops[0]?.map fun l => (l.tasks.length, l.ready, l.pendings)) = some (1, [0], [0, 1]) := by
  decide +kernel

/-- The pending of the tuple is as it was, and one merge was put off. -/
theorem merge_error_keeps_tornTuples :
    let s := tornTuples.foldl Change.apply {}
    let scope := s.mergeScope (some 0)
    let r := (merge scope false 4 5).outcome s
    ∃ e ds, r.1 = .error e ∧ s.PutsOff scope.loop ds r.2 ∧ ds.length = 1 ∧
      r.2.pendings[0]? = s.pendings[0]? ∧ s.Interrupted scope false e 4 5 := by
  intro s scope r
  have hs : History (events {} tornTuples) s := History.start.changes tornTuples
  have hnodes : s.nodes.size = 6 := by decide +kernel
  have hfails : r.1 = .error (.typeMismatch (.slot (.constant (.string "s")))
      (.slot (.constant (.string "t"))) .notWidenable) := by decide +kernel
  obtain ⟨ds, hputs, hpendings, -, hparts⟩ := merge_error_keeps (t := r.2) (a := 4) (b := 5) hs
    (by rw [Present, hnodes]; decide) (by rw [Present, hnodes]; decide) (Prod.ext hfails rfl)
  have hold : s.pendings.size = 1 := by decide +kernel
  have hnew : r.2.pendings.size = 2 := by decide +kernel
  refine ⟨_, ds, hfails, hputs, ?_, hpendings 0 (by rw [hold]; decide),
    hparts.resolve_left fun h => ?_⟩
  · have hsize := hputs.size
    omega
  · rw [h.1, hold] at hnew
    exact absurd hnew (by decide)

end Infer

end ValueInference
