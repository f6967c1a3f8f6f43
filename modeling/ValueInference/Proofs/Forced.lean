/-
Forced merges decide coverage.

* **`Infer.Yields`** — a computation gives a result where a proposition holds, and fails where it
  does not if it is forced; in both cases the store is left as it is;
* **`Infer.mergeStep_admits`** — one level of a merge asks that one form admits the other one;
* **`Infer.merge_yields`** — a forced merge of closed values succeeds exactly where the left value
  covers the right one; a relaxed merge does the same where it does.
-/
import ValueInference.Proofs.Covers

namespace ValueInference

namespace Infer

variable {α β : Type} {forced strict : Bool} {s : Store} {P Q : Prop}

/-- Where `P` holds the result is `a`; where it does not, a forced computation fails.  The store
stays as it is. -/
def Yields (forced : Bool) (x : Infer α) (s : Store) (P : Prop) (a : α) : Prop :=
  (P → x.outcome s = (.ok a, s)) ∧ (forced = true → ¬ P → ∃ e, x.outcome s = (.error e, s))

theorem yields_pure (a : α) : Yields forced (pure a) s True a :=
  ⟨fun _ => rfl, fun _ h => absurd trivial h⟩

theorem yields_throw (e : InferError) (a : α) : Yields forced (throw e) s False a :=
  ⟨False.elim, fun _ _ => ⟨e, rfl⟩⟩

/-- What a forced computation refuses. -/
theorem yields_refuse (e : InferError) (x : Infer α) (a : α) :
    Yields forced (if forced = true then throw e else x) s False a := by
  refine ⟨False.elim, fun hforced _ => ⟨e, ?_⟩⟩
  rw [if_pos hforced]
  rfl

namespace Yields

variable {x : Infer α} {a : α} {b : β}

theorem congr (h : Yields forced x s P a) (hPQ : P ↔ Q) : Yields forced x s Q a :=
  ⟨fun hQ => h.1 (hPQ.mpr hQ), fun hforced hQ => h.2 hforced fun hP => hQ (hPQ.mp hP)⟩

/-- What a forced computation does is what one does of which less is asked. -/
theorem loosen (h : Yields forced x s P a) (hstrict : strict = true → forced = true) :
    Yields strict x s P a :=
  ⟨h.1, fun hasked => h.2 (hstrict hasked)⟩

theorem store {f : Store → Infer α} (h : Yields forced (f s) s P a) :
    Yields forced (Infer.store >>= f) s P a :=
  h

theorem of_ok {f : β → Infer α} {y : Infer β} {b : β} (hy : y.outcome s = (.ok b, s))
    (h : Yields forced (f b) s P a) : Yields forced (y >>= f) s P a := by
  rwa [Yields, outcome_bind_of_ok hy]

theorem bind {f : α → Infer β} (hx : Yields forced x s P a)
    (hf : P → Yields forced (f a) s Q b) : Yields forced (x >>= f) s (P ∧ Q) b := by
  refine ⟨fun ⟨hP, hQ⟩ => ?_, fun hforced hnot => ?_⟩
  · rw [outcome_bind_of_ok (hx.1 hP)]
    exact (hf hP).1 hQ
  · by_cases hP : P
    · rw [outcome_bind_of_ok (hx.1 hP)]
      exact (hf hP).2 hforced fun hQ => hnot ⟨hP, hQ⟩
    · obtain ⟨e, he⟩ := hx.2 hforced hP
      exact ⟨e, outcome_bind_of_error he⟩

theorem refuse {f : α → Infer β} (hx : Yields forced x s False a) :
    Yields forced (x >>= f) s False b := by
  refine ⟨False.elim, fun hforced _ => ?_⟩
  obtain ⟨e, he⟩ := hx.2 hforced id
  exact ⟨e, outcome_bind_of_error he⟩

/-- A computation that goes on with its result unchanged. -/
theorem returns {f : α → Infer β} (hx : Yields forced x s P a) (hf : f a = pure b) :
    Yields forced (x >>= f) s P b :=
  (hx.bind fun _ => hf ▸ yields_pure b).congr (and_iff_left trivial)

theorem guard {c : Prop} [Decidable c] (e : InferError) (h : ¬ c → Yields forced x s P a) :
    Yields forced (if c then throw e else x) s (¬ c ∧ P) a := by
  by_cases hc : c
  · rw [if_pos hc]
    exact (yields_throw e a).congr (by simp [hc])
  · rw [if_neg hc]
    exact (h hc).congr (by simp [hc])

end Yields

/-! ### Parts -/

theorem mergeTypes_yields (t u : Ty) :
    Yields forced (mergeTypes forced t u) s (t = u ∨ t = .any) t := by
  rw [mergeTypes]
  by_cases h : t = u ∨ t = .any
  · rw [if_pos h]
    exact (yields_pure t).congr (iff_of_true trivial h)
  · rw [if_neg h]
    exact (yields_refuse _ _ t).congr (iff_of_false id h)

theorem mergeCandidates_yields (scope : MergeScope) (v w ra rb : Slot) :
    Yields forced (mergeCandidates scope forced v w ra rb) s
      (s.isSubset (candidatesOf rb) (candidatesOf ra) = true) v := by
  refine .store ?_
  dsimp only
  by_cases h : s.isSubset (candidatesOf rb) (candidatesOf ra) = true
  · rw [if_pos h]
    exact (yields_pure v).congr (iff_of_true trivial h)
  · rw [if_neg h]
    exact (yields_refuse _ _ v).congr (iff_of_false id h)

theorem isSubset_constant (c d : Constant) :
    s.isSubset [.constant d] [.constant c] = true ↔ c = d := by
  rw [Store.isSubset_iff fun _ hx => ?_]
  · simp [Candidate.Alike]
  · obtain rfl := List.mem_singleton.mp hx
    exact fun n hn => absurd hn List.not_mem_nil

theorem resolve_ne_pending {slot : Slot} (h : s.Settled slot) (p : PendingId) :
    s.resolve slot ≠ .pending p := by
  intro hp
  have := h.known
  rw [Store.waitsOn, hp] at this
  exact absurd this (by simp)

theorem mergeSlots_yields {v w : Slot} (scope : MergeScope) (hpv : ∀ p, s.resolve v ≠ .pending p)
    (hpw : ∀ p, s.resolve w ≠ .pending p) :
    Yields forced (mergeSlots scope forced v w) s (s.SlotCovers v w) v := by
  refine .store ?_
  rw [Store.SlotCovers]
  generalize s.resolve v = ra at *
  generalize s.resolve w = rb at *
  cases ra with
  | anything => exact (yields_pure v).congr (by simp)
  | pending p => exact absurd rfl (hpv p)
  | constant c =>
    cases rb with
    | anything => exact (yields_refuse _ _ v).congr (by simp)
    | pending p => exact absurd rfl (hpw p)
    | constant d =>
      have hiff : c = d ↔ Slot.constant c = .anything ∨ Slot.constant d ≠ .anything ∧
          s.isSubset (candidatesOf (.constant d)) (candidatesOf (.constant c)) = true := by
        simp [candidatesOf, isSubset_constant]
      refine Yields.congr ?_ hiff
      dsimp only
      by_cases h : c = d
      · rw [if_pos h]
        exact (yields_pure v).congr (iff_of_true trivial h)
      · rw [if_neg h]
        exact (yields_refuse _ _ v).congr (iff_of_false id h)
    | possibilities q => exact (mergeCandidates_yields ..).congr (by simp)
  | possibilities p =>
    cases rb with
    | anything => exact (yields_refuse _ _ v).congr (by simp)
    | pending p => exact absurd rfl (hpw p)
    | constant d => exact (mergeCandidates_yields ..).congr (by simp)
    | possibilities q => exact (mergeCandidates_yields ..).congr (by simp)

/-! ### Lists -/

section

variable {R : NodeId → NodeId → Prop} {m : NodeId → NodeId → Infer NodeId}

theorem mergeEach_yields : ∀ {xs ys : List NodeId}, xs.length = ys.length →
    (∀ x ∈ xs, ∀ y ∈ ys, Yields forced (m x y) s (R x y) x) →
      Yields forced (mergeEach m xs ys) s (List.Forall₂ R xs ys) xs := by
  intro xs
  induction xs with
  | nil =>
    intro ys hlen _
    obtain rfl : ys = [] := List.length_eq_zero_iff.mp hlen.symm
    exact (yields_pure []).congr (by simp)
  | cons x xs ih =>
    intro ys hlen h
    cases ys with
    | nil => exact absurd hlen (by simp)
    | cons y ys =>
      have hhead := h x List.mem_cons_self y List.mem_cons_self
      have htail := ih (by simpa using hlen) fun x' hx y' hy =>
        h x' (List.mem_cons_of_mem x hx) y' (List.mem_cons_of_mem y hy)
      exact (hhead.bind fun _ => htail.returns (by rfl)).congr List.forall₂_cons.symm

theorem mergeFields_cons (m : NodeId → NodeId → Infer NodeId) (missing : Infer NodeId)
    (gs fs : List (String × NodeId)) (name : String) (x : NodeId) :
    mergeFields m missing gs ((name, x) :: fs) =
      (match gs.lookup name with
        | some y => m x y
        | none => missing) >>= fun merged =>
          mergeFields m missing gs fs >>= fun rest => pure ((name, merged) :: rest) := by
  rw [mergeFields]
  cases gs.lookup name <;> rfl

theorem mergeFields_yields {missing : Infer NodeId} {gs : List (String × NodeId)}
    (hmissing : ∀ a, Yields forced missing s False a) : ∀ {fs : List (String × NodeId)},
    (∀ x ∈ fs.map Prod.snd, ∀ y ∈ gs.map Prod.snd, Yields forced (m x y) s (R x y) x) →
      Yields forced (mergeFields m missing gs fs) s
        (∀ f ∈ fs, ∃ y, gs.lookup f.1 = some y ∧ R f.2 y) fs := by
  intro fs
  induction fs with
  | nil =>
    intro _
    exact (yields_pure []).congr (by simp)
  | cons f fs ih =>
    intro h
    obtain ⟨name, x⟩ := f
    have htail := ih fun x' hx => h x' (List.mem_cons_of_mem x hx)
    have hhead : Yields forced (match gs.lookup name with
        | some y => m x y
        | none => missing) s (∃ y, gs.lookup name = some y ∧ R x y) x := by
      cases hy : gs.lookup name with
      | none => exact (hmissing x).congr (by simp)
      | some y =>
        exact (h x List.mem_cons_self y (mem_snd_of_lookup hy)).congr (by simp)
    refine Yields.congr ?_ List.forall_mem_cons.symm
    rw [mergeFields_cons]
    exact hhead.bind fun _ => htail.returns (by rfl)

theorem setOption_eq {tag : UInt32} {x : NodeId} : ∀ {xs : List (UInt32 × NodeId)},
    (xs.map Prod.fst).Nodup → xs.lookup tag = some x → setOption tag x xs = xs := by
  intro xs
  induction xs with
  | nil => exact fun _ _ => rfl
  | cons o xs ih =>
    intro hnodup hlookup
    obtain ⟨hhead, htail⟩ := List.nodup_cons.mp hnodup
    have hmap : setOption tag x (o :: xs) =
        (if o.1 = tag then (o.1, x) else o) :: setOption tag x xs := rfl
    rw [List.lookup_cons] at hlookup
    rw [hmap]
    split at hlookup
    · next htag =>
      obtain rfl : tag = o.1 := by simpa using htag
      obtain rfl : o.2 = x := by simpa using hlookup
      -- no later option has the tag
      have hrest : setOption o.1 o.2 xs = xs := by
        refine (List.map_congr_left fun y hy => if_neg fun htag => ?_).trans (List.map_id _)
        exact hhead (htag ▸ List.mem_map_of_mem hy)
      rw [if_pos rfl, hrest]
    · next htag =>
      have hne : o.1 ≠ tag := fun h => by simp [h] at htag
      rw [if_neg hne, ih htail hlookup]

theorem mergeOptions_yields {absent : UInt32 → Infer Unit} {xs : List (UInt32 × NodeId)}
    (habsent : ∀ tag, Yields forced (absent tag) s False ()) (hxs : (xs.map Prod.fst).Nodup) :
    ∀ {ys : List (UInt32 × NodeId)},
      (∀ x ∈ xs.map Prod.snd, ∀ y ∈ ys.map Prod.snd, Yields forced (m x y) s (R x y) x) →
        Yields forced (mergeOptions m absent xs ys) s
          (∀ o ∈ ys, ∃ x, xs.lookup o.1 = some x ∧ R x o.2) xs := by
  intro ys
  induction ys with
  | nil => exact fun _ => (yields_pure xs).congr (by simp)
  | cons o ys ih =>
    intro h
    obtain ⟨tag, y⟩ := o
    have htail := ih fun x hx y' hy => h x hx y' (List.mem_cons_of_mem y hy)
    refine Yields.congr ?_ List.forall_mem_cons.symm
    rw [mergeOptions]
    cases hx : xs.lookup tag with
    | none => exact (habsent tag).refuse.congr (by simp)
    | some x =>
      have hhead := h x (mem_snd_of_lookup hx) y List.mem_cons_self
      refine (hhead.bind fun _ => ?_).congr (and_congr_left fun _ => by simp)
      rwa [setOption_eq hxs hx]

/-- Whether some member takes in the value, where every trial decides whether it does. -/
theorem absorbed_outcome {n : NodeId} : ∀ {ms : List NodeId},
    (∀ x ∈ ms, Yields true (m x n) s (R x n) x) →
      ∃ b, (absorbed m n ms).outcome s = (.ok b, s) ∧ (b = true ↔ ∃ x ∈ ms, R x n) := by
  intro ms
  induction ms with
  | nil => exact fun _ => ⟨false, rfl, by simp⟩
  | cons x ms ih =>
    intro h
    obtain ⟨b, hb, hiff⟩ := ih fun y hy => h y (List.mem_cons_of_mem x hy)
    obtain ⟨htaken, hrefused⟩ := h x List.mem_cons_self
    rw [absorbed]
    by_cases hx : R x n
    · refine ⟨true, ?_, by simp [hx]⟩
      rw [outcome_bind_of_ok (outcome_attempt ..), htaken hx]
      dsimp only
      rw [if_pos rfl]
      rfl
    · obtain ⟨e, he⟩ := hrefused rfl hx
      refine ⟨b, ?_, by simp [hx, hiff]⟩
      rw [outcome_bind_of_ok (outcome_attempt ..), he]
      exact hb

theorem mergeMembers_yields {uncovered : Infer Unit} {ms : List NodeId}
    (huncovered : Yields forced uncovered s False ()) : ∀ {ns : List NodeId},
    (∀ x ∈ ms, ∀ n ∈ ns, Yields true (m x n) s (R x n) x) →
      Yields forced (mergeMembers m uncovered ms ns) s (∀ n ∈ ns, ∃ x ∈ ms, R x n) ms := by
  intro ns
  induction ns with
  | nil => exact fun _ => (yields_pure ms).congr (by simp)
  | cons n ns ih =>
    intro h
    have htail := ih fun x hx n' hn => h x hx n' (List.mem_cons_of_mem n hn)
    refine Yields.congr ?_ List.forall_mem_cons.symm
    obtain ⟨b, hb, hiff⟩ := absorbed_outcome fun x hx => h x hx n List.mem_cons_self
    rw [mergeMembers]
    refine Yields.of_ok hb ?_
    by_cases hx : ∃ x ∈ ms, R x n
    · rw [if_pos (hiff.mpr hx)]
      exact htail.congr (by simp only [hx, true_and])
    · rw [if_neg (fun h => hx (hiff.mp h))]
      exact huncovered.refuse.congr (by simp [hx])

end

/-! ### Values -/

section

variable {a b : NodeId} {rec : MergeScope → Bool → NodeId → NodeId → Infer NodeId}

/-- What a merge does with the parts that it has merged: it gives back the left value if nothing
has changed. -/
theorem Yields.settles {γ : Type} [DecidableEq γ] {x : Infer γ} {c : γ} {f : γ → Infer NodeId}
    (hx : Yields forced x s P c) :
    Yields forced (x >>= fun new => if new = c then return a else f new) s P a :=
  hx.returns (if_pos rfl)

/-- **One level of a merge** asks that the left form admits the right one, by whatever the merges of
the slots, of the nodes below and of the members ask for. -/
theorem mergeStep_admits {C : Slot → Slot → Prop} {R T : NodeId → NodeId → Prop} (hs : s.Sound)
    (scope : MergeScope) (hstrict : strict = true → forced = true)
    (hslots : ∀ v w, (s.kind a).slot? = some v → (s.kind b).slot? = some w →
      Yields strict (mergeSlots scope forced v w) s (C v w) v)
    (hparts : ∀ x ∈ (s.kind a).children, ∀ y ∈ (s.kind b).children,
      Yields strict (rec scope forced x y) s (R x y) x)
    (htrials : ∀ x y, s.Descends a b x y →
      Yields true (rec { scope with loop := none } true x y) s (T x y) x) :
    Yields strict (mergeStep rec scope forced a b) s
      (s.kind a ≠ .error .dead ∧ (s.kind b = .error .dead ∨
        (s.kind a).Admits C R (∀ n ∈ s.members b, ∃ m ∈ s.members a, T m n) (s.kind b))) a := by
  have hlive : ∀ {k k' : Kind}, s.kind a = k → s.kind b = k' → k ≠ .error .dead →
      k' ≠ .error .dead → ∀ {U : Prop}, (U ↔ k.Admits C R
        (∀ n ∈ s.members b, ∃ m ∈ s.members a, T m n) k') →
      (U ↔ s.kind a ≠ .error .dead ∧ (s.kind b = .error .dead ∨ (s.kind a).Admits C R
        (∀ n ∈ s.members b, ∃ m ∈ s.members a, T m n) (s.kind b))) := by
    rintro _ _ rfl rfl hdead hdead' U hU
    rw [and_iff_right hdead, or_iff_right hdead', hU]
  -- a union on either side is merged member by member, by trials
  have hmembers : s.kind a ≠ .error .dead → s.kind b ≠ .error .dead →
      (s.kind a).isUnion = true ∨ (s.kind b).isUnion = true →
      Yields strict (mergeMembers (rec { scope with loop := none } true)
        (if forced = true then mismatch a b .uncovered else return ()) (s.members a) (s.members b)
          >>= fun merged =>
            if merged.length = (s.members a).length then return a else union merged) s
        (s.kind a ≠ .error .dead ∧ (s.kind b = .error .dead ∨ (s.kind a).Admits C R
          (∀ n ∈ s.members b, ∃ m ∈ s.members a, T m n) (s.kind b))) a := by
    intro hdead hdead' hunion
    refine Yields.congr ?_ (hlive rfl rfl hdead hdead' (Kind.admits_of_isUnion hunion).symm)
    refine (mergeMembers_yields ((yields_refuse _ _ ()).loosen hstrict) fun x hx y hy => ?_).returns
      (if_pos rfl)
    exact htrials x y (Store.descends_members hx hy hunion)
  have hlabels := hs.labelled a
  have hrefuse : ∀ {α : Type} (e : InferError) (x : Infer α) (c : α),
      Yields strict (if forced = true then throw e else x) s False c :=
    fun e x c => (yields_refuse e x c).loosen hstrict
  refine .store ?_
  split
  case h_1 hka =>
    exact (hrefuse _ _ a).congr (iff_of_false id fun h => h.1 hka)
  case h_2 hkb hdead =>
    exact (yields_pure a).congr (iff_of_true trivial ⟨hdead, .inl hkb⟩)
  case h_3 v t w u hka hkb =>
    refine Yields.congr ?_ (hlive hka hkb (by simp) (by simp) Iff.rfl)
    rw [hka, hkb] at hslots
    refine ((mergeTypes_yields t u).loosen hstrict).bind fun _ => ?_
    exact (hslots v w rfl rfl).returns (if_pos ⟨rfl, rfl⟩)
  case h_4 xs ys hka hkb =>
    refine Yields.congr ?_ (hlive hka hkb (by simp) (by simp) Iff.rfl)
    rw [hka, hkb] at hparts
    refine (Yields.guard _ fun hlen => ?_).congr
      ⟨fun h => h.2, fun h => ⟨not_not.mpr h.length_eq, h⟩⟩
    exact (mergeEach_yields (not_not.mp hlen) hparts).settles
  case h_5 x y hka hkb =>
    refine Yields.congr ?_ (hlive hka hkb (by simp) (by simp) Iff.rfl)
    rw [hka, hkb] at hparts
    exact (hparts x List.mem_cons_self y List.mem_cons_self).settles
  case h_6 x shape y shape' hka hkb =>
    refine Yields.congr ?_ (hlive hka hkb (by simp) (by simp) Iff.rfl)
    rw [hka, hkb] at hparts
    refine (Yields.guard _ fun _ => ?_).congr (and_congr_left fun _ => not_not)
    exact (hparts x List.mem_cons_self y List.mem_cons_self).settles
  case h_7 tag fs tag' gs hka hkb =>
    refine Yields.congr ?_ (hlive hka hkb (by simp) (by simp) Iff.rfl)
    rw [hka, hkb] at hparts
    refine (Yields.guard _ fun _ => ?_).congr (and_congr_left fun _ => not_not)
    refine (Yields.guard _ fun _ => ?_).congr (and_congr_left fun hcover => ?_)
    · exact (mergeFields_yields (fun _ => yields_throw _ _) hparts).settles
    · rw [not_or, not_not, not_not]
      refine and_iff_left (List.all_eq_true.mpr fun f hf => ?_)
      obtain ⟨y, hy, -⟩ := hcover f hf
      exact List.any_eq_true.mpr ⟨(f.1, y), mem_of_lookup hy, by simp⟩
  case h_8 ms hka hdead' =>
    exact hmembers (by simp [hka]) hdead' (.inl (by simp [hka, Kind.isUnion]))
  case h_9 ns hkb hdead _ =>
    exact hmembers hdead (by simp [hkb]) (.inr (by simp [hkb, Kind.isUnion]))
  case h_10 xs ys hka hkb =>
    refine Yields.congr ?_ (hlive hka hkb (by simp) (by simp) Iff.rfl)
    rw [hka] at hparts hlabels
    rw [hkb] at hparts
    exact (mergeOptions_yields (fun _ => hrefuse _ _ ()) hlabels hparts).settles
  case h_11 v w hka hkb =>
    refine Yields.congr ?_ (hlive hka hkb (by simp) (by simp) Iff.rfl)
    rw [hka, hkb] at hslots
    exact (hslots v w rfl rfl).settles
  case h_12 x y hka hkb =>
    refine Yields.congr ?_ (hlive hka hkb (by simp) (by simp) Iff.rfl)
    rw [hka, hkb] at hparts
    exact (hparts x List.mem_cons_self y List.mem_cons_self).settles
  case h_13 hka hkb =>
    exact (yields_throw _ a).congr (hlive hka hkb (by simp) (by simp) Iff.rfl)
  case h_14 r r' hdead hdead' hka hkb =>
    refine (yields_throw _ a).congr (hlive hka hkb ?_ ?_ Iff.rfl)
    · exact fun h => hdead (Kind.error.inj h)
    · exact fun h => hdead' (Kind.error.inj h)
  case h_15 hdead hunion hdead' hunion' _ _ _ _ _ _ _ _ _ _ =>
    refine (yields_throw _ a).congr (hlive rfl rfl hdead hdead' (iff_of_false id ?_))
    simp [Kind.Admits, *]

/-- **One level of a merge** of closed values asks for one step of coverage. -/
theorem mergeStep_yields (hs : s.Sound) (ha : s.Closed a) (hb : s.Closed b)
    (scope : MergeScope) (hrec : ∀ scope forced x y, s.Descends a b x y →
      Yields forced (rec scope forced x y) s (s.Covers x y) x) :
    Yields forced (mergeStep rec scope forced a b) s (s.CoverStep s.Covers a b) a := by
  rw [Store.CoverStep, Store.formCovers_eq_admits]
  refine mergeStep_admits hs scope id (fun v w hv hw => ?_) (fun x hx y hy => ?_) fun x y hxy => ?_
  · exact mergeSlots_yields scope (resolve_ne_pending (ha.settled hv))
      (resolve_ne_pending (hb.settled hw))
  · exact hrec scope forced x y (.inl ⟨hx, hy⟩)
  · exact hrec _ true x y hxy

/-- **A merge to a depth that is enough** for two values decides coverage. -/
theorem mergeWithin_yields (hs : s.Sound) : ∀ {fuel j k : Nat} {a b : NodeId}
    (scope : MergeScope) (forced : Bool), j + k ≤ fuel → s.Closed a → s.Closed b →
      s.EndsWithin j a → s.EndsWithin k b →
        Yields forced (mergeWithin fuel scope forced a b) s (s.Covers a b) a := by
  intro fuel
  induction fuel with
  | zero =>
    intro j k a b scope forced hfuel _ _ ha
    obtain ⟨i, rfl, -⟩ := ha.below
    omega
  | succ fuel ih =>
    intro j k a b scope forced hfuel hca hcb ha hb
    obtain ⟨i, rfl, hxs⟩ := ha.below
    obtain ⟨l, rfl, hys⟩ := hb.below
    refine .store ?_
    by_cases heq : a = b ∨ s.equal a b = true
    · rw [if_pos heq]
      refine (yields_pure a).congr (iff_of_true trivial ?_)
      rcases heq with rfl | heq
      · exact s.covers_refl a
      · exact Store.covers_of_equals heq
    rw [if_neg heq]
    have hstep : s.Covers a b ↔ s.CoverStep s.Covers a b :=
      Store.covers_iff.trans (or_iff_right fun h => heq (.inr h))
    refine (mergeStep_yields hs hca hcb scope fun scope forced x y hxy => ?_).congr hstep.symm
    obtain ⟨hcx, hcy⟩ := hca.descend hcb hxy
    rcases hxy with ⟨hx, hy⟩ | ⟨hx, rfl⟩ | ⟨rfl, hy⟩
    · exact ih scope forced (by omega) hcx hcy (hxs x hx) (hys y hy)
    · exact ih scope forced (by omega) hcx hcy (hxs x hx) hb
    · exact ih scope forced (by omega) hcx hcy ha (hys y hy)

/-- **A forced merge of closed values decides coverage**: it gives back the left value where that
one covers the right one, and fails elsewhere.  A relaxed merge gives it back there, too. -/
theorem merge_yields (hs : s.Sound) (ha : s.Closed a) (hb : s.Closed b) (scope : MergeScope)
    (forced : Bool) : Yields forced (merge scope forced a b) s (s.Covers a b) a := by
  refine .store (mergeWithin_yields hs scope forced ?_ ha hb ha.founded hb.founded)
  have := @Store.size_lt_compareDepth s
  omega

end

end Infer

end ValueInference
