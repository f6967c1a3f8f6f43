/-
Computations that end in a result or a type mismatch.

A merge can end in many ways as far as the types of its parts say: a form may be refused, a pending
may have no loop, a walk may not settle.  Of the parts of proper values it ends in two ways only.
The rules below carry this along sequences and along merges of lists, in both modes at once: what a
forced merge gives, where it gives something, is what a relaxed one gives.

* **`Infer.Ends`** — a computation gives a result as described, or it fails with a type mismatch;
* **`Infer.mergeEach_ends`**, **`Infer.mergeFields_ends`**, **`Infer.mergeOptions_ends`**,
  **`Infer.mergeMembers_ends`** — merges of lists, from those of two values;
* **`Infer.mergeTypes_ends`**, **`Infer.mergeSlots_ends`** — merges of types and of slots.
-/
import ValueInference.Proofs.Produced

namespace ValueInference

namespace Infer

variable {α β : Type} {s t u : Store} {Q U : Store → α → Prop} {x y : Infer α} {forced : Bool}

/-- The computation gives a result with `Q` and only makes the store grow, or it fails with a type
mismatch. -/
inductive Ends (x : Infer α) (t : Store) (Q : Store → α → Prop) : Prop where
  | gives {a : α} {u : Store} (run : x.outcome t = (.ok a, u)) (grows : t.Grows u) (sound : u.Sound)
      (result : Q u a)
  | mismatches {l r : Conflict} {m : Mismatch} {u : Store}
      (run : x.outcome t = (.error (.typeMismatch l r m), u))

theorem ends_pure {a : α} (ht : t.Sound) (ha : Q t a) : Ends (pure a) t Q :=
  .gives rfl (.refl t) ht ha

theorem ends_throw {l r : Conflict} {m : Mismatch} :
    Ends (throw (.typeMismatch l r m) : Infer α) t Q :=
  .mismatches rfl

namespace Ends

theorem imp (h : Ends x t Q) (hQ : ∀ u a, t.Grows u → u.Sound → Q u a → U u a) : Ends x t U := by
  cases h with
  | gives run grows sound result => exact .gives run grows sound (hQ _ _ grows sound result)
  | mismatches run => exact .mismatches run

/-- **A sequence ends** as its second part does, if its first part gives a result. -/
theorem bind {R : Store → β → Prop} {f : α → Infer β} (h : Ends x t Q)
    (hf : ∀ u a, t.Grows u → u.Sound → Q u a → Ends (f a) u R) : Ends (x >>= f) t R := by
  cases h with
  | @gives a u run grows sound result =>
    cases hf u a grows sound result with
    | gives run' grows' sound' result' =>
      exact .gives ((outcome_bind_of_ok run).trans run') (grows.trans grows') sound' result'
    | mismatches run' => exact .mismatches ((outcome_bind_of_ok run).trans run')
  | mismatches run => exact .mismatches (outcome_bind_of_error run)

/-- The result is passed on, changed. -/
theorem map {R : Store → β → Prop} {f : α → β} (h : Ends x t Q)
    (hf : ∀ u a, t.Grows u → u.Sound → Q u a → R u (f a)) :
    Ends (x >>= fun a => pure (f a)) t R :=
  h.bind fun u a hgrows hu ha => ends_pure hu (hf u a hgrows hu ha)

/-- What runs in the same way ends in the same way. -/
theorem of_outcome (h : Ends y t Q) (hrun : x.outcome t = y.outcome t) : Ends x t Q := by
  cases h with
  | gives run grows sound result => exact .gives (hrun.trans run) grows sound result
  | mismatches run => exact .mismatches (hrun.trans run)

/-- After a first part that is known to succeed. -/
theorem of_ok {R : Store → β → Prop} {f : α → Infer β} {a : α} (hrun : x.outcome t = (.ok a, u))
    (hgrows : t.Grows u) (h : Ends (f a) u R) : Ends (x >>= f) t R := by
  cases h with
  | gives run grows sound result =>
    exact .gives ((outcome_bind_of_ok hrun).trans run) (hgrows.trans grows) sound result
  | mismatches run => exact .mismatches ((outcome_bind_of_ok hrun).trans run)

theorem of_store {f : Store → Infer α} (h : Ends (f t) t Q) : Ends (store >>= f) t Q :=
  of_ok rfl (.refl t) h

/-- What is refused is refused with a mismatch. -/
theorem guard {c : Prop} [Decidable c] {l r : Conflict} {m : Mismatch} (h : ¬ c → Ends y t Q) :
    Ends (if c then throw (.typeMismatch l r m) else y) t Q := by
  by_cases hc : c
  · rw [if_pos hc]
    exact ends_throw
  · rw [if_neg hc]
    exact h hc

end Ends

/-! ### Merges of lists -/

section

variable {m : NodeId → NodeId → Infer NodeId} {W : Store → NodeId → NodeId → NodeId → Prop}

/-- The merge of two values ends, on whatever store has grown out of `s`. -/
def MergeEnds (s : Store) (m : NodeId → NodeId → Infer NodeId)
    (W : Store → NodeId → NodeId → NodeId → Prop) (x y : NodeId) : Prop :=
  ∀ t, s.Grows t → t.Sound → Ends (m x y) t fun u z => W u x y z

theorem mergeEach_ends (hW : Lasts W) : ∀ {xs ys : List NodeId} {t : Store},
    xs.length = ys.length → (∀ x ∈ xs, ∀ y ∈ ys, MergeEnds s m W x y) → s.Grows t → t.Sound →
      Ends (mergeEach m xs ys) t fun u zs => JoinsEach (W u) xs ys zs := by
  intro xs
  induction xs with
  | nil =>
    intro ys t hlen _ _ ht
    obtain rfl : ys = [] := List.length_eq_zero_iff.mp hlen.symm
    exact ends_pure ht .nil
  | cons x xs ih =>
    intro ys t hlen hm hgrows ht
    cases ys with
    | nil => exact absurd hlen (by simp)
    | cons y ys =>
      refine (hm x List.mem_cons_self y List.mem_cons_self t hgrows ht).bind fun u z hu hsu hz => ?_
      refine (ih (by simpa using hlen) (fun x' hx y' hy => hm x' (List.mem_cons_of_mem x hx) y'
        (List.mem_cons_of_mem y hy)) (hgrows.trans hu) hsu).map fun v zs hv _ hzs => ?_
      exact .cons (hW _ _ _ _ _ hv hz) hzs

theorem mergeFields_ends {l r : Conflict} {reason : Mismatch} {gs : List (String × NodeId)}
    (hW : Lasts W) : ∀ {fs : List (String × NodeId)} {t : Store},
      (∀ x ∈ fs.map Prod.snd, ∀ y ∈ gs.map Prod.snd, MergeEnds s m W x y) → s.Grows t → t.Sound →
        Ends (mergeFields m (throw (.typeMismatch l r reason)) gs fs) t
          fun u zs => JoinsFields (W u) gs fs zs := by
  intro fs
  induction fs with
  | nil => exact fun _ _ ht => ends_pure ht .nil
  | cons f fs ih =>
    intro t hm hgrows ht
    obtain ⟨name, x⟩ := f
    rw [mergeFields_cons]
    cases hy : gs.lookup name with
    | none =>
      -- a field that is missing on the right is refused
      exact Ends.bind (Q := fun _ _ => False) ends_throw fun _ _ _ _ h => h.elim
    | some y =>
      refine (hm x List.mem_cons_self y (mem_snd_of_lookup hy) t hgrows ht).bind
        fun u z hu hsu hz => ?_
      refine (ih (fun x' hx y hy => hm x' (List.mem_cons_of_mem x hx) y hy) (hgrows.trans hu)
        hsu).map fun v zs hv _ hzs => ?_
      exact .cons ⟨rfl, y, hy, hW _ _ _ _ _ hv hz⟩ hzs

theorem mergeOptions_ends {absent : UInt32 → Infer Unit}
    (habsent : ∀ tag (t : Store), t.Sound → Ends (absent tag) t fun _ _ => True) (hW : Lasts W) :
    ∀ {ys xs : List (UInt32 × NodeId)} {t : Store}, (xs.map Prod.fst).Nodup →
      (ys.map Prod.fst).Nodup →
      (∀ l x y, xs.lookup l = some x → ys.lookup l = some y → MergeEnds s m W x y) →
      s.Grows t → t.Sound → Ends (mergeOptions m absent xs ys) t
        fun u zs => JoinsOptions (W u) xs ys zs := by
  intro ys
  induction ys with
  | nil =>
    intro xs t hxs _ _ _ ht
    refine ends_pure ht ⟨hxs, fun l => ?_⟩
    cases xs.lookup l with
    | none => exact rfl
    | some x => exact rfl
  | cons o ys ih =>
    intro xs t hxs hys hm hgrows ht
    obtain ⟨tag, y⟩ := o
    obtain ⟨hfresh, hys'⟩ := List.nodup_cons.mp hys
    have hgone : ys.lookup tag = none := lookup_eq_none_of_fresh hfresh
    -- the other tags keep what they have, whatever the first one gets
    have hrest : ∀ {xs' : List (UInt32 × NodeId)} {r : NodeId} {u : Store},
        (xs'.map Prod.fst).Nodup → (∀ l, xs'.lookup l = if l = tag then some r else xs.lookup l) →
        t.Grows u → u.Sound → Ends (mergeOptions m absent xs' ys) u
          fun v zs => JoinsOptions (W v) xs' ys zs := by
      intro xs' r u hxs' hset hu hsu
      refine ih hxs' hys' (fun l x' y' hx' hy' => ?_) (hgrows.trans hu) hsu
      have hl : l ≠ tag := by
        rintro rfl
        exact nomatch hgone.symm.trans hy'
      rw [hset, if_neg hl] at hx'
      refine hm l x' y' hx' ?_
      rwa [List.lookup_cons, beq_eq_false_iff_ne.mpr hl]
    rw [mergeOptions]
    cases hx : xs.lookup tag with
    | some x =>
      refine (hm tag x y hx List.lookup_cons_self t hgrows ht).bind fun u r hu hsu hr => ?_
      have hset := lookup_setOption_of_some hx r
      refine (hrest (by rwa [setOption_labels]) hset hu hsu).imp fun v zs hv _ hzs => ?_
      refine hzs.cons hgone hset ?_
      rw [hx]
      exact ⟨r, rfl, hW _ _ _ _ _ hv hr⟩
    | none =>
      dsimp only
      refine (habsent tag t ht).bind fun u _ hu hsu _ => ?_
      refine (hrest (nodup_append_new hxs hx y) (lookup_append_new hx y) hu hsu).imp
        fun v zs _ _ hzs => hzs.cons hgone (lookup_append_new hx y) ?_
      rw [hx]
      exact rfl

end

/-- **A merge of members** adds, one after the other, those that none before covers, or it refuses
the first of these. -/
theorem mergeMembers_ends {R : NodeId → NodeId → Prop} {trial : NodeId → NodeId → Infer NodeId}
    {uncovered : Infer Unit} (hs : s.Sound) (huncovered : Ends uncovered s fun u _ => u = s) :
    ∀ {ns ms : List NodeId}, (∀ x ∈ ms ++ ns, ∀ y ∈ ns, Yields true (trial x y) s (R x y) x) →
      Ends (mergeMembers trial uncovered ms ns) s
        fun u merged => u = s ∧ merged = addNew R ms ns := by
  intro ns
  induction ns with
  | nil => exact fun _ => ends_pure hs ⟨rfl, rfl⟩
  | cons n ns ih =>
    intro ms htrial
    -- no trial changes the store, so the next ones start from the same one
    obtain ⟨b, hb, hiff⟩ := absorbed_outcome fun x hx =>
      htrial x (List.mem_append_left _ hx) n List.mem_cons_self
    rw [mergeMembers, addNew_cons]
    refine Ends.of_ok hb (.refl s) ?_
    by_cases hcover : ∃ x ∈ ms, R x n
    · rw [if_pos (hiff.mpr hcover), if_pos hcover]
      exact ih fun x hx y hy => htrial x (by simp at hx ⊢; tauto) y (List.mem_cons_of_mem n hy)
    · rw [if_neg fun h => hcover (hiff.mp h), if_neg hcover]
      refine huncovered.bind ?_
      rintro _ _ - - rfl
      exact ih fun x hx y hy => htrial x (by simp at hx ⊢; tauto) y (List.mem_cons_of_mem n hy)

/-! ### Merges of types and slots -/

theorem mergeTypes_ends {ty ty' : Ty} (ht : t.Sound) :
    Ends (mergeTypes forced ty ty') t fun _ joined => joined = ty.join ty' := by
  rw [mergeTypes, Ty.join]
  split
  · exact ends_pure ht rfl
  · refine Ends.guard fun _ => ?_
    exact .gives rfl (t.grows_record _) (ht.record _) rfl

section

variable {v w x : Slot} {token : Nat}

/-- A slot that no merge changes may be brought in. -/
theorem admitsSlot_of_holds (hs : s.Sound) (hv : s.HoldsSlot v) : s.AdmitsSlot v :=
  fun p hp => hs.sets p (hv p hp)

theorem mergeCandidates_ends (scope : MergeScope) (forced : Bool) (hs : s.Sound)
    (hv : s.HoldsSlot v) (hw : s.HoldsSlot w) (hvs : s.Settled v) (hws : s.Settled w)
    (hself : s.resolve v = v) (hself' : s.resolve w = w) :
    Ends (mergeCandidates scope forced v w v w) s fun u x =>
      u.AdmitsSlot x ∧ ∃ token, s.joinCandidates scope.config.maxPossibilities token v w
        (candidatesOf v) (candidatesOf w) = x := by
  rw [mergeCandidates]
  refine .of_store ?_
  simp only [Store.joinCandidates]
  split
  · exact ends_pure hs ⟨admitsSlot_of_holds hs hv, 0, rfl⟩
  refine Ends.guard fun _ => ?_
  split
  · exact ends_pure hs ⟨admitsSlot_of_holds hs hw, 0, rfl⟩
  split
  · exact .gives rfl (s.grows_record _) (hs.record _) ⟨by simp [Store.AdmitsSlot], 0, rfl⟩
  · have hfv := Store.foundedIn_candidatesOf hvs
    have hfw := Store.foundedIn_candidatesOf hws
    rw [hself] at hfv
    rw [hself'] at hfw
    have hnodup : (candidatesOf v).Nodup := by
      cases v with
      | possibilities p => exact (hs.sets p (hv p rfl)).distinct
      | constant c => exact List.nodup_singleton _
      | _ => exact List.nodup_nil
    refine .gives rfl s.grows_token (hs.change .token trivial) ⟨?_, s.tokens, rfl⟩
    rintro p ⟨⟩
    exact hs.admits_new ((Store.addCandidates_extended hfv hfw).distinct hnodup)

/-- **A merge of slots that are no pendings** gives the slot that they join to, or refuses it. -/
theorem mergeSlots_ends (scope : MergeScope) (hs : s.Sound) (hv : s.HoldsSlot v)
    (hw : s.HoldsSlot w) (hvs : s.Settled v) (hws : s.Settled w) (hpv : v.pendings = [])
    (hpw : w.pendings = []) : Ends (mergeSlots scope forced v w) s fun u x =>
      u.AdmitsSlot x ∧
        ∃ token, s.joinSlots scope.config.maxPossibilities token v w = some x := by
  have hself := s.resolve_self v hpv
  have hself' := s.resolve_self w hpw
  have hcandidates := mergeCandidates_ends scope forced hs hv hw hvs hws hself hself'
  rw [mergeSlots]
  refine .of_store ?_
  simp only [Store.joinSlots, hself, hself']
  cases v with
  | anything => exact ends_pure hs ⟨by simp [Store.AdmitsSlot], 0, rfl⟩
  | pending p => exact absurd hpv (List.cons_ne_nil p [])
  | constant c =>
    cases w with
    | anything => exact Ends.guard fun _ => ends_pure hs ⟨by simp [Store.AdmitsSlot], 0, rfl⟩
    | pending q => exact absurd hpw (List.cons_ne_nil q [])
    | constant d =>
      dsimp only
      split
      · exact ends_pure hs ⟨by simp [Store.AdmitsSlot], 0, rfl⟩
      refine Ends.guard fun _ => ?_
      split
      · exact .gives rfl (s.grows_record _) (hs.record _) ⟨by simp [Store.AdmitsSlot], 0, rfl⟩
      · exact ends_throw
    | possibilities q =>
      exact hcandidates.imp fun u x _ _ h => ⟨h.1, h.2.imp fun _ => congrArg some⟩
  | possibilities p =>
    cases w with
    | anything => exact Ends.guard fun _ => ends_pure hs ⟨by simp [Store.AdmitsSlot], 0, rfl⟩
    | pending q => exact absurd hpw (List.cons_ne_nil q [])
    | constant d =>
      exact hcandidates.imp fun u x _ _ h => ⟨h.1, h.2.imp fun _ => congrArg some⟩
    | possibilities q =>
      exact hcandidates.imp fun u x _ _ h => ⟨h.1, h.2.imp fun _ => congrArg some⟩

end

end Infer

end ValueInference
