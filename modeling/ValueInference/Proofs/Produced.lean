/-
What relaxed merges of lists produce, and when.

A relaxed merge either gives a result or fails, and which of the two it does is settled by the
operands, whatever the store has been grown to in the meantime.

* **`Infer.Produces`** — a computation succeeds exactly where a proposition holds, with a result as
  described; in both cases it only makes the store grow;
* **`Infer.mergeEach_produces`**, **`Infer.mergeFields_produces`**,
  **`Infer.mergeOptions_produces`** — merges of items, fields and options, from those of two values;
* **`Infer.mergeMembers_addNew`** — a relaxed merge of members adds those that none before covers.
-/
import ValueInference.Proofs.JoinedSlots
import ValueInference.Proofs.Relaxed

namespace ValueInference

/-! ### Joined lists -/

section

variable {β : Type} [BEq β] {J K : NodeId → NodeId → NodeId → Prop}

/-- Lists of one length, joined item by item. -/
inductive JoinsEach (J : NodeId → NodeId → NodeId → Prop) :
    List NodeId → List NodeId → List NodeId → Prop where
  | nil : JoinsEach J [] [] []
  | cons {x y z : NodeId} {xs ys zs : List NodeId} :
      J x y z → JoinsEach J xs ys zs → JoinsEach J (x :: xs) (y :: ys) (z :: zs)

/-- Fields, each joined with the one of its name on the right. -/
def JoinsFields (J : NodeId → NodeId → NodeId → Prop) (gs : List (String × NodeId)) :
    List (String × NodeId) → List (String × NodeId) → Prop :=
  List.Forall₂ fun f z => f.1 = z.1 ∧ ∃ y, gs.lookup f.1 = some y ∧ J f.2 y z.2

/-- What becomes of the things under one label: one that is there on one side only stays. -/
def JoinsAt (J : NodeId → NodeId → NodeId → Prop) :
    Option NodeId → Option NodeId → Option NodeId → Prop
  | some x, some y, z => ∃ n, z = some n ∧ J x y n
  | some x, none, z => z = some x
  | none, y, z => z = y

/-- Options joined label by label. -/
structure JoinsOptions (J : NodeId → NodeId → NodeId → Prop) (xs ys zs : List (β × NodeId)) :
    Prop where
  labels : (zs.map Prod.fst).Nodup
  joined : ∀ l, JoinsAt J (xs.lookup l) (ys.lookup l) (zs.lookup l)

theorem JoinsAt.imp {x y z : Option NodeId} (h : JoinsAt J x y z)
    (hJK : ∀ l m n, x = some l → y = some m → z = some n → J l m n → K l m n) :
    JoinsAt K x y z := by
  cases x with
  | none => exact h
  | some x =>
    cases y with
    | none => exact h
    | some y =>
      obtain ⟨n, hn, hj⟩ := h
      exact ⟨n, hn, hJK x y n rfl rfl hn hj⟩

/-- One more option on the right, whose tag has got `r` before the others were joined. -/
theorem JoinsOptions.cons {tag : UInt32} {y r : NodeId} {xs xs' ys zs : List (UInt32 × NodeId)}
    (h : JoinsOptions J xs' ys zs)
    (hgone : ys.lookup tag = none)
    (hset : ∀ l, xs'.lookup l = if l = tag then some r else xs.lookup l)
    (hr : JoinsAt J (xs.lookup tag) (some y) (some r)) : JoinsOptions J xs ((tag, y) :: ys) zs := by
  refine ⟨h.labels, fun l => ?_⟩
  have hl := h.joined l
  rw [hset] at hl
  by_cases htag : l = tag
  · subst htag
    rw [if_pos rfl, hgone] at hl
    have hlast : zs.lookup l = some r := hl
    rw [hlast, List.lookup_cons_self]
    exact hr
  · rw [if_neg htag] at hl
    rwa [List.lookup_cons, beq_eq_false_iff_ne.mpr htag]

/-- Joined fields have the names of the left ones. -/
theorem JoinsFields.names {fs gs zs : List (String × NodeId)} (h : JoinsFields J gs fs zs) :
    zs.map Prod.fst = fs.map Prod.fst := by
  have hnames : List.Forall₂ (· = ·) (fs.map Prod.fst) (zs.map Prod.fst) :=
    List.forall₂_map_left_iff.mpr (List.forall₂_map_right_iff.mpr (h.imp fun _ _ => And.left))
  exact (List.forall₂_eq_eq_eq ▸ hnames : fs.map Prod.fst = zs.map Prod.fst).symm

/-- What is under a label on the left has become something. -/
theorem JoinsOptions.ne_nil [LawfulBEq β] {xs ys zs : List (β × NodeId)}
    (h : JoinsOptions J xs ys zs) (hlabels : (xs.map Prod.fst).Nodup) (hxs : xs ≠ []) : zs ≠ [] := by
  obtain ⟨⟨l, x⟩, hx⟩ := List.exists_mem_of_ne_nil xs hxs
  have hjoined := h.joined l
  rw [(lookup_iff_mem hlabels).mpr hx] at hjoined
  rintro rfl
  cases hy : ys.lookup l with
  | none =>
    rw [hy] at hjoined
    exact nomatch hjoined
  | some y =>
    rw [hy] at hjoined
    obtain ⟨n, hn, -⟩ := hjoined
    exact nomatch hn

theorem JoinsEach.imp {xs ys zs : List NodeId} (h : JoinsEach J xs ys zs)
    (hJK : ∀ x ∈ xs, ∀ y ∈ ys, ∀ z ∈ zs, J x y z → K x y z) : JoinsEach K xs ys zs := by
  induction h with
  | nil => exact .nil
  | cons hj _ ih =>
    refine .cons (hJK _ List.mem_cons_self _ List.mem_cons_self _ List.mem_cons_self hj) (ih ?_)
    exact fun x hx y hy z hz => hJK x (List.mem_cons_of_mem _ hx) y (List.mem_cons_of_mem _ hy) z
      (List.mem_cons_of_mem _ hz)

theorem JoinsEach.exists_mem {xs ys zs : List NodeId} (h : JoinsEach J xs ys zs) :
    ∀ z ∈ zs, ∃ x ∈ xs, ∃ y ∈ ys, J x y z := by
  induction h with
  | nil => exact fun _ hz => absurd hz List.not_mem_nil
  | cons hj _ ih =>
    rintro z (_ | ⟨_, hz⟩)
    · exact ⟨_, List.mem_cons_self, _, List.mem_cons_self, hj⟩
    · obtain ⟨x, hx, y, hy, hxy⟩ := ih z hz
      exact ⟨x, List.mem_cons_of_mem _ hx, y, List.mem_cons_of_mem _ hy, hxy⟩

end

namespace Infer

variable {α β : Type} {s t u : Store} {P C : Prop} {Q U : Store → α → Prop}

/-! ### Computations that succeed or fail -/

/-- Where `P` holds the computation gives a result with `Q`, and where it does not it fails; it
only makes the store grow. -/
inductive Produces (x : Infer α) (t : Store) (P : Prop) (Q : Store → α → Prop) : Prop where
  | gives {a : α} {u : Store} (run : x.outcome t = (.ok a, u)) (grows : t.Grows u) (sound : u.Sound)
      (holds : P) (result : Q u a)
  | fails {e : InferError} {u : Store} (run : x.outcome t = (.error e, u)) (grows : t.Grows u)
      (sound : u.Sound) (refused : ¬ P)

theorem produces_pure {a : α} (ht : t.Sound) (ha : Q t a) : Produces (pure a) t True Q :=
  .gives rfl (.refl t) ht trivial ha

theorem produces_throw {e : InferError} (ht : t.Sound) : Produces (throw e : Infer α) t False Q :=
  .fails rfl (.refl t) ht id

namespace Produces

variable {x y : Infer α}

theorem congr (h : Produces x t P Q) (hP : P ↔ C) : Produces x t C Q :=
  propext hP ▸ h

theorem imp (h : Produces x t P Q) (hQ : ∀ u a, t.Grows u → u.Sound → Q u a → U u a) :
    Produces x t P U := by
  cases h with
  | gives run grows sound holds result =>
    exact .gives run grows sound holds (hQ _ _ grows sound result)
  | fails run grows sound refused => exact .fails run grows sound refused

theorem bind {R : Store → β → Prop} {f : α → Infer β} (h : Produces x t P Q)
    (hf : ∀ u a, t.Grows u → u.Sound → P → Q u a → Produces (f a) u C R) :
    Produces (x >>= f) t (P ∧ C) R := by
  cases h with
  | @gives a u run grows sound holds result =>
    cases hf u a grows sound holds result with
    | gives run' grows' sound' holds' result' =>
      exact .gives ((outcome_bind_of_ok run).trans run') (grows.trans grows') sound'
        ⟨holds, holds'⟩ result'
    | fails run' grows' sound' refused =>
      exact .fails ((outcome_bind_of_ok run).trans run') (grows.trans grows') sound'
        fun h => refused h.2
  | fails run grows sound refused =>
    exact .fails (outcome_bind_of_error run) grows sound fun h => refused h.1

/-- The result is passed on, changed. -/
theorem map {R : Store → β → Prop} {f : α → β} (h : Produces x t P Q)
    (hf : ∀ u a, t.Grows u → u.Sound → Q u a → R u (f a)) :
    Produces (x >>= fun a => pure (f a)) t P R :=
  (h.bind (C := True) fun u a hgrows hu _ ha => produces_pure hu (hf u a hgrows hu ha)).congr
    (and_iff_left trivial)

/-- What runs in the same way produces the same. -/
theorem of_outcome (h : Produces y t P Q) (hrun : x.outcome t = y.outcome t) :
    Produces x t P Q := by
  cases h with
  | gives run grows sound holds result => exact .gives (hrun.trans run) grows sound holds result
  | fails run grows sound refused => exact .fails (hrun.trans run) grows sound refused

/-- After a first part that is known to succeed. -/
theorem of_ok {R : Store → β → Prop} {f : α → Infer β} {a : α} (hrun : x.outcome t = (.ok a, u))
    (hgrows : t.Grows u) (h : Produces (f a) u P R) : Produces (x >>= f) t P R := by
  cases h with
  | gives run grows sound holds result =>
    exact .gives ((outcome_bind_of_ok hrun).trans run) (hgrows.trans grows) sound holds result
  | fails run grows sound refused =>
    exact .fails ((outcome_bind_of_ok hrun).trans run) (hgrows.trans grows) sound refused

theorem of_store {f : Store → Infer α} (h : Produces (f t) t P Q) : Produces (store >>= f) t P Q :=
  of_ok rfl (.refl t) h

theorem guard {c : Prop} [Decidable c] {e : InferError} (ht : t.Sound)
    (h : ¬ c → Produces y t P Q) : Produces (if c then throw e else y) t (¬ c ∧ P) Q := by
  by_cases hc : c
  · rw [if_pos hc]
    exact (produces_throw ht).congr (by simp [hc])
  · rw [if_neg hc]
    exact (h hc).congr (by simp [hc])

end Produces

/-! ### Merges of lists -/

section

variable {m : NodeId → NodeId → Infer NodeId} {M : NodeId → NodeId → Prop}
  {W : Store → NodeId → NodeId → NodeId → Prop}

/-- The merge of two values, on whatever store has grown out of `s`, succeeds exactly where they go
together. -/
def Merges (s : Store) (m : NodeId → NodeId → Infer NodeId) (M : NodeId → NodeId → Prop)
    (W : Store → NodeId → NodeId → NodeId → Prop) (x y : NodeId) : Prop :=
  ∀ t, s.Grows t → t.Sound → Produces (m x y) t (M x y) fun u z => W u x y z

/-- What is said of a result stays true when the store grows. -/
def Lasts (W : Store → NodeId → NodeId → NodeId → Prop) : Prop :=
  ∀ t u x y z, t.Grows u → W t x y z → W u x y z

theorem mergeEach_produces (hW : Lasts W) : ∀ {xs ys : List NodeId} {t : Store},
    xs.length = ys.length → (∀ x ∈ xs, ∀ y ∈ ys, Merges s m M W x y) → s.Grows t → t.Sound →
      Produces (mergeEach m xs ys) t (List.Forall₂ M xs ys)
        fun u zs => JoinsEach (W u) xs ys zs := by
  intro xs
  induction xs with
  | nil =>
    intro ys t hlen _ _ ht
    obtain rfl : ys = [] := List.length_eq_zero_iff.mp hlen.symm
    exact (produces_pure ht .nil).congr (iff_of_true trivial .nil)
  | cons x xs ih =>
    intro ys t hlen hm hgrows ht
    cases ys with
    | nil => exact absurd hlen (by simp)
    | cons y ys =>
      refine Produces.congr ?_ List.forall₂_cons.symm
      refine (hm x List.mem_cons_self y List.mem_cons_self t hgrows ht).bind
        fun u z hu hsu _ hz => ?_
      refine (ih (by simpa using hlen) (fun x' hx y' hy => hm x' (List.mem_cons_of_mem x hx) y'
        (List.mem_cons_of_mem y hy)) (hgrows.trans hu) hsu).map fun v zs hv _ hzs => ?_
      exact .cons (hW _ _ _ _ _ hv hz) hzs

theorem mergeFields_produces {e : InferError} {gs : List (String × NodeId)} (hW : Lasts W) :
    ∀ {fs : List (String × NodeId)} {t : Store},
      (∀ x ∈ fs.map Prod.snd, ∀ y ∈ gs.map Prod.snd, Merges s m M W x y) → s.Grows t → t.Sound →
        Produces (mergeFields m (throw e) gs fs) t
          (∀ f ∈ fs, ∃ y, gs.lookup f.1 = some y ∧ M f.2 y)
          fun u zs => JoinsFields (W u) gs fs zs := by
  intro fs
  induction fs with
  | nil => exact fun _ _ ht => (produces_pure ht .nil).congr (by simp)
  | cons f fs ih =>
    intro t hm hgrows ht
    obtain ⟨name, x⟩ := f
    refine Produces.congr ?_ List.forall_mem_cons.symm
    rw [mergeFields_cons]
    have hrest : ∀ {u}, t.Grows u → u.Sound → _ := fun {u} hu hsu =>
      ih (fun x' hx y hy => hm x' (List.mem_cons_of_mem x hx) y hy) (hgrows.trans hu) hsu
    cases hy : gs.lookup name with
    | none =>
      refine Produces.congr (P := False ∧ True) ?_ (by simp)
      exact (produces_throw (Q := fun _ _ => True) ht).bind fun _ _ _ _ h => h.elim
    | some y =>
      refine Produces.congr (P := M x y ∧ _) ?_ (and_congr_left fun _ => by simp)
      refine (hm x List.mem_cons_self y (mem_snd_of_lookup hy) t hgrows ht).bind
        fun u z hu hsu _ hz => ?_
      refine (hrest hu hsu).map fun v zs hv _ hzs => ?_
      exact .cons ⟨rfl, y, hy, hW _ _ _ _ _ hv hz⟩ hzs

theorem mergeOptions_produces {absent : UInt32 → Infer Unit}
    (habsent : ∀ tag s, (absent tag).outcome s = (.ok (), s)) (hW : Lasts W) :
    ∀ {ys xs : List (UInt32 × NodeId)} {t : Store}, (xs.map Prod.fst).Nodup →
      (ys.map Prod.fst).Nodup →
      (∀ l x y, xs.lookup l = some x → ys.lookup l = some y → Merges s m M W x y) →
      s.Grows t → t.Sound → Produces (mergeOptions m absent xs ys) t
        (∀ l x y, xs.lookup l = some x → ys.lookup l = some y → M x y)
        fun u zs => JoinsOptions (W u) xs ys zs := by
  intro ys
  induction ys with
  | nil =>
    intro xs t hxs _ _ _ ht
    refine (produces_pure ht ⟨hxs, fun l => ?_⟩).congr (by simp)
    cases xs.lookup l with
    | none => exact rfl
    | some x => exact rfl
  | cons o ys ih =>
    intro xs t hxs hys hm hgrows ht
    obtain ⟨tag, y⟩ := o
    obtain ⟨hfresh, hys'⟩ := List.nodup_cons.mp hys
    have hgone : ys.lookup tag = none := lookup_eq_none_of_fresh hfresh
    have hother : ∀ {l}, l ≠ tag → ((tag, y) :: ys).lookup l = ys.lookup l := fun hl => by
      rw [List.lookup_cons, beq_eq_false_iff_ne.mpr hl]
    have hne : ∀ {l y'}, ys.lookup l = some y' → l ≠ tag := by
      rintro l y' hy' rfl
      rw [hgone] at hy'
      exact nomatch hy'
    -- the other tags keep what they have, whatever the first one gets
    have hrest : ∀ {xs' : List (UInt32 × NodeId)} {r : NodeId} {u : Store},
        (xs'.map Prod.fst).Nodup → (∀ l, xs'.lookup l = if l = tag then some r else xs.lookup l) →
        t.Grows u → u.Sound → Produces (mergeOptions m absent xs' ys) u
          (∀ l x y, xs.lookup l = some x → ys.lookup l = some y → M x y)
          fun v zs => JoinsOptions (W v) xs' ys zs := by
      intro xs' r u hxs' hset hu hsu
      have hsame : ∀ {l x' y'}, ys.lookup l = some y' →
          (xs'.lookup l = some x' ↔ xs.lookup l = some x') := fun hy' => by
        rw [hset, if_neg (hne hy')]
      refine (ih hxs' hys' (fun l x' y' hx' hy' => ?_) (hgrows.trans hu) hsu).congr ?_
      · exact hm l x' y' ((hsame hy').mp hx') ((hother (hne hy')).trans hy')
      · constructor
        · exact fun h l x' y' hx' hy' => h l x' y' ((hsame hy').mpr hx') hy'
        · exact fun h l x' y' hx' hy' => h l x' y' ((hsame hy').mp hx') hy'
    rw [mergeOptions]
    cases hx : xs.lookup tag with
    | some x =>
      refine Produces.congr (P := M x y ∧
        ∀ l x y, xs.lookup l = some x → ys.lookup l = some y → M x y) ?_ ?_
      · refine (hm tag x y hx List.lookup_cons_self t hgrows ht).bind fun u r hu hsu _ hr => ?_
        have hset := lookup_setOption_of_some hx r
        refine (hrest (by rwa [setOption_labels]) hset hu hsu).imp fun v zs hv _ hzs => ?_
        refine hzs.cons hgone hset ?_
        rw [hx]
        exact ⟨r, rfl, hW _ _ _ _ _ hv hr⟩
      · constructor
        · rintro ⟨hhead, htail⟩ l x' y' hx' hy'
          by_cases hl : l = tag
          · subst hl
            obtain rfl : x = x' := Option.some.inj (hx.symm.trans hx')
            rw [List.lookup_cons_self] at hy'
            exact Option.some.inj hy' ▸ hhead
          · exact htail l x' y' hx' ((hother hl).symm.trans hy')
        · intro h
          exact ⟨h tag x y hx List.lookup_cons_self, fun l x' y' hx' hy' =>
            h l x' y' hx' ((hother (hne hy')).trans hy')⟩
    | none =>
      have hset := lookup_append_new hx y
      have hlabels := nodup_append_new hxs hx y
      dsimp only
      refine Produces.of_ok (habsent tag t) (.refl t) ?_
      refine ((hrest hlabels hset (.refl t) ht).imp
        (U := fun v zs => JoinsOptions (W v) xs ((tag, y) :: ys) zs) fun v zs _ _ hzs =>
          hzs.cons hgone hset (by rw [hx]; exact rfl)).congr
        (C := ∀ l x' y', xs.lookup l = some x' → ((tag, y) :: ys).lookup l = some y' → M x' y') ?_
      constructor
      · intro h l x' y' hx' hy'
        have hl : l ≠ tag := by
          rintro rfl
          rw [hx] at hx'
          exact nomatch hx'
        exact h l x' y' hx' ((hother hl).symm.trans hy')
      · exact fun h l x' y' hx' hy' => h l x' y' hx' ((hother (hne hy')).trans hy')

end

/-- **A relaxed merge of members** adds, one after the other, those that none before covers. -/
theorem mergeMembers_addNew {R : NodeId → NodeId → Prop} {trial : NodeId → NodeId → Infer NodeId}
    {uncovered : Infer Unit} (huncovered : uncovered.outcome s = (.ok (), s)) :
    ∀ {ns ms : List NodeId}, (∀ x ∈ ms ++ ns, ∀ y ∈ ns, Yields true (trial x y) s (R x y) x) →
      (mergeMembers trial uncovered ms ns).outcome s = (.ok (addNew R ms ns), s) := by
  intro ns
  induction ns with
  | nil => exact fun _ => rfl
  | cons n ns ih =>
    intro ms htrial
    obtain ⟨b, hb, hiff⟩ := absorbed_outcome fun x hx =>
      htrial x (List.mem_append_left _ hx) n List.mem_cons_self
    rw [mergeMembers, outcome_bind_of_ok hb, addNew_cons]
    by_cases hcover : ∃ x ∈ ms, R x n
    · rw [if_pos (hiff.mpr hcover), if_pos hcover]
      exact ih fun x hx y hy => htrial x (by simp at hx ⊢; tauto) y (List.mem_cons_of_mem n hy)
    · rw [if_neg fun h => hcover (hiff.mp h), if_neg hcover, outcome_bind_of_ok huncovered]
      exact ih fun x hx y hy => htrial x (by simp at hx ⊢; tauto) y (List.mem_cons_of_mem n hy)

end Infer

end ValueInference
