/-
Walks that repeat themselves.

A walk gives results for what is below a node, and computes what becomes of the node from them.  If
another walk, which comes later, has results like these, it repeats the work on the node: by
default, and if the handlers are pure.  What the walks remember does not matter here; the first one
keeps an invariant about it.

* **`Rebuild.RepeatsIf`** — the second computation repeats the first one, under a condition on the
  second one;
* **`Rebuild.Repeats`** — it does so wherever the two begin;
* **`Rebuild.RepeatsIf.bind`**, **`Rebuild.RepeatsIf.ask`** — sequences;
* **`Rebuild.repeats_handler`**, **`Rebuild.repeats_slot`**, **`Rebuild.repeats_ref`**,
  **`Rebuild.repeats_byForm`** — the work on a form, if what is below it repeats itself.
-/
import ValueInference.Proofs.Repeating

namespace ValueInference

open Store (Stage InHand Replay Replicas Grows)

variable {σ τ α β : Type}

namespace Rebuild

/-- What a computation of a walk gives, with what is remembered and the store that it leaves. -/
def outcome (x : Rebuild σ Update α) (w : Walk σ) (s : Store) :
    (Except InferError α × Walk σ) × Store :=
  ((ExceptT.run x).run w).run s

section

variable {x : Rebuild σ Update α} {f : α → Rebuild σ Update β} {w w' : Walk σ} {s s' : Store}

theorem outcome_bind_of_ok {a : α} (h : x.outcome w s = ((.ok a, w'), s')) :
    (x >>= f).outcome w s = (f a).outcome w' s' := by
  show ((ExceptT.bindCont f (x.outcome w s).1.1).run (x.outcome w s).1.2).run (x.outcome w s).2 = _
  rw [h]
  rfl

theorem outcome_bind_of_error {e : InferError} (h : x.outcome w s = ((.error e, w'), s')) :
    (x >>= f).outcome w s = ((.error e, w'), s') := by
  show ((ExceptT.bindCont f (x.outcome w s).1.1).run (x.outcome w s).1.2).run (x.outcome w s).2 = _
  rw [h]
  rfl

theorem outcome_lift {r : Except InferError α} (h : x.outcome w s = ((r, w'), s')) :
    outcome (ExceptT.lift x.run) w s = ((.ok r, w'), s') := by
  show (fun p : (Except InferError α × Walk σ) × Store => ((Except.ok p.1.1, p.1.2), p.2))
    (x.outcome w s) = _
  rw [h]

end

/-! ### Computations that repeat others -/

/-- From the store `t` the first computation comes to a store where its result is known, and keeps
the invariant `I`.  If `P` holds, and the second one is run later, from `u`, it gives what is like
that, whatever it remembers.  The computations are part of those that began in `s` and in `v`. -/
structure RepeatsIf (P : Prop) (I : Walk σ → Store → Prop) (recent made : NodeId → Prop)
    (s t v u : Store) (w : Walk σ) (x : Rebuild σ Update α) (y : Rebuild τ Update α)
    (Q : Likeness α) : Prop where
  keeps : I (x.outcome w t).1.2 (x.outcome w t).2
  stage : s.Stage (x.outcome w t).2
  grows : t.Grows (x.outcome w t).2
  known : Q.outcome.known s (x.outcome w t).2 (x.outcome w t).1.1
  again : P → Replay recent made (x.outcome w t).2 u → ∀ w', v.Stage (y.outcome w' u).2 ∧
    u.Grows (y.outcome w' u).2 ∧
      Q.outcome.same made v (y.outcome w' u).2 (x.outcome w t).1.1 (y.outcome w' u).1.1

/-- The second computation repeats the first one wherever the two begin. -/
def Repeats (I : Walk σ → Store → Prop) (recent made : NodeId → Prop) (x : Rebuild σ Update α)
    (y : Rebuild τ Update α) (Q : Likeness α) : Prop :=
  ∀ ⦃P : Prop⦄ ⦃w : Walk σ⦄ ⦃t u : Store⦄, I w t → t.Reachable → (P → u.Reachable) →
    RepeatsIf P I recent made t t u u w x y Q

variable {P : Prop} {I : Walk σ → Store → Prop} {recent made : NodeId → Prop} {s t v u : Store}
  {w : Walk σ} {x : Rebuild σ Update α} {y : Rebuild τ Update α} {Q : Likeness α} {Q' : Likeness β}

namespace RepeatsIf

theorem pure {a b : α} (hI : I w t) (hs : s.Stage t) (hv : P → v.Stage u) (ha : Q.known s t a)
    (hab : P → Replay recent made t u → Q.same made v u a b) :
    RepeatsIf P I recent made s t v u w (Pure.pure a : Rebuild σ Update α)
      (Pure.pure b : Rebuild τ Update α) Q where
  keeps := hI
  stage := hs
  grows := .refl t
  known _ h := Except.ok.inj h ▸ ha
  again hP h _ := ⟨hv hP, .refl u, hab hP h⟩

/-- Computations that look at the store. -/
theorem store {f : Store → Rebuild σ Update α} {g : Store → Rebuild τ Update α}
    (h : RepeatsIf P I recent made s t v u w (f t) (g u) Q) :
    RepeatsIf P I recent made s t v u w (Rebuild.infer Infer.store >>= f)
      (Rebuild.infer Infer.store >>= g) Q :=
  ⟨h.keeps, h.stage, h.grows, h.known, h.again⟩

/-- Updates leave slots that wait as they are. -/
theorem settle {slot slot' : Slot} {f : Slot → Rebuild σ Update α} {g : Slot → Rebuild τ Update α}
    (h : RepeatsIf P I recent made s t v u w (f slot) (g slot') Q) :
    RepeatsIf P I recent made s t v u w (Rebuild.settle slot >>= f) (Rebuild.settle slot' >>= g) Q :=
  ⟨h.keeps, h.stage, h.grows, h.known, h.again⟩

/-- It is enough to know the second run where there is one. -/
theorem intro {P' : Prop} {v' u' : Store} {z : Rebuild τ Update α}
    (h : RepeatsIf P' I recent made s t v' u' w x z Q)
    (hboth : P → t.Grows u → RepeatsIf P I recent made s t v u w x y Q) :
    RepeatsIf P I recent made s t v u w x y Q :=
  ⟨h.keeps, h.stage, h.grows, h.known, fun hP h' =>
    (hboth hP (h.grows.trans h'.grows)).again hP h'⟩

/-- A sequence, where the first part may be a computation by itself. -/
theorem sequel {s₀ v₀ : Store} {f : α → Rebuild σ Update β} {g : α → Rebuild τ Update β}
    (h : RepeatsIf P I recent made s₀ t v₀ u w x y Q) (hs : ∀ {t'}, s₀.Stage t' → s.Stage t')
    (hv : ∀ {u'}, P → v₀.Stage u' → v.Stage u')
    (hnext : ∀ (P' : Prop) a b w' t' u', I w' t' → s₀.Stage t' → t.Grows t' → Q.known s₀ t' a →
      (P' → P ∧ v₀.Stage u' ∧ u.Grows u' ∧ Q.same made v₀ u' a b) →
        RepeatsIf P' I recent made s t' v u' w' (f a) (g b) Q') :
    RepeatsIf P I recent made s t v u w (x >>= f) (y >>= g) Q' := by
  obtain ⟨hkeeps, hstage, hgrows, hknown, hagain⟩ := h
  rcases hx : x.outcome w t with ⟨⟨e | a, w₁⟩, t₁⟩
  · -- the first part fails in both
    rw [hx] at hkeeps hstage hgrows hagain
    refine ⟨?_, ?_, ?_, ?_, fun hP h w' => ?_⟩
    all_goals rw [outcome_bind_of_error hx]
    · exact hkeeps
    · exact hs hstage
    · exact hgrows
    · exact nofun
    · rw [outcome_bind_of_error hx] at h
      obtain ⟨hstage', hu, hsame⟩ := hagain hP h w'
      rcases hy : y.outcome w' u with ⟨⟨e' | b, w₁'⟩, u₁⟩
      · rw [hy] at hstage' hu hsame
        rw [outcome_bind_of_error hy]
        exact ⟨hv hP hstage', hu, hsame⟩
      · rw [hy] at hsame
        exact hsame.elim
  · rw [hx] at hkeeps hstage hgrows hknown hagain
    -- what the rest does first does not depend on the second run
    obtain ⟨hkeeps', hstage', hgrows', hknown', -⟩ := hnext False a a w₁ t₁ t₁ hkeeps hstage hgrows
      (hknown a rfl) False.elim
    refine ⟨?_, ?_, ?_, ?_, fun hP h w' => ?_⟩
    all_goals rw [outcome_bind_of_ok hx]
    · exact hkeeps'
    · exact hstage'
    · exact hgrows.trans hgrows'
    · exact hknown'
    · rw [outcome_bind_of_ok hx] at h
      obtain ⟨hfirst, hu, hsame⟩ := hagain hP (h.earlier hgrows') w'
      rcases hy : y.outcome w' u with ⟨⟨e' | b, w₁'⟩, u₁⟩
      · rw [hy] at hsame
        exact hsame.elim
      · rw [hy] at hfirst hu hsame
        rw [outcome_bind_of_ok hy]
        obtain ⟨hlast, hu', hsame'⟩ := (hnext True a b w₁ t₁ u₁ hkeeps hstage hgrows (hknown a rfl)
          fun _ => ⟨hP, hfirst, hu, hsame⟩).again trivial (h.later hu) w₁'
        exact ⟨hlast, hu.trans hu', hsame'⟩

/-- **A sequence** repeats another one if its parts do. -/
theorem bind {f : α → Rebuild σ Update β} {g : α → Rebuild τ Update β}
    (h : RepeatsIf P I recent made s t v u w x y Q)
    (hnext : ∀ (P' : Prop) a b w' t' u', I w' t' → s.Stage t' → t.Grows t' → Q.known s t' a →
      (P' → P ∧ v.Stage u' ∧ u.Grows u' ∧ Q.same made v u' a b) →
        RepeatsIf P' I recent made s t' v u' w' (f a) (g b) Q') :
    RepeatsIf P I recent made s t v u w (x >>= f) (y >>= g) Q' :=
  h.sequel id (fun _ => id) hnext

/-- **A request** and what follows: what was known before stays known. -/
theorem ask {f : α → Rebuild σ Update β} {g : α → Rebuild τ Update β}
    (h : Repeats I recent made x y Q) (hI : I w t) (hs : s.Stage t) (hv : P → v.Stage u)
    (hnext : ∀ (P' : Prop) a b w' t' u', I w' t' → s.Stage t' → t.Stage t' → Q.known s t' a →
      (P' → P ∧ v.Stage u' ∧ u.Stage u' ∧ Q.same made v u' a b) →
        RepeatsIf P' I recent made s t' v u' w' (f a) (g b) Q') :
    RepeatsIf P I recent made s t v u w (x >>= f) (y >>= g) Q' := by
  refine (h hI hs.reachable fun hP => (hv hP).reachable).sequel hs.trans (fun hP => (hv hP).trans) ?_
  intro P' a b w' t' u' hI' ht' hgrows ha hboth
  refine hnext P' a b w' t' u' hI' (hs.trans ht') ht' (Q.known_within ha hs) fun hP' => ?_
  obtain ⟨hP, hu', -, hsame⟩ := hboth hP'
  exact ⟨hP, (hv hP).trans hu', hu', Q.same_within hsame (hv hP)⟩

theorem ite {p p' : Prop} [Decidable p] [Decidable p'] {x' : Rebuild σ Update α}
    {y' : Rebuild τ Update α} (hpp : P → t.Grows u → (p ↔ p'))
    (h : p → RepeatsIf P I recent made s t v u w x y Q)
    (h' : ¬ p → RepeatsIf P I recent made s t v u w x' y' Q) :
    RepeatsIf P I recent made s t v u w (if p then x else x') (if p' then y else y') Q := by
  by_cases hp : p
  · obtain ⟨hkeeps, hstage, hgrows, hknown, hagain⟩ := h hp
    rw [if_pos hp]
    refine ⟨hkeeps, hstage, hgrows, hknown, fun hP hlater => ?_⟩
    rw [if_pos ((hpp hP (hgrows.trans hlater.grows)).mp hp)]
    exact hagain hP hlater
  · obtain ⟨hkeeps, hstage, hgrows, hknown, hagain⟩ := h' hp
    rw [if_neg hp]
    refine ⟨hkeeps, hstage, hgrows, hknown, fun hP hlater => ?_⟩
    rw [if_neg fun hp' => hp ((hpp hP (hgrows.trans hlater.grows)).mpr hp')]
    exact hagain hP hlater

/-- **A computation on the store,** where the invariant goes on as the store grows. -/
theorem infer {x y : Infer α} (h : Infer.RepeatsIf P recent made s t v u x y Q)
    (hI : ∀ {t'}, t.Grows t' → t'.Reachable → I w t') :
    RepeatsIf P I recent made s t v u w (infer x : Rebuild σ Update α)
      (infer y : Rebuild τ Update α) Q where
  keeps := hI h.grows h.stage.reachable
  stage := h.stage
  grows := h.grows
  known := h.known
  again hP hlater _ := h.again hP hlater

end RepeatsIf

namespace Repeats

/-- The outcomes of computations, whatever they are. -/
theorem lift (h : Repeats I recent made x y Q) :
    Repeats I recent made (ExceptT.lift x.run) (ExceptT.lift y.run) Q.outcome := by
  intro P w t u hI ht hu
  obtain ⟨hkeeps, hstage, hgrows, hknown, hagain⟩ := h hI ht hu
  exact ⟨hkeeps, hstage, hgrows, fun _ hr => Except.ok.inj hr ▸ hknown, fun hP hlater w' =>
    hagain hP hlater w'⟩

/-- **A list of computations** repeats another one if each of them does. -/
theorem mapM {f : α → Rebuild σ Update β} {g : α → Rebuild τ Update β} {as : List α}
    (h : ∀ a ∈ as, Repeats I recent made (f a) (g a) Q') :
    Repeats I recent made (as.mapM f) (as.mapM g) Q'.list := by
  induction as with
  | nil =>
    intro P w t u hI ht hu
    rw [List.mapM_nil, List.mapM_nil]
    exact .pure hI (.refl ht) (fun hP => .refl (hu hP)) (fun _ hb => absurd hb List.not_mem_nil)
      fun _ _ => .nil
  | cons a as ih =>
    intro P w t u hI ht hu
    rw [List.mapM_cons, List.mapM_cons]
    refine .ask (h a List.mem_cons_self) hI (.refl ht) (fun hP => .refl (hu hP)) ?_
    intro P₁ b b' w₁ t₁ u₁ hI₁ ht₁ _ hb hboth
    refine .ask (ih fun a ha => h a (List.mem_cons_of_mem _ ha)) hI₁ ht₁
      (fun hP => (hboth hP).2.1) ?_
    intro P₂ bs bs' w₂ t₂ u₂ hI₂ ht₂ hgrows₂ hbs hboth₂
    refine .pure hI₂ ht₂ (fun hP => (hboth₂ hP).2.1) ?_ fun hP _ => ?_
    · intro c hc
      rcases List.mem_cons.mp hc with rfl | hc
      · exact Q'.known_later hb hgrows₂
      · exact hbs c hc
    · obtain ⟨hP₁, -, hlater, hsame⟩ := hboth₂ hP
      obtain ⟨-, hv, -, hfirst⟩ := hboth hP₁
      exact .cons (Q'.same_later hfirst hv hlater) hsame

end Repeats

/-! ### Handlers -/

/-- An invariant of a walk that goes on while the store grows; `b` is the store where it began, and
what is made from then on is recent. -/
structure Invariant (b : Store) (recent : NodeId → Prop) (I : Walk σ → Store → Prop) : Prop where
  grows {w : Walk σ} {t : Store} : I w t → b.Grows t
  later {w : Walk σ} {t t' : Store} : I w t → t.Grows t' → t'.Reachable → I w t'
  recent {n : NodeId} : b.nodes.size ≤ n → recent n

/-- What is below a node, and the results there are repeated. -/
structure BelowRepeats (I : Walk σ → Store → Prop) (recent made : NodeId → Prop)
    (nodes : List NodeId) (slots : List Slot) (refs : List FunctionRef)
    (x : Visitor (Rebuild σ Update)) (y : Visitor (Rebuild τ Update)) : Prop where
  visit : ∀ n ∈ nodes, Repeats I recent made (x.visit n) (y.visit n) .node
  slot : ∀ w ∈ slots, Repeats I recent made (x.slot w) (y.slot w) (.slot w)
  ref : ∀ f ∈ refs, Repeats I recent made (x.ref f) (y.ref f) .ref

section

variable {b : Store} {nodes : List NodeId} {slots : List Slot} {refs : List FunctionRef}
  {x : Visitor (Rebuild σ Update)} {y : Visitor (Rebuild τ Update)}

/-- A handler is run as it repeats itself. -/
def RunsAsRepeated (I : Walk σ → Store → Prop) (recent made : NodeId → Prop)
    (x : Visitor (Rebuild σ Update)) (y : Visitor (Rebuild τ Update)) (Q : Likeness α)
    (h : Handler nodes slots refs α) : Prop :=
  ∀ ⦃P : Prop⦄ ⦃s t v u : Store⦄ ⦃w : Walk σ⦄ ⦃h' : Handler nodes slots refs α⦄, I w t →
    s.Stage t → (P → v.Stage u) → h.Repeats recent made s s Q t t h →
      (P → t.Grows u → h.Repeats recent made s v Q t u h') →
        RepeatsIf P I recent made s t v u w (h.run x) (h'.run y) Q

/-- A request of a handler, and what the handler does then. -/
theorem repeats_request {γ : Type} {x₀ : Rebuild σ Update γ} {y₀ : Rebuild τ Update γ}
    {R : Likeness γ} {next next' : Except InferError γ → Handler nodes slots refs α}
    (h : Repeats I recent made x₀ y₀ R)
    (ih : ∀ r, RunsAsRepeated I recent made x y Q (next r)) (hI : I w t) (hs : s.Stage t)
    (hv : P → v.Stage u)
    (hself : ∀ t' u' r r', t.Stage t' → t.Stage u' → R.outcome.known s t' r →
      R.outcome.same made s u' r r' → (next r).Repeats recent made s s Q t' u' (next r'))
    (hboth : P → ∀ t' u' r r', t.Stage t' → u.Stage u' → R.outcome.known s t' r →
      R.outcome.same made v u' r r' → (next r).Repeats recent made s v Q t' u' (next' r')) :
    RepeatsIf P I recent made s t v u w
      (ExceptT.lift x₀.run >>= fun r => (next r).run x)
      (ExceptT.lift y₀.run >>= fun r => (next' r).run y) Q := by
  refine .ask h.lift hI hs hv fun P' r r' w' t' u' hI' hs' ht' hr hlater => ?_
  refine ih r hI' hs' (fun hP' => (hlater hP').2.1) ?_ fun hP' _ => ?_
  · exact hself t' t' r r ht' ht' hr (R.outcome.refl made hr)
  · obtain ⟨hP, -, hu', hsame⟩ := hlater hP'
    exact hboth hP t' u' r r' ht' hu' hr hsame

/-- **A handler** that repeats itself is run so, if what is below it is repeated. -/
theorem repeats_handler (hinv : Invariant b recent I)
    (hbelow : BelowRepeats I recent made nodes slots refs x y) (h : Handler nodes slots refs α) :
    RunsAsRepeated I recent made x y Q h := by
  induction h with
  | result z hz =>
    intro P s t v u w h' hI hs hv hself hboth
    have hlater : ∀ {t'}, t.Grows t' → t'.Reachable → I w t' := fun hgrows ht' =>
      hinv.later hI hgrows ht'
    cases hself with
    | result h =>
      refine .intro (.infer h hlater) fun hP hgrows => ?_
      cases hboth hP hgrows with
      | result h => exact .infer (h.imp fun _ => trivial) hlater
  | visit n hn next ih =>
    intro P s t v u w h' hI hs hv hself hboth
    cases hself with
    | visit hself =>
      refine .intro (repeats_request (hbelow.visit n hn) ih hI hs (fun _ : True => hs) hself
        fun _ => hself) fun hP hgrows => ?_
      cases hboth hP hgrows with
      | visit hagain => exact repeats_request (hbelow.visit n hn) ih hI hs hv hself fun _ => hagain
  | slot w hw next ih =>
    intro P s t v u w' h' hI hs hv hself hboth
    cases hself with
    | slot hself =>
      refine .intro (repeats_request (hbelow.slot w hw) ih hI hs (fun _ : True => hs) hself
        fun _ => hself) fun hP hgrows => ?_
      cases hboth hP hgrows with
      | slot hagain => exact repeats_request (hbelow.slot w hw) ih hI hs hv hself fun _ => hagain
  | ref f hf next ih =>
    intro P s t v u w h' hI hs hv hself hboth
    cases hself with
    | ref hself =>
      refine .intro (repeats_request (hbelow.ref f hf) ih hI hs (fun _ : True => hs) hself
        fun _ => hself) fun hP hgrows => ?_
      cases hboth hP hgrows with
      | ref hagain => exact repeats_request (hbelow.ref f hf) ih hI hs hv hself fun _ => hagain

end

/-! ### What is done by default -/

theorem forall₂_eq_iff {R : α → α → Prop} {old : List α} : ∀ {as bs : List α},
    List.Forall₂ R as bs → (∀ c ∈ old, ∀ a b, R a b → (a = c ↔ b = c)) →
      (as = old ↔ bs = old) := by
  induction old with
  | nil =>
    intro as bs h _
    cases h with
    | nil => exact Iff.rfl
    | cons _ _ => exact iff_of_false nofun nofun
  | cons c old ih =>
    intro as bs h hc
    cases h with
    | nil => exact iff_of_false nofun nofun
    | cons hab h =>
      rw [List.cons.injEq, List.cons.injEq, hc c List.mem_cons_self _ _ hab,
        ih h fun d hd => hc d (List.mem_cons_of_mem _ hd)]

section

variable {b : Store} {nodes : List NodeId} {slots : List Slot} {refs : List FunctionRef}
  {X : Visitor (Rebuild σ Update)} {Y : Visitor (Rebuild τ Update)} {n : NodeId}

/-- What is kept, or made anew. -/
theorem repeats_rebuilt [DecidableEq α] {old : α} {E : α → Infer NodeId}
    (h : Repeats I recent made x y Q) (hI : I w t) (ht : t.Reachable) (hu : P → u.Reachable)
    (hinv : Invariant b recent I) (hn : n < t.nodes.size)
    (hold : ∀ {v u a a'}, Store.Sound u → Q.same made v u a a' → (a = old ↔ a' = old))
    (hE : ∀ {P' : Prop} {t' v u' a a'}, t.Stage t' → (P' → v.Stage u') → Q.known t t' a →
      (P' → Q.same made v u' a a') → (∀ m, t.nodes.size ≤ m → recent m) →
        Infer.RepeatsIf P' recent made t t' v u' (E a) (E a') .node) :
    RepeatsIf P I recent made t t u u w
      (x >>= fun new => if new = old then return n else Rebuild.infer (E new))
      (y >>= fun new => if new = old then return n else Rebuild.infer (E new)) .node := by
  refine .ask h hI (.refl ht) (fun hP => .refl (hu hP)) fun P' a a' w' t' u' hI' ht' _ ha hboth => ?_
  have hv : P' → u.Stage u' := fun hP => (hboth hP).2.1
  refine .ite (fun hP _ => ?_) (fun _ => ?_) fun _ => ?_
  · exact hold (hv hP).sound (hboth hP).2.2.2
  · have hn' : n < t'.nodes.size := hn.trans_le ht'.grows.size_le
    exact .pure hI' ht' hv hn' fun _ hlater => .refl (hn'.trans_le hlater.grows.size_le)
  · refine .infer (hE ht' hv ha (fun hP => (hboth hP).2.2.2) fun m hm => ?_) fun hgrows ht'' =>
      hinv.later hI' hgrows ht''
    exact hinv.recent ((hinv.grows hI).size_le.trans hm)

theorem repeats_visits (hbelow : BelowRepeats I recent made nodes slots refs X Y)
    {items : List NodeId} (hitems : ∀ n ∈ items, n ∈ nodes) :
    Repeats I recent made (items.mapM X.visit) (items.mapM Y.visit) Likeness.node.list :=
  .mapM fun n hn => hbelow.visit n (hitems n hn)

theorem repeats_fields {δ : Type} (hbelow : BelowRepeats I recent made nodes slots refs X Y)
    {fields : List (δ × NodeId)} (hfields : ∀ n ∈ fields.map Prod.snd, n ∈ nodes) :
    Repeats I recent made (fields.mapM fun (label, field) => return (label, ← X.visit field))
      (fields.mapM fun (label, field) => return (label, ← Y.visit field))
      (Likeness.labelled .node).list := by
  refine .mapM fun f hf P w t u hI ht hu => ?_
  refine .ask (hbelow.visit f.2 (hfields _ (List.mem_map_of_mem hf))) hI (.refl ht)
    (fun hP => .refl (hu hP)) fun P' a a' w' t' u' hI' ht' _ ha hboth => ?_
  exact .pure hI' ht' (fun hP => (hboth hP).2.1) ha fun hP _ => ⟨rfl, (hboth hP).2.2.2⟩

variable (hinv : Invariant b recent I)

include hinv

theorem repeats_candidate {d : Candidate} (hd : ∀ n ∈ d.children, n < b.nodes.size)
    (href : ∀ f, d = .function f → Repeats I recent made (X.ref f) (Y.ref f) .ref) :
    Repeats I recent made (visitCandidate X d) (visitCandidate Y d) .candidate := by
  intro P w t u hI ht hu
  cases d with
  | constant c =>
    exact .pure hI (.refl ht) (fun hP => .refl (hu hP)) (fun _ hn => absurd hn List.not_mem_nil)
      fun _ _ => ⟨rfl, rfl⟩
  | function f =>
    refine .ask (href f rfl) hI (.refl ht) (fun hP => .refl (hu hP)) ?_
    intro P' g g' w' t' u' hI' ht' _ hg hboth
    refine .store (.pure hI' ht' (fun hP => (hboth hP).2.1) hg fun hP hlater => ?_)
    obtain ⟨-, hu', -, hsame⟩ := hboth hP
    have hnew : ∀ n ∈ (Candidate.function g).children, n < t'.nodes.size := hg
    have hpresent : ∀ n ∈ (Candidate.function f).children, n < t'.nodes.size := fun n hn =>
      (hd n hn).trans_le (hinv.grows hI').size_le
    have hself : (Candidate.function f).Alike (u'.Replicas made) (.function f) :=
      .refl fun n hn => .refl ((hpresent n hn).trans_le hlater.grows.size_le)
    have halike : (Candidate.function g).Alike (u'.Replicas made) (.function g') := hsame
    have hequal : u'.equalRefs g' f = t'.equalRefs g f :=
      Store.equalCandidates_of_replicas hlater.grows ht'.sound hu'.sound hnew hpresent halike hself
    exact ⟨hsame, by rw [hequal]⟩

omit hinv in
theorem any_eq_of_forall₂ {cs ds : List (Candidate × Bool)}
    (h : List.Forall₂ (Likeness.candidate.same made v u) cs ds) :
    cs.any Prod.snd = ds.any Prod.snd := by
  show cs.any (id ∘ Prod.snd) = ds.any (id ∘ Prod.snd)
  rw [← List.any_map, ← List.any_map, map_eq_of_forall₂ (fun _ _ hcd => hcd.2) h]

/-- **The slot of a node.** -/
theorem repeats_slot {m : NodeId} {old : Slot} (hm : m < b.nodes.size)
    (hold : (b.kind m).slot? = some old) (hchildren : ∀ c ∈ old.children, c < b.nodes.size)
    (hbelow : BelowRepeats I recent made nodes slots old.refs X Y) :
    Repeats I recent made (Rebuild.slot X old) (Rebuild.slot Y old) (.slot old) := by
  -- the slot is in hand at every stage
  have hhand : ∀ {v u : Store}, v.Stage u → b.Grows u → v.InHand u old := by
    intro v u hv hu
    refine InHand.within (InHand.of_held (n := m) hv.sound ?_) hv
    rw [hu.kind_eq hm]
    exact hold
  have hkept : ∀ {P : Prop} {s t v u : Store} {w : Walk σ}, I w t → s.Stage t → (P → v.Stage u) →
      RepeatsIf P I recent made s t v u w (Pure.pure old : Rebuild σ Update _)
        (Pure.pure old : Rebuild τ Update _) (.slot old) := by
    intro P s t v u w hI hs hv
    have hpresent : ∀ c ∈ old.children, c < t.nodes.size := fun c hc =>
      (hchildren c hc).trans_le (hinv.grows hI).size_le
    refine .pure hI hs hv ⟨hpresent, hhand hs (hinv.grows hI)⟩ fun hP hlater => ?_
    refine ⟨.refl fun c hc => .refl ((hpresent c hc).trans_le hlater.grows.size_le), Iff.rfl, ?_⟩
    exact hhand (hv hP) ((hinv.grows hI).trans hlater.grows)
  intro P w t u hI ht hu
  refine .settle ?_
  cases old with
  | possibilities p =>
    have hcandidates : Repeats I recent made (p.candidates.mapM (visitCandidate X))
        (p.candidates.mapM (visitCandidate Y)) Likeness.candidate.list := by
      refine .mapM fun d hd => repeats_candidate hinv (fun n hn => ?_) fun f hf => ?_
      · exact hchildren n (List.mem_flatMap_of_mem hd hn)
      · exact hbelow.ref f (List.mem_filterMap.mpr ⟨d, hd, by rw [hf]; rfl⟩)
    refine .ask hcandidates hI (.refl ht) (fun hP => .refl (hu hP)) ?_
    intro P' new new' w' t' u' hI' ht' _ hnew hboth
    have hv : P' → u.Stage u' := fun hP => (hboth hP).2.1
    refine .ite (fun hP _ => ?_) (fun _ => ?_) fun _ => hkept hI' ht' hv
    · rw [any_eq_of_forall₂ (hboth hP).2.2.2]
    · have hset : Infer.RepeatsIf P' recent made t t' u u' (Infer.possibilitiesOf (new.map Prod.fst))
          (Infer.possibilitiesOf (new'.map Prod.fst))
          ((Likeness.slot (.possibilities p)).comap .possibilities) := by
        refine .possibilitiesOf ht' hv (hhand ht' (hinv.grows hI')).admits (fun c hc => ?_) fun hP => ?_
        · obtain ⟨x, hx, rfl⟩ := List.mem_map.mp hc
          exact hnew x hx
        · refine List.forall₂_map_left_iff.mpr (List.forall₂_map_right_iff.mpr ?_)
          exact (hboth hP).2.2.2.imp fun _ _ => And.left
      refine .bind (.infer hset fun hgrows ht'' => hinv.later hI' hgrows ht'') ?_
      intro P'' q q' w'' t'' u'' hI'' ht'' _ hq hboth'
      exact .pure hI'' ht'' (fun hP => (hboth' hP).2.1) hq fun hP _ => (hboth' hP).2.2.2
  | _ => exact hkept hI (.refl ht) fun hP => .refl (hu hP)

omit hinv in
/-- A function that is known by its arguments and its output. -/
theorem repeats_call {args : List NodeId} {output : NodeId} {F : List NodeId → NodeId → FunctionRef}
    (hchildren : ∀ as a, (F as a).children = as ++ [a])
    (halike : ∀ {R : NodeId → NodeId → Prop} {as bs a b}, List.Forall₂ R as bs → R a b →
      (F as a).Alike R (F bs b))
    (hbelow : BelowRepeats I recent made (args ++ [output]) slots refs X Y) :
    Repeats I recent made (do return F (← args.mapM X.visit) (← X.visit output))
      (do return F (← args.mapM Y.visit) (← Y.visit output)) .ref := by
  intro P w t u hI ht hu
  refine .ask (repeats_visits hbelow fun n hn => List.mem_append_left _ hn) hI (.refl ht)
    (fun hP => .refl (hu hP)) fun P₁ as as' w₁ t₁ u₁ hI₁ ht₁ _ has hargs => ?_
  refine .ask (hbelow.visit output (List.mem_append_right _ List.mem_cons_self)) hI₁ ht₁
    (fun hP => (hargs hP).2.1) fun P₂ a a' w₂ t₂ u₂ hI₂ ht₂ hmore ha houtput => ?_
  refine .pure hI₂ ht₂ (fun hP => (houtput hP).2.1) (fun n hn => ?_) fun hP _ => ?_
  · rw [hchildren] at hn
    rcases List.mem_append.mp hn with hn | hn
    · exact (has n hn).trans_le hmore.grows.size_le
    · exact List.mem_singleton.mp hn ▸ ha
  · obtain ⟨hP₁, -, hlater, hsame⟩ := houtput hP
    obtain ⟨-, hv, -, hfirst⟩ := hargs hP₁
    exact halike (hfirst.imp fun _ _ hab => hlater.grows.replicas hv.sound hab) hsame

omit hinv in
/-- **A function reference.** -/
theorem repeats_ref {f : FunctionRef}
    (hbelow : BelowRepeats I recent made f.children slots f.applied X Y) :
    Repeats I recent made (Rebuild.ref X f) (Rebuild.ref Y f) .ref := by
  cases f with
  | typed p args output =>
    exact repeats_call (fun _ _ => rfl) (fun has ha => ⟨rfl, has, ha⟩) hbelow
  | virtual args output => exact repeats_call (fun _ _ => rfl) (fun has ha => ⟨has, ha⟩) hbelow
  | partialApp func args =>
    intro P w t u hI ht hu
    refine .ask (hbelow.ref func List.mem_cons_self) hI (.refl ht) (fun hP => .refl (hu hP))
      fun P₁ g g' w₁ t₁ u₁ hI₁ ht₁ _ hg hfunc => ?_
    refine .ask (repeats_visits hbelow fun n hn => List.mem_append_right _ hn) hI₁ ht₁
      (fun hP => (hfunc hP).2.1) fun P₂ as as' w₂ t₂ u₂ hI₂ ht₂ hmore has hargs => ?_
    refine .pure hI₂ ht₂ (fun hP => (hargs hP).2.1) (fun n hn => ?_) fun hP _ => ?_
    · rcases List.mem_append.mp hn with hn | hn
      · exact (hg n hn).trans_le hmore.grows.size_le
      · exact has n hn
    · obtain ⟨hP₁, -, hlater, hsame⟩ := hargs hP
      obtain ⟨-, hv, -, hfirst⟩ := hfunc hP₁
      exact ⟨hfirst.imp fun _ _ _ _ hab => hlater.grows.replicas hv.sound hab, hsame⟩
  | primitive p =>
    intro P w t u hI ht hu
    exact .pure hI (.refl ht) (fun hP => .refl (hu hP)) (fun _ hn => absurd hn List.not_mem_nil)
      fun _ _ => rfl
  | graph name =>
    intro P w t u hI ht hu
    exact .pure hI (.refl ht) (fun hP => .refl (hu hP)) (fun _ hn => absurd hn List.not_mem_nil)
      fun _ _ => rfl

end

/-! ### Forms -/

section

variable {b : Store} {X : Visitor (Rebuild σ Update)} {Y : Visitor (Rebuild τ Update)} {n : NodeId}
  {h : Handlers} (hpure : h.Pure) (hinv : Invariant b recent I)

include hpure hinv

/-- A slot of a node, by its handler or by default. -/
theorem repeats_slotOf {old : Slot} (hold : (b.kind n).slot? = some old) (hn : n < b.nodes.size)
    (hchildren : ∀ c ∈ old.children, c < b.nodes.size ∧ ¬ made c)
    (hbelow : BelowRepeats I recent made old.children [] old.refs X Y) :
    Repeats I recent made (h.variant.slot X old) (h.variant.slot Y old) (.slot old) := by
  simp only [Handlers.variant]
  split
  next handler hhandler =>
    intro P w t u hI ht hu
    have hgrows := hinv.grows hI
    have hrecent : ∀ m, t.nodes.size ≤ m → recent m := fun m hm =>
      hinv.recent (hgrows.size_le.trans hm)
    have hpresent : ∀ c ∈ old.children, c < t.nodes.size ∧ ¬ made c := fun c hc =>
      ⟨(hchildren c hc).1.trans_le hgrows.size_le, (hchildren c hc).2⟩
    have hhand : ∀ {u : Store}, u.Reachable → t.Grows u → u.InHand u old := by
      intro u hu hmore
      refine InHand.of_held (n := n) hu.sound ?_
      rw [(hgrows.trans hmore).kind_eq hn]
      exact hold
    have hself := hhand ht (.refl t)
    refine repeats_handler hinv hbelow handler hI (.refl ht) (fun hP => .refl (hu hP)) ?_ ?_
    · exact hpure.slot hhandler ht ht (.refl t) hpresent hself hself hrecent
    · exact fun hP hmore => hpure.slot hhandler ht (hu hP) hmore hpresent hself
        (hhand (hu hP) hmore) hrecent
  next =>
    exact repeats_slot hinv hn hold (fun c hc => (hchildren c hc).1) hbelow

/-- A function reference, by its handler or by default. -/
theorem repeats_refOf {f : FunctionRef} (hchildren : ∀ c ∈ f.children, c < b.nodes.size ∧ ¬ made c)
    (hbelow : BelowRepeats I recent made f.children [] f.applied X Y) :
    Repeats I recent made (h.variant.ref X f) (h.variant.ref Y f) .ref := by
  simp only [Handlers.variant]
  split
  next handler hhandler =>
    intro P w t u hI ht hu
    have hgrows := hinv.grows hI
    have hrecent : ∀ m, t.nodes.size ≤ m → recent m := fun m hm =>
      hinv.recent (hgrows.size_le.trans hm)
    have hpresent : ∀ c ∈ f.children, c < t.nodes.size ∧ ¬ made c := fun c hc =>
      ⟨(hchildren c hc).1.trans_le hgrows.size_le, (hchildren c hc).2⟩
    refine repeats_handler hinv hbelow handler hI (.refl ht) (fun hP => .refl (hu hP)) ?_ ?_
    · exact hpure.ref hhandler ht ht (.refl t) hpresent hrecent
    · exact fun hP hmore => hpure.ref hhandler ht (hu hP) hmore hpresent hrecent
  next => exact repeats_ref hbelow

/-- What a variant does with a form. -/
def onForm (v : Variant (Rebuild σ Update)) (inner : Visitor (Rebuild σ Update)) (n : NodeId) :
    Kind → Rebuild σ Update NodeId
  | .scalar value ty => v.scalar inner n value ty
  | .tuple items => v.tuple inner n items
  | .list item => v.list inner n item
  | .array item shape => v.array inner n item shape
  | .record tag fields => v.record inner n tag fields
  | .union members => v.union inner n members
  | .tagged options => v.tagged inner n options
  | .function options => v.function inner n options
  | .jtagged x => v.jtagged inner n x
  | .error reason => v.error inner n reason
  | .type ty => v.type inner n ty

/-- **The work on a node** repeats itself, if what is below it is repeated. -/
theorem repeats_byForm (hn : n < b.nodes.size) (hmade : ¬ made n)
    (hchildren : ∀ c ∈ (b.kind n).children, ¬ made c)
    (hbelow : BelowRepeats I recent made (b.kind n).children (b.kind n).slot?.toList
      (b.kind n).refs X Y) :
    Repeats I recent made (byForm h.variant X n) (byForm h.variant Y n) .node := by
  intro P w t u hI ht hu
  have hgrows := hinv.grows hI
  have hn' : n < t.nodes.size := hn.trans_le hgrows.size_le
  have hkind : t.kind n = b.kind n := hgrows.kind_eq hn
  have hrecent : ∀ m, t.nodes.size ≤ m → recent m := fun m hm =>
    hinv.recent (hgrows.size_le.trans hm)
  -- the node has its form in the later store as well
  suffices hform : ∀ {P : Prop} {u : Store}, (P → u.Reachable) → (P → t.Grows u) →
      RepeatsIf P I recent made t t u u w _ (onForm h.variant Y n (t.kind n)) .node by
    refine .store (.intro (hform (fun _ : True => ht) fun _ => .refl t) fun hP hmore => ?_)
    rw [hmore.kind_eq hn']
    exact hform hu fun _ => hmore
  intro P u hu hmore
  rw [hkind]
  have hgiven : ∀ {d : Rebuild σ Update NodeId} {d' : Rebuild τ Update NodeId},
      RepeatsIf P I recent made t t u u w d d' .node →
        RepeatsIf P I recent made t t u u w (h.given (b.kind n) X n d) (h.given (b.kind n) Y n d')
          .node := by
    intro d d' hd
    rw [Handlers.given, Handlers.given]
    split
    next handler hhandler =>
      refine repeats_handler hinv hbelow handler hI (.refl ht) (fun hP => .refl (hu hP)) ?_ ?_
      · exact hpure.node hhandler ht ht (.refl t) hn' hkind hmade hchildren hrecent
      · exact fun hP hmore => hpure.node hhandler ht (hu hP) hmore hn' hkind hmade hchildren hrecent
    next => exact hd
  have hkept : RepeatsIf P I recent made t t u u w (Pure.pure n : Rebuild σ Update NodeId)
      (Pure.pure n : Rebuild τ Update NodeId) .node :=
    .pure hI (.refl ht) (fun hP => .refl (hu hP)) hn' fun _ hlater =>
      .refl (hn'.trans_le hlater.grows.size_le)
  have hsame : ∀ {u : Store} {c a a' : NodeId}, c ∈ (b.kind n).children → u.Sound →
      u.Replicas made a a' → (a = c ↔ a' = c) := fun hc hu h => h.eq_iff hu (hchildren _ hc)
  have hfields : ∀ {δ : Type} {u : Store} {fs gs old : List (δ × NodeId)},
      (∀ f ∈ old, ∀ {a a'}, u.Replicas made a a' → (a = f.2 ↔ a' = f.2)) →
        List.Forall₂ (SameLabel (u.Replicas made)) fs gs → (fs = old ↔ gs = old) := by
    intro δ u fs gs old hold h
    refine forall₂_eq_iff h fun f hf x y hxy => ?_
    rw [Prod.ext_iff, Prod.ext_iff, hxy.1, hold f hf hxy.2]
  cases hk : b.kind n with
  | scalar value ty =>
    rw [hk] at hgiven hbelow
    refine hgiven (repeats_rebuilt (hbelow.slot value List.mem_cons_self) hI ht hu hinv hn'
      (fun _ h => h.2.1) ?_)
    intro P' t' v' u' a a' ht' hv' ha haa hrecent'
    refine .make ht' hv' hrecent' ha.1 ?_ (fun hP => ?_) fun hP => .scalar ty (haa hP).1
    · rintro _ ⟨⟩
      exact ha.2
    · rintro _ ⟨⟩
      exact (haa hP).2.2
  | tuple items =>
    rw [hk] at hgiven hbelow hsame
    refine hgiven (repeats_rebuilt (repeats_visits hbelow fun _ => id) hI ht hu hinv hn'
      (fun hu h => forall₂_eq_iff h fun c hc _ _ => hsame hc hu) ?_)
    exact fun ht' hv' ha haa hrecent' =>
      .make_of_nodes ht' hv' hrecent' ha rfl rfl fun hP => .tuple (haa hP)
  | list item =>
    rw [hk] at hgiven hbelow hsame
    refine hgiven (repeats_rebuilt (hbelow.visit item List.mem_cons_self) hI ht hu hinv hn'
      (fun hu h => hsame List.mem_cons_self hu h) ?_)
    exact fun ht' hv' ha haa hrecent' => .make_of_nodes ht' hv' hrecent'
      (List.forall_mem_singleton.mpr ha) rfl rfl fun hP => .list (haa hP)
  | array item shape =>
    rw [hk] at hgiven hbelow hsame
    refine hgiven (repeats_rebuilt (hbelow.visit item List.mem_cons_self) hI ht hu hinv hn'
      (fun hu h => hsame List.mem_cons_self hu h) ?_)
    exact fun ht' hv' ha haa hrecent' => .make_of_nodes ht' hv' hrecent'
      (List.forall_mem_singleton.mpr ha) rfl rfl fun hP => .array shape (haa hP)
  | record tag fields =>
    rw [hk] at hgiven hbelow hsame
    refine hgiven (repeats_rebuilt (repeats_fields hbelow fun _ => id) hI ht hu hinv hn'
      (fun hu h => hfields (fun f hf => hsame (List.mem_map_of_mem hf) hu) h) ?_)
    exact fun ht' hv' ha haa hrecent' => .make_of_nodes ht' hv' hrecent'
      (List.forall_mem_map.mpr ha) rfl rfl fun hP => .record tag (haa hP)
  | union members =>
    rw [hk] at hgiven hbelow hsame
    refine hgiven (repeats_rebuilt (repeats_visits hbelow fun _ => id) hI ht hu hinv hn'
      (fun hu h => forall₂_eq_iff h fun c hc _ _ => hsame hc hu) ?_)
    exact fun ht' hv' ha haa hrecent' => .union ht' hv' hrecent' ha haa
  | tagged options =>
    rw [hk] at hgiven hbelow hsame
    refine hgiven (repeats_rebuilt (repeats_fields hbelow fun _ => id) hI ht hu hinv hn'
      (fun hu h => hfields (fun f hf => hsame (List.mem_map_of_mem hf) hu) h) ?_)
    intro P' t' v' u' a a' ht' hv' ha haa hrecent'
    refine .make_of_nodes ht' hv' hrecent' (List.forall_mem_map.mpr fun x hx => ?_) rfl rfl
      fun hP => .tagged (forall₂_stableSort (fun _ _ _ _ hxy hxy' => ?_) (haa hP))
    · exact ha x ((stableSort_perm _ a).mem_iff.mp hx)
    · rw [hxy.1, hxy'.1]
  | function options =>
    rw [hk] at hgiven hbelow
    refine hgiven (repeats_rebuilt (hbelow.slot options List.mem_cons_self) hI ht hu hinv hn'
      (fun _ h => h.2.1) ?_)
    intro P' t' v' u' a a' ht' hv' ha haa hrecent'
    refine .make ht' hv' hrecent' ha.1 ?_ (fun hP => ?_) fun hP => .function (haa hP).1
    · rintro _ ⟨⟩
      exact ha.2
    · rintro _ ⟨⟩
      exact (haa hP).2.2
  | jtagged x =>
    rw [hk] at hgiven hbelow hsame
    refine hgiven (repeats_rebuilt (hbelow.visit x List.mem_cons_self) hI ht hu hinv hn'
      (fun hu h => hsame List.mem_cons_self hu h) ?_)
    exact fun ht' hv' ha haa hrecent' => .make_of_nodes ht' hv' hrecent'
      (List.forall_mem_singleton.mpr ha) rfl rfl fun hP => .jtagged (haa hP)
  | error reason =>
    rw [hk] at hgiven
    exact hgiven hkept
  | type ty =>
    rw [hk] at hgiven
    exact hgiven hkept

end

end Rebuild

end ValueInference
