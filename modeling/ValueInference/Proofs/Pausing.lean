/-
Walks that pause, and what they keep.

A walk over code goes on from each of its pauses in whatever store it is woken.  What it knows stays
true: the nodes that it has reached, the results that it remembers, and the copies that it has made
are complete, and the store only gets later.  So what is shown of a computation of a walk says from
where it goes on to a goal, if what follows it does from wherever it ends.

* **`Rebuild.Yields`** — a computation that ends as claimed, however often it pauses;
* **`Rebuild.composes_yields`** — such statements are put together along sequences;
* **`Rebuild.yields_settle`** — a slot is taken for what it stands for in the end;
* **`Store.Walking`** — a walk from `v` that is inside of some nodes, none of them reached again;
* **`Store.clears_visit`** — a visit yields a copy of its node, if the work on the node does.
-/
import ValueInference.Proofs.Arriving
import ValueInference.Proofs.Cleared
import ValueInference.Proofs.Composing
import ValueInference.Proofs.InStep
import ValueInference.Proofs.Memos

namespace ValueInference

variable {κ : Type}

/-- A point of a walk over code: the store, and what the walk remembers. -/
structure Point where
  store : Store
  walk : Walk Unit

namespace Point

/-- The first point may come before the second one. -/
abbrev Before (σ υ : Point) : Prop := σ.store.Before υ.store

end Point

namespace Rebuild

variable {α β : Type} {T : Store} {v : NodeId} {G : Store → Program κ → Prop} {I J : Point → Prop}
  {σ : Point} {t : Store}

/-- The code of a computation of a walk, given what the walk remembers and how to go on. -/
def code (x : Rebuild Unit (Code κ) α) (w : Walk Unit)
    (next : Except InferError α × Walk Unit → Program κ) : Program κ :=
  x.run.run w next

/-- From the point the computation comes to a point with the invariant, as claimed: whatever goes
on to the goal from all such points goes on to it after the computation. -/
def Yields (T : Store) (v : NodeId) (G : Store → Program κ → Prop) (I : Point → Prop) {α : Type}
    (σ : Point) (x : Rebuild Unit (Code κ) α) (P : Point → α → Prop) : Prop :=
  ∀ next, (∀ υ a, I υ → σ.Before υ → P υ a → T.Comes v G υ.store (next (.ok a, υ.walk))) →
    T.Comes v G σ.store (x.code σ.walk next)

section

variable {x : Rebuild Unit (Code κ) α} {P Q : Point → α → Prop}

theorem yields_pure {a : α} (hσ : I σ) (ha : P σ a) : Yields T v G I σ (pure a) P :=
  fun _ hnext => hnext σ a hσ (.refl _) ha

/-- **A sequence** yields what its second part does, from wherever the first one ends. -/
theorem Yields.bind {f : α → Rebuild Unit (Code κ) β} {Q : Point → β → Prop}
    (hx : Yields T v G I σ x P)
    (hf : ∀ υ a, I υ → σ.Before υ → P υ a → Yields T v G I υ (f a) Q) :
    Yields T v G I σ (x >>= f) Q := by
  intro next hnext
  refine hx (fun r => (ExceptT.bindCont f r.1).run r.2 next) fun υ a hυ hlater ha => ?_
  exact hf υ a hυ hlater ha next fun ω b hω hlater' hb => hnext ω b hω (hlater.trans hlater') hb

/-- The invariant may be changed for one that follows in the end. -/
theorem Yields.change (hx : Yields T v G I σ x P)
    (hend : ∀ υ a, I υ → σ.Before υ → P υ a → J υ ∧ Q υ a) : Yields T v G J σ x Q := by
  intro next hnext
  refine hx next fun υ a hυ hlater ha => ?_
  obtain ⟨hJ, hQ⟩ := hend υ a hυ hlater ha
  exact hnext υ a hJ hlater hQ

theorem Yields.imp (hx : Yields T v G I σ x P) (hPQ : ∀ υ a, I υ → σ.Before υ → P υ a → Q υ a) :
    Yields T v G I σ x Q :=
  hx.change fun υ a hυ hlater ha => ⟨hυ, hPQ υ a hυ hlater ha⟩

/-- A computation on the store yields its result. -/
theorem yields_infer {y : Infer α} {a : α} (hy : y.outcome σ.store = (.ok a, t))
    (ht : t.Towards T v → σ.store.Before t → I ⟨t, σ.walk⟩ ∧ P ⟨t, σ.walk⟩ a) :
    Yields T v G I σ (infer y) P := by
  intro next hnext
  have hrun : y.run.run σ.store = (.ok a, t) := hy
  refine .update (x := y.run) fun hway hlater => ?_
  rw [hrun] at hway hlater ⊢
  obtain ⟨hI, hP⟩ := ht hway hlater
  exact hnext ⟨t, σ.walk⟩ a hI hlater hP

theorem yields_store (hσ : I σ) :
    Yields (κ := κ) T v G I σ (infer Infer.store) fun υ s => υ = σ ∧ s = σ.store :=
  yields_infer rfl fun _ _ => ⟨hσ, rfl, rfl⟩

/-- **A slot** is taken for what it stands for in the end. -/
theorem yields_settle {slot : Slot} (hσ : I σ)
    (known : ∀ p ∈ slot.pendings, p < σ.store.pendings.size)
    (ends : (T.resolve slot).pendings = [])
    (hI : ∀ t, t.Towards T v → σ.store.Before t → I ⟨t, σ.walk⟩) :
    Yields (κ := κ) T v G I σ (settle slot) fun υ w =>
      w = T.resolve slot ∧ υ.store.resolve slot = T.resolve slot := by
  by_cases hslot : slot.pendings = []
  · have hself := T.resolve_self slot hslot
    have hself' := σ.store.resolve_self slot hslot
    intro next hnext
    have hend := hnext σ slot hσ (.refl _) ⟨hself.symm, hself'.trans hself.symm⟩
    cases slot with
    | pending p => exact nomatch hslot
    | _ => exact hend
  · cases slot with
    | pending p =>
      intro next hnext
      refine .await known ends fun t ht hlater hsame => ?_
      exact hnext ⟨t, σ.walk⟩ _ (hI t ht hlater) hlater ⟨rfl, hsame⟩
    | _ => exact absurd rfl hslot

end

section

variable {w : Walk Unit} {n out : NodeId} {V : Variant (Rebuild Unit (Code κ))}
  {inner : Visitor (Rebuild Unit (Code κ))}
  {next : Except InferError NodeId × Walk Unit → Program κ}

theorem code_get_bind {α : Type} (f : Walk Unit → Rebuild Unit (Code κ) α) (w : Walk Unit)
    (next : Except InferError α × Walk Unit → Program κ) :
    (get >>= f).code w next = (f w).code w next := rfl

theorem visit_of_done (h : w.memo.done.lookup n = some out) :
    (visit V inner n).code w next = next (.ok out, w) := by
  rw [visit, known?, bind_assoc, code_get_bind]
  simp only [h]
  rfl

theorem visit_of_fresh (hdone : w.memo.done.lookup n = none)
    (h : w.memo.inProgress.lookup n = none) :
    (visit V inner n).code w next =
      (byForm V inner n).code { w with memo := w.memo.enter n }
        fun r => (conclude n r.1).code r.2 next := by
  rw [visit, known?, bind_assoc, code_get_bind]
  simp only [hdone, h]
  rfl

/-- The end of the work on a node that was not reached again. -/
theorem conclude_of_quiet (h : (w.memo.inProgress.lookup n).join = none) :
    (conclude n (.ok out)).code w next =
      next (.ok out, { w with memo := (w.memo.leave n).publish n out }) := by
  rw [conclude, code_get_bind, h]
  rfl

end

/-- Statements about what computations yield are put together from those about the parts. -/
theorem composes_yields :
    Composes I Point.Before Point.store fun σ x P => Yields (κ := κ) T v G I σ x P where
  pure := yields_pure
  bind := Yields.bind
  imp h hPQ := h.imp fun υ a hυ _ => hPQ υ a hυ
  store := yields_store

end Rebuild

namespace Store

variable {T s t : Store} {v n : NodeId} {G : Store → Program κ → Prop} {stack : List NodeId}
  {reached : List NodeId} {w : Walk Unit} {σ : Point}

/-- A walk is inside of the nodes on the stack, none of which it has reached again, and the results
that it remembers serve. -/
structure Remembers (T s : Store) (stack : List NodeId) (w : Walk Unit) : Prop where
  inside : w.memo.inside = stack
  quiet : ∀ m ph, w.memo.inProgress.lookup m ≠ some (some ph)
  done : ∀ m out, w.memo.done.lookup m = some out → T.ClearCopy s out m

theorem Remembers.later (h : T.Remembers s stack w) (hst : s.Before t) :
    T.Remembers t stack w :=
  ⟨h.inside, h.quiet, fun m out hdone => (h.done m out hdone).later hst.keeps⟩

theorem remembers_start (T s : Store) : T.Remembers s [] { own := () } :=
  ⟨rfl, nofun, nofun⟩

theorem Remembers.enter (h : T.Remembers s stack w) (hn : n ∉ stack) :
    T.Remembers s (n :: stack) { w with memo := w.memo.enter n } := by
  have hfresh : n ∉ w.memo.inside := h.inside.symm ▸ hn
  refine ⟨(Memo.inside_enter hfresh).trans (congrArg _ h.inside), fun m ph hm => ?_, h.done⟩
  exact h.quiet m ph ((Memo.lookup_enter_eq_some hfresh).mp hm)

/-- The result of a node is remembered at the end of the work on it. -/
theorem Remembers.leave {out : NodeId} (h : T.Remembers s (n :: stack) w) (hn : n ∉ stack)
    (hout : T.ClearCopy s out n) :
    T.Remembers s stack { w with memo := (w.memo.leave n).publish n out } := by
  refine ⟨Memo.inside_leave h.inside hn, fun m ph hm => ?_, fun m out' hm => ?_⟩
  · exact h.quiet m ph ((Memo.lookup_leave_eq_some h.inside hn).mp hm).2
  · by_cases hmn : m = n
    · subst hmn
      rw [Memo.lookup_publish_self] at hm
      exact Option.some.inj hm ▸ hout
    · rw [Memo.lookup_publish hmn] at hm
      exact h.done m out' hm

/-- A walk from `v` on the way to `T`, which knows that `v` leads to some nodes. -/
structure Walking (T : Store) (v : NodeId) (stack reached : List NodeId) (σ : Point) : Prop where
  way : σ.store.Towards T v
  remembers : T.Remembers σ.store stack σ.walk
  reached : ∀ c ∈ reached, σ.store.followed.Leads v c

/-- A walk goes on in whatever store it is woken. -/
theorem Walking.later (hσ : T.Walking v stack reached σ) (hT : T.Answered v) (ht : t.Towards T v)
    (hst : σ.store.Before t) : T.Walking v stack reached ⟨t, σ.walk⟩ :=
  ⟨ht, hσ.remembers.later hst, fun c hc => hσ.way.leads hT ht hst (hσ.reached c hc)⟩

/-- What a walk yields while it is inside of some nodes. -/
abbrev Clears (T : Store) (v : NodeId) (G : Store → Program κ → Prop)
    (stack reached : List NodeId) {α : Type} (σ : Point) (x : Rebuild Unit (Code κ) α)
    (P : Point → α → Prop) : Prop :=
  Rebuild.Yields T v G (T.Walking v stack reached) σ x P

/-- **A visit** yields a copy of the node, if the work on the node does. -/
theorem clears_visit {inner : Visitor (Rebuild Unit (Code κ))} (hσ : T.Walking v stack reached σ)
    (hn : n ∉ stack)
    (hwork : ∀ υ, T.Walking v (n :: stack) reached υ →
      T.Clears v G (n :: stack) reached υ (Rebuild.byForm .plain inner n)
        fun ω out => T.ClearCopy ω.store out n) :
    T.Clears v G stack reached σ (Rebuild.visit .plain inner n)
      fun υ out => T.ClearCopy υ.store out n := by
  intro next hnext
  cases hdone : σ.walk.memo.done.lookup n with
  | some out =>
    rw [Rebuild.visit_of_done hdone]
    exact hnext σ out hσ (.refl _) (hσ.remembers.done n out hdone)
  | none =>
    have hopen : σ.walk.memo.inProgress.lookup n = none :=
      lookup_eq_none_of_not_mem fun hmem => hn (hσ.remembers.inside ▸ hmem)
    rw [Rebuild.visit_of_fresh hdone hopen]
    have hentered : T.Walking v (n :: stack) reached
        ⟨σ.store, { σ.walk with memo := σ.walk.memo.enter n }⟩ :=
      ⟨hσ.way, hσ.remembers.enter hn, hσ.reached⟩
    refine hwork _ hentered _ fun υ out hυ hlater hout => ?_
    have hquiet := join_lookup_eq_none (hυ.remembers.quiet n)
    rw [Rebuild.conclude_of_quiet hquiet]
    refine hnext ⟨υ.store, { υ.walk with memo := (υ.walk.memo.leave n).publish n out }⟩ out
      ⟨hυ.way, hυ.remembers.leave hn hout, hυ.reached⟩ hlater hout

end Store

end ValueInference
