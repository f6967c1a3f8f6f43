/-
Statements about a walk that are put together from its parts.

In whatever host a walk takes place, it goes through what is in a form, a function reference or a
candidate one after the other.  What is to be shown of such a computation says where it starts, and
what holds where it ends.  If that can be shown of a sequence from its parts, it can be shown of
lists, references and candidates from the visits of the nodes in them.

* **`Rebuild.Composes`** — statements that go along with sequences;
* **`Rebuild.Composes.mapM`** — lists of computations;
* **`Rebuild.Composes.ref`**, **`Rebuild.Composes.candidate`** — function references and
  candidates.
-/
import ValueInference.Proofs.Bisimilar
import ValueInference.Rebuild

universe u

namespace ValueInference

namespace Rebuild

/-- Statements about computations, by the scene in which they start and by what holds of the scene
in which they end and of the result.  They can be put together along a sequence; in between an
invariant holds, and scenes get later in some order. -/
structure Composes {m : Type → Type u} [Host m] {τ Ω : Type} (I : Ω → Prop) (L : Ω → Ω → Prop)
    (storeOf : Ω → Store) (R : ∀ {α : Type}, Ω → Rebuild τ m α → (Ω → α → Prop) → Prop) : Prop where
  pure : ∀ {α : Type} {σ : Ω} {a : α} {P : Ω → α → Prop}, I σ → P σ a → R σ (pure a) P
  bind : ∀ {α β : Type} {σ : Ω} {x : Rebuild τ m α} {f : α → Rebuild τ m β} {P : Ω → α → Prop}
    {Q : Ω → β → Prop}, R σ x P → (∀ υ a, I υ → L σ υ → P υ a → R υ (f a) Q) → R σ (x >>= f) Q
  imp : ∀ {α : Type} {σ : Ω} {x : Rebuild τ m α} {P Q : Ω → α → Prop}, R σ x P →
    (∀ υ a, I υ → P υ a → Q υ a) → R σ x Q
  store : ∀ {σ : Ω}, I σ → R σ (infer Infer.store) fun υ s => υ = σ ∧ s = storeOf σ

/-- What holds in one scene holds in later ones, while the invariant is kept. -/
def Endures {Ω α β : Type} (I : Ω → Prop) (L : Ω → Ω → Prop) (A : Ω → α → β → Prop) : Prop :=
  ∀ σ υ a b, I σ → I υ → L σ υ → A σ a b → A υ a b

/-- Visits of the node are answered while there are more than `base` levels left. -/
def Answers {m : Type → Type u} [Host m] {τ Ω : Type} (I : Ω → Prop)
    (R : ∀ {α : Type}, Ω → Rebuild τ m α → (Ω → α → Prop) → Prop) (V : Variant (Rebuild τ m))
    (A : Ω → NodeId → NodeId → Prop) (base : Nat) (c : NodeId) : Prop :=
  ∀ fuel, base < fuel → ∀ σ, I σ → R σ ((V.visitor fuel).visit c) fun υ out => A υ out c

namespace Composes

variable {m : Type → Type u} [Host m] [LawfulMonad m] {τ Ω α β : Type} {I : Ω → Prop}
  {L : Ω → Ω → Prop} {storeOf : Ω → Store}
  {R : ∀ {α : Type}, Ω → Rebuild τ m α → (Ω → α → Prop) → Prop} {σ : Ω}

section

variable (h : Composes I L storeOf R)

include h

/-- **A list of computations**, each of which is shown in whatever scene it starts. -/
theorem mapM {f : α → Rebuild τ m β} {S : Ω → β → α → Prop} (hS : Endures I L S) :
    ∀ {as : List α} {σ : Ω}, I σ → (∀ a ∈ as, ∀ υ, I υ → R υ (f a) fun ω b => S ω b a) →
      R σ (as.mapM f) fun υ bs => List.Forall₂ (S υ) bs as := by
  intro as
  induction as with
  | nil =>
    intro σ hσ _
    rw [List.mapM_nil]
    exact h.pure hσ .nil
  | cons a as ih =>
    intro σ hσ hf
    rw [List.mapM_cons]
    refine h.bind (hf a List.mem_cons_self σ hσ) fun υ b hυ _ hb => ?_
    refine h.bind (ih hυ fun a' ha' => hf a' (List.mem_cons_of_mem a ha'))
      fun ω bs hω hlater hbs => ?_
    exact h.pure hω (.cons (hS _ _ _ _ hυ hω hlater hb) hbs)

variable {V : Variant (Rebuild τ m)} {A : Ω → NodeId → NodeId → Prop} {base fuel : Nat}

theorem visits (hA : Endures I L A) {items : List NodeId}
    (hitems : ∀ c ∈ items, Answers I R V A base c) (hfuel : base < fuel) (hσ : I σ) :
    R σ (items.mapM (V.visitor fuel).visit) fun υ new => List.Forall₂ (A υ) new items :=
  h.mapM hA hσ fun c hc _ hυ => hitems c hc fuel hfuel _ hυ

theorem fields {δ : Type} (hA : Endures I L A) {fields : List (δ × NodeId)}
    (hfields : ∀ x ∈ fields, Answers I R V A base x.2) (hfuel : base < fuel) (hσ : I σ) :
    R σ (fields.mapM fun (label, field) => return (label, ← (V.visitor fuel).visit field))
      fun υ new => List.Forall₂ (SameLabel (A υ)) new fields := by
  have hstays : Endures I L fun σ => SameLabel (β := δ) (A σ) := fun _ _ _ _ hσ hυ hlater hx =>
    ⟨hx.1, hA _ _ _ _ hσ hυ hlater hx.2⟩
  refine h.mapM hstays hσ fun x hx υ hυ => ?_
  refine h.bind (hfields x hx fuel hfuel υ hυ) fun ω out hω _ hout => ?_
  exact h.pure hω ⟨rfl, hout⟩

/-- Arguments and an output are answered. -/
theorem signature (hA : Endures I L A) {args : List NodeId} {output : NodeId}
    {G : List NodeId → NodeId → FunctionRef}
    (hvisits : ∀ c ∈ args ++ [output], Answers I R V A base c) (hfuel : base < fuel) (hσ : I σ) :
    R σ
      (do
        let new ← args.mapM (V.visitor fuel).visit
        let out ← (V.visitor fuel).visit output
        return G new out)
      fun υ g => ∃ new out, g = G new out ∧ List.Forall₂ (A υ) new args ∧ A υ out output := by
  have hargs := fun c hc => hvisits c (List.mem_append_left _ hc)
  have houtput := hvisits output (List.mem_append_right _ List.mem_cons_self)
  refine h.bind (h.visits hA hargs hfuel hσ) fun υ new hυ _ hnew => ?_
  refine h.bind (houtput fuel hfuel υ hυ) fun ω out hω hlater hout => ?_
  exact h.pure hω ⟨new, out, rfl, hnew.imp fun _ _ => hA _ _ _ _ hυ hω hlater, hout⟩

variable (hV : V.ref = Rebuild.ref)

include hV

/-- **A function reference** has answers for the nodes in it. -/
theorem ref (hA : Endures I L A) :
    ∀ {f : FunctionRef} {fuel : Nat} {σ : Ω}, (∀ c ∈ f.children, Answers I R V A base c) →
      base + f.depth < fuel → I σ →
        R σ (Rebuild.ref (V.visitor fuel) f) fun υ g => g.Alike (A υ) f := by
  intro f
  induction f with
  | primitive p => exact fun _ _ hσ => h.pure hσ rfl
  | typed p args output =>
    intro fuel σ hvisits hfuel hσ
    refine h.imp (h.signature (G := .typed p) hA hvisits hfuel hσ) fun υ g _ hg => ?_
    obtain ⟨new, out, rfl, hnew, hout⟩ := hg
    exact ⟨rfl, hnew, hout⟩
  | partialApp func args ih =>
    intro fuel σ hvisits hfuel hσ
    -- the function is one level further down
    obtain ⟨fuel, rfl⟩ : ∃ k, fuel = k + 1 := ⟨fuel - 1, by omega⟩
    have hdepth : base + func.depth < fuel := Nat.lt_of_succ_lt_succ hfuel
    have hargs := fun c hc => hvisits c (List.mem_append_right _ hc)
    have hfunc : R σ ((V.visitor (fuel + 1)).ref func) fun υ g => g.Alike (A υ) func := by
      show R σ (V.ref (V.visitor fuel) func) _
      rw [hV]
      exact ih (fun c hc => hvisits c (List.mem_append_left _ hc)) hdepth hσ
    refine h.bind hfunc fun υ g hυ _ hg => ?_
    refine h.bind (h.visits hA hargs (by omega) hυ) fun ω new hω hlater hnew => ?_
    exact h.pure hω ⟨hg.imp fun _ _ _ _ => hA _ _ _ _ hυ hω hlater, hnew⟩
  | virtual args output =>
    intro fuel σ hvisits hfuel hσ
    refine h.imp (h.signature (G := .virtual) hA hvisits hfuel hσ) fun υ g _ hg => ?_
    obtain ⟨new, out, rfl, hnew, hout⟩ := hg
    exact ⟨hnew, hout⟩
  | graph name => exact fun _ _ hσ => h.pure hσ rfl

/-- **A candidate** has answers for the nodes in it, and counts as changed if it has become
unequal to itself. -/
theorem candidate (hA : Endures I L A) {c : Candidate}
    (hvisits : ∀ a ∈ c.children, Answers I R V A base a)
    (hfuel : ∀ f, c = .function f → base + f.depth + 1 < fuel) (hσ : I σ) :
    R σ (visitCandidate (V.visitor fuel) c) fun υ r =>
      r.1.Alike (A υ) c ∧ (r.2 = false → (storeOf υ).equalCandidates r.1 c = true) ∧
        (r.2 = true → (storeOf υ).equalCandidates r.1 c = false) := by
  cases c with
  | constant x =>
    exact h.pure hσ ⟨rfl, fun _ => (storeOf σ).equalCandidates_refl _, fun hr => nomatch hr⟩
  | function f =>
    have hdepth := hfuel f rfl
    obtain ⟨fuel, rfl⟩ : ∃ k, fuel = k + 1 := ⟨fuel - 1, by omega⟩
    have href : R σ ((V.visitor (fuel + 1)).ref f) fun υ g => g.Alike (A υ) f := by
      show R σ (V.ref (V.visitor fuel) f) _
      rw [hV]
      exact h.ref hV hA hvisits (Nat.lt_of_succ_lt_succ hdepth) hσ
    refine h.bind href fun υ g hυ _ hg => ?_
    refine h.bind (h.store hυ) fun ω s _ _ ⟨hω, hs⟩ => ?_
    subst hω hs
    refine h.pure hυ ⟨hg, fun hsame => ?_, fun hchanged => ?_⟩
    · exact (Bool.not_eq_false' _).mp hsame
    · exact (Bool.not_eq_true' _).mp hchanged

end

end Composes

end Rebuild

end ValueInference
