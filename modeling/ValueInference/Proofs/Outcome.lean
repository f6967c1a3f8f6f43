/-
Outcomes of computations on a store.

A computation `x : Infer α` is a function of the store together with a proof about it.  Its
*outcome* is what that function gives; the equations below open a computation step by step, and
nothing after this module looks inside `Update` or `ExceptT`.

* **`Infer.outcome_bind_ok`** — a sequence succeeds when both parts do, one after the other.
-/
import ValueInference.Merge
import Mathlib.Tactic.Basic

namespace ValueInference

namespace Infer

variable {α β : Type}

/-- What a computation gives on a store, and the store that it leaves. -/
def outcome (x : Infer α) (s : Store) : Except InferError α × Store :=
  (ExceptT.run x).run s

theorem outcome_of_toOption {x : Infer α} {s : Store} {a : α}
    (h : (x.outcome s).1.toOption = some a) : x.outcome s = (.ok a, (x.outcome s).2) := by
  rcases hx : x.outcome s with ⟨_ | b, t⟩
  · rw [hx] at h
    exact absurd h (by simp [Except.toOption])
  · rw [hx] at h
    obtain rfl : b = a := by simpa [Except.toOption] using h
    rfl

@[simp] theorem outcome_pure (a : α) (s : Store) : (pure a : Infer α).outcome s = (.ok a, s) :=
  rfl

@[simp] theorem outcome_throw (e : InferError) (s : Store) :
    (throw e : Infer α).outcome s = (.error e, s) :=
  rfl

theorem outcome_bind (x : Infer α) (f : α → Infer β) (s : Store) :
    (x >>= f).outcome s =
      match x.outcome s with
      | (.ok a, t) => (f a).outcome t
      | (.error e, t) => (.error e, t) := by
  show (ExceptT.bindCont f (x.run.run s).1).run (x.run.run s).2 = _
  rw [outcome]
  rcases h : (ExceptT.run x).run s with ⟨_ | a, t⟩ <;> rfl

theorem outcome_bind_of_ok {x : Infer α} {f : α → Infer β} {s t : Store} {a : α}
    (h : x.outcome s = (.ok a, t)) : (x >>= f).outcome s = (f a).outcome t := by
  rw [outcome_bind, h]

theorem outcome_bind_of_error {x : Infer α} {f : α → Infer β} {s t : Store} {e : InferError}
    (h : x.outcome s = (.error e, t)) : (x >>= f).outcome s = (.error e, t) := by
  rw [outcome_bind, h]

/-- **A sequence succeeds** when its first part does, and its second on the store that is left. -/
theorem outcome_bind_ok {x : Infer α} {f : α → Infer β} {s u : Store} {b : β} :
    (x >>= f).outcome s = (.ok b, u) ↔
      ∃ a t, x.outcome s = (.ok a, t) ∧ (f a).outcome t = (.ok b, u) := by
  rw [outcome_bind]
  rcases h : x.outcome s with ⟨e | a, t⟩
  · simp
  · constructor
    · exact fun hb => ⟨a, t, rfl, hb⟩
    · rintro ⟨a', t', hat, hb⟩
      cases hat
      exact hb

@[simp] theorem outcome_store (s : Store) : store.outcome s = (.ok s, s) :=
  rfl

theorem outcome_store_bind (f : Store → Infer α) (s : Store) :
    (store >>= f).outcome s = (f s).outcome s :=
  rfl

theorem outcome_attempt (x : Infer α) (s : Store) :
    (attempt x).outcome s = (.ok (x.outcome s).1, (x.outcome s).2) :=
  rfl

theorem outcome_make (k : Kind) (s : Store) :
    (make k).outcome s = ((s.build k).1.mapError .invalidConstruction, (s.build k).2) :=
  rfl

@[simp] theorem outcome_report (d : Diagnostic) (s : Store) :
    (report d).outcome s = (.ok (), s.record d) :=
  rfl

@[simp] theorem outcome_possibilities (cs : List Candidate) (s : Store) :
    (possibilities cs).outcome s = (.ok ⟨s.tokens, cs⟩, { s with tokens := s.tokens + 1 }) :=
  rfl

/-- A node is made by placing a form that has no fault. -/
theorem outcome_make_ok {k : Kind} {s t : Store} {n : NodeId}
    (h : (make k).outcome s = (.ok n, t)) : s.fault? k = none ∧ s.place k = (n, t) := by
  rw [outcome_make, Store.build] at h
  rcases hf : s.fault? k with _ | fault
  · rw [hf] at h
    refine ⟨rfl, ?_⟩
    rcases hp : s.place k with ⟨m, u⟩
    rw [hp] at h
    cases h
    rfl
  · rw [hf] at h
    cases h

theorem outcome_make_of_place {k : Kind} {s t : Store} {n : NodeId} (hfault : s.fault? k = none)
    (hplace : s.place k = (n, t)) : (make k).outcome s = (.ok n, t) := by
  rw [outcome_make, Store.build, hfault, hplace]
  rfl

theorem outcome_ite (c : Prop) [Decidable c] (x y : Infer α) (s : Store) :
    (if c then x else y).outcome s = if c then x.outcome s else y.outcome s := by
  split <;> rfl

end Infer

end ValueInference
