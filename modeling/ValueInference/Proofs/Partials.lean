/-
The types of partial applications.

A partial application takes the bound arguments off the signature of its function, and what has no
signature keeps its type.  So the type depends only on how many arguments are bound in all, however
they are split over partial applications of partial applications.

* **`Ty.applied?_applied?`** — taking arguments off a type step by step;
* **`FunctionRef.typedBy_bindAll`** — the types of nested partial applications, by the rules;
* **`Store.typeOf_bindAll`** — the types that are read off, for references and for the function
  values that stand for them.
-/
import ValueInference.Proofs.Typing

namespace ValueInference

/-! ### Taking arguments off a type -/

namespace Ty

@[simp] theorem applied?_zero (t : Ty) : t.applied? 0 = some t := by
  cases t <;> rfl

theorem applied?_function (k : Nat) (params : List Ty) (result : Ty) :
    (function params result).applied? k =
      if k ≤ params.length then some (.function (params.drop k) result) else none := by
  by_cases h : k ≤ params.length
  · rw [applied?, if_neg (Nat.not_lt.mpr h), if_pos h]
  · rw [applied?, if_pos (Nat.lt_of_not_le h), if_neg h]

/-- **Taking arguments off in two steps** takes them off together. -/
theorem applied?_applied? (t : Ty) (j k : Nat) :
    (t.applied? j).bind (·.applied? k) = t.applied? (j + k) := by
  cases t with
  | function params result =>
    rw [applied?_function, applied?_function]
    by_cases hj : j ≤ params.length
    · rw [if_pos hj, Option.bind_some, applied?_function, List.length_drop, List.drop_drop]
      by_cases hk : k ≤ params.length - j
      · rw [if_pos hk, if_pos (by omega)]
      · rw [if_neg hk, if_neg (by omega)]
    · rw [if_neg hj, if_neg (by omega), Option.bind_none]
  | _ => rfl

end Ty

/-! ### References -/

namespace FunctionRef

variable {R : NodeId → Ty → Prop} {t : Ty}

/-- The function with these arguments bound, one list after the other. -/
def bindAll (f : FunctionRef) (argss : List (List NodeId)) : FunctionRef :=
  argss.foldl .partialApp f

theorem typedBy_partialApp {f : FunctionRef} {args : List NodeId} :
    (partialApp f args).TypedBy R t ↔ ∃ u, f.TypedBy R u ∧ u.applied? args.length = some t :=
  Iff.rfl

/-- **Nested partial applications** have the type of their function after all bound arguments. -/
theorem typedBy_bindAll {f : FunctionRef} {argss : List (List NodeId)} :
    (f.bindAll argss).TypedBy R t ↔
      ∃ u, f.TypedBy R u ∧ u.applied? argss.flatten.length = some t := by
  -- the lists are bound from the inside out, so the function changes on the way
  induction argss generalizing f with
  | nil => simp [bindAll]
  | cons args argss ih =>
    rw [show f.bindAll (args :: argss) = (partialApp f args).bindAll argss from rfl, ih,
      List.flatten_cons, List.length_append]
    constructor
    · rintro ⟨u, ⟨v, hv, hvu⟩, hut⟩
      refine ⟨v, hv, ?_⟩
      rw [← Ty.applied?_applied?, hvu, Option.bind_some, hut]
    · rintro ⟨v, hv, hvt⟩
      rw [← Ty.applied?_applied?] at hvt
      obtain ⟨u, hvu, hut⟩ := Option.bind_eq_some_iff.mp hvt
      exact ⟨u, ⟨v, hv, hvu⟩, hut⟩

/-- **How the arguments are split makes no difference** to the type. -/
theorem typedBy_bindAll_iff_flatten {f : FunctionRef} {argss : List (List NodeId)} :
    (f.bindAll argss).TypedBy R t ↔ (partialApp f argss.flatten).TypedBy R t :=
  typedBy_bindAll.trans typedBy_partialApp.symm

/-- The type of a reference has a signature or is the generic one. -/
theorem TypedBy.function_or_generic {f : FunctionRef} (h : f.TypedBy R t) :
    (∃ params result, t = .function params result) ∨ t = .anyFunction := by
  induction f generalizing t with
  | primitive prim =>
    cases hsig : prim.signature with
    | none => exact .inr (h.trans (congrArg Ty.ofSignature? hsig))
    | some sig => exact .inl ⟨_, _, h.trans (congrArg Ty.ofSignature? hsig)⟩
  | typed | virtual =>
    obtain ⟨params, result, -, -, rfl⟩ := h
    exact .inl ⟨params, result, rfl⟩
  | partialApp func args ih =>
    obtain ⟨u, hu, happlied⟩ := h
    rcases ih hu with ⟨params, result, rfl⟩ | rfl
    · rw [Ty.applied?_function] at happlied
      split at happlied
      · cases happlied
        exact .inl ⟨_, _, rfl⟩
      · exact nomatch happlied
    · cases happlied
      exact .inr rfl
  | graph => exact .inr h

end FunctionRef

/-! ### Reading types -/

/-- How the type that is read off nested partial applications, which bind `k` arguments in all,
relates to that of their function and that of a single partial application. -/
structure PartialTypes (k : Nat) (own nested single : Reading Ty) : Prop where
  /-- However the arguments are split, there is the same type, or none. -/
  split : nested.toOption = single.toOption
  /-- A signature with enough parameters keeps those that are left, in order, and its result. -/
  signature : ∀ params result, own = .ok (.function params result) →
    nested.toOption = if k ≤ params.length then some (.function (params.drop k) result) else none
  generic : own = .ok .anyFunction → nested = .ok .anyFunction
  /-- The function has a signature or is generic, or neither has a type. -/
  exhaustive : (∃ params result, own = .ok (.function params result)) ∨ own = .ok .anyFunction ∨
    own.toOption = none ∧ nested.toOption = none

namespace Store

variable {s : Store} {n l m : NodeId} {f : FunctionRef} {argss : List (List NodeId)}

/-- A reading is known by what it may give. -/
theorem toOption_eq_of_ok_iff {x : Reading Ty} {o : Option Ty}
    (h : ∀ t, x = .ok t ↔ o = some t) : x.toOption = o := by
  cases x with
  | ok t => exact ((h t).mp rfl).symm
  | error e =>
    cases o with
    | none => rfl
    | some t => exact nomatch (h t).mpr rfl

/-- Readings that follow the rules are as the rules say. -/
theorem partialTypes_of_typedBy {R : NodeId → Ty → Prop} {own nested single : Reading Ty}
    (hown : ∀ t, own = .ok t ↔ f.TypedBy R t)
    (hnested : ∀ t, nested = .ok t ↔ (f.bindAll argss).TypedBy R t)
    (hsingle : ∀ t, single = .ok t ↔ (FunctionRef.partialApp f argss.flatten).TypedBy R t) :
    PartialTypes argss.flatten.length own nested single := by
  -- the nested applications have a type exactly if the function has, with enough parameters
  have happlied : ∀ t, nested = .ok t ↔
      ∃ u, own = .ok u ∧ u.applied? argss.flatten.length = some t := fun t =>
    (hnested t).trans <| FunctionRef.typedBy_bindAll.trans <|
      exists_congr fun u => and_congr_left' (hown u).symm
  refine ⟨?_, fun params result hf => ?_, fun hf => ?_, ?_⟩
  · refine toOption_eq_of_ok_iff fun t => ?_
    rw [hnested, FunctionRef.typedBy_bindAll_iff_flatten, ← hsingle]
    constructor
    · rintro rfl
      rfl
    · exact ok_of_toOption
  · rw [← Ty.applied?_function]
    refine toOption_eq_of_ok_iff fun t => (happlied t).trans ?_
    simp [hf]
  · exact (happlied .anyFunction).mpr ⟨_, hf, rfl⟩
  · cases hread : own with
    | ok u =>
      rcases ((hown u).mp hread).function_or_generic with ⟨params, result, rfl⟩ | rfl
      · exact .inl ⟨params, result, rfl⟩
      · exact .inr (.inl rfl)
    | error e =>
      refine .inr (.inr ⟨rfl, toOption_eq_of_ok_iff fun t => (happlied t).trans ?_⟩)
      simp [hread]

/-- The node is a function value that stands for this reference alone. -/
def RefersTo (s : Store) (n : NodeId) (f : FunctionRef) : Prop :=
  ∃ token, s.followed.kind n = .function (.possibilities ⟨token, [.function f]⟩)

/-- A value that stands for one reference has the type of that. -/
theorem RefersTo.typeOf_eq_ok (h : s.RefersTo n f) (t : Ty) :
    s.typeOf n = .ok t ↔ f.TypedBy s.followed.HasType t := by
  obtain ⟨token, hkind⟩ := h
  rw [typeOf_iff_followed, hasType_iff, hkind]
  constructor
  · intro hall
    obtain ⟨g, hg, htyped⟩ := hall.each _ List.mem_cons_self
    cases hg
    exact htyped
  · exact fun htyped => ⟨List.cons_ne_nil _ _, List.forall_mem_singleton.mpr ⟨f, rfl, htyped⟩⟩

/-- **Partial applications compose.**  Binding arguments list by list gives the type of binding
them together, or there is none either way: for references to functions, with whatever types their
parts are read to have, and for the values that stand for them, in every store. -/
theorem typeOf_bindAll (f : FunctionRef) (argss : List (List NodeId)) :
    (∀ (sub : NodeId → Reading Ty) (n : NodeId),
      PartialTypes argss.flatten.length (typeOfRef sub n f) (typeOfRef sub n (f.bindAll argss))
        (typeOfRef sub n (.partialApp f argss.flatten))) ∧
    ∀ (s : Store) (l n m : NodeId), s.RefersTo l f → s.RefersTo n (f.bindAll argss) →
      s.RefersTo m (.partialApp f argss.flatten) →
        PartialTypes argss.flatten.length (s.typeOf l) (s.typeOf n) (s.typeOf m) := by
  refine ⟨fun sub n => ?_, fun s l n m hl hn hm => ?_⟩
  · exact partialTypes_of_typedBy (fun _ => typeOfRef_eq_ok) (fun _ => typeOfRef_eq_ok)
      fun _ => typeOfRef_eq_ok
  · exact partialTypes_of_typedBy hl.typeOf_eq_ok hn.typeOf_eq_ok hm.typeOf_eq_ok

/-- A function of three numbers, with one and then two of them bound, and with all bound at
once. -/
def bound : Store :=
  let f : FunctionRef := .virtual [0, 0, 0] 0
  let s := Change.token.apply ((Change.build (.scalar .anything .i64)).apply {})
  let s := (Change.build (.function (.possibilities ⟨0, [.function f]⟩))).apply s
  let s := (Change.build (.function (.possibilities
    ⟨1, [.function (.partialApp (.partialApp f [0]) [0, 0])]⟩))).apply (Change.token.apply s)
  (Change.build (.function (.possibilities
    ⟨2, [.function (.partialApp f [0, 0, 0])]⟩))).apply (Change.token.apply s)

theorem typeOf_bindAll_bound :
    (bound.RefersTo 1 (.virtual [0, 0, 0] 0) ∧
      bound.RefersTo 2 ((FunctionRef.virtual [0, 0, 0] 0).bindAll [[0], [0, 0]]) ∧
      bound.RefersTo 3 (.partialApp (.virtual [0, 0, 0] 0) [0, 0, 0])) ∧
    (bound.typeOf 2).toOption = some (.function [] .i64) := by
  have hf : bound.RefersTo 1 (.virtual [0, 0, 0] 0) := ⟨0, by decide +kernel⟩
  have hnested : bound.RefersTo 2 ((FunctionRef.virtual [0, 0, 0] 0).bindAll [[0], [0, 0]]) :=
    ⟨1, by decide +kernel⟩
  have hsingle : bound.RefersTo 3 (.partialApp (.virtual [0, 0, 0] 0) [0, 0, 0]) :=
    ⟨2, by decide +kernel⟩
  have htype : bound.typeOf 1 = .ok (.function [.i64, .i64, .i64] .i64) :=
    ok_of_toOption (by decide +kernel)
  have hpartial :=
    (typeOf_bindAll (.virtual [0, 0, 0] 0) [[0], [0, 0]]).2 bound 1 2 3 hf hnested hsingle
  exact ⟨⟨hf, hnested, hsingle⟩, hpartial.signature _ _ htype⟩

/-- One argument too many, and there is no type, wherever it is bound. -/
example :
    (typeOfRef (fun _ => .ok .i64) 0
      ((FunctionRef.virtual [0, 0] 0).bindAll [[0], [], [0, 0]])).toOption = none := by
  decide

end Store

end ValueInference
