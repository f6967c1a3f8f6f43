/-
Recursions without a bound, and when they end.

A recursive program is given by one *step*, which computes the answer at an argument from a function
that answers the calls.  The program ends at an argument if finitely many calls, which end
themselves, decide the answer of the step, whatever would be answered elsewhere.

* **`Evaluates`** — the recursion ends with an answer, and it has only one (`Evaluates.unique`);
* **`Uses`** — a computation consults a function at finitely many arguments only;
* **`evaluates_of_bound`** — a recursion that is cut at a depth gives the answer of the one that is
  not, if every call has a smaller bound, and the depth exceeds the bound;
* **`left`** — how much of a finite set is not yet in a list, as such a bound.
-/
import ValueInference.Ordering
import Mathlib.Data.Finset.Card

namespace ValueInference

variable {X Y α β : Type}

/-- The recursion ends at an argument with an answer: some calls end with the answers that `f`
has for them, and any function with these makes the step give the answer. -/
inductive Evaluates (step : (X → Y) → X → Y) : X → Y → Prop
  | intro {x : X} {y : Y} (calls : List X) (f : X → Y) :
      (∀ z ∈ calls, Evaluates step z (f z)) →
        (∀ g : X → Y, (∀ z ∈ calls, g z = f z) → step g x = y) → Evaluates step x y

/-- A recursion ends with one answer only. -/
theorem Evaluates.unique {step : (X → Y) → X → Y} {x : X} {y y' : Y} (h : Evaluates step x y)
    (h' : Evaluates step x y') : y = y' := by
  induction h generalizing y' with
  | @intro x y calls f _ hstep ih =>
    obtain ⟨calls', f', hcalls', hstep'⟩ := h'
    classical
    -- a function that has the answers of both calculations
    let g : X → Y := fun z => if z ∈ calls then f z else f' z
    have hf : ∀ z ∈ calls, g z = f z := fun z hz => if_pos hz
    have hf' : ∀ z ∈ calls', g z = f' z := by
      intro z hz'
      by_cases hz : z ∈ calls
      · exact (hf z hz).trans (ih z hz (hcalls' z hz'))
      · exact if_neg hz
    exact (hstep g hf).symm.trans (hstep' g hf')

/-! ### Computations that consult a function -/

/-- The computation consults the function at finitely many arguments, all with the property. -/
def Uses (P : X → Prop) (f : X → Y) (run : (X → Y) → α) : Prop :=
  ∃ calls : List X, (∀ z ∈ calls, P z) ∧ ∀ g : X → Y, (∀ z ∈ calls, g z = f z) → run g = run f

section

variable {P : X → Prop} {f : X → Y} {run : (X → Y) → α}

theorem uses_const (a : α) : Uses P f (fun _ => a) :=
  ⟨[], fun _ hz => absurd hz List.not_mem_nil, fun _ _ => rfl⟩

theorem uses_call {x : X} (hx : P x) : Uses P f (fun g => g x) :=
  ⟨[x], List.forall_mem_singleton.mpr hx, fun _ hg => hg x List.mem_cons_self⟩

/-- A computation that goes on from the outcome of another one. -/
theorem Uses.seq (next : (X → Y) → α → β) (h : Uses P f run)
    (hnext : Uses P f (fun g => next g (run f))) :
    Uses P f (fun g => next g (run g)) := by
  obtain ⟨calls, hcalls, hrun⟩ := h
  obtain ⟨calls', hcalls', hrun'⟩ := hnext
  refine ⟨calls ++ calls', List.forall_mem_append.mpr ⟨hcalls, hcalls'⟩, fun g hg => ?_⟩
  show next g (run g) = next f (run f)
  rw [hrun g fun z hz => hg z (List.mem_append_left _ hz)]
  exact hrun' g fun z hz => hg z (List.mem_append_right _ hz)

theorem Uses.imp {Q : X → Prop} (h : Uses P f run) (hPQ : ∀ z, P z → Q z) : Uses Q f run := by
  obtain ⟨calls, hcalls, hrun⟩ := h
  exact ⟨calls, fun z hz => hPQ z (hcalls z hz), hrun⟩

end

/-! ### Depth -/

/-- **A recursion that is cut deep enough gives the answer of the one that is not.** -/
theorem evaluates_of_bound {step : (X → Y) → X → Y} {cut : Nat → X → Y} (bound : X → Nat)
    (hcut : ∀ depth x, cut (depth + 1) x = step (cut depth) x)
    (huses : ∀ depth x, Uses (fun z => bound z < bound x) (cut depth) (fun g => step g x)) :
    ∀ {depth x}, bound x < depth → Evaluates step x (cut depth x) := by
  intro depth
  induction depth with
  | zero => exact fun h => absurd h (Nat.not_lt_zero _)
  | succ depth ih =>
    intro x hx
    obtain ⟨calls, hcalls, hstep⟩ := huses depth x
    rw [hcut]
    exact .intro calls (cut depth) (fun z hz => ih ((hcalls z hz).trans_le (Nat.le_of_lt_succ hx)))
      hstep

/-- How many things of a finite set are not in the list. -/
def left [DecidableEq α] (all : Finset α) (seen : List α) : Nat := (all.filter (· ∉ seen)).card

section

variable [DecidableEq α] {all : Finset α} {seen seen' : List α} {a : α}

theorem left_le_card : left all seen ≤ all.card := Finset.card_filter_le _ _

/-- One more thing of the set is in the list. -/
theorem left_lt (ha : a ∈ all) (hnew : a ∉ seen) (hsub : a :: seen ⊆ seen') :
    left all seen' < left all seen := by
  have hsubset : all.filter (· ∉ seen') ⊆ all.filter (· ∉ seen) := by
    intro x hx
    rw [Finset.mem_filter] at hx ⊢
    exact ⟨hx.1, fun hseen => hx.2 (hsub (List.mem_cons_of_mem a hseen))⟩
  refine Finset.card_lt_card ((Finset.ssubset_iff_of_subset hsubset).mpr ?_)
  refine ⟨a, Finset.mem_filter.mpr ⟨ha, hnew⟩, fun hmem => ?_⟩
  exact (Finset.mem_filter.mp hmem).2 (hsub List.mem_cons_self)

end

end ValueInference
