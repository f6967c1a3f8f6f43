/-
Forms that agree up to the nodes below them.

`Kind.Alike R` relates two forms with the same outermost shape whose nodes are related by `R`;
record fields, options, union members and candidates are matched as sets, from the left to the
right.  A comparison of forms computes this relation whenever its comparison of nodes computes `R`:

* **`Between`** — a step that takes the pairs assumed before it to those assumed after it succeeds
  if one proposition holds, and only if another does, and keeps an invariant of the pairs;
* **`Kind.agree_between`** — if the comparison of the nodes below lies between `R` and `S`, then
  the comparison of the forms lies between `Kind.Alike R` and `Kind.Alike S`;
* **`Kind.agree_decides`** — the case where the two are the same.
-/
import ValueInference.Store.Equality
import Mathlib.Data.List.Forall2

namespace ValueInference

variable {α β : Type}

/-- As many of both, and each on the left is related to one on the right. -/
def Matches (R : α → α → Prop) (as bs : List α) : Prop :=
  as.length = bs.length ∧ ∀ a ∈ as, ∃ b ∈ bs, R a b

/-- The same label, and related things under it. -/
def SameLabel (R : α → α → Prop) (x y : β × α) : Prop := x.1 = y.1 ∧ R x.2 y.2

def FunctionRef.Alike (R : NodeId → NodeId → Prop) : FunctionRef → FunctionRef → Prop
  | .primitive p, .primitive q => p = q
  | .typed p as a, .typed q bs b => p = q ∧ List.Forall₂ R as bs ∧ R a b
  | .partialApp f as, .partialApp g bs => f.Alike R g ∧ List.Forall₂ R as bs
  | .virtual as a, .virtual bs b => List.Forall₂ R as bs ∧ R a b
  | .graph m, .graph n => m = n
  | _, _ => False

def Candidate.Alike (R : NodeId → NodeId → Prop) : Candidate → Candidate → Prop
  | .constant c, .constant d => c = d
  | .function f, .function g => f.Alike R g
  | _, _ => False

def Slot.Alike (R : NodeId → NodeId → Prop) : Slot → Slot → Prop
  | .constant c, .constant d => c = d
  | .anything, .anything => True
  | .possibilities p, .possibilities q =>
    p.token = q.token ∨ Matches (Candidate.Alike R) p.candidates q.candidates
  | .pending p, .pending q => p = q
  | _, _ => False

/-- The same outermost form, with related nodes below. -/
def Kind.Alike (R : NodeId → NodeId → Prop) : Kind → Kind → Prop
  | .scalar v t, .scalar w u => t = u ∧ v.Alike R w
  | .tuple as, .tuple bs => List.Forall₂ R as bs
  | .list a, .list b => R a b
  | .array a shape, .array b shape' => shape = shape' ∧ R a b
  | .record tag fs, .record tag' gs => tag = tag' ∧ Matches (SameLabel R) fs gs
  | .union as, .union bs => Matches R as bs
  | .tagged as, .tagged bs => Matches (SameLabel R) as bs
  | .function v, .function w => v.Alike R w
  | .jtagged a, .jtagged b => R a b
  | .error r, .error r' => r = r'
  | .type t, .type u => t = u
  | _, _ => False

/-- Forms of one kind, whatever is in them. -/
inductive Kind.SameForm : Kind → Kind → Prop where
  | scalar (v w : Slot) (t u : Ty) : SameForm (.scalar v t) (.scalar w u)
  | tuple (as bs : List NodeId) : SameForm (.tuple as) (.tuple bs)
  | list (a b : NodeId) : SameForm (.list a) (.list b)
  | array (a b : NodeId) (shape shape' : Shape) : SameForm (.array a shape) (.array b shape')
  | record (tag tag' : String) (fs gs : List (String × NodeId)) :
      SameForm (.record tag fs) (.record tag' gs)
  | union (as bs : List NodeId) : SameForm (.union as) (.union bs)
  | tagged (as bs : List (UInt32 × NodeId)) : SameForm (.tagged as) (.tagged bs)
  | function (v w : Slot) : SameForm (.function v) (.function w)
  | jtagged (a b : NodeId) : SameForm (.jtagged a) (.jtagged b)
  | error (r r' : ErrorReason) : SameForm (.error r) (.error r')
  | type (t u : Ty) : SameForm (.type t) (.type u)

/-- Forms that are alike are of one kind. -/
theorem Kind.Alike.sameForm {R : NodeId → NodeId → Prop} {k k' : Kind} (h : k.Alike R k') :
    k.SameForm k' := by
  cases k <;> cases k' <;> first | exact h.elim | constructor

/-! ### Steps between two propositions -/

/-- On assumed pairs with the invariant `I` a step succeeds if `P` holds and only if `Q` does, and
keeps the invariant. -/
structure Between (I : Assumed → Prop) (step : Assumed → Option Assumed) (P Q : Prop) : Prop where
  succeeds : ∀ seen, I seen → P → (step seen).isSome = true
  shows : ∀ seen seen', I seen → step seen = some seen' → Q
  keeps : ∀ seen seen', I seen → step seen = some seen' → I seen'

/-- A step on assumed pairs succeeds exactly when `P` holds, and keeps the invariant `I`. -/
def Decides (I : Assumed → Prop) (step : Assumed → Option Assumed) (P : Prop) : Prop :=
  ∀ seen, I seen → ((step seen).isSome = true ↔ P) ∧ ∀ seen', step seen = some seen' → I seen'

section

variable {I : Assumed → Prop} {P P' Q Q' : Prop}

theorem decides_iff_between {step : Assumed → Option Assumed} :
    Decides I step P ↔ Between I step P P := by
  constructor
  · refine fun h => ⟨fun seen hI hP => (h seen hI).1.mpr hP, fun seen seen' hI hs => ?_,
      fun seen seen' hI => (h seen hI).2 seen'⟩
    exact (h seen hI).1.mp (by rw [hs]; rfl)
  · refine fun h seen hI => ⟨⟨fun hs => ?_, h.succeeds seen hI⟩, fun seen' => h.keeps seen seen' hI⟩
    obtain ⟨seen', hs⟩ := Option.isSome_iff_exists.mp hs
    exact h.shows seen seen' hI hs

theorem between_none : Between I (fun _ => none) False False :=
  ⟨fun _ _ hP => hP.elim, fun _ _ _ hs => absurd hs (by simp), fun _ _ _ hs => absurd hs (by simp)⟩

theorem between_some : Between I some True True :=
  ⟨fun _ _ _ => rfl, fun _ _ _ _ => trivial, by rintro seen _ hI ⟨⟩; exact hI⟩

theorem Between.congr {step : Assumed → Option Assumed} (h : Between I step P Q)
    (hP : P' → P) (hQ : Q → Q') : Between I step P' Q' :=
  ⟨fun seen hI hP' => h.succeeds seen hI (hP hP'), fun seen seen' hI hs => hQ (h.shows seen seen' hI hs),
    h.keeps⟩

theorem Between.guard {step : Assumed → Option Assumed} (c : Prop) [Decidable c]
    (h : Between I step P Q) :
    Between I (fun seen => if c then step seen else none) (c ∧ P) (c ∧ Q) := by
  by_cases hc : c
  · simpa [hc] using h
  · simpa [hc] using between_none

theorem between_guard (c : Prop) [Decidable c] :
    Between I (fun seen => if c then some seen else none) c c :=
  (between_some.guard c).congr (fun hc => ⟨hc, trivial⟩) And.left

theorem Between.bind {step next : Assumed → Option Assumed} (h : Between I step P Q)
    (h' : Between I next P' Q') :
    Between I (fun seen => (step seen).bind next) (P ∧ P') (Q ∧ Q') := by
  refine ⟨fun seen hI hP => ?_, fun seen seen' hI hs => ?_, fun seen seen' hI hs => ?_⟩
  · obtain ⟨mid, hmid⟩ := Option.isSome_iff_exists.mp (h.succeeds seen hI hP.1)
    rw [hmid]
    exact h'.succeeds mid (h.keeps seen mid hI hmid) hP.2
  · obtain ⟨mid, hmid, hnext⟩ := Option.bind_eq_some_iff.mp hs
    exact ⟨h.shows seen mid hI hmid, h'.shows mid seen' (h.keeps seen mid hI hmid) hnext⟩
  · obtain ⟨mid, hmid, hnext⟩ := Option.bind_eq_some_iff.mp hs
    exact h'.keeps mid seen' (h.keeps seen mid hI hmid) hnext

end

/-! ### Comparisons between two relations -/

section

variable {I : Assumed → Prop} {eq : Comparison α} {R S : α → α → Prop}

theorem Comparison.each_between {as : List α} : ∀ {bs : List α},
    (∀ a ∈ as, ∀ b ∈ bs, Between I (eq a b) (R a b) (S a b)) →
      Between I (Comparison.each eq as bs) (List.Forall₂ R as bs) (List.Forall₂ S as bs) := by
  induction as with
  | nil =>
    intro bs _
    cases bs with
    | nil => exact between_some.congr (fun _ => trivial) fun _ => .nil
    | cons b bs => exact between_none.congr (fun h => nomatch h) False.elim
  | cons a as ih =>
    intro bs h
    cases bs with
    | nil => exact between_none.congr (fun h => nomatch h) False.elim
    | cons b bs =>
      have hhead := h a List.mem_cons_self b List.mem_cons_self
      have htail := ih fun x hx y hy => h x (List.mem_cons_of_mem a hx) y (List.mem_cons_of_mem b hy)
      exact (hhead.bind htail).congr List.forall₂_cons.mp List.forall₂_cons.mpr

theorem Comparison.some?_between {a : α} {bs : List α}
    (h : ∀ b ∈ bs, Between I (eq a b) (R a b) (S a b)) :
    Between I (Comparison.some? eq a bs) (∃ b ∈ bs, R a b) (∃ b ∈ bs, S a b) := by
  induction bs with
  | nil => exact between_none.congr (by simp) False.elim
  | cons b bs ih =>
    have hb := h b List.mem_cons_self
    have hbs := ih fun x hx => h x (List.mem_cons_of_mem b hx)
    refine ⟨fun seen hI hR => ?_, fun seen seen' hI hs => ?_, fun seen seen' hI hs => ?_⟩
    · rw [Comparison.some?]
      rcases hs : eq a b seen with _ | seen'
      · obtain ⟨x, hx, hax⟩ := hR
        rcases List.mem_cons.mp hx with rfl | hx
        · have hsome := hb.succeeds seen hI hax
          rw [hs] at hsome
          exact absurd hsome (by simp)
        · exact hbs.succeeds seen hI ⟨x, hx, hax⟩
      · rfl
    · rw [Comparison.some?] at hs
      cases hfirst : eq a b seen with
      | none =>
        rw [hfirst] at hs
        obtain ⟨x, hx, hax⟩ := hbs.shows seen seen' hI hs
        exact ⟨x, List.mem_cons_of_mem b hx, hax⟩
      | some mid => exact ⟨b, List.mem_cons_self, hb.shows seen mid hI hfirst⟩
    · rw [Comparison.some?] at hs
      cases hfirst : eq a b seen with
      | none =>
        rw [hfirst] at hs
        exact hbs.keeps seen seen' hI hs
      | some mid =>
        rw [hfirst] at hs
        obtain rfl : mid = seen' := Option.some.inj hs
        exact hb.keeps seen mid hI hfirst

theorem Comparison.cover_between {as bs : List α}
    (h : ∀ a ∈ as, ∀ b ∈ bs, Between I (eq a b) (R a b) (S a b)) :
    Between I (Comparison.cover eq as bs) (∀ a ∈ as, ∃ b ∈ bs, R a b)
      (∀ a ∈ as, ∃ b ∈ bs, S a b) := by
  induction as with
  | nil => exact between_some.congr (fun _ => trivial) (by simp)
  | cons a as ih =>
    have hhead := some?_between (h a List.mem_cons_self)
    have htail := ih fun x hx => h x (List.mem_cons_of_mem a hx)
    refine (hhead.bind htail).congr List.forall_mem_cons.mp fun hS x hx => ?_
    rcases List.mem_cons.mp hx with rfl | hx
    · exact hS.1
    · exact hS.2 x hx

theorem Comparison.unordered_between {as bs : List α}
    (h : ∀ a ∈ as, ∀ b ∈ bs, Between I (eq a b) (R a b) (S a b)) :
    Between I (Comparison.unordered eq as bs) (Matches R as bs) (Matches S as bs) :=
  (cover_between h).guard (as.length = bs.length)

theorem Comparison.labelled_between [DecidableEq β] {x y : β × α}
    (h : Between I (eq x.2 y.2) (R x.2 y.2) (S x.2 y.2)) :
    Between I (Comparison.labelled eq x y) (SameLabel R x y) (SameLabel S x y) :=
  h.guard (x.1 = y.1)

theorem Comparison.unordered_labelled_between [DecidableEq β] {xs ys : List (β × α)}
    (h : ∀ a ∈ xs.map Prod.snd, ∀ b ∈ ys.map Prod.snd, Between I (eq a b) (R a b) (S a b)) :
    Between I (Comparison.unordered (Comparison.labelled eq) xs ys)
      (Matches (SameLabel R) xs ys) (Matches (SameLabel S) xs ys) :=
  unordered_between fun _ hx _ hy =>
    labelled_between (h _ (List.mem_map_of_mem hx) _ (List.mem_map_of_mem hy))

end

section

variable {I : Assumed → Prop} {eq : Comparison NodeId} {R S : NodeId → NodeId → Prop}

theorem FunctionRef.agree_between : ∀ {f g : FunctionRef},
    (∀ a ∈ f.children, ∀ b ∈ g.children, Between I (eq a b) (R a b) (S a b)) →
      Between I (f.agree eq g) (f.Alike R g) (f.Alike S g) := by
  intro f
  induction f with
  | primitive p =>
    intro g _
    cases g with
    | primitive q => exact between_guard (p = q)
    | _ => exact between_none
  | typed p as a =>
    intro g h
    cases g with
    | typed q bs b =>
      have hargs : Between I (Comparison.each eq as bs) (List.Forall₂ R as bs) (List.Forall₂ S as bs) :=
        Comparison.each_between fun x hx y hy =>
          h x (List.mem_append_left _ hx) y (List.mem_append_left _ hy)
      have hout := h a (by simp [children]) b (by simp [children])
      exact (hargs.bind hout).guard (p = q)
    | _ => exact between_none
  | partialApp f as ih =>
    intro g h
    cases g with
    | partialApp g bs =>
      have hfunc : Between I (f.agree eq g) (f.Alike R g) (f.Alike S g) :=
        ih fun x hx y hy => h x (List.mem_append_left _ hx) y (List.mem_append_left _ hy)
      have hargs : Between I (Comparison.each eq as bs) (List.Forall₂ R as bs) (List.Forall₂ S as bs) :=
        Comparison.each_between fun x hx y hy =>
          h x (List.mem_append_right _ hx) y (List.mem_append_right _ hy)
      exact hfunc.bind hargs
    | _ => exact between_none
  | virtual as a =>
    intro g h
    cases g with
    | virtual bs b =>
      have hargs : Between I (Comparison.each eq as bs) (List.Forall₂ R as bs) (List.Forall₂ S as bs) :=
        Comparison.each_between fun x hx y hy =>
          h x (List.mem_append_left _ hx) y (List.mem_append_left _ hy)
      exact hargs.bind (h a (by simp [children]) b (by simp [children]))
    | _ => exact between_none
  | graph m =>
    intro g _
    cases g with
    | graph n => exact between_guard (m = n)
    | _ => exact between_none

theorem Candidate.agree_between {c d : Candidate}
    (h : ∀ a ∈ c.children, ∀ b ∈ d.children, Between I (eq a b) (R a b) (S a b)) :
    Between I (c.agree eq d) (c.Alike R d) (c.Alike S d) := by
  cases c with
  | constant c =>
    cases d with
    | constant d => exact between_guard (c = d)
    | function g => exact between_none
  | function f =>
    cases d with
    | constant d => exact between_none
    | function g => exact FunctionRef.agree_between h

theorem Possibilities.agree_between {p q : Possibilities}
    (h : ∀ a ∈ p.candidates.flatMap Candidate.children,
      ∀ b ∈ q.candidates.flatMap Candidate.children, Between I (eq a b) (R a b) (S a b)) :
    Between I (p.agree eq q)
      (p.token = q.token ∨ Matches (Candidate.Alike R) p.candidates q.candidates)
      (p.token = q.token ∨ Matches (Candidate.Alike S) p.candidates q.candidates) := by
  have hsets : Between I (Comparison.unordered (Candidate.agree eq) p.candidates q.candidates)
      (Matches (Candidate.Alike R) p.candidates q.candidates)
      (Matches (Candidate.Alike S) p.candidates q.candidates) :=
    Comparison.unordered_between fun c hc d hd => Candidate.agree_between fun a ha b hb =>
      h a (List.mem_flatMap_of_mem hc ha) b (List.mem_flatMap_of_mem hd hb)
  by_cases ht : p.token = q.token
  · have hsame : p.agree eq q = some := by
      funext seen
      rw [Possibilities.agree, if_pos ht]
    rw [hsame]
    exact between_some.congr (fun _ => trivial) fun _ => .inl ht
  · have hlook : p.agree eq q =
        Comparison.unordered (Candidate.agree eq) p.candidates q.candidates := by
      funext seen
      rw [Possibilities.agree, if_neg ht]
    rw [hlook]
    exact hsets.congr (fun h => h.resolve_left ht) .inr

theorem Slot.agree_between {v w : Slot}
    (h : ∀ a ∈ v.children, ∀ b ∈ w.children, Between I (eq a b) (R a b) (S a b)) :
    Between I (v.agree eq w) (v.Alike R w) (v.Alike S w) := by
  cases v with
  | constant c =>
    cases w with
    | constant d => exact between_guard (c = d)
    | _ => exact between_none
  | anything =>
    cases w with
    | anything => exact between_some
    | _ => exact between_none
  | possibilities p =>
    cases w with
    | possibilities q => exact Possibilities.agree_between h
    | _ => exact between_none
  | pending p =>
    cases w with
    | pending q => exact between_guard (p = q)
    | _ => exact between_none

/-- **A comparison of forms lies between alike forms** if the comparison of the nodes below them
lies between the relations of nodes. -/
theorem Kind.agree_between {k k' : Kind}
    (h : ∀ a ∈ k.children, ∀ b ∈ k'.children, Between I (eq a b) (R a b) (S a b)) :
    Between I (k.agree eq k') (k.Alike R k') (k.Alike S k') := by
  cases k with
  | scalar v t =>
    cases k' with
    | scalar w u => exact (Slot.agree_between h).guard (t = u)
    | _ => exact between_none
  | tuple as =>
    cases k' with
    | tuple bs => exact Comparison.each_between h
    | _ => exact between_none
  | list a =>
    cases k' with
    | list b => exact h a (by simp [children]) b (by simp [children])
    | _ => exact between_none
  | array a shape =>
    cases k' with
    | array b shape' =>
      exact (h a (by simp [children]) b (by simp [children])).guard (shape = shape')
    | _ => exact between_none
  | record tag fs =>
    cases k' with
    | record tag' gs => exact (Comparison.unordered_labelled_between h).guard (tag = tag')
    | _ => exact between_none
  | union as =>
    cases k' with
    | union bs => exact Comparison.unordered_between h
    | _ => exact between_none
  | tagged as =>
    cases k' with
    | tagged bs => exact Comparison.unordered_labelled_between h
    | _ => exact between_none
  | function v =>
    cases k' with
    | function w => exact Slot.agree_between h
    | _ => exact between_none
  | jtagged a =>
    cases k' with
    | jtagged b => exact h a (by simp [children]) b (by simp [children])
    | _ => exact between_none
  | error r =>
    cases k' with
    | error r' => exact between_guard (r = r')
    | _ => exact between_none
  | type t =>
    cases k' with
    | type u => exact between_guard (t = u)
    | _ => exact between_none

theorem Candidate.agree_decides {c d : Candidate}
    (h : ∀ a ∈ c.children, ∀ b ∈ d.children, Decides I (eq a b) (R a b)) :
    Decides I (c.agree eq d) (c.Alike R d) :=
  decides_iff_between.mpr (agree_between fun a ha b hb => decides_iff_between.mp (h a ha b hb))

/-- **A comparison of forms decides `Kind.Alike`** if the comparison of the nodes below them
decides the relation of nodes. -/
theorem Kind.agree_decides {k k' : Kind}
    (h : ∀ a ∈ k.children, ∀ b ∈ k'.children, Decides I (eq a b) (R a b)) :
    Decides I (k.agree eq k') (k.Alike R k') :=
  decides_iff_between.mpr (agree_between fun a ha b hb => decides_iff_between.mp (h a ha b hb))

end

end ValueInference
