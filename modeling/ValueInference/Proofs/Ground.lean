/-
Values without cycles and without open pendings.

A node is *ground* when everything that it mentions has a form, lies on no cycle and waits for no
open pending, and when every union in it is normalised: its members are at least two, none of them
is a union, and no two of them are equal.  Walks over such a value end, and the number of nodes in
the store bounds how deep they go.

* **`Store.Ground`** — the values that merges without a loop are about;
* **`Store.Closed`** — what is left of it when unions may be as they like;
* **`Store.EndsWithin`** — every way down from a node ends within a number of steps;
* **`Store.endsWithin_of_acyclic`** — where there is no cycle, the number of nodes is enough.
-/
import ValueInference.Union
import Mathlib.Data.Set.Card
import Mathlib.Logic.Relation
import Mathlib.Order.Interval.Finset.Nat

namespace ValueInference

namespace Store

variable {s t : Store} {P : NodeId → Prop} {m n : NodeId}

/-- The first node stands somewhere below the second one. -/
def Below (s : Store) : NodeId → NodeId → Prop :=
  Relation.TransGen fun x y => x ∈ (s.kind y).children

/-- The nodes directly below a node, and those in what its slot stands for. -/
def mentions (s : Store) (n : NodeId) : List NodeId :=
  (s.kind n).children ++ ((s.kind n).slot?.map fun slot => (s.resolve slot).children).getD []

/-- The second node can be reached from the first one, also through resolved pendings. -/
def Reaches (s : Store) : NodeId → NodeId → Prop :=
  Relation.ReflTransGen fun x y => y ∈ s.mentions x

/-- Members as unions keep them: at least two, no unions, no two equal. -/
structure Normalised (s : Store) (ms : List NodeId) : Prop where
  several : 2 ≤ ms.length
  flat : ∀ m ∈ ms, (s.kind m).isUnion = false
  distinct : ms.Pairwise fun m n => s.equal m n = false ∧ s.equal n m = false

/-- A complete value without cycles and without open pendings, whose unions are normalised. -/
structure Ground (s : Store) (a : NodeId) : Prop where
  complete : ∀ n, s.Reaches a n → s.isComplete n = true
  acyclic : ∀ n, s.Reaches a n → ¬ s.Below n n
  settled : ∀ n slot, s.Reaches a n → (s.kind n).slot? = some slot → s.waitsOn slot = none
  normalised : ∀ n ms, s.Reaches a n → s.kind n = .union ms → s.Normalised ms

/-! ### Ways down -/

/-- Every way down from the node ends within so many nodes, all of them in the store. -/
def EndsWithin (s : Store) : Nat → NodeId → Prop
  | 0, _ => False
  | depth + 1, n => n < s.nodes.size ∧ ∀ c ∈ (s.kind n).children, s.EndsWithin depth c

namespace EndsWithin

theorem present {k : Nat} (h : s.EndsWithin k n) : n < s.nodes.size := by
  cases k with
  | zero => exact h.elim
  | succ k => exact h.1

/-- A bound has the form `k + 1`, with `k` for the nodes below. -/
theorem below {k : Nat} (h : s.EndsWithin k n) :
    ∃ j, k = j + 1 ∧ ∀ c ∈ (s.kind n).children, s.EndsWithin j c := by
  cases k with
  | zero => exact h.elim
  | succ j => exact ⟨j, rfl, h.2⟩

/-- A bound holds in another store that has the same forms, and any greater one does. -/
theorem mono {k : Nat} : ∀ {j : Nat} {n : NodeId}, k ≤ j →
    (∀ m, m < s.nodes.size → m < t.nodes.size ∧ t.kind m = s.kind m) →
      s.EndsWithin k n → t.EndsWithin j n := by
  induction k with
  | zero =>
    intro j n _ _ h
    exact h.elim
  | succ k ih =>
    intro j n hkj hsame h
    obtain ⟨i, rfl⟩ : ∃ i, j = i + 1 := ⟨j - 1, by omega⟩
    obtain ⟨hpresent, hkind⟩ := hsame n h.1
    refine ⟨hpresent, fun c hc => ih (by omega) hsame (h.2 c ?_)⟩
    rwa [hkind] at hc

theorem weaken {k j : Nat} (h : s.EndsWithin k n) (hkj : k ≤ j) : s.EndsWithin j n :=
  h.mono hkj fun _ hm => ⟨hm, rfl⟩

/-- A value whose ways down all end does not contain itself. -/
theorem acyclic {k : Nat} : ∀ {n : NodeId}, s.EndsWithin k n → ¬ s.Below n n := by
  induction k with
  | zero =>
    intro n h
    exact h.elim
  | succ k ih =>
    intro n h hloop
    -- the last step of the cycle enters `n` from a node below it, which then contains itself
    obtain ⟨c, hpath, hc⟩ := Relation.TransGen.tail'_iff.mp hloop
    refine ih (h.2 c hc) ?_
    exact Relation.TransGen.head' (b := n) hc hpath

end EndsWithin

/-! ### The number of nodes as a bound -/

/-- How many nodes stand below a node. -/
private noncomputable def rank (s : Store) (n : NodeId) : Nat :=
  {m | s.Below m n}.ncard

private theorem below_subset (hP : ∀ m, P m → m < s.nodes.size)
    (hstep : ∀ m, P m → ∀ c ∈ (s.kind m).children, P c) (hn : P n) :
    {m | s.Below m n} ⊆ Set.Iio s.nodes.size := by
  intro m hm
  have hclosed : ∀ {x y : NodeId}, s.Below x y → P y → P x := by
    intro x y hxy hy
    induction hxy using Relation.TransGen.head_induction_on with
    | single hxy => exact hstep _ hy _ hxy
    | head hxz _ ih => exact hstep _ ih _ hxz
  exact hP m (hclosed hm hn)

/-- **Where there is no cycle, the number of nodes is enough**: from a node with a property that is
handed down, and that only nodes of the store have which do not contain themselves. -/
theorem endsWithin_of_acyclic (hP : ∀ m, P m → m < s.nodes.size)
    (hstep : ∀ m, P m → ∀ c ∈ (s.kind m).children, P c) (hloop : ∀ m, P m → ¬ s.Below m m)
    (hn : P n) : s.EndsWithin (s.nodes.size + 1) n := by
  have hfinite : ∀ m, P m → {x | s.Below x m}.Finite := fun m hm =>
    (Set.finite_Iio s.nodes.size).subset (below_subset hP hstep hm)
  have hrank : ∀ m, P m → ∀ c ∈ (s.kind m).children, s.rank c < s.rank m := by
    intro m hm c hc
    refine Set.ncard_lt_ncard ⟨fun x hx => hx.tail hc, fun hsub => ?_⟩ (hfinite m hm)
    exact hloop c (hstep m hm c hc) (hsub (Relation.TransGen.single hc))
  have hdeep : ∀ k m, P m → s.rank m < k → s.EndsWithin k m := by
    intro k
    induction k with
    | zero =>
      intro m _ h
      exact absurd h (Nat.not_lt_zero _)
    | succ k ih =>
      intro m hm h
      refine ⟨hP m hm, fun c hc => ih c (hstep m hm c hc) ?_⟩
      have := hrank m hm c hc
      omega
  refine hdeep _ n hn ?_
  have hle : s.rank n ≤ (Set.Iio s.nodes.size).ncard :=
    Set.ncard_le_ncard (below_subset hP hstep hn) (Set.finite_Iio _)
  rw [Set.ncard_eq_toFinset_card'] at hle
  simp at hle
  omega

/-! ### Founded and closed values -/

/-- There is no endless way down from the node, and none out of the store. -/
def Founded (s : Store) : NodeId → Prop := s.EndsWithin (s.nodes.size + 1)

/-- Whatever bound there is, the number of nodes is one. -/
theorem EndsWithin.founded {k : Nat} (h : s.EndsWithin k n) : s.Founded n := by
  refine endsWithin_of_acyclic (P := fun m => ∃ j, s.EndsWithin j m) ?_ ?_ ?_ ⟨k, h⟩
  · rintro m ⟨j, hj⟩
    exact hj.present
  · rintro m ⟨j, hj⟩ c hc
    obtain ⟨i, _, hbelow⟩ := hj.below
    exact ⟨i, hbelow c hc⟩
  · rintro m ⟨j, hj⟩
    exact hj.acyclic

namespace Founded

theorem present (h : s.Founded n) : n < s.nodes.size := EndsWithin.present h

theorem child {c : NodeId} (h : s.Founded n) (hc : c ∈ (s.kind n).children) : s.Founded c := by
  obtain ⟨j, -, hbelow⟩ := h.below
  exact (hbelow c hc).founded

theorem of_children (hn : n < s.nodes.size) (h : ∀ c ∈ (s.kind n).children, s.Founded c) :
    s.Founded n := by
  have hdeep : s.EndsWithin (s.nodes.size + 1 + 1) n := ⟨hn, h⟩
  exact hdeep.founded

/-- Induction from the nodes below to the node. -/
theorem induct {motive : NodeId → Prop} (hn : s.Founded n)
    (hstep : ∀ m, s.Founded m → (∀ c ∈ (s.kind m).children, motive c) → motive m) : motive n := by
  suffices hdeep : ∀ k m, s.EndsWithin k m → motive m from hdeep _ n hn
  intro k
  induction k with
  | zero => exact fun m h => h.elim
  | succ k ih =>
    intro m h
    exact hstep m h.founded fun c hc => ih c (h.2 c hc)

end Founded

/-- A slot that is no pending stands for itself. -/
theorem resolve_self (s : Store) (slot : Slot) (h : slot.pendings = []) :
    s.resolve slot = slot := by
  rw [resolve]
  cases slot with
  | pending p => exact absurd h (List.cons_ne_nil p [])
  | _ => cases s.pendings.size <;> rfl

theorem mem_mentions_of_child {c : NodeId} (h : c ∈ (s.kind n).children) : c ∈ s.mentions n :=
  List.mem_append_left _ h

theorem reaches_of_below (h : s.Below m n) : s.Reaches n m := by
  induction h using Relation.TransGen.head_induction_on with
  | single h => exact .single (mem_mentions_of_child h)
  | head h _ ih => exact ih.tail (mem_mentions_of_child h)

theorem mem_mentions_of_slot {slot : Slot} {c : NodeId} (hslot : (s.kind n).slot? = some slot)
    (h : c ∈ (s.resolve slot).children) : c ∈ s.mentions n := by
  refine List.mem_append_right _ ?_
  rwa [hslot]

/-- A value of which everything is founded and waits for no open pending. -/
def Closed (s : Store) (a : NodeId) : Prop :=
  ∀ n, s.Reaches a n →
    s.Founded n ∧ ∀ slot, (s.kind n).slot? = some slot → s.waitsOn slot = none

/-- A slot that stands for something known, over closed values. -/
structure Settled (s : Store) (slot : Slot) : Prop where
  known : s.waitsOn slot = none
  closed : ∀ c ∈ (s.resolve slot).children, s.Closed c

namespace Closed

variable {a b : NodeId}

theorem reaches (h : s.Closed a) (hab : s.Reaches a b) : s.Closed b :=
  fun n hn => h n (hab.trans hn)

theorem founded (h : s.Closed a) : s.Founded a := (h a .refl).1

theorem present (h : s.Closed a) : a < s.nodes.size := h.founded.present

theorem child {c : NodeId} (h : s.Closed a) (hc : c ∈ (s.kind a).children) : s.Closed c :=
  h.reaches (.single (mem_mentions_of_child hc))

theorem settled {slot : Slot} (h : s.Closed a) (hslot : (s.kind a).slot? = some slot) :
    s.Settled slot where
  known := (h a .refl).2 slot hslot
  closed _ hc := h.reaches (.single (mem_mentions_of_slot hslot hc))

/-- A node is closed if what it mentions is, and its slot is settled. -/
theorem of_mentions (ha : a < s.nodes.size) (hchildren : ∀ c ∈ (s.kind a).children, s.Closed c)
    (hslot : ∀ slot, (s.kind a).slot? = some slot → s.Settled slot) : s.Closed a := by
  intro n hn
  rcases Relation.ReflTransGen.cases_head hn with rfl | ⟨c, hc, hcn⟩
  · exact ⟨.of_children ha fun c hc => (hchildren c hc).founded, fun v hv => (hslot v hv).known⟩
  · rcases List.mem_append.mp hc with hc | hc
    · exact hchildren c hc n hcn
    · cases hv : (s.kind a).slot? with
      | none =>
        rw [hv] at hc
        exact absurd hc List.not_mem_nil
      | some v =>
        rw [hv] at hc
        exact (hslot v hv).closed c hc n hcn

end Closed

theorem present_of_isComplete (h : s.isComplete n = true) : n < s.nodes.size := by
  by_contra hn
  rw [isComplete, Array.getElem?_eq_none (Nat.not_lt.mp hn)] at h
  simp at h

namespace Ground

variable {a b : NodeId}

theorem reaches (h : s.Ground a) (hab : s.Reaches a b) : s.Ground b where
  complete n hn := h.complete n (hab.trans hn)
  acyclic n hn := h.acyclic n (hab.trans hn)
  settled n slot hn := h.settled n slot (hab.trans hn)
  normalised n ms hn := h.normalised n ms (hab.trans hn)

theorem child {c : NodeId} (h : s.Ground a) (hc : c ∈ (s.kind a).children) : s.Ground c :=
  h.reaches (.single (mem_mentions_of_child hc))

theorem founded (h : s.Ground a) : s.Founded a :=
  endsWithin_of_acyclic (P := s.Ground) (fun m hm => present_of_isComplete (hm.complete m .refl))
    (fun _ hm _ => hm.child) (fun m hm => hm.acyclic m .refl) h

/-- **A ground value is closed.** -/
theorem closed (h : s.Ground a) : s.Closed a := fun n hn =>
  ⟨(h.reaches hn).founded, fun slot => h.settled n slot hn⟩

theorem union_normalised {ms : List NodeId} (h : s.Ground a) (ha : s.kind a = .union ms) :
    s.Normalised ms :=
  h.normalised a ms .refl ha

end Ground

/-! ### Checking values -/

/-- Whether every node that can be reached has a property, none of them further than `depth`. -/
def everywhere (s : Store) (P : NodeId → Bool) : Nat → NodeId → Bool
  | 0, _ => false
  | depth + 1, n => P n && (s.mentions n).all (s.everywhere P depth)

/-- What `Ground` asks of a single node. -/
def groundAt (s : Store) (n : NodeId) : Bool :=
  s.isComplete n && (s.kind n).slot?.all (fun slot => (s.waitsOn slot).isNone) &&
    match s.kind n with
    | .union ms =>
      decide (2 ≤ ms.length) && ms.all (fun m => !(s.kind m).isUnion) &&
        decide (ms.Pairwise fun m n => s.equal m n = false ∧ s.equal n m = false)
    | _ => true

section

variable {p : NodeId → Bool} {a : NodeId} {depth : Nat}

theorem here_of_everywhere (h : s.everywhere p depth a = true) : p a = true := by
  cases depth with
  | zero => exact absurd h (by simp [everywhere])
  | succ depth =>
    rw [everywhere, Bool.and_eq_true] at h
    exact h.1

theorem everywhere_reaches (h : s.everywhere p depth a = true) (hn : s.Reaches a n) :
    ∃ d, s.everywhere p d n = true := by
  induction hn with
  | refl => exact ⟨depth, h⟩
  | tail _ hstep ih =>
    obtain ⟨d, hd⟩ := ih
    cases d with
    | zero => exact absurd hd (by simp [everywhere])
    | succ d =>
      rw [everywhere, Bool.and_eq_true, List.all_eq_true] at hd
      exact ⟨d, hd.2 _ hstep⟩

theorem endsWithin_of_everywhere (hp : ∀ n, p n = true → n < s.nodes.size) :
    ∀ {a : NodeId}, s.everywhere p depth a = true → s.EndsWithin depth a := by
  induction depth with
  | zero =>
    intro a h
    exact absurd h (by simp [everywhere])
  | succ depth ih =>
    intro a h
    refine ⟨hp a (here_of_everywhere h), fun c hc => ih ?_⟩
    rw [everywhere, Bool.and_eq_true, List.all_eq_true] at h
    exact h.2 c (mem_mentions_of_child hc)

/-- **A value is ground if a search says so.** -/
theorem Ground.of_everywhere (depth : Nat) (hp : ∀ n, p n = true → s.groundAt n = true)
    (h : s.everywhere p depth a = true) : s.Ground a := by
  have hat : ∀ n, s.Reaches a n → s.groundAt n = true := by
    intro n hn
    obtain ⟨d, hd⟩ := everywhere_reaches h hn
    exact hp n (here_of_everywhere hd)
  have hcomplete : ∀ n, s.groundAt n = true → s.isComplete n = true := by
    intro n hn
    rw [groundAt, Bool.and_eq_true, Bool.and_eq_true] at hn
    exact hn.1.1
  refine ⟨fun n hn => hcomplete n (hat n hn), fun n hn => ?_, fun n slot hn hslot => ?_,
    fun n ms hn hms => ?_⟩
  · obtain ⟨d, hd⟩ := everywhere_reaches h hn
    refine (endsWithin_of_everywhere (fun m hm => ?_) hd).acyclic
    exact present_of_isComplete (hcomplete m (hp m hm))
  · have hn := hat n hn
    rw [groundAt, Bool.and_eq_true, Bool.and_eq_true, hslot] at hn
    exact Option.isNone_iff_eq_none.mp hn.1.2
  · have hn := hat n hn
    rw [groundAt, hms, Bool.and_eq_true, Bool.and_eq_true, Bool.and_eq_true, Bool.and_eq_true,
      List.all_eq_true] at hn
    obtain ⟨-, ⟨hlen, hflat⟩, hdistinct⟩ := hn
    exact ⟨of_decide_eq_true hlen, fun m hm => by simpa using hflat m hm,
      of_decide_eq_true hdistinct⟩

end

end Store

end ValueInference
