/-
Walks over values that contain themselves come to an end.

Five recursions of the program are not bounded by anything that they are given: following resolved
pendings, comparing nodes, rendering a node, and reading its value or its type off it.  Each is
stated here by one step without a bound.  A comparison assumes one more pair of nodes at every
level, and what a failed trial assumed is taken back only where it failed, never below; the other
walks go one node further down a path on which no node is twice, also through the candidates that a
pending has come to.

* **`Store.Chained`** — resolved pendings form finite chains;
* **`Consults`** — a comparison asks only for nodes below, after it has assumed no less;
* **`Store.compareStep`**, **`Store.renderStep`**, **`Store.valueStep`**, **`Store.typeStep`** — the
  recursions;
* **`Store.walks_end`** — all of them end, with what the bounded ones give.
-/
import ValueInference.Store.Concrete
import ValueInference.Proofs.Becoming
import ValueInference.Proofs.Pendings
import ValueInference.Proofs.Recursions

namespace ValueInference

/-! ### Comparisons of forms -/

/-- A comparison of two nodes, with the pairs assumed before it. -/
abbrev Question := NodeId × NodeId × Assumed

/-- Comparisons of nodes as some function answers them. -/
def answering (g : Question → Option Assumed) : Comparison NodeId := fun a b seen => g (a, b, seen)

/-- The comparison asks finitely many questions, about pairs of nodes with the property and with no
less assumed than before it, and what it assumed is added to what was assumed before. -/
structure Consults (P : NodeId → NodeId → Prop) (f : Question → Option Assumed)
    (run : (Question → Option Assumed) → Assumed → Option Assumed) : Prop where
  uses : ∀ seen, Uses (fun q => P q.1 q.2.1 ∧ seen ⊆ q.2.2) f (fun g => run g seen)
  adds : ∀ seen seen', run f seen = some seen' → seen ⊆ seen'

section

variable {P : NodeId → NodeId → Prop} {f : Question → Option Assumed}
  {run next : (Question → Option Assumed) → Assumed → Option Assumed} {α β : Type}
  {eq : (Question → Option Assumed) → Comparison α}

theorem consults_none : Consults P f (fun _ _ => none) :=
  ⟨fun _ => uses_const none, fun _ _ h => nomatch h⟩

theorem consults_some : Consults P f (fun _ seen => some seen) :=
  ⟨fun seen => uses_const (some seen), fun seen _ h => Option.some.inj h ▸ List.Subset.refl seen⟩

theorem consults_node (hadds : ∀ q seen', f q = some seen' → q.2.2 ⊆ seen') {a b : NodeId}
    (hab : P a b) : Consults P f (fun g => answering g a b) :=
  ⟨fun seen => uses_call (x := (a, b, seen)) ⟨hab, List.Subset.refl seen⟩,
    fun seen seen' h => hadds (a, b, seen) seen' h⟩

theorem Consults.guard (c : Prop) [Decidable c] (h : Consults P f run) :
    Consults P f (fun g seen => if c then run g seen else none) := by
  by_cases hc : c
  · simpa only [if_pos hc] using h
  · simpa only [if_neg hc] using consults_none

theorem consults_guard (c : Prop) [Decidable c] :
    Consults P f (fun _ seen => if c then some seen else none) :=
  consults_some.guard c

theorem Consults.bind (h : Consults P f run) (h' : Consults P f next) :
    Consults P f (fun g seen => (run g seen).bind (next g)) where
  uses seen := by
    refine Uses.seq (fun g outcome => outcome.bind (next g)) (h.uses seen) ?_
    cases hrun : run f seen with
    | none => exact uses_const none
    | some mid =>
      exact (h'.uses mid).imp fun q hq => ⟨hq.1, List.Subset.trans (h.adds seen mid hrun) hq.2⟩
  adds seen seen' hs := by
    obtain ⟨mid, hmid, hnext⟩ := Option.bind_eq_some_iff.mp hs
    exact List.Subset.trans (h.adds seen mid hmid) (h'.adds mid seen' hnext)

/-- A trial that fails has changed nothing for the next one. -/
theorem Consults.orElse (h : Consults P f run) (h' : Consults P f next) :
    Consults P f (fun g seen => match run g seen with
      | some seen => some seen
      | none => next g seen) where
  uses seen := by
    refine Uses.seq (fun g outcome => match outcome with
      | some seen => some seen
      | none => next g seen) (h.uses seen) ?_
    cases run f seen with
    | none => exact h'.uses seen
    | some mid => exact uses_const (some mid)
  adds seen seen' hs := by
    cases hrun : run f seen with
    | none =>
      simp only [hrun] at hs
      exact h'.adds seen seen' hs
    | some mid =>
      simp only [hrun] at hs
      exact Option.some.inj hs ▸ h.adds seen mid hrun

namespace Comparison

theorem consults_each {as : List α} : ∀ {bs : List α},
    (∀ a ∈ as, ∀ b ∈ bs, Consults P f (fun g => eq g a b)) →
      Consults P f (fun g => Comparison.each (eq g) as bs) := by
  induction as with
  | nil =>
    intro bs _
    cases bs with
    | nil => exact consults_some
    | cons b bs => exact consults_none
  | cons a as ih =>
    intro bs h
    cases bs with
    | nil => exact consults_none
    | cons b bs =>
      have hhead := h a List.mem_cons_self b List.mem_cons_self
      exact hhead.bind (ih fun x hx y hy =>
        h x (List.mem_cons_of_mem a hx) y (List.mem_cons_of_mem b hy))

theorem consults_some? {a : α} {bs : List α} (h : ∀ b ∈ bs, Consults P f (fun g => eq g a b)) :
    Consults P f (fun g => Comparison.some? (eq g) a bs) := by
  induction bs with
  | nil => exact consults_none
  | cons b bs ih =>
    have hfirst := h b List.mem_cons_self
    exact hfirst.orElse (ih fun x hx => h x (List.mem_cons_of_mem b hx))

theorem consults_cover {as bs : List α}
    (h : ∀ a ∈ as, ∀ b ∈ bs, Consults P f (fun g => eq g a b)) :
    Consults P f (fun g => Comparison.cover (eq g) as bs) := by
  induction as with
  | nil => exact consults_some
  | cons a as ih =>
    have hhead := consults_some? (h a List.mem_cons_self)
    exact hhead.bind (ih fun x hx => h x (List.mem_cons_of_mem a hx))

theorem consults_unordered {as bs : List α}
    (h : ∀ a ∈ as, ∀ b ∈ bs, Consults P f (fun g => eq g a b)) :
    Consults P f (fun g => Comparison.unordered (eq g) as bs) :=
  (consults_cover h).guard (as.length = bs.length)

theorem consults_labelled [DecidableEq β] {xs ys : List (β × α)}
    (h : ∀ a ∈ xs.map Prod.snd, ∀ b ∈ ys.map Prod.snd, Consults P f (fun g => eq g a b)) :
    Consults P f (fun g => Comparison.unordered (Comparison.labelled (eq g)) xs ys) :=
  consults_unordered fun x hx y hy =>
    (h x.2 (List.mem_map_of_mem hx) y.2 (List.mem_map_of_mem hy)).guard (x.1 = y.1)

end Comparison

/-- Comparisons of nodes below two forms. -/
def ConsultsBelow (P : NodeId → NodeId → Prop) (f : Question → Option Assumed)
    (as bs : List NodeId) : Prop :=
  ∀ a ∈ as, ∀ b ∈ bs, Consults P f (fun g => answering g a b)

theorem FunctionRef.consults_agree : ∀ {r r' : FunctionRef},
    ConsultsBelow P f r.children r'.children →
      Consults P f (fun g => r.agree (answering g) r') := by
  intro r
  induction r with
  | primitive p =>
    intro r' _
    cases r' with
    | primitive q => exact consults_guard (p = q)
    | _ => exact consults_none
  | typed p as a =>
    intro r' h
    cases r' with
    | typed q bs b =>
      have hargs : Consults P f (fun g => Comparison.each (answering g) as bs) :=
        Comparison.consults_each fun x hx y hy =>
          h x (List.mem_append_left _ hx) y (List.mem_append_left _ hy)
      have hout := h a (by simp [children]) b (by simp [children])
      exact (hargs.bind hout).guard (p = q)
    | _ => exact consults_none
  | partialApp r as ih =>
    intro r' h
    cases r' with
    | partialApp r' bs =>
      have hfunc : Consults P f (fun g => r.agree (answering g) r') :=
        ih fun x hx y hy => h x (List.mem_append_left _ hx) y (List.mem_append_left _ hy)
      exact hfunc.bind (Comparison.consults_each fun x hx y hy =>
        h x (List.mem_append_right _ hx) y (List.mem_append_right _ hy))
    | _ => exact consults_none
  | virtual as a =>
    intro r' h
    cases r' with
    | virtual bs b =>
      have hargs : Consults P f (fun g => Comparison.each (answering g) as bs) :=
        Comparison.consults_each fun x hx y hy =>
          h x (List.mem_append_left _ hx) y (List.mem_append_left _ hy)
      exact hargs.bind (h a (by simp [children]) b (by simp [children]))
    | _ => exact consults_none
  | graph m =>
    intro r' _
    cases r' with
    | graph n => exact consults_guard (m = n)
    | _ => exact consults_none

theorem Candidate.consults_agree {c d : Candidate} (h : ConsultsBelow P f c.children d.children) :
    Consults P f (fun g => c.agree (answering g) d) := by
  cases c with
  | constant c =>
    cases d with
    | constant d => exact consults_guard (c = d)
    | function r => exact consults_none
  | function r =>
    cases d with
    | constant d => exact consults_none
    | function r' => exact FunctionRef.consults_agree h

theorem Slot.consults_agree {v w : Slot} (h : ConsultsBelow P f v.children w.children) :
    Consults P f (fun g => v.agree (answering g) w) := by
  cases v with
  | constant c =>
    cases w with
    | constant d => exact consults_guard (c = d)
    | _ => exact consults_none
  | anything =>
    cases w with
    | anything => exact consults_some
    | _ => exact consults_none
  | possibilities p =>
    cases w with
    | possibilities q =>
      by_cases htoken : p.token = q.token
      · have hsame : (fun g => Slot.agree (answering g) (.possibilities p) (.possibilities q)) =
            fun _ seen => some seen := by
          funext g seen
          rw [Slot.agree, Possibilities.agree, if_pos htoken]
        exact hsame ▸ consults_some
      · have hlook : (fun g => Slot.agree (answering g) (.possibilities p) (.possibilities q)) =
            fun g => Comparison.unordered (Candidate.agree (answering g))
              p.candidates q.candidates := by
          funext g seen
          rw [Slot.agree, Possibilities.agree, if_neg htoken]
        refine hlook ▸ Comparison.consults_unordered fun c hc d hd => ?_
        exact Candidate.consults_agree fun a ha b hb =>
          h a (List.mem_flatMap_of_mem hc ha) b (List.mem_flatMap_of_mem hd hb)
    | _ => exact consults_none
  | pending p =>
    cases w with
    | pending q => exact consults_guard (p = q)
    | _ => exact consults_none

/-- **A comparison of forms** consults comparisons of the nodes below them only. -/
theorem Kind.consults_agree {k k' : Kind} (h : ConsultsBelow P f k.children k'.children) :
    Consults P f (fun g => k.agree (answering g) k') := by
  -- forms that differ are told apart without a look below
  cases k with
  | scalar v t =>
    cases k' with
    | scalar w u => exact (Slot.consults_agree h).guard (t = u)
    | _ => exact consults_none
  | tuple as =>
    cases k' with
    | tuple bs => exact Comparison.consults_each h
    | _ => exact consults_none
  | list a =>
    cases k' with
    | list b => exact h a List.mem_cons_self b List.mem_cons_self
    | _ => exact consults_none
  | array a shape =>
    cases k' with
    | array b shape' =>
      exact (h a List.mem_cons_self b List.mem_cons_self).guard (shape = shape')
    | _ => exact consults_none
  | record tag fs =>
    cases k' with
    | record tag' gs => exact (Comparison.consults_labelled h).guard (tag = tag')
    | _ => exact consults_none
  | union as =>
    cases k' with
    | union bs => exact Comparison.consults_unordered h
    | _ => exact consults_none
  | tagged as =>
    cases k' with
    | tagged bs => exact Comparison.consults_labelled h
    | _ => exact consults_none
  | function v =>
    cases k' with
    | function w => exact Slot.consults_agree h
    | _ => exact consults_none
  | jtagged a =>
    cases k' with
    | jtagged b => exact h a List.mem_cons_self b List.mem_cons_self
    | _ => exact consults_none
  | error r =>
    cases k' with
    | error r' => exact consults_guard (r = r')
    | _ => exact consults_none
  | type t =>
    cases k' with
    | type u => exact consults_guard (t = u)
    | _ => exact consults_none

end

/-! ### Forms depend on the nodes that they mention -/

section

variable {γ : Type} {sub sub' : NodeId → γ}

theorem mapM_congr {δ : Type} {l : List δ} {sub sub' : δ → Reading γ}
    (h : ∀ x ∈ l, sub x = sub' x) : l.mapM sub = l.mapM sub' := by
  induction l with
  | nil => rfl
  | cons x xs ih =>
    rw [List.mapM_cons, List.mapM_cons, h x List.mem_cons_self,
      ih fun y hy => h y (List.mem_cons_of_mem x hy)]

theorem FunctionRef.render_congr {sub sub' : NodeId → String} {r : FunctionRef}
    (h : ∀ c ∈ r.children, sub c = sub' c) : r.render sub = r.render sub' := by
  induction r with
  | primitive p => rfl
  | typed p args output =>
    obtain ⟨hargs, houtput⟩ := List.forall_mem_append.mp h
    rw [render, render, List.map_congr_left hargs, houtput output List.mem_cons_self]
  | partialApp func args ih =>
    obtain ⟨hfunc, hargs⟩ := List.forall_mem_append.mp h
    rw [render, render, ih hfunc, List.map_congr_left hargs]
  | virtual args output =>
    obtain ⟨hargs, houtput⟩ := List.forall_mem_append.mp h
    rw [render, render, List.map_congr_left hargs, houtput output List.mem_cons_self]
  | graph name => rfl

theorem Candidate.render_congr {sub sub' : NodeId → String} {c : Candidate}
    (h : ∀ x ∈ c.children, sub x = sub' x) : c.render sub = c.render sub' := by
  cases c with
  | constant x => rfl
  | function r => exact FunctionRef.render_congr h

end

namespace Store

variable {s : Store} {n : NodeId} {slot : Slot}

/-! ### Following pendings -/

/-- Resolved pendings form finite chains. -/
def Chained (s : Store) : Prop := WellFounded fun q p => s.result? p = some (.pending q)

/-- Follows a slot, with calls for what is left to follow. -/
def followStep (s : Store) (follow : Slot → Slot) : Slot → Slot
  | .pending p =>
    match s.result? p with
    | some slot => follow slot
    | none => .pending p
  | slot => slot

theorem Final.followStep (h : s.Final slot) (follow : Slot → Slot) :
    s.followStep follow slot = slot := by
  cases slot with
  | pending p => rw [Store.followStep, h p rfl]
  | _ => rfl

/-- **Following a slot ends,** where nothing is left to follow. -/
theorem Chained.follow_ends (h : s.Chained) (slot : Slot) :
    s.Final (s.resolve slot) ∧ Evaluates s.followStep slot (s.resolve slot) := by
  suffices hends : ∃ fuel, s.Final (s.follow fuel slot) ∧
      Evaluates s.followStep slot (s.follow fuel slot) by
    obtain ⟨fuel, hfinal, hends⟩ := hends
    rw [resolve_of_final hfinal]
    exact ⟨hfinal, hends⟩
  have hfinal : ∀ slot, s.Final slot → ∃ fuel, s.Final (s.follow fuel slot) ∧
      Evaluates s.followStep slot (s.follow fuel slot) := by
    intro slot hslot
    refine ⟨0, ?_⟩
    rw [follow_zero]
    exact ⟨hslot, .intro [] id (fun _ hz => absurd hz List.not_mem_nil) fun g _ =>
      hslot.followStep g⟩
  cases slot with
  | pending p =>
    -- along the chain that the pending begins
    induction p using h.induction with
    | _ p ih =>
    cases hp : s.result? p with
    | none => exact hfinal _ fun q hq => Slot.pending.inj hq ▸ hp
    | some slot =>
      obtain ⟨fuel, hslot, hends⟩ : ∃ fuel, s.Final (s.follow fuel slot) ∧
          Evaluates s.followStep slot (s.follow fuel slot) := by
        cases slot with
        | pending q => exact ih q hp
        | _ => exact hfinal _ nofun
      have hfollow : s.follow (fuel + 1) (.pending p) = s.follow fuel slot := by
        rw [follow, hp]
      refine ⟨fuel + 1, hfollow ▸ hslot, hfollow ▸ ?_⟩
      refine .intro [slot] (fun _ => s.follow fuel slot) (List.forall_mem_singleton.mpr hends) ?_
      intro g hg
      rw [followStep, hp]
      exact hg slot List.mem_cons_self
  | _ => exact hfinal _ nofun

theorem Chained.resolve_resolve (h : s.Chained) (slot : Slot) :
    s.resolve (s.resolve slot) = s.resolve slot :=
  (h.follow_ends slot).1.follow _

/-! ### Comparing nodes -/

/-- Compares two nodes, with calls for the nodes below them. -/
def compareStep (s : Store) (compare : Question → Option Assumed) : Question → Option Assumed
  | (a, b, seen) =>
    if a = b then some seen
    else if (s.digest a).isSome && (s.digest b).isSome && s.digest a != s.digest b then none
    else if s.isInterned a && s.isInterned b then none
    else if (a, b) ∈ seen then some seen
    else Kind.agree (answering compare) (s.kind a) (s.kind b) ((a, b) :: seen)

/-- The comparison to some depth. -/
def compareWithin (s : Store) (depth : Nat) (q : Question) : Option Assumed :=
  s.agree depth q.1 q.2.1 q.2.2

theorem compareWithin_succ (depth : Nat) (q : Question) :
    s.compareWithin (depth + 1) q = s.compareStep (s.compareWithin depth) q :=
  rfl

/-- A comparison adds to what was assumed before it. -/
theorem compareWithin_adds (depth : Nat) :
    ∀ q seen', s.compareWithin depth q = some seen' → q.2.2 ⊆ seen' := by
  induction depth with
  | zero => exact fun _ _ h => nomatch h
  | succ depth ih =>
    rintro ⟨a, b, seen⟩ seen' h
    rw [compareWithin_succ, compareStep] at h
    split_ifs at h
    · exact Option.some.inj h ▸ List.Subset.refl seen
    · exact Option.some.inj h ▸ List.Subset.refl seen
    · have hforms : Consults (fun _ _ => True) (s.compareWithin depth)
          (fun g => Kind.agree (answering g) (s.kind a) (s.kind b)) :=
        Kind.consults_agree fun _ _ _ _ => consults_node ih trivial
      exact List.Subset.trans (List.subset_cons_self (a, b) seen) (hforms.adds _ _ h)

theorem lt_of_child {c : NodeId} (h : c ∈ (s.kind n).children) : n < s.nodes.size := by
  by_contra hge
  rw [kind_of_absent (Nat.not_lt.mp hge)] at h
  exact absurd h List.not_mem_nil

/-- The pairs of nodes that may still be assumed. -/
def pairs (s : Store) : Finset (NodeId × NodeId) :=
  Finset.range s.nodes.size ×ˢ Finset.range s.nodes.size

theorem compareStep_uses (depth : Nat) (q : Question) :
    Uses (fun z => left s.pairs z.2.2 < left s.pairs q.2.2) (s.compareWithin depth)
      (fun g => s.compareStep g q) := by
  obtain ⟨a, b, seen⟩ := q
  simp only [compareStep]
  split_ifs with _ _ _ hseen
  · exact uses_const _
  · exact uses_const _
  · exact uses_const _
  · exact uses_const _
  -- each call is for a pair below, with the pair that is compared among those assumed
  have hforms : Consults (fun c d => c ∈ (s.kind a).children ∧ d ∈ (s.kind b).children)
      (s.compareWithin depth) (fun g => Kind.agree (answering g) (s.kind a) (s.kind b)) :=
    Kind.consults_agree fun _ hc _ hd => consults_node (compareWithin_adds depth) ⟨hc, hd⟩
  refine (hforms.uses ((a, b) :: seen)).imp fun z hz => left_lt ?_ hseen hz.2
  rw [pairs, Finset.mem_product, Finset.mem_range, Finset.mem_range]
  exact ⟨lt_of_child hz.1.1, lt_of_child hz.1.2⟩

/-- **Comparing nodes ends.** -/
theorem compare_ends (q : Question) :
    Evaluates s.compareStep q (s.compareWithin s.compareDepth q) := by
  refine evaluates_of_bound (fun q => left s.pairs q.2.2) (fun _ _ => rfl) compareStep_uses ?_
  have hcard : s.pairs.card = s.nodes.size * s.nodes.size := by
    rw [pairs, Finset.card_product, Finset.card_range]
  exact Nat.lt_succ_of_le (hcard ▸ left_le_card)

/-! ### Walks along paths -/

section

variable {γ : Type}

/-- A walk that stops where a node is below itself, with calls for nodes that a node mentions. -/
def pathStep (again : NodeId → γ) (form : (NodeId → γ) → NodeId → γ)
    (walk : List NodeId × NodeId → γ) : List NodeId × NodeId → γ
  | (path, n) => if n ∈ path then again n else form (fun c => walk (n :: path, c)) n

theorem lt_of_mentioned {c : NodeId} (h : c ∈ s.mentions n) : n < s.nodes.size := by
  by_contra hge
  rw [mentions, kind_of_absent (Nat.not_lt.mp hge)] at h
  exact absurd h List.not_mem_nil

/-- **A walk along paths ends,** if what it makes of a form depends on the nodes mentioned. -/
theorem path_ends (again : NodeId → γ) (form : (NodeId → γ) → NodeId → γ)
    (cut : Nat → List NodeId → NodeId → γ)
    (hform : ∀ sub sub' n, (∀ c ∈ s.mentions n, sub c = sub' c) → form sub n = form sub' n)
    (hcut : ∀ depth path n, cut (depth + 1) path n =
      pathStep again form (fun z => cut depth z.1 z.2) (path, n)) (path : List NodeId)
    (n : NodeId) : Evaluates (pathStep again form) (path, n) (cut (s.nodes.size + 1) path n) := by
  let walk : Nat → List NodeId × NodeId → γ := fun depth z => cut depth z.1 z.2
  let bound : List NodeId × NodeId → Nat := fun z => left (Finset.range s.nodes.size) z.1
  have hbound : bound (path, n) < s.nodes.size + 1 :=
    Nat.lt_succ_of_le (left_le_card.trans_eq (Finset.card_range _))
  have hwalk : ∀ depth z, walk (depth + 1) z = pathStep again form (walk depth) z :=
    fun depth z => hcut depth z.1 z.2
  refine evaluates_of_bound bound hwalk ?_ hbound
  rintro depth ⟨path, n⟩
  simp only [pathStep]
  split_ifs with hpath
  · exact uses_const _
  refine ⟨(s.mentions n).map fun c => (n :: path, c), fun z hz => ?_, fun g hg => ?_⟩
  · obtain ⟨c, hc, rfl⟩ := List.mem_map.mp hz
    exact left_lt (Finset.mem_range.mpr (lt_of_mentioned hc)) hpath (List.Subset.refl _)
  · exact hform _ _ n fun c hc => hg _ (List.mem_map_of_mem hc)

end

/-! ### Rendering nodes -/

/-- Renders a node, with calls for the nodes that it mentions. -/
def renderStep (s : Store) : (List NodeId × NodeId → String) → List NodeId × NodeId → String :=
  pathStep (fun _ => "#rec") fun sub n => s.renderKindWith sub (s.kind n)

theorem renderSlotWith_congr {sub sub' : NodeId → String}
    (h : ∀ c ∈ (s.resolve slot).children, sub c = sub' c) :
    s.renderSlotWith sub slot = s.renderSlotWith sub' slot := by
  rw [renderSlotWith, renderSlotWith]
  cases hslot : s.resolve slot with
  | possibilities p =>
    rw [hslot] at h
    simp only [Possibilities.render]
    rw [List.map_congr_left fun c hc => Candidate.render_congr fun x hx =>
      h x (List.mem_flatMap_of_mem hc hx)]
  | _ => rfl

theorem renderKindWith_congr (hs : s.Chained) {sub sub' : NodeId → String}
    (h : ∀ c ∈ s.mentions n, sub c = sub' c) :
    s.renderKindWith sub (s.kind n) = s.renderKindWith sub' (s.kind n) := by
  have hchild : ∀ c ∈ (s.kind n).children, sub c = sub' c := fun c hc =>
    h c (mem_mentions_of_child hc)
  have hslot : ∀ slot, (s.kind n).slot? = some slot →
      ∀ c ∈ (s.resolve slot).children, sub c = sub' c := fun slot hslot c hc =>
    h c (mem_mentions_of_slot hslot hc)
  cases hk : s.kind n <;> rw [hk] at hchild hslot
  case scalar value ty =>
    have hvalue := hslot value rfl
    rw [← hs.resolve_resolve] at hvalue
    simp only [renderKindWith]
    split
    · rfl
    · rw [renderSlotWith_congr hvalue]
  case function options =>
    rw [renderKindWith, renderKindWith, renderSlotWith_congr (hslot options rfl)]
  case tuple items =>
    rw [renderKindWith, renderKindWith, List.map_congr_left (l := items) hchild]
  case union members =>
    rw [renderKindWith, renderKindWith, List.map_congr_left (l := members) hchild]
  case list item => rw [renderKindWith, renderKindWith, hchild item List.mem_cons_self]
  case array item shape => rw [renderKindWith, renderKindWith, hchild item List.mem_cons_self]
  case jtagged inner => rw [renderKindWith, renderKindWith, hchild inner List.mem_cons_self]
  case record tag fields =>
    refine congrArg (fun texts => "*" ++ tag ++ "(" ++ ", ".intercalate texts ++ ")") ?_
    exact List.map_congr_left fun f hf =>
      congrArg (f.1 ++ "=" ++ ·) (hchild f.2 (List.mem_map_of_mem hf))
  case tagged options =>
    refine congrArg (fun texts => "TU(" ++ ", ".intercalate texts ++ ")") ?_
    exact List.map_congr_left fun o ho =>
      congrArg (s!"{o.1.toNat}: " ++ ·) (hchild o.2 (List.mem_map_of_mem ho))
  case error reason => rfl
  case type ty => rfl

/-- **Rendering a node ends.** -/
theorem render_ends (hs : s.Chained) (path : List NodeId) (n : NodeId) :
    Evaluates s.renderStep (path, n) (s.renderBelow (s.nodes.size + 1) path n) :=
  path_ends _ (fun sub n => s.renderKindWith sub (s.kind n)) s.renderBelow
    (fun _ _ _ h => renderKindWith_congr hs h) (fun _ _ _ => rfl) path n

/-! ### Reading values and types -/

/-- Reads the value off a node, with calls for the nodes below it. -/
def valueStep (s : Store) :
    (List NodeId × NodeId → Reading Constant) → List NodeId × NodeId → Reading Constant :=
  pathStep (fun n => indeterminate n .containsItself) fun sub n => s.valueOfKind sub n (s.kind n)

theorem valueOfKind_congr {sub sub' : NodeId → Reading Constant}
    (h : ∀ c ∈ s.mentions n, sub c = sub' c) :
    s.valueOfKind sub n (s.kind n) = s.valueOfKind sub' n (s.kind n) := by
  have hchild : ∀ c ∈ (s.kind n).children, sub c = sub' c := fun c hc =>
    h c (mem_mentions_of_child hc)
  cases hk : s.kind n <;> rw [hk] at hchild
  case tuple items => rw [valueOfKind, valueOfKind, mapM_congr (l := items) hchild]
  case record tag fields =>
    refine congrArg (· >>= fun fields => pure (Constant.record tag fields)) ?_
    exact mapM_congr fun f hf =>
      congrArg (· >>= fun c => pure (f.1, c)) (hchild f.2 (List.mem_map_of_mem hf))
  all_goals rfl

/-- **Reading the value off a node ends.** -/
theorem value_ends (path : List NodeId) (n : NodeId) :
    Evaluates s.valueStep (path, n) (s.valueBelow (s.nodes.size + 1) path n) :=
  path_ends _ (fun sub n => s.valueOfKind sub n (s.kind n)) s.valueBelow
    (fun _ _ _ h => valueOfKind_congr h) (fun _ _ _ => rfl) path n

/-- Reads the type off a node, with calls for the nodes that it mentions. -/
def typeStep (s : Store) :
    (List NodeId × NodeId → Reading Ty) → List NodeId × NodeId → Reading Ty :=
  pathStep (fun n => indeterminate n .recursiveType) fun sub n => s.typeOfKind sub n (s.kind n)

section

variable {sub sub' : NodeId → Reading Ty}

theorem typeOfRef_congr {r : FunctionRef} (h : ∀ c ∈ r.children, sub c = sub' c) :
    typeOfRef sub n r = typeOfRef sub' n r := by
  induction r with
  | primitive p => rfl
  | typed p args output =>
    obtain ⟨hargs, houtput⟩ := List.forall_mem_append.mp h
    rw [typeOfRef, typeOfRef, mapM_congr hargs, houtput output List.mem_cons_self]
  | partialApp func args ih =>
    rw [typeOfRef, typeOfRef, ih (List.forall_mem_append.mp h).1]
  | virtual args output =>
    obtain ⟨hargs, houtput⟩ := List.forall_mem_append.mp h
    rw [typeOfRef, typeOfRef, mapM_congr hargs, houtput output List.mem_cons_self]
  | graph name => rfl

theorem typeOfCandidates_congr {cs : List Candidate}
    (h : ∀ c ∈ cs.flatMap Candidate.children, sub c = sub' c) :
    ∀ found, s.typeOfCandidates sub n found cs = s.typeOfCandidates sub' n found cs := by
  induction cs with
  | nil => intro found; cases found <;> rfl
  | cons c cs ih =>
    rw [List.flatMap_cons] at h
    obtain ⟨hfirst, hrest⟩ := List.forall_mem_append.mp h
    intro found
    cases c with
    | constant x => cases found <;> rfl
    | function r =>
      simp only [typeOfCandidates, typeOfRef_congr (n := n) (r := r) hfirst, ih hrest]

theorem typeOfKind_congr (h : ∀ c ∈ s.mentions n, sub c = sub' c) :
    s.typeOfKind sub n (s.kind n) = s.typeOfKind sub' n (s.kind n) := by
  have hchild : ∀ c ∈ (s.kind n).children, sub c = sub' c := fun c hc =>
    h c (mem_mentions_of_child hc)
  have hslot : ∀ slot, (s.kind n).slot? = some slot →
      ∀ c ∈ (s.resolve slot).children, sub c = sub' c := fun slot hslot c hc =>
    h c (mem_mentions_of_slot hslot hc)
  cases hk : s.kind n <;> rw [hk] at hchild hslot
  case tuple items => rw [typeOfKind, typeOfKind, mapM_congr (l := items) hchild]
  case union members => rw [typeOfKind, typeOfKind, mapM_congr (l := members) hchild]
  case list item => rw [typeOfKind, typeOfKind, hchild item List.mem_cons_self]
  case array item shape => rw [typeOfKind, typeOfKind, hchild item List.mem_cons_self]
  case jtagged inner => rw [typeOfKind, typeOfKind, hchild inner List.mem_cons_self]
  case tagged options =>
    refine congrArg (· >>= unionType) ?_
    exact mapM_congr fun o ho => hchild o.2 (List.mem_map_of_mem ho)
  case function options =>
    have hoptions := hslot options rfl
    rw [typeOfKind, typeOfKind]
    cases hresolved : s.resolve options with
    | possibilities p =>
      rw [hresolved] at hoptions
      exact typeOfCandidates_congr hoptions none
    | _ => rfl
  all_goals rfl

end

/-- **Reading the type off a node ends.** -/
theorem type_ends (path : List NodeId) (n : NodeId) :
    Evaluates s.typeStep (path, n) (s.typeBelow (s.nodes.size + 1) path n) :=
  path_ends _ (fun sub n => s.typeOfKind sub n (s.kind n)) s.typeBelow
    (fun _ _ _ h => typeOfKind_congr h) (fun _ _ _ => rfl) path n

/-! ### All walks -/

/-- **Walks over values that contain themselves end.**  In every store whose resolved pendings form
finite chains, whatever cycles there are through members, fields and candidates and whatever has no
form yet: following a slot, comparing two nodes after any pairs were assumed, and rendering a node
and reading its value and its type inside of any path end, each with one answer, which is that of
the bounded recursion. -/
theorem walks_end (hs : s.Chained) :
    (∀ slot v, Evaluates s.followStep slot v ↔ v = s.resolve slot) ∧
    (∀ a b seen outcome, Evaluates s.compareStep (a, b, seen) outcome ↔
      outcome = s.agree s.compareDepth a b seen) ∧
    (∀ path n text, Evaluates s.renderStep (path, n) text ↔
      text = s.renderBelow (s.nodes.size + 1) path n) ∧
    (∀ path n r, Evaluates s.valueStep (path, n) r ↔
      r = s.valueBelow (s.nodes.size + 1) path n) ∧
    ∀ path n r, Evaluates s.typeStep (path, n) r ↔
      r = s.typeBelow (s.nodes.size + 1) path n := by
  have hone : ∀ {X Y : Type} {step : (X → Y) → X → Y} {x : X} {y : Y}, Evaluates step x y →
      ∀ y', Evaluates step x y' ↔ y' = y :=
    fun h y' => ⟨fun h' => h'.unique h, fun heq => heq ▸ h⟩
  exact ⟨fun slot => hone (hs.follow_ends slot).2, fun a b seen => hone (compare_ends (a, b, seen)),
    fun path n => hone (render_ends hs path n), fun path n => hone (value_ends path n),
    fun path n => hone (type_ends path n)⟩

/-- A list of a function whose options are a pending.  The pending comes to two candidates, and both
mention the list; one of them takes a placeholder for its argument.  And two lists of each other. -/
def loopsBack : List Change :=
  [.placeholder, .openLoop {}, .openPending 0 none .unranked, .build (.function (.pending 0)),
    .complete 0 (.list 1), .placeholder,
    .setResult 0 (.possibilities ⟨0, [.function (.virtual [0] 1), .function (.virtual [2] 0)]⟩),
    .placeholder, .build (.list 3), .complete 3 (.list 4)]

theorem walks_end_loopsBack :
    let s := loopsBack.foldl Change.apply {}
    s.Chained ∧
      Evaluates s.followStep (.pending 0)
        (.possibilities ⟨0, [.function (.virtual [0] 1), .function (.virtual [2] 0)]⟩) ∧
      Evaluates s.compareStep (3, 4, []) (some [(4, 3), (3, 4)]) ∧
      Evaluates s.renderStep ([], 0)
        "L(Fn(Possibilities(\x7bVirtual((#rec) -> #rec), Virtual((E(INCOMPLETE)) -> #rec)\x7d)))" ∧
      Evaluates s.valueStep ([], 0) (indeterminate 0 .noValue) ∧
      Evaluates s.typeStep ([], 0) (indeterminate 0 .recursiveType) := by
  intro s
  have hchained : s.Chained := by
    refine ⟨fun p => ⟨p, fun q hq => ?_⟩⟩
    have hp : p < 1 := lt_of_result? hq
    obtain rfl : p = 0 := Nat.lt_one_iff.mp hp
    have hresult : s.result? 0 = some (.possibilities
        ⟨0, [.function (.virtual [0] 1), .function (.virtual [2] 0)]⟩) := by decide +kernel
    exact nomatch hresult.symm.trans hq
  obtain ⟨hfollow, hcompare, hrender, hvalue, htype⟩ := walks_end hchained
  exact ⟨hchained, (hfollow _ _).mpr (by decide +kernel),
    (hcompare 3 4 [] _).mpr (by decide +kernel), (hrender [] 0 _).mpr (by decide +kernel),
    (hvalue [] 0 _).mpr (by rfl), (htype [] 0 _).mpr (by rfl)⟩

end Store

end ValueInference
