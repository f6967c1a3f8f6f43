/-
The recursion that remembers nothing, and journals of walks.

The recursion hands a node to the variant each time it is asked for it.  It takes the same number of
levels as a walk; where a value does not contain itself, there are enough of them.  A journal of a
walk tells which nodes were handed to the variant and what was answered for which node.

* **`Variant.recursion`**, **`Infer.recurse`** — the recursion;
* **`Store.Affords`** — enough levels for what is below a node;
* **`Store.Founded.affords`** — those of a walk are enough;
* **`Variant.journaled`** — a variant that keeps a journal;
* **`Rebuild.outcome_visit_of_done`**, **`Rebuild.outcome_visit_of_fresh`** — visits, from the work
  on the node.
-/
import ValueInference.Proofs.Broadened
import ValueInference.Proofs.Memos
import ValueInference.Proofs.Rerun
import ValueInference.Proofs.Steady

universe u

namespace ValueInference

/-! ### The recursion -/

namespace Variant

variable {σ : Type} {m : Type → Type u} [Host m]

/-- The ways to go on below a node, to a depth of at most `fuel`, where nothing is remembered. -/
def recursion (v : Variant (Rebuild σ m)) : Nat → Visitor (Rebuild σ m)
  | 0 => ⟨fun _ => throw .endless, fun _ => throw .endless, fun _ => throw .endless⟩
  | fuel + 1 =>
    ⟨fun n => Rebuild.byForm v (recursion v fuel) n, fun slot => v.slot (recursion v fuel) slot,
      fun f => v.ref (recursion v fuel) f⟩

end Variant

/-- Rebuilds a value with nothing remembered at all. -/
def Infer.recurse (v : Variant (Rebuild Unit Update)) (n : NodeId) : Infer NodeId :=
  ExceptT.mk do
    let depth := (← Update.store).walkDepth
    return (← (((v.recursion depth).visit n).run).run { own := () }).1

/-! ### Levels -/

namespace Store

variable {s t : Store} {n v : NodeId} {fuel fuel' : Nat}

/-- The levels are enough for a node and all that is below it. -/
inductive Affords (s : Store) : Nat → NodeId → Prop
  | intro (base : Nat) {fuel : Nat} {n : NodeId} : (∀ c ∈ (s.kind n).children, s.Affords base c) →
      base + s.cost n ≤ fuel → s.Affords fuel n

namespace Affords

theorem weaken (h : s.Affords fuel n) (hle : fuel ≤ fuel') : s.Affords fuel' n := by
  cases h with
  | intro base hbelow hcost => exact .intro base hbelow (hcost.trans hle)

/-- A value that levels are enough for does not contain itself. -/
theorem acyclic (h : s.Affords fuel n) : ¬ s.Below n n := by
  induction h with
  | @intro base fuel n _ _ ih =>
    intro hloop
    obtain ⟨c, hpath, hc⟩ := Relation.TransGen.tail'_iff.mp hloop
    exact ih c hc (Relation.TransGen.head' (b := n) hc hpath)

/-- Levels are enough in a store with the same forms below the node. -/
theorem of_same {P : NodeId → Prop} (h : s.Affords fuel n)
    (hP : ∀ m, P m → t.kind m = s.kind m ∧ ∀ c ∈ (s.kind m).children, P c) (hn : P n) :
    t.Affords fuel n := by
  induction h with
  | @intro base fuel n _ hcost ih =>
    obtain ⟨hkind, hbelow⟩ := hP n hn
    refine .intro base (fun c hc => ?_) ?_
    · rw [hkind] at hc
      exact ih c hc (hbelow c hc)
    · rw [cost] at hcost ⊢
      rw [hkind]
      exact hcost

end Affords

theorem Grows.affords_iff (h : s.Grows t) (hs : s.Sound) (hn : n < s.nodes.size) :
    t.Affords fuel n ↔ s.Affords fuel n := by
  refine ⟨fun ht => ht.of_same (P := (· < s.nodes.size)) (fun m hm => ?_) hn,
    fun hs' => hs'.of_same (P := (· < s.nodes.size)) (fun m hm => ?_) hn⟩
  · rw [h.kind_eq hm]
    exact ⟨rfl, fun c hc => hs.child_lt hc⟩
  · exact ⟨h.kind_eq hm, fun c hc => hs.child_lt hc⟩

/-- What a node leads to does not change. -/
theorem Grows.leads_iff {m : NodeId} (h : s.Grows t) (hs : s.Sound) (hn : n < s.nodes.size) :
    t.Leads n m ↔ s.Leads n m := by
  constructor
  · intro hm
    induction hm with
    | refl => exact .refl
    | tail _ hc ih =>
      rw [h.kind_eq (present_of_leads hs hn ih)] at hc
      exact ih.tail hc
  · intro hm
    induction hm with
    | refl => exact .refl
    | tail hfirst hc ih =>
      refine ih.tail ?_
      rwa [h.kind_eq (present_of_leads hs hn hfirst)]

/-- The levels for the nodes that a walk is not inside of are enough for a value that does not
contain itself. -/
theorem Founded.affords (hv : s.Founded v) : s.Affords (s.spare []) v := by
  suffices hlevels : ∀ levels stack n, s.spare stack = levels → s.Leads v n →
      (∀ m ∈ stack, s.Below n m) → s.Affords (s.spare stack) n from
    hlevels _ [] v rfl .refl nofun
  intro levels
  induction levels using Nat.strongRecOn with
  | ind levels ih =>
    intro stack n hlevels hn hstack
    have hfresh : n ∉ stack := fun hmem => (hv.leads hn).acyclic (hstack n hmem)
    have hspare := spare_cons (hv.leads hn).present hfresh
    have hcost : 0 < s.cost n := Nat.add_pos_left (Nat.succ_pos _) _
    refine .intro (s.spare (n :: stack)) (fun c hc => ?_) (by omega)
    refine ih _ (by omega) (n :: stack) c rfl (hn.tail hc) fun m hm => ?_
    rcases List.mem_cons.mp hm with rfl | hm
    · exact .single hc
    · exact .head hc (hstack m hm)

end Store

/-! ### Journals -/

/-- What a walk has done in the course of its visits. -/
structure Journal where
  /-- Nodes that were handed to the variant with success. -/
  dispatched : List NodeId := []
  /-- Nodes that were asked for below others, with the answers. -/
  answers : List (NodeId × NodeId) := []

namespace Journal

def dispatch (journal : Journal) (n : NodeId) : Journal :=
  { journal with dispatched := n :: journal.dispatched }

def answer (journal : Journal) (n out : NodeId) : Journal :=
  { journal with answers := (n, out) :: journal.answers }

end Journal

section

variable {α : Type} {m : Type → Type u} [Host m]

/-- Makes a note of the result of a computation. -/
def Rebuild.noting (note : Journal → α → Journal) (x : Rebuild Journal m α) :
    Rebuild Journal m α := do
  let a ← x
  modify fun w => { w with own := note w.own a }
  return a

/-- Makes a note of each answer. -/
def Visitor.noted (x : Visitor (Rebuild Journal m)) : Visitor (Rebuild Journal m) where
  visit n := Rebuild.noting (fun journal out => journal.answer n out) (x.visit n)
  slot := x.slot
  ref := x.ref

/-- A variant that keeps a journal, and is the same otherwise. -/
def Variant.journaled (v : Variant (Rebuild Journal m)) : Variant (Rebuild Journal m) where
  scalar x n value ty := Rebuild.noting (fun j _ => j.dispatch n) (v.scalar x.noted n value ty)
  tuple x n items := Rebuild.noting (fun j _ => j.dispatch n) (v.tuple x.noted n items)
  list x n item := Rebuild.noting (fun j _ => j.dispatch n) (v.list x.noted n item)
  array x n item shape := Rebuild.noting (fun j _ => j.dispatch n) (v.array x.noted n item shape)
  record x n tag fields := Rebuild.noting (fun j _ => j.dispatch n) (v.record x.noted n tag fields)
  union x n members := Rebuild.noting (fun j _ => j.dispatch n) (v.union x.noted n members)
  tagged x n options := Rebuild.noting (fun j _ => j.dispatch n) (v.tagged x.noted n options)
  function x n options := Rebuild.noting (fun j _ => j.dispatch n) (v.function x.noted n options)
  jtagged x n inner := Rebuild.noting (fun j _ => j.dispatch n) (v.jtagged x.noted n inner)
  error x n reason := Rebuild.noting (fun j _ => j.dispatch n) (v.error x.noted n reason)
  type x n ty := Rebuild.noting (fun j _ => j.dispatch n) (v.type x.noted n ty)
  slot x slot := v.slot x.noted slot
  ref x f := v.ref x.noted f

end

namespace Rebuild

variable {α : Type} {x : Rebuild Journal Update α} {note : Journal → α → Journal}
  {w w' : Walk Journal} {s s' : Store}

theorem outcome_noting_of_ok {a : α} (h : x.outcome w s = ((.ok a, w'), s')) :
    (noting note x).outcome w s = ((.ok a, { w' with own := note w'.own a }), s') :=
  outcome_bind_of_ok h

theorem outcome_noting_of_error {e : InferError} (h : x.outcome w s = ((.error e, w'), s')) :
    (noting note x).outcome w s = ((.error e, w'), s') :=
  outcome_bind_of_error h

section

variable {v : Variant (Rebuild Journal Update)} {inner : Visitor (Rebuild Journal Update)}
  {n out : NodeId}

/-- The work on a node, and then a note of it. -/
theorem outcome_byForm_journaled : (byForm v.journaled inner n).outcome w s =
    (noting (fun j _ => j.dispatch n) (byForm v inner.noted n)).outcome w s := by
  rw [noting, byForm, byForm, bind_assoc, outcome_bind_of_ok (w := w) (s := s) rfl,
    outcome_bind_of_ok (w := w) (s := s) rfl]
  cases s.kind n <;> rfl

end

end Rebuild

/-! ### Visits -/

/-- The memo after the work on a node for which no placeholder was handed out. -/
def Memo.conclude (memo : Memo) (n : NodeId) : Except InferError NodeId → Memo
  | .ok out => (memo.leave n).publish n out
  | .error _ => memo.leave n

namespace Rebuild

variable {σ : Type} {v : Variant (Rebuild σ Update)} {inner : Visitor (Rebuild σ Update)}
  {n out : NodeId} {w w' : Walk σ} {s s' : Store}

theorem outcome_get_bind {β : Type} (f : Walk σ → Rebuild σ Update β) :
    (get >>= f).outcome w s = (f w).outcome w s :=
  rfl

theorem outcome_modify_bind {β : Type} (g : Walk σ → Walk σ) (f : PUnit → Rebuild σ Update β) :
    (modify g >>= f).outcome w s = (f ⟨⟩).outcome (g w) s :=
  rfl

/-- A node with a result is not handed to the variant. -/
theorem outcome_visit_of_done (h : w.memo.done.lookup n = some out) :
    (visit v inner n).outcome w s = ((.ok out, w), s) := by
  have hknown : (known? n : Rebuild σ Update _).outcome w s = ((.ok (some out), w), s) := by
    rw [known?, outcome_get_bind]
    simp only [h]
    rfl
  rw [visit, outcome_bind_of_ok hknown]
  rfl

/-- **A node without a result** is handed to the variant, and its result is remembered. -/
theorem outcome_visit_of_fresh {r : Except InferError NodeId}
    (hdone : w.memo.done.lookup n = none) (hopen : w.memo.inProgress.lookup n = none)
    (hwork : (byForm v inner n).outcome { w with memo := w.memo.enter n } s = ((r, w'), s'))
    (hquiet : (w'.memo.inProgress.lookup n).join = none) :
    (visit v inner n).outcome w s = ((r, { w' with memo := w'.memo.conclude n r }), s') := by
  have hknown : (known? n : Rebuild σ Update _).outcome w s = ((.ok none, w), s) := by
    rw [known?, outcome_get_bind]
    simp only [hdone, hopen]
    rfl
  rw [visit, outcome_bind_of_ok hknown]
  dsimp only
  rw [outcome_modify_bind, outcome_bind_of_ok (outcome_lift hwork), conclude, outcome_get_bind,
    outcome_modify_bind, hquiet]
  cases r <;> rfl

end Rebuild

/-! ### The journal changes nothing -/

/-- A walk without its journal. -/
def Walk.bare (w : Walk Journal) : Walk Unit := ⟨w.memo, ()⟩

namespace Rebuild

variable {α β : Type} {x : Rebuild Unit Update α} {y : Rebuild Journal Update α}

/-- The first computation is the second one without the journal. -/
def Bare (x : Rebuild Unit Update α) (y : Rebuild Journal Update α) : Prop :=
  ∀ w s, x.outcome w.bare s = (((y.outcome w s).1.1, (y.outcome w s).1.2.bare), (y.outcome w s).2)

namespace Bare

theorem pure (a : α) : Bare (Pure.pure a) (Pure.pure a) := fun _ _ => rfl

theorem infer (z : Infer α) : Bare (Rebuild.infer z) (Rebuild.infer z) := fun _ _ => rfl

theorem settle (slot : Slot) : Bare (Rebuild.settle slot) (Rebuild.settle slot) := fun _ _ => rfl

/-- **A sequence** is bare if its parts are. -/
theorem bind {f : α → Rebuild Unit Update β} {g : α → Rebuild Journal Update β} (h : Bare x y)
    (hf : ∀ a, Bare (f a) (g a)) : Bare (x >>= f) (y >>= g) := by
  intro w s
  have hx := h w s
  rcases hy : y.outcome w s with ⟨⟨e | a, w'⟩, s'⟩
  · rw [hy] at hx
    rw [outcome_bind_of_error hx, outcome_bind_of_error hy]
  · rw [hy] at hx
    rw [outcome_bind_of_ok hx, outcome_bind_of_ok hy]
    exact hf a w' s'

theorem lift (h : Bare x y) : Bare (ExceptT.lift x.run) (ExceptT.lift y.run) := by
  intro w s
  rcases hy : y.outcome w s with ⟨⟨r, w'⟩, s'⟩
  have hx := h w s
  rw [hy] at hx
  rw [outcome_lift hx, outcome_lift hy]

theorem ite {p : Prop} [Decidable p] {x' : Rebuild Unit Update α} {y' : Rebuild Journal Update α}
    (h : Bare x y) (h' : Bare x' y') : Bare (if p then x else x') (if p then y else y') := by
  split
  · exact h
  · exact h'

theorem mapM {f : α → Rebuild Unit Update β} {g : α → Rebuild Journal Update β} {as : List α}
    (h : ∀ a, Bare (f a) (g a)) : Bare (as.mapM f) (as.mapM g) := by
  induction as with
  | nil => exact .pure []
  | cons a as ih =>
    rw [List.mapM_cons, List.mapM_cons]
    exact (h a).bind fun _ => ih.bind fun _ => .pure _

theorem noting (note : Journal → α → Journal) (h : Bare x y) : Bare x (noting note y) := by
  intro w s
  have hx := h w s
  rcases hy : y.outcome w s with ⟨⟨e | a, w'⟩, s'⟩
  · rw [hy] at hx
    rw [hx, outcome_noting_of_error hy]
  · rw [hy] at hx
    rw [hx, outcome_noting_of_ok hy]
    rfl

theorem get {f : Walk Unit → Rebuild Unit Update α} {g : Walk Journal → Rebuild Journal Update α}
    (h : ∀ w, Bare (f w.bare) (g w)) : Bare (MonadState.get >>= f) (MonadState.get >>= g) :=
  fun w s => h w w s

theorem modify (f : Memo → Memo) : Bare (modify fun w => { w with memo := f w.memo })
    (modify fun w => { w with memo := f w.memo }) :=
  fun _ _ => rfl

end Bare

/-- Going on below a node without a journal. -/
structure BareBelow (x : Visitor (Rebuild Unit Update)) (y : Visitor (Rebuild Journal Update)) :
    Prop where
  visit : ∀ n, Bare (x.visit n) (y.visit n)
  slot : ∀ v, Bare (x.slot v) (y.slot v)
  ref : ∀ f, Bare (x.ref f) (y.ref f)

section

variable {nodes : List NodeId} {slots : List Slot} {refs : List FunctionRef}
  {x : Visitor (Rebuild Unit Update)} {y : Visitor (Rebuild Journal Update)}

theorem BareBelow.noted (h : BareBelow x y) : BareBelow x y.noted where
  visit n := Bare.noting (fun journal out => journal.answer n out) (h.visit n)
  slot := h.slot
  ref := h.ref

variable (hxy : BareBelow x y)

include hxy

theorem bare_handler (h : Handler nodes slots refs α) : Bare (h.run x) (h.run y) := by
  induction h with
  | result z _ => exact .infer z
  | visit n _ _ ih => exact (hxy.visit n).lift.bind ih
  | slot v _ _ ih => exact (hxy.slot v).lift.bind ih
  | ref f _ _ ih => exact (hxy.ref f).lift.bind ih

theorem bare_fields {δ : Type} (fields : List (δ × NodeId)) :
    Bare (fields.mapM fun (label, field) => return (label, ← x.visit field))
      (fields.mapM fun (label, field) => return (label, ← y.visit field)) :=
  .mapM fun f => (hxy.visit f.2).bind fun _ => .pure _

theorem bare_slot (v : Slot) : Bare (Rebuild.slot x v) (Rebuild.slot y v) := by
  have hcandidate : ∀ c, Bare (visitCandidate x c) (visitCandidate y c) := by
    rintro (c | f)
    · exact .pure _
    · exact (hxy.ref f).bind fun _ => (Bare.infer _).bind fun _ => .pure _
  refine (Bare.settle v).bind fun v' => ?_
  cases v' with
  | possibilities p =>
    exact (Bare.mapM hcandidate).bind fun _ => .ite ((Bare.infer _).bind fun _ => .pure _) (.pure _)
  | _ => exact .pure _

theorem bare_ref (f : FunctionRef) : Bare (Rebuild.ref x f) (Rebuild.ref y f) := by
  cases f with
  | typed p args output =>
    exact (Bare.mapM hxy.visit).bind fun _ => (hxy.visit output).bind fun _ => .pure _
  | partialApp func args =>
    exact (hxy.ref func).bind fun _ => (Bare.mapM hxy.visit).bind fun _ => .pure _
  | virtual args output =>
    exact (Bare.mapM hxy.visit).bind fun _ => (hxy.visit output).bind fun _ => .pure _
  | _ => exact .pure _

variable {h : Handlers}

/-- The work on a node. -/
theorem bare_byForm (n : NodeId) : Bare (byForm h.variant x n) (byForm h.variant y n) := by
  have hgiven : ∀ {k : Kind} {d : Rebuild Unit Update NodeId} {d' : Rebuild Journal Update NodeId},
      Bare d d' → Bare (h.given k x n d) (h.given k y n d') := by
    intro k d d' hd
    rw [Handlers.given, Handlers.given]
    split
    · exact bare_handler hxy _
    · exact hd
  have hrebuilt : ∀ {α : Type} [DecidableEq α] {old : α} {E : α → Infer NodeId}
      {z : Rebuild Unit Update α} {z' : Rebuild Journal Update α}, Bare z z' →
        Bare (z >>= fun new => if new = old then return n else infer (E new))
          (z' >>= fun new => if new = old then return n else infer (E new)) :=
    fun hz => hz.bind fun _ => .ite (.pure _) (.infer _)
  refine (Bare.infer _).bind fun s => ?_
  cases s.kind n with
  | scalar value ty => exact hgiven (hrebuilt (hxy.slot value))
  | tuple items => exact hgiven (hrebuilt (.mapM hxy.visit))
  | list item => exact hgiven (hrebuilt (hxy.visit item))
  | array item shape => exact hgiven (hrebuilt (hxy.visit item))
  | record tag fields => exact hgiven (hrebuilt (bare_fields hxy fields))
  | union members => exact hgiven (hrebuilt (.mapM hxy.visit))
  | tagged options => exact hgiven (hrebuilt (bare_fields hxy options))
  | function options => exact hgiven (hrebuilt (hxy.slot options))
  | jtagged inner => exact hgiven (hrebuilt (hxy.visit inner))
  | error reason => exact hgiven (.pure n)
  | type ty => exact hgiven (.pure n)

end

section

variable {h : Handlers} {x : Visitor (Rebuild Unit Update)} {y : Visitor (Rebuild Journal Update)}

theorem bare_visit (hxy : BareBelow x y) (n : NodeId) :
    Bare (visit h.variant x n) (visit h.variant.journaled y n) := by
  have hknown : Bare (known? n) (known? n) := by
    refine .get ?_
    rintro ⟨memo, journal⟩
    simp only [Walk.bare]
    cases memo.done.lookup n with
    | some out => exact .pure _
    | none =>
      rcases memo.inProgress.lookup n with _ | _ | ph
      · exact .pure _
      · exact (Bare.infer _).bind fun ph => (Bare.modify fun memo => memo.expect n ph).bind fun _ =>
          .pure _
      · exact .pure _
  have hsettle : ∀ ph out, Bare (settlePlaceholder n ph out) (settlePlaceholder n ph out) := by
    rintro (_ | ph) out
    · exact .pure _
    · refine .ite (.pure _) ((Bare.infer _).bind fun _ => (Bare.infer _).bind fun _ => ?_)
      exact .ite (.pure _) (.pure _)
  have hconclude : ∀ r, Bare (conclude n r) (conclude n r) := by
    refine fun r => .get fun w => (Bare.modify fun memo => memo.leave n).bind fun _ => ?_
    refine Bare.bind (fun _ _ => rfl) fun out => (hsettle _ out).bind fun out => ?_
    exact (Bare.modify fun memo => memo.publish n out).bind fun _ => .pure _
  have hwork : Bare (byForm h.variant x n) (byForm h.variant.journaled y n) := by
    intro w s
    rw [outcome_byForm_journaled]
    exact (bare_byForm hxy.noted n).noting _ w s
  refine hknown.bind fun r => ?_
  cases r with
  | some out => exact .pure out
  | none => exact (Bare.modify fun memo => memo.enter n).bind fun _ => hwork.lift.bind hconclude

/-- **A walk that keeps a journal** does what it does without one. -/
theorem bare_visitor (h : Handlers) : ∀ fuel : Nat,
    BareBelow (h.variant.visitor fuel) (h.variant.journaled.visitor fuel) := by
  intro fuel
  induction fuel with
  | zero => exact ⟨fun _ _ _ => rfl, fun _ _ _ => rfl, fun _ _ _ => rfl⟩
  | succ fuel ih =>
    refine ⟨fun n => bare_visit ih n, fun v => ?_, fun f => ?_⟩
    · show Bare (h.variant.slot _ v) (h.variant.slot _ v)
      simp only [Handlers.variant]
      split
      · exact bare_handler ih.noted _
      · exact bare_slot ih.noted v
    · show Bare (h.variant.ref _ f) (h.variant.ref _ f)
      simp only [Handlers.variant]
      split
      · exact bare_handler ih.noted _
      · exact bare_ref ih.noted f

end

end Rebuild

end ValueInference
