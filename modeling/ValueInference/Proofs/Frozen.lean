/-
What is interned or numbered stays as it is.

A node is interned when it is built over interned nodes, and it is numbered when it gets its form
over numbered nodes.  A placeholder is neither, so whatever is completed later, with whatever refers
back to its users, is not below a node that is interned or numbered, and nodes keep their forms.

* **`Store.History.guarded`** — what is below such nodes, after any history;
* **`Store.Proceeds.keeps`** — nodes with forms stay as they are;
* **`Store.interned_frozen`** — all that is below an interned node is interned, there is no cycle
  below a numbered node, and nothing that happens later makes a difference to them.
-/
import ValueInference.Proofs.Continuing
import ValueInference.Proofs.Histories

namespace ValueInference

namespace Store

variable {s t u : Store} {a b n : NodeId} {es : List (Store × Change)}

/-! ### What is below -/

theorem Guarded.of_nodes (hs : s.Guarded) (h : t.nodes = s.nodes) : t.Guarded := by
  refine hs.of_reads (Nat.le_of_eq (congrArg Array.size h.symm)) ?_ ?_ ?_ ?_ <;> funext n
  · rw [kind, h, kind]
  · rw [digest, h, digest]
  · rw [isInterned, h, isInterned]
  · rw [isComplete, h, isComplete]

theorem History.guarded (h : History es s) : s.Guarded := by
  induction h with
  | start => exact guarded_start
  | change c _ ih => exact ih.change c
  | aside _ hnodes ih => exact ih.of_nodes hnodes

namespace Guarded

theorem isComplete_of_digest (hs : s.Guarded) (hn : (s.digest n).isSome) :
    s.isComplete n = true := by
  by_contra hblank
  rw [(hs.blank n (Bool.eq_false_iff.mpr hblank)).1] at hn
  exact nomatch hn

/-- All that is below a numbered node is numbered. -/
theorem digest_of_leads (hs : s.Guarded) (ha : (s.digest a).isSome) (hn : s.Leads a n) :
    (s.digest n).isSome := by
  induction hn with
  | refl => exact ha
  | tail _ hchild ih => exact hs.numbered _ ih _ hchild

/-- All that is below an interned node is interned. -/
theorem isInterned_of_leads (hs : s.Guarded) (ha : s.isInterned a = true) (hn : s.Leads a n) :
    s.isInterned n = true := by
  induction hn with
  | refl => exact ha
  | tail _ hchild ih => exact (hs.interned _ ih).2 _ hchild

end Guarded

/-! ### What stays -/

/-- Two interned nodes are equal only if they are the same. -/
theorem equal_interned (ha : s.isInterned a = true) (hb : s.isInterned b = true) :
    s.equal a b = decide (a = b) := by
  rw [Bool.eq_iff_iff, decide_eq_true_iff]
  exact ((agree_interned ha hb _) [] trivial).1

/-- **A node that has a form stays as it is forever.** -/
theorem Proceeds.keeps (h : s.Proceeds t) : s.Keeps t := by
  induction h with
  | refl => exact .refl s
  | @change t c _ ih => exact ih.trans (keeps_change t c)
  | aside _ hnodes ih => exact ih.trans (.of_nodes hnodes)

/-- **Interned values are closed and frozen.**  After any history, all that an interned node leads
to is interned and has a form, and no such node contains itself; all that a numbered node leads to
has a form and is on no cycle; and whatever happens later, an interned node stays interned, keeps
its form and its digest, and is equal to another interned node exactly if it is the same node. -/
theorem interned_frozen (h : History es s) :
    (∀ a, s.isInterned a = true → ¬ s.Below a a ∧
      ∀ n, s.Leads a n → s.isInterned n = true ∧ s.isComplete n = true) ∧
    (∀ a, (s.digest a).isSome → ∀ n, s.Leads a n → s.isComplete n = true ∧ ¬ s.Below n n) ∧
    (∀ t, s.Proceeds t → ∀ a, s.isInterned a = true →
      t.kind a = s.kind a ∧ t.digest a = s.digest a ∧ t.isInterned a = true ∧
      ∀ b, t.isInterned b = true →
        t.equal a b = decide (a = b) ∧ t.equal b a = decide (b = a) ∧
        (s.isInterned b = true → t.equal a b = s.equal a b ∧ t.equal b a = s.equal b a)) ∧
    ∀ {α : Type} (x : Infer α), s.Proceeds (x.run.run s).2 := by
  have hs : s.Guarded := h.guarded
  refine ⟨fun a ha => ⟨?_, fun n hn => ?_⟩, fun a ha n hn => ?_, fun t ht a ha => ?_, fun x => ?_⟩
  · exact (hs.founded a (hs.interned a ha).1).acyclic
  · have hinterned := hs.isInterned_of_leads ha hn
    exact ⟨hinterned, hs.isComplete_of_digest (hs.interned n hinterned).1⟩
  · have hdigest := hs.digest_of_leads ha hn
    exact ⟨hs.isComplete_of_digest hdigest, (hs.founded n hdigest).acyclic⟩
  · have hcomplete := hs.isComplete_of_digest (hs.interned a ha).1
    have hta : t.isInterned a = true := (ht.keeps.isInterned_eq hcomplete).trans ha
    refine ⟨ht.keeps.kind_eq hcomplete, ht.keeps.digest_eq hcomplete, hta, fun b hb => ?_⟩
    have hab := equal_interned hta hb
    have hba := equal_interned hb hta
    exact ⟨hab, hba, fun hsb => ⟨hab.trans (equal_interned ha hsb).symm,
      hba.trans (equal_interned hsb ha).symm⟩⟩
  · exact .of_evolves (x.run.evolves s)

/-- A function with a reference within a reference, over a list, and a placeholder that is completed
with a tuple of both.  A list of another placeholder is numbered by nothing. -/
def frozenFunction : List Change :=
  [.placeholder, .build (.type .nil), .build (.list 1),
    .build (.function (.possibilities
      ⟨0, [.function (.partialApp (.virtual [1] 2) [2])]⟩)),
    .build (.list 0), .placeholder, .complete 5 (.tuple [3, 2])]

/-- The other placeholder is completed with a tuple of its own list and of the function. -/
def closeCycle : List Change := [.complete 0 (.tuple [4, 3]), .build (.list 1)]

theorem Proceeds.changes (cs : List Change) :
    ∀ s : Store, s.Proceeds (cs.foldl Change.apply s) := by
  induction cs with
  | nil => exact fun s => .refl
  | cons c cs ih => exact fun s => (Proceeds.change c .refl).trans (ih (c.apply s))

/-- A cycle that is closed over the function leaves it as it was. -/
theorem interned_frozen_closeCycle :
    let s := frozenFunction.foldl Change.apply {}
    let t := closeCycle.foldl Change.apply s
    History (events {} frozenFunction) s ∧ s.Proceeds t ∧
      (t.Below 0 0 ∧ t.digest 0 = none ∧ 3 ∈ (t.kind 0).children) ∧
      (s.isInterned 3 = true ∧ ¬ s.Below 3 3 ∧
        s.Leads 3 1 ∧ s.isInterned 1 = true ∧ s.isComplete 1 = true) ∧
      ((s.digest 5).isSome ∧ s.isInterned 5 = false ∧
        s.Leads 5 3 ∧ s.isComplete 3 = true ∧ ¬ s.Below 3 3) ∧
      t.kind 3 = s.kind 3 ∧ t.digest 3 = s.digest 3 ∧ t.equal 3 2 = s.equal 3 2 := by
  intro s t
  have hhistory : History (events {} frozenFunction) s := History.start.changes frozenFunction
  have hproceeds : s.Proceeds t := .changes closeCycle s
  have hinterned : s.isInterned 3 = true := by decide +kernel
  have hnumber : (s.digest 5).isSome := by decide +kernel
  have hnested : s.Leads 3 1 := leads_child (by decide +kernel)
  have hitem : s.Leads 5 3 := leads_child (by decide +kernel)
  have hcycle : t.Below 0 0 := .head (b := 4) (by decide +kernel) (.single (by decide +kernel))
  obtain ⟨hclosed, hnumbered, hfrozen, -⟩ := interned_frozen hhistory
  obtain ⟨hacyclic, hbelow⟩ := hclosed 3 hinterned
  obtain ⟨hkind, hdigest, -, hequal⟩ := hfrozen t hproceeds 3 hinterned
  refine ⟨hhistory, hproceeds, ⟨hcycle, by decide +kernel, by decide +kernel⟩,
    ⟨hinterned, hacyclic, hnested, hbelow 1 hnested⟩,
    ⟨hnumber, by decide +kernel, hitem, hnumbered 5 hnumber 3 hitem⟩, hkind, hdigest, ?_⟩
  exact ((hequal 2 (by decide +kernel)).2.2 (by decide +kernel)).1

end Store

end ValueInference
