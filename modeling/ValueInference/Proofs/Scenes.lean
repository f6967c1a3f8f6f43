/-
What holds in the middle of a walk without changes.

A walk over a store `s` gives nodes that *mirror* those of `s`: a node itself, or a copy whose form
is alike to the node's, with mirrors below, or the placeholder of a node that the walk is inside
of.  All mirrors that were ever handed out are kept in a relation beside the memo and the store.

* **`Scene`** — a memo and a store, with the mirrors handed out so far;
* **`Store.Going`** — the invariant of a walk;
* **`Store.Mirroring.equals`** — a mirror equals its node where the walk is not inside of anything
  that the node leads to;
* **`Store.Going.leads_out`** — what is finished leads to the rest only through nodes that have
  placeholders;
* **`Store.Going.of_grows`**, **`Store.Going.enter`**, **`Store.Going.expect`**,
  **`Store.Going.finish`** — steps of a walk keep the invariant.
-/
import ValueInference.Proofs.Formed
import ValueInference.Proofs.Growth
import ValueInference.Proofs.Memos
import ValueInference.Proofs.Steady

namespace ValueInference

/-- A memo and a store, with the mirrors that were handed out. -/
structure Scene where
  mirrors : NodeId → NodeId → Prop
  memo : Memo
  store : Store

namespace Store

variable {s t : Store} {v x y m n : NodeId} {stack : List NodeId} {σ τ υ : Scene}

/-- How a node mirrors a node of `s`: it is the same; or the second one is on a cycle, and the
first one is a copy, or the placeholder that stands for it. -/
def Mirrors (s : Store) (σ : Scene) (x y : NodeId) : Prop :=
  x = y ∨ s.Below y y ∧ x < σ.store.nodes.size ∧
    (σ.store.isComplete x = true ∧ (σ.store.kind x).Alike σ.mirrors (s.kind y) ∨
      σ.store.isComplete x = false ∧ σ.memo.inProgress.lookup y = some (some x))

/-- A result of a walk: a mirror, and the node itself unless it leads back into the walk or no
exposed node mentions it. -/
def Follows (s : Store) (v : NodeId) (stack : List NodeId) (σ : Scene) (out n : NodeId) : Prop :=
  σ.mirrors out n ∧ (out = n ∨ (∃ m ∈ stack, s.Leads n m) ∨ ¬ s.Entered v n)

/-- A node that is handed out for a node on a cycle before the work on that one ends. -/
structure StandsFor (s : Store) (σ : Scene) (ph n : NodeId) : Prop where
  mirrors : σ.mirrors ph n
  cycle : s.Below n n
  new : s.nodes.size ≤ ph
  present : ph < σ.store.nodes.size
  blank : σ.store.isComplete ph = false

/-- A store that has grown out of `s`, with mirrors of the nodes of `s` while a walk is inside of
the nodes on the stack. -/
structure Mirroring (s : Store) (stack : List NodeId) (σ : Scene) : Prop where
  reachable : σ.store.Reachable
  grows : s.Grows σ.store
  inside : σ.memo.inside = stack
  same : ∀ n, σ.mirrors n n
  mirrored : ∀ x y, σ.mirrors x y → s.Mirrors σ x y

/-- The invariant of a walk over `s` from `v` that is inside of the nodes on the stack. -/
structure Going (s : Store) (v : NodeId) (stack : List NodeId) (σ : Scene) : Prop
    extends s.Mirroring stack σ where
  unfinished : ∀ n ∈ stack, σ.memo.done.lookup n = none
  results : ∀ n out, σ.memo.done.lookup n = some out → s.Follows v stack σ out n
  closed : ∀ n out, σ.memo.done.lookup n = some out → ∀ c ∈ (s.kind n).children, σ.memo.Met c
  expected : ∀ n ph, σ.memo.inProgress.lookup n = some (some ph) → s.StandsFor σ ph n
  distinct : ∀ m n ph, σ.memo.inProgress.lookup m = some (some ph) →
    σ.memo.inProgress.lookup n = some (some ph) → m = n

/-- One scene of a walk comes later than another one, and what was finished in between is what
`n` leads to. -/
structure Later (s : Store) (n : NodeId) (σ τ : Scene) : Prop where
  more : ∀ x y, σ.mirrors x y → τ.mirrors x y
  kept : ∀ m out, σ.memo.done.lookup m = some out → τ.memo.done.lookup m = some out
  expected : ∀ m ph, σ.memo.inProgress.lookup m = some (some ph) →
    τ.memo.inProgress.lookup m = some (some ph)
  finished : ∀ m out, τ.memo.done.lookup m = some out →
    σ.memo.done.lookup m = some out ∨ s.Leads n m

namespace Later

theorem refl (s : Store) (n : NodeId) (σ : Scene) : s.Later n σ σ :=
  ⟨fun _ _ => id, fun _ _ => id, fun _ _ => id, fun _ _ => .inl⟩

theorem trans (h : s.Later n σ τ) (h' : s.Later n τ υ) : s.Later n σ υ where
  more x y hxy := h'.more x y (h.more x y hxy)
  kept m out hm := h'.kept m out (h.kept m out hm)
  expected m ph hm := h'.expected m ph (h.expected m ph hm)
  finished m out hm := (h'.finished m out hm).elim (h.finished m out) .inr

instance : Std.Refl (s.Later n) := ⟨refl s n⟩

instance : IsTrans Scene (s.Later n) := ⟨fun _ _ _ => trans⟩

theorem of_leads (h : s.Later m σ τ) (hnm : s.Leads n m) : s.Later n σ τ where
  more := h.more
  kept := h.kept
  expected := h.expected
  finished x out hx := (h.finished x out hx).imp id hnm.trans

theorem met (h : s.Later n σ τ) (hm : σ.memo.Met m) : τ.memo.Met m :=
  hm.imp (fun ⟨out, hout⟩ => ⟨out, h.kept m out hout⟩) fun ⟨ph, hph⟩ => ⟨ph, h.expected m ph hph⟩

theorem follows {out : NodeId} (h : s.Later n σ τ) (hm : s.Follows v stack σ out m) :
    s.Follows v stack τ out m :=
  ⟨h.more out m hm.1, hm.2⟩

end Later

/-! ### Mirrors -/

theorem present_of_cycle (hs : s.Sound) (h : s.Below n n) : n < s.nodes.size := by
  obtain ⟨c, hc, -⟩ := Relation.TransGen.head'_iff.mp h
  exact hs.child_lt hc

/-- Neither digests nor instances tell anything from a node on a cycle. -/
theorem mayEqual_of_cycle (hs : s.Reachable) (hgrows : s.Grows t) (ht : t.Sound)
    (h : s.Below y y) (x : NodeId) : t.MayEqual x y := by
  have hnone : t.digest y = none := by
    rw [hgrows.digest_eq (present_of_cycle hs.sound h)]
    by_contra hsome
    exact not_founded_of_cycle h
      (hs.founded_of_digest y (Option.isSome_iff_ne_none.mpr hsome))
  refine ⟨fun d e _ he => ?_, fun hi => ?_⟩
  · rw [hnone] at he
    exact absurd he (by simp)
  · have hsome := (ht.interned y hi.2).1
    rw [hnone] at hsome
    exact absurd hsome (by simp)

theorem Mirrors.of_founded (h : s.Mirrors σ x y) (hy : s.Founded y) : x = y :=
  h.elim id fun hcopy => absurd hy (not_founded_of_cycle hcopy.1)

/-- Mirrors stay what they are in a store in which no form is lost. -/
theorem Mirrors.keep {M : NodeId → NodeId → Prop} {memo : Memo} (h : s.Mirrors σ x y)
    (hM : ∀ x y, σ.mirrors x y → M x y) (hsize : σ.store.nodes.size ≤ t.nodes.size)
    (hkeep : σ.store.isComplete x = true → t.isComplete x = true ∧ t.kind x = σ.store.kind x)
    (hopen : s.Below y y → x < t.nodes.size → σ.store.isComplete x = false →
      σ.memo.inProgress.lookup y = some (some x) → s.Mirrors ⟨M, memo, t⟩ x y) :
    s.Mirrors ⟨M, memo, t⟩ x y := by
  rcases h with rfl | ⟨hcycle, hx, ⟨hcomplete, halike⟩ | ⟨hblank, hlookup⟩⟩
  · exact .inl rfl
  · obtain ⟨hcomplete', hkind⟩ := hkeep hcomplete
    refine .inr ⟨hcycle, Nat.lt_of_lt_of_le hx hsize, .inl ⟨hcomplete', ?_⟩⟩
    show (t.kind x).Alike M (s.kind y)
    rw [hkind]
    exact halike.imp fun a _ b _ => hM a b
  · exact hopen hcycle (Nat.lt_of_lt_of_le hx hsize) hblank hlookup

namespace Mirroring

/-- The pairs of which nothing leads back into the walk are a bisimulation. -/
theorem bisimulation (h : s.Mirroring stack σ) (hs : s.Reachable) :
    σ.store.Bisimulation fun x y => σ.mirrors x y ∧ ∀ m ∈ stack, ¬ s.Leads y m := by
  rintro x y ⟨hxy, hfree⟩
  rcases h.mirrored x y hxy with rfl | ⟨hcycle, -, ⟨-, halike⟩ | ⟨-, hopen⟩⟩
  · exact .inl rfl
  · have hy := present_of_cycle hs.sound hcycle
    refine .inr ⟨mayEqual_of_cycle hs h.grows h.reachable.sound hcycle x, ?_⟩
    rw [h.grows.kind_eq hy]
    exact halike.imp fun a _ b hb hab =>
      ⟨hab, fun m hm hbm => hfree m hm ((leads_child hb).trans hbm)⟩
  · have hmem : y ∈ stack := h.inside ▸ mem_keys_of_lookup hopen
    exact absurd .refl (hfree y hmem)

/-- **A mirror equals its node** where the node does not lead back into the walk. -/
theorem equals (h : s.Mirroring stack σ) (hs : s.Reachable) (hxy : σ.mirrors x y)
    (hfree : ∀ m ∈ stack, ¬ s.Leads y m) : σ.store.Equals x y := by
  rcases h.mirrored x y hxy with rfl | ⟨hcycle, hx, -⟩
  · exact equals_refl _ _
  · have hy := Nat.lt_of_lt_of_le (present_of_cycle hs.sound hcycle) h.grows.size_le
    exact equal_of_bisimulation h.reachable.sound (h.bisimulation hs) hx hy ⟨hxy, hfree⟩

end Mirroring

/-- **What is met leads to the rest only through placeholders.** -/
theorem Going.leads_out (h : s.Going v stack σ) (hm : σ.memo.Met m) (hmn : s.Leads m n)
    (hn : σ.memo.done.lookup n = none) :
    ∃ z ph, σ.memo.inProgress.lookup z = some (some ph) ∧ s.Leads m z := by
  induction hmn using Relation.ReflTransGen.head_induction_on with
  | refl =>
    rcases hm with ⟨out, hout⟩ | ⟨ph, hph⟩
    · rw [hn] at hout
      exact absurd hout (by simp)
    · exact ⟨n, ph, hph, .refl⟩
  | @head m c hc _ ih =>
    rcases hm with ⟨out, hout⟩ | ⟨ph, hph⟩
    · obtain ⟨z, ph, hz, hcz⟩ := ih (h.closed m out hout c hc)
      exact ⟨z, ph, hz, .head hc hcz⟩
    · exact ⟨m, ph, hph, .refl⟩

/-! ### Steps of a walk -/

namespace Going

/-- **A store that grows** keeps the invariant. -/
theorem of_grows (h : s.Going v stack σ) (hgrows : σ.store.Grows t) (ht : t.Reachable) :
    s.Going v stack { σ with store := t } := by
  have hcomplete : ∀ {x : NodeId}, x < σ.store.nodes.size →
      t.isComplete x = σ.store.isComplete x := by
    intro x hx
    rw [isComplete, hgrows.nodes x hx, isComplete]
  refine ⟨⟨ht, h.grows.trans hgrows, h.inside, h.same, fun x y hxy => ?_⟩, h.unfinished, h.results,
    h.closed, fun n ph hph => ?_, h.distinct⟩
  · refine (h.mirrored x y hxy).keep (fun _ _ => id) hgrows.size_le (fun hc => ?_) ?_
    · have hx := present_of_isComplete hc
      exact ⟨(hcomplete hx).trans hc, hgrows.kind_eq hx⟩
    · intro hcycle hx hblank hlookup
      have hlt := (h.expected y x hlookup).present
      exact .inr ⟨hcycle, hx, .inr ⟨(hcomplete hlt).trans hblank, hlookup⟩⟩
  · have hph := h.expected n ph hph
    exact { hph with
      present := Nat.lt_of_lt_of_le hph.present hgrows.size_le
      blank := (hcomplete hph.present).trans hph.blank }

/-- **Entering a node** keeps the invariant. -/
theorem enter (h : s.Going v stack σ) (hfresh : n ∉ stack)
    (hdone : σ.memo.done.lookup n = none) :
    let τ : Scene := { σ with memo := σ.memo.enter n }
    s.Going v (n :: stack) τ ∧ s.Later n σ τ := by
  intro τ
  have hinside : n ∉ σ.memo.inside := by rwa [h.inside]
  -- the node has no placeholder yet, and nothing changes for the others
  have hlookup : ∀ {m ph : NodeId}, τ.memo.inProgress.lookup m = some (some ph) ↔
      σ.memo.inProgress.lookup m = some (some ph) := Memo.lookup_enter_eq_some hinside
  refine ⟨⟨⟨h.reachable, h.grows, ?_, h.same, fun x y hxy => ?_⟩, fun m hm => ?_, fun m out hm => ?_,
    fun m out hm c hc => ?_, fun m ph hm => { h.expected m ph (hlookup.mp hm) with },
    fun m m' ph hm hm' => h.distinct m m' ph (hlookup.mp hm) (hlookup.mp hm')⟩, ?_⟩
  · exact (Memo.inside_enter hinside).trans (congrArg (n :: ·) h.inside)
  · refine (h.mirrored x y hxy).keep (fun _ _ => id) (Nat.le_refl _) (fun hc => ⟨hc, rfl⟩) ?_
    exact fun hcycle hx hblank hopen => .inr ⟨hcycle, hx, .inr ⟨hblank, hlookup.mpr hopen⟩⟩
  · rcases List.mem_cons.mp hm with rfl | hm
    · exact hdone
    · exact h.unfinished m hm
  · obtain ⟨hmirror, hfollow⟩ := h.results m out hm
    refine ⟨hmirror, hfollow.imp id fun hf => hf.imp (fun ⟨z, hz, hmz⟩ => ?_) id⟩
    exact ⟨z, List.mem_cons_of_mem n hz, hmz⟩
  · exact (h.closed m out hm c hc).imp id fun ⟨ph, hph⟩ => ⟨ph, hlookup.mpr hph⟩
  · exact ⟨fun _ _ => id, fun _ _ => id, fun m ph => hlookup.mpr, fun _ _ => .inl⟩

/-- **A placeholder is handed out** for a node that the walk is inside of. -/
theorem expect (h : s.Going v stack σ) (hcycle : s.Below n n)
    (hopen : σ.memo.inProgress.lookup n = some none) :
    let ph := σ.store.nodes.size
    let τ : Scene := ⟨fun x y => σ.mirrors x y ∨ x = ph ∧ y = n, σ.memo.expect n ph,
      σ.store.placeholder.2⟩
    s.Going v stack τ ∧ s.Later n σ τ := by
  intro ph τ
  have hgrows : σ.store.Grows σ.store.placeholder.2 := by
    refine ⟨fun m hm => ?_, rfl, Nat.le_refl _⟩
    show (σ.store.nodes.push _)[m]? = _
    rw [Array.getElem?_push, if_neg (Nat.ne_of_lt hm)]
  have hgoing := h.of_grows hgrows (.step .placeholder h.reachable trivial)
  have hsize : ph < σ.store.placeholder.2.nodes.size := by simp [placeholder, ph]
  have hblank : σ.store.placeholder.2.isComplete ph = false := by
    simp [placeholder, isComplete, ph]
  have hlookup : ∀ {m x : NodeId}, τ.memo.inProgress.lookup m = some (some x) ↔
      m = n ∧ x = ph ∨ σ.memo.inProgress.lookup m = some (some x) :=
    Memo.lookup_expect_eq_some hopen
  -- every other placeholder is older
  have holder : ∀ {m : NodeId}, σ.memo.inProgress.lookup m ≠ some (some ph) :=
    fun hm => Nat.lt_irrefl _ (h.expected _ ph hm).present
  refine ⟨⟨⟨hgoing.reachable, hgoing.grows, ?_, fun m => .inl (h.same m), ?_⟩, h.unfinished,
    fun m out hm => ?_, fun m out hm c hc => ?_, fun m x hm => ?_, fun m m' x hm hm' => ?_⟩, ?_⟩
  · exact (Memo.inside_expect n ph).trans h.inside
  · rintro x y (hxy | ⟨rfl, rfl⟩)
    · refine (hgoing.mirrored x y hxy).keep (fun _ _ => .inl) (Nat.le_refl _)
        (fun hc => ⟨hc, rfl⟩) ?_
      exact fun hloop hx hx' hy' => .inr ⟨hloop, hx, .inr ⟨hx', hlookup.mpr (.inr hy')⟩⟩
    · exact .inr ⟨hcycle, hsize, .inr ⟨hblank, hlookup.mpr (.inl ⟨rfl, rfl⟩)⟩⟩
  · exact ⟨.inl (h.results m out hm).1, (h.results m out hm).2⟩
  · exact (h.closed m out hm c hc).imp id fun h => h.imp fun x hx => hlookup.mpr (.inr hx)
  · rcases hlookup.mp hm with ⟨rfl, rfl⟩ | hm
    · exact ⟨.inr ⟨rfl, rfl⟩, hcycle, h.grows.size_le, hsize, hblank⟩
    · have hx := hgoing.expected m x hm
      exact { hx with mirrors := .inl hx.mirrors }
  · rcases hlookup.mp hm with ⟨rfl, rfl⟩ | hm
    · rcases hlookup.mp hm' with ⟨rfl, -⟩ | hm'
      · rfl
      · exact absurd hm' holder
    · rcases hlookup.mp hm' with ⟨-, rfl⟩ | hm'
      · exact absurd hm holder
      · exact h.distinct m m' x hm hm'
  · exact ⟨fun x y => .inl, fun _ _ => id, fun m x hx => hlookup.mpr (.inr hx), fun _ _ => .inl⟩

/-- **A copy is made** of a node on a cycle. -/
theorem copy {out : NodeId} (h : s.Going v stack σ) (hcycle : s.Below n n)
    (hcomplete : σ.store.isComplete out = true)
    (halike : (σ.store.kind out).Alike σ.mirrors (s.kind n)) :
    let τ : Scene := { σ with mirrors := fun x y => σ.mirrors x y ∨ x = out ∧ y = n }
    s.Going v stack τ ∧ s.Later n σ τ := by
  intro τ
  refine ⟨⟨⟨h.reachable, h.grows, h.inside, fun m => .inl (h.same m), ?_⟩, h.unfinished,
    fun m o hm => ⟨.inl (h.results m o hm).1, (h.results m o hm).2⟩, h.closed, fun m ph hm => ?_,
    h.distinct⟩, fun _ _ => .inl, fun _ _ => id, fun _ _ => id, fun _ _ => .inl⟩
  · rintro x y (hxy | ⟨rfl, rfl⟩)
    · refine (h.mirrored x y hxy).keep (fun _ _ => .inl) (Nat.le_refl _) (fun hc => ⟨hc, rfl⟩) ?_
      exact fun hloop hx hblank hopen => .inr ⟨hloop, hx, .inr ⟨hblank, hopen⟩⟩
    · refine .inr ⟨hcycle, present_of_isComplete hcomplete, .inl ⟨hcomplete, ?_⟩⟩
      exact halike.imp fun _ _ _ _ => .inl
  · have hph := h.expected m ph hm
    exact { hph with mirrors := .inl hph.mirrors }

end Going

/-! ### The end of the work on a node -/

/-- The store in which the work on a node ends: the node's placeholder, if there is one, has got
its form, and nothing else has changed. -/
structure Leaving (s : Store) (n : NodeId) (σ : Scene) (t : Store) : Prop where
  reachable : t.Reachable
  grows : s.Grows t
  size_le : σ.store.nodes.size ≤ t.nodes.size
  keeps : ∀ x, σ.store.isComplete x = true → t.isComplete x = true ∧ t.kind x = σ.store.kind x
  others : ∀ m ph, m ≠ n → σ.memo.inProgress.lookup m = some (some ph) → t.isComplete ph = false
  filled : ∀ ph, σ.memo.inProgress.lookup n = some (some ph) →
    t.isComplete ph = true ∧ (t.kind ph).Alike σ.mirrors (s.kind n)

namespace Going

/-- Without a placeholder, the store is left as it is. -/
theorem leaving_quiet (h : s.Going v stack σ)
    (hquiet : ∀ ph, σ.memo.inProgress.lookup n ≠ some (some ph)) :
    s.Leaving n σ σ.store where
  reachable := h.reachable
  grows := h.grows
  size_le := Nat.le_refl _
  keeps _ hx := ⟨hx, rfl⟩
  others m ph _ hm := (h.expected m ph hm).blank
  filled ph hph := absurd hph (hquiet ph)

/-- A placeholder gets the form of a copy. -/
theorem leaving_of_complete {ph : NodeId} {k : Kind} (h : s.Going v stack σ)
    (hph : σ.memo.inProgress.lookup n = some (some ph))
    (hslot : ∀ slot, k.slot? = some slot → σ.store.AdmitsSlot slot)
    (hok : (σ.store.complete ph k).1 = .ok ()) (halike : k.Alike σ.mirrors (s.kind n)) :
    s.Leaving n σ (σ.store.complete ph k).2 := by
  obtain ⟨d, hfiled⟩ := complete_filed hok
  refine ⟨.step (.complete ph k) h.reachable hslot, h.grows.file hfiled (h.expected n ph hph).new,
    hfiled.size_le, fun x hx => ?_, fun m ph' hm hph' => ?_, fun ph' hph' => ?_⟩
  · have hne : x ≠ ph := by
      rintro rfl
      rw [hfiled.blank] at hx
      exact absurd hx (by simp)
    exact ⟨(hfiled.isComplete_of_ne hne).trans hx, hfiled.kind_of_ne hne⟩
  · have hne : ph' ≠ ph := by
      rintro rfl
      exact hm (h.distinct m n ph' hph' hph)
    exact (hfiled.isComplete_of_ne hne).trans (h.expected m ph' hph').blank
  · obtain rfl : ph = ph' := by simpa using hph.symm.trans hph'
    rw [hfiled.kind_eq]
    exact ⟨hfiled.isComplete_eq, halike⟩

/-- Mirrors are mirrors after the work on a node. -/
theorem mirroring_of_leaving (h : s.Going v (n :: stack) σ) (hn : n ∉ stack)
    (ht : s.Leaving n σ t) : s.Mirroring stack ⟨σ.mirrors, σ.memo.leave n, t⟩ where
  reachable := ht.reachable
  grows := ht.grows
  inside := Memo.inside_leave h.inside hn
  same := h.same
  mirrored x y hxy := by
    refine (h.mirrored x y hxy).keep (fun _ _ => id) ht.size_le (ht.keeps x) ?_
    intro hcycle hx hblank hopen
    by_cases hyn : y = n
    · subst hyn
      exact .inr ⟨hcycle, hx, .inl (ht.filled x hopen)⟩
    · exact .inr ⟨hcycle, hx, .inr ⟨ht.others y x hyn hopen, (Memo.lookup_leave hyn).trans hopen⟩⟩

/-- **The end of the work on a node** keeps the invariant. -/
theorem finish {result : NodeId} (h : s.Going v (n :: stack) σ) (hn : n ∉ stack)
    (ht : s.Leaving n σ t) (hmet : ∀ c ∈ (s.kind n).children, σ.memo.Met c)
    (hothers : ∀ m out, σ.memo.done.lookup m = some out →
      out = m ∨ (∃ z ∈ stack, s.Leads m z) ∨ ¬ s.Entered v m)
    (hresult : s.Follows v stack σ result n) :
    let τ : Scene := ⟨σ.mirrors, (σ.memo.leave n).publish n result, t⟩
    s.Going v stack τ ∧ ∀ ρ : Scene, n ∉ ρ.memo.inside → s.Later n ρ σ → s.Later n ρ τ := by
  intro τ
  have hleft := h.mirroring_of_leaving hn ht
  have hdone : ∀ {m : NodeId}, m ≠ n → τ.memo.done.lookup m = σ.memo.done.lookup m :=
    fun hm => Memo.lookup_publish hm
  have hself : τ.memo.done.lookup n = some result := Memo.lookup_publish_self
  -- what was met is met still: the node itself is answered now
  have hclosed : ∀ {m : NodeId}, σ.memo.Met m → τ.memo.Met m := by
    intro m hm
    by_cases hmn : m = n
    · exact .inl ⟨result, hmn ▸ hself⟩
    · refine hm.imp (fun ⟨out, hout⟩ => ⟨out, ?_⟩) fun ⟨ph, hph⟩ => ⟨ph, ?_⟩
      · rwa [hdone hmn]
      · exact (Memo.lookup_leave hmn).trans hph
  -- no other node loses its placeholder
  have hopen : ∀ {m ph : NodeId}, τ.memo.inProgress.lookup m = some (some ph) ↔
      m ≠ n ∧ σ.memo.inProgress.lookup m = some (some ph) :=
    Memo.lookup_leave_eq_some h.inside hn
  refine ⟨⟨⟨hleft.reachable, hleft.grows, hleft.inside, hleft.same, hleft.mirrored⟩,
    fun m hm => ?_, fun m out hm => ?_, fun m out hm c hc => ?_, fun m ph hm => ?_,
    fun m m' ph hm hm' => h.distinct m m' ph (hopen.mp hm).2 (hopen.mp hm').2⟩, fun ρ hρ hlater => ?_⟩
  · have hmn : m ≠ n := by
      rintro rfl
      exact hn hm
    rw [hdone hmn]
    exact h.unfinished m (List.mem_cons_of_mem n hm)
  · by_cases hmn : m = n
    · subst hmn
      obtain rfl : result = out := by simpa using hself.symm.trans hm
      exact hresult
    · rw [hdone hmn] at hm
      exact ⟨(h.results m out hm).1, hothers m out hm⟩
  · by_cases hmn : m = n
    · exact hclosed (hmet c (hmn ▸ hc))
    · rw [hdone hmn] at hm
      exact hclosed (h.closed m out hm c hc)
  · obtain ⟨hmn, hm⟩ := hopen.mp hm
    have hph := h.expected m ph hm
    exact { hph with
      present := Nat.lt_of_lt_of_le hph.present ht.size_le
      blank := ht.others m ph hmn hm }
  · refine ⟨hlater.more, fun m out hm => ?_, fun m ph hm => ?_, fun m out hm => ?_⟩
    · have hmn : m ≠ n := by
        rintro rfl
        have hnone := h.unfinished m List.mem_cons_self
        rw [hlater.kept m out hm] at hnone
        exact absurd hnone (by simp)
      rw [hdone hmn]
      exact hlater.kept m out hm
    · have hmn : m ≠ n := by
        rintro rfl
        exact hρ (mem_keys_of_lookup hm)
      exact (Memo.lookup_leave hmn).trans (hlater.expected m ph hm)
    · by_cases hmn : m = n
      · exact .inr (hmn ▸ .refl)
      · rw [hdone hmn] at hm
        exact hlater.finished m out hm

end Going

end Store

end ValueInference
