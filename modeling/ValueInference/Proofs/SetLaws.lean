/-
Possibility sets behave as finite sets.

Sets are made of candidates, as unions of sets and as merges of sets, while the store goes on to
change.  A candidate that comes into a set equals none that is in it already.  That lasts if both
are complete by then: candidates over a placeholder may become equal when it gets its form, and a
set keeps both of them.  Equality of sets matches each candidate on the left with one on the right,
as many of both, which says that they are the same only of sets without repetition.

* **`MadeSet`**, **`Store.Collected`** — the sets that are made on the way to a store;
* **`Store.Collected.collection`** — what is known of them;
* **`Store.NeatSet`** — sets over complete values without cycles, with nothing listed twice in them;
* **`Store.Collected.distinctCandidates`** — functions over sets that were made of complete
  candidates list nothing twice;
* **`Store.ActAsSets`** — the laws of finite sets;
* **`Infer.sets_act_as_finite_sets`** — neat sets obey them.
-/
import ValueInference.Proofs.Broadening
import ValueInference.Proofs.CandidateSets
import ValueInference.Proofs.Stability

namespace ValueInference

/-! ### What the operations do -/

namespace Infer

variable {s : Store} {p q : Possibilities}

@[simp] theorem outcome_unionSets (p q : Possibilities) (s : Store) :
    (unionSets p q).outcome s =
      (.ok ⟨s.tokens, s.addCandidates p.candidates q.candidates⟩,
        { s with tokens := s.tokens + 1 }) :=
  rfl

@[simp] theorem outcome_read {α : Type} (f : Store → α) (s : Store) :
    (read f).outcome s = (.ok (f s), s) :=
  rfl

/-- A set that is made of candidates has a new token. -/
theorem outcome_possibilitiesOf_ok {cs : List Candidate} {t : Store}
    (h : (possibilitiesOf cs).outcome s = (.ok p, t)) :
    cs ≠ [] ∧ p = ⟨s.tokens, s.addCandidates [] cs⟩ ∧ t = { s with tokens := s.tokens + 1 } := by
  by_cases hsome : cs = []
  · subst hsome
    exact nomatch h
  · rw [outcome_possibilitiesOf_thinned hsome] at h
    cases h
    exact ⟨hsome, rfl, rfl⟩

/-- A merge gives one of the two sets, and leaves the store as it is, or it gives their union. -/
theorem outcome_mergeSets_ok {forced : Bool} {u : Possibilities} {t : Store}
    (h : (mergeSets forced p q).outcome s = (.ok u, t)) :
    (u = p ∨ u = q) ∧ t = s ∨ (unionSets p q).outcome s = (.ok u, t) := by
  rw [mergeSets, outcome_store_bind] at h
  split at h
  · cases h
    exact .inl ⟨.inl rfl, rfl⟩
  split at h
  · exact nomatch h
  split at h
  · cases h
    exact .inl ⟨.inr rfl, rfl⟩
  · exact .inr h

/-- **A forced merge** gives the left set if that has all candidates of the right one, and fails
otherwise. -/
theorem outcome_mergeSets_forced :
    (mergeSets true p q).outcome s =
      (if s.isSubset q.candidates p.candidates then .ok p
        else .error (.typeMismatch (.slot (.possibilities p)) (.slot (.possibilities q)) .notSubset),
        s) := by
  rw [mergeSets, outcome_store_bind]
  split <;> rfl

end Infer

/-! ### Sets that are made -/

/-- A set that was made. -/
structure MadeSet where
  set : Possibilities
  /-- Each candidate was complete when it came into the set. -/
  timely : Bool

namespace Store

variable {s t : Store} {a b c : MadeSet} {ms : List MadeSet} {cs ds : List Candidate} {n : NodeId}

/-- The sets that are made on the way to the store, of candidates, as unions and as merges. -/
inductive Collected : Store → List MadeSet → Prop where
  | start : Collected {} []
  | change {s : Store} {ms : List MadeSet} (c : Change) : Collected s ms → s.Admits c →
      Collected (c.apply s) ms
  | stall {s t : Store} {ms : List MadeSet} : Collected s ms → s.Stalls t → Collected t ms
  | new {s t : Store} {ms : List MadeSet} {p : Possibilities} (cs : List Candidate)
      (timely : Bool) : Collected s ms → (timely = true → ∀ c ∈ cs, s.FinishedIn c) →
      (Infer.possibilitiesOf cs).outcome s = (.ok p, t) → Collected t (⟨p, timely⟩ :: ms)
  | union {s t : Store} {ms : List MadeSet} {p : Possibilities} (a b : MadeSet) :
      Collected s ms → a ∈ ms → b ∈ ms → (Infer.unionSets a.set b.set).outcome s = (.ok p, t) →
      Collected t (⟨p, a.timely && b.timely⟩ :: ms)
  | merge {s t : Store} {ms : List MadeSet} {p : Possibilities} (forced : Bool) (a b : MadeSet) :
      Collected s ms → a ∈ ms → b ∈ ms →
      (Infer.mergeSets forced a.set b.set).outcome s = (.ok p, t) →
      Collected t (⟨p, a.timely && b.timely⟩ :: ms)

/-- What is known of the sets that were made. -/
structure Collection (s : Store) (ms : List MadeSet) : Prop where
  attained : s.Attained
  issued : ∀ a ∈ ms, a.set.token < s.tokens
  coherent : ∀ a ∈ ms, ∀ b ∈ ms, a.set.token = b.set.token → a.set = b.set
  nonempty : ∀ a ∈ ms, a.set.candidates ≠ []
  timely : ∀ a ∈ ms, a.timely = true →
    (∀ c ∈ a.set.candidates, s.FinishedIn c) ∧ s.Unequal a.set.candidates

/-- Changes hand out tokens and take none back. -/
theorem tokens_le_change (s : Store) (c : Change) : s.tokens ≤ (c.apply s).tokens := by
  cases c with
  | token => exact Nat.le_succ _
  | build k =>
    show s.tokens ≤ (s.build k).2.tokens
    rcases s.build_eq k with h | ⟨_, _, h⟩ <;> rw [h]
  | complete n k =>
    show s.tokens ≤ (s.complete n k).2.tokens
    rcases hok : (s.complete n k).1 with fault | u
    · rw [complete_of_error hok]
    · obtain ⟨d, hfiled⟩ := complete_filed hok
      exact Nat.le_of_eq hfiled.tokens.symm
  | openPending l resolver priority =>
    show s.tokens ≤ (s.openPending l resolver priority).2.tokens
    rw [openPending]
    split
    · exact Nat.le_refl _
    split <;> exact Nat.le_refl _
  | spawn l d =>
    show s.tokens ≤ (s.spawn l (.merge d)).2.tokens
    rw [spawn]
    split
    · exact Nat.le_refl _
    split <;> exact Nat.le_refl _
  | setResult p slot =>
    show s.tokens ≤ (s.setResult p slot).2.tokens
    rw [setResult]
    split
    · exact Nat.le_refl _
    split
    · exact Nat.le_refl _
    split
    · exact Nat.le_refl _
    · obtain ⟨loops, hclose⟩ := s.close_eq p (.resolved slot)
      rw [hclose]
      exact Nat.le_refl _
  | _ => exact Nat.le_refl _

/-- Complete candidates that are not equal stay so. -/
theorem Keeps.unequal (h : s.Keeps t) (hs : s.Sound) (ht : t.Sound)
    (hcs : ∀ c ∈ cs, s.FinishedIn c) (hunequal : s.Unequal cs) : t.Unequal cs := by
  refine hunequal.imp_of_mem fun {c d} hc hd hcd => ?_
  rwa [h.equalCandidates_eq hs ht (hcs c hc) (hcs d hd)]

namespace Collection

theorem sound (h : s.Collection ms) : s.Sound := h.attained.whole.sound

/-- What is known lasts where nodes keep their forms. -/
theorem later (h : s.Collection ms) (ht : t.Attained) (hkeeps : s.Keeps t)
    (htokens : s.tokens ≤ t.tokens) : t.Collection ms where
  attained := ht
  issued a ha := Nat.lt_of_lt_of_le (h.issued a ha) htokens
  coherent := h.coherent
  nonempty := h.nonempty
  timely a ha htimely := by
    obtain ⟨hfinished, hunequal⟩ := h.timely a ha htimely
    exact ⟨fun c hc => hkeeps.finishedIn (hfinished c hc),
      hkeeps.unequal h.sound ht.whole.sound hfinished hunequal⟩

theorem change (h : s.Collection ms) (c : Change) (hc : s.Admits c) :
    (c.apply s).Collection ms :=
  h.later (.step c h.attained hc) (h.sound.keeps_change c) (s.tokens_le_change c)

theorem stall (h : s.Collection ms) (hstall : s.Stalls t) : t.Collection ms :=
  h.later (.stall h.attained hstall) (sameNodes_of_eq hstall.nodes hstall.contents).keeps
    (Nat.le_of_eq hstall.tokens.symm)

/-- A set with a new token is added. -/
theorem fresh {timely : Bool} (h : s.Collection ms) (hsome : cs ≠ [])
    (htimely : timely = true → (∀ c ∈ cs, s.FinishedIn c) ∧ s.Unequal cs) :
    Collection { s with tokens := s.tokens + 1 } (⟨⟨s.tokens, cs⟩, timely⟩ :: ms) := by
  have hlater : Collection { s with tokens := s.tokens + 1 } ms := h.change .token trivial
  have hkeeps : s.Keeps { s with tokens := s.tokens + 1 } := h.sound.keeps_change .token
  -- tokens are handed out in order, so no set that was made has this one
  have hnew : ∀ b ∈ ms, b.set.token ≠ s.tokens := fun b hb => Nat.ne_of_lt (h.issued b hb)
  refine ⟨hlater.attained, List.forall_mem_cons.mpr ⟨Nat.lt_succ_self _, hlater.issued⟩, ?_,
    List.forall_mem_cons.mpr ⟨hsome, h.nonempty⟩,
    List.forall_mem_cons.mpr ⟨fun htrue => ?_, hlater.timely⟩⟩
  · intro a ha b hb htoken
    rcases List.mem_cons.mp ha with rfl | ha <;> rcases List.mem_cons.mp hb with rfl | hb
    · rfl
    · exact absurd htoken.symm (hnew b hb)
    · exact absurd htoken (hnew a ha)
    · exact h.coherent a ha b hb htoken
  · obtain ⟨hfinished, hunequal⟩ := htimely htrue
    exact ⟨fun c hc => hkeeps.finishedIn (hfinished c hc),
      hkeeps.unequal h.sound hlater.sound hfinished hunequal⟩

/-- A set that was made is given out again. -/
theorem again {timely : Bool} (h : s.Collection ms) (ha : a ∈ ms)
    (htimely : timely = true → a.timely = true) : s.Collection (⟨a.set, timely⟩ :: ms) := by
  refine ⟨h.attained, List.forall_mem_cons.mpr ⟨h.issued a ha, h.issued⟩, ?_,
    List.forall_mem_cons.mpr ⟨h.nonempty a ha, h.nonempty⟩,
    List.forall_mem_cons.mpr ⟨fun htrue => h.timely a ha (htimely htrue), h.timely⟩⟩
  intro b hb c hc htoken
  rcases List.mem_cons.mp hb with rfl | hb <;> rcases List.mem_cons.mp hc with rfl | hc
  · rfl
  · exact h.coherent a ha c hc htoken
  · exact h.coherent b hb a ha htoken
  · exact h.coherent b hb c hc htoken

theorem union {p : Possibilities} (h : s.Collection ms) (ha : a ∈ ms) (hb : b ∈ ms)
    (hunion : (Infer.unionSets a.set b.set).outcome s = (.ok p, t)) :
    t.Collection (⟨p, a.timely && b.timely⟩ :: ms) := by
  cases hunion
  refine h.fresh (fun hnil => h.nonempty a ha ?_) fun htrue => ?_
  · exact List.subset_nil.mp (hnil ▸ subset_addCandidates)
  · obtain ⟨hta, htb⟩ := Bool.and_eq_true_iff.mp htrue
    obtain ⟨hfa, hua⟩ := h.timely a ha hta
    obtain ⟨hfb, -⟩ := h.timely b hb htb
    exact ⟨fun c hc => (mem_of_mem_addCandidates hc).elim (hfa c) (hfb c),
      pairwise_addCandidates hua⟩

end Collection

/-- **What is known of sets** holds of all that are made. -/
theorem Collected.collection (h : s.Collected ms) : s.Collection ms := by
  -- sets that are there are untouched by a change; one that is made is compared where it is made
  induction h with
  | start =>
    exact ⟨.start, fun _ h => absurd h List.not_mem_nil, fun _ h => absurd h List.not_mem_nil,
      fun _ h => absurd h List.not_mem_nil, fun _ h => absurd h List.not_mem_nil⟩
  | change c _ hc ih => exact ih.change c hc
  | stall _ hstall ih => exact ih.stall hstall
  | @new s t ms p cs timely _ hfinished hnew ih =>
    obtain ⟨hsome, rfl, rfl⟩ := Infer.outcome_possibilitiesOf_ok hnew
    refine ih.fresh ((s.thinned_addCandidates cs).ne_nil hsome) fun htrue => ⟨fun c hc => ?_, ?_⟩
    · exact hfinished htrue c ((s.thinned_addCandidates cs).sublist.mem hc)
    · exact (s.thinned_addCandidates cs).distinct
  | union a b _ ha hb hunion ih => exact ih.union ha hb hunion
  | merge forced a b _ ha hb hmerge ih =>
    rcases Infer.outcome_mergeSets_ok hmerge with ⟨rfl | rfl, rfl⟩ | hunion
    · exact ih.again ha fun htrue => (Bool.and_eq_true_iff.mp htrue).1
    · exact ih.again hb fun htrue => (Bool.and_eq_true_iff.mp htrue).2
    · exact ih.union ha hb hunion

/-! ### Neat sets -/

/-- The set is over complete values, on no cycle.  No union in these lists members that are equal,
and no function candidates that are; nor does the set itself, if it was made of candidates that were
not complete yet. -/
structure NeatSet (s : Store) (a : MadeSet) : Prop where
  finished : ∀ c ∈ a.set.candidates, s.FinishedIn c
  acyclic : ∀ c ∈ a.set.candidates, ∀ n ∈ c.children, ∀ m, s.Leads n m → ¬ s.Below m m
  members : ∀ c ∈ a.set.candidates, ∀ n ∈ c.children, s.DistinctMembers n
  candidates : ∀ c ∈ a.set.candidates, ∀ n ∈ c.children, s.DistinctCandidates n
  unequal : a.timely = false → s.Unequal a.set.candidates

/-- **A function over sets that were made of complete candidates** lists nothing twice. -/
theorem Collected.distinctCandidates (h : s.Collected ms)
    (hheld : ∀ f p, s.Leads n f → s.kind f = .function (.possibilities p) →
      ∃ a ∈ ms, a.timely = true ∧ a.set = p) : s.DistinctCandidates n := by
  intro f p hf hk
  obtain ⟨a, ha, htimely, rfl⟩ := hheld f p hf hk
  exact (h.collection.timely a ha htimely).2

theorem NeatSet.exact (h : s.Collection ms) (ha : a ∈ ms) (hneat : s.NeatSet a) :
    s.Exact a.set.candidates where
  balanced c hc := by
    refine ⟨fun n hn => (hneat.finished c hc n hn).present, fun n hn => ?_⟩
    have hfounded := (hneat.finished c hc n hn).founded (hneat.acyclic c hc n hn)
    exact h.attained.whole.balanced hfounded
      (.of_founded hfounded (hneat.members c hc n hn) (hneat.candidates c hc n hn))
  -- what was complete when it came in was compared for good
  unequal := by
    cases htimely : a.timely with
    | true => exact (h.timely a ha htimely).2
    | false => exact hneat.unequal htimely

/-! ### The laws -/

/-- The laws of finite sets, as computed on the store. -/
structure ActAsSets (s : Store) (p q r : Possibilities) : Prop where
  nonempty : p.candidates ≠ []
  distinct : p.candidates.Pairwise fun c d =>
    s.equalCandidates c d = false ∧ s.equalCandidates d c = false
  /-- A candidate is in a union exactly if it is in one of the sets. -/
  mem_union : ∀ c, s.PresentIn c →
    ((do
      let u ← Infer.unionSets p q
      Infer.read fun t => t.hasCandidate u.candidates c).outcome s).1 =
        .ok (s.hasCandidate p.candidates c || s.hasCandidate q.candidates c)
  union_comm :
    ((do
      let u ← Infer.unionSets p q
      let v ← Infer.unionSets q p
      Infer.read fun t => t.equalPossibilities u v).outcome s).1 = .ok true
  union_assoc :
    ((do
      let u ← Infer.unionSets p q
      let v ← Infer.unionSets u r
      let w ← Infer.unionSets q r
      let x ← Infer.unionSets p w
      Infer.read fun t => t.equalPossibilities v x).outcome s).1 = .ok true
  union_self :
    ((do
      let u ← Infer.unionSets p p
      Infer.read fun t => t.equalPossibilities u p).outcome s).1 = .ok true
  /-- A set is a subset of another one exactly if that one stays the same with it. -/
  subset_iff_union :
    ((do
      let u ← Infer.unionSets q p
      Infer.read fun t => t.equalPossibilities u q).outcome s).1 =
        .ok (s.isSubset p.candidates q.candidates)
  /-- Sets are equal exactly if each is a subset of the other. -/
  equal_iff_subsets : s.equalPossibilities p q =
    (s.isSubset p.candidates q.candidates && s.isSubset q.candidates p.candidates)
  /-- A forced merge succeeds exactly if the right set is a subset of the left one. -/
  forced_merge : ((Infer.mergeSets true p q).outcome s).1.isOk =
    s.isSubset q.candidates p.candidates

end Store

namespace Infer

variable {s : Store} {ms : List MadeSet} {a b c : MadeSet} {cs ds : List Candidate}

/-- What comes after a union goes on with a set of a new token. -/
theorem outcome_unionSets_bind {α : Type} (p q : Possibilities) (f : Possibilities → Infer α)
    (s : Store) : (unionSets p q >>= f).outcome s =
      (f ⟨s.tokens, s.addCandidates p.candidates q.candidates⟩).outcome
        { s with tokens := s.tokens + 1 } :=
  rfl

/-- **Possibility sets behave as finite sets.** -/
theorem sets_act_as_finite_sets (h : s.Collected ms) (ha : a ∈ ms) (hb : b ∈ ms) (hc : c ∈ ms)
    (hna : s.NeatSet a) (hnb : s.NeatSet b) (hnc : s.NeatSet c) :
    s.ActAsSets a.set b.set c.set := by
  have hs : s.Sound := h.collection.sound
  have hxa := hna.exact h.collection ha
  have hxb := hnb.exact h.collection hb
  have hxc := hnc.exact h.collection hc
  have hia : a.set.token ≠ s.tokens := Nat.ne_of_lt (h.collection.issued a ha)
  have hib : b.set.token ≠ s.tokens := Nat.ne_of_lt (h.collection.issued b hb)
  -- later stores put together and compare as this one does
  have hadd : ∀ k, Store.addCandidates { s with tokens := k } = s.addCandidates := fun k =>
    Store.addCandidates_congr rfl
  have hhas : ∀ k, Store.hasCandidate { s with tokens := k } = s.hasCandidate := fun k =>
    Store.hasCandidate_congr rfl
  have hequal : ∀ k, Store.equalPossibilities { s with tokens := k } = s.equalPossibilities :=
    fun k => Store.equalPossibilities_congr rfl
  have htakes : ∀ {cs ds}, s.Exact cs → s.Exact ds → ∀ x, s.PresentIn x →
      s.hasCandidate (s.addCandidates cs ds) x = (s.hasCandidate cs x || s.hasCandidate ds x) :=
    fun hcs hds x hx => Store.hasCandidate_addCandidates_eq hs hcs.balanced hds.balanced hx
  have hunite : ∀ {cs ds}, s.Exact cs → s.Exact ds → s.Exact (s.addCandidates cs ds) :=
    fun hcs hds => hcs.addCandidates hds.balanced
  have hsame : ∀ {i j cs ds}, i ≠ j → s.Exact cs → s.Exact ds →
      (s.equalPossibilities ⟨i, cs⟩ ⟨j, ds⟩ = true ↔
        ∀ x, s.PresentIn x → s.hasCandidate cs x = s.hasCandidate ds x) :=
    fun hij hcs hds => Store.equalPossibilities_iff_takes hs hcs hds fun heq => absurd heq hij
  constructor
  · exact h.collection.nonempty a ha
  · exact hxa.distinct_both hs
  · intro x hx
    simp only [outcome_unionSets_bind, outcome_read, hhas]
    rw [htakes hxa hxb x hx]
  · simp only [outcome_unionSets_bind, outcome_read, hadd, hequal]
    refine congrArg _ ((hsame (by omega) (hunite hxa hxb) (hunite hxb hxa)).mpr fun x hx => ?_)
    rw [htakes hxa hxb x hx, htakes hxb hxa x hx, Bool.or_comm]
  · simp only [outcome_unionSets_bind, outcome_read, hadd, hequal]
    refine congrArg _ ((hsame (by omega) (hunite (hunite hxa hxb) hxc)
      (hunite hxa (hunite hxb hxc))).mpr fun x hx => ?_)
    rw [htakes (hunite hxa hxb) hxc x hx, htakes hxa hxb x hx, htakes hxa (hunite hxb hxc) x hx,
      htakes hxb hxc x hx, Bool.or_assoc]
  · simp only [outcome_unionSets_bind, outcome_read, hequal]
    refine congrArg _ ((hsame hia.symm (hunite hxa hxa) hxa).mpr fun x hx => ?_)
    rw [htakes hxa hxa x hx, Bool.or_self]
  · -- putting together gives what is there already exactly if nothing is added
    simp only [outcome_unionSets_bind, outcome_read, hequal]
    refine congrArg _ (Bool.eq_iff_iff.mpr ((hsame hib.symm (hunite hxb hxa) hxb).trans ?_))
    exact (Store.isSubset_iff_adds_nothing hs hxa.balanced hxb.balanced).symm
  · exact Store.equalPossibilities_eq_isSubset hs hxa hxb (h.collection.coherent a ha b hb)
  · rw [outcome_mergeSets_forced]
    split <;> simp_all [Except.isOk, Except.toBool]

/-- Two sets over functions of which one lists two candidates that have become equal: the sets put
together one way have two candidates, and the other way one. -/
example :
    let s := (Change.build (.type .nil)).apply (Change.placeholder.apply {})
    let s := Change.token.apply ((Change.build (.type .bool)).apply s)
    let s := (Change.build (.function (.possibilities
      ⟨0, [.function (.virtual [] 0), .function (.virtual [] 1)]⟩))).apply s
    let s := (Change.build (.function (.possibilities
      ⟨1, [.function (.virtual [] 0), .function (.virtual [] 2)]⟩))).apply (Change.token.apply s)
    let s := (Change.complete 0 (.type .nil)).apply s
    let p : Possibilities := ⟨2, [.function (.virtual [] 4)]⟩
    let q : Possibilities := ⟨3, [.function (.virtual [] 3)]⟩
    ((do
      let u ← unionSets p q
      let v ← unionSets q p
      read fun t => t.equalPossibilities u v).outcome
        (Change.token.apply (Change.token.apply s))).1.toOption = some false := by
  decide +kernel

end Infer

/-! ### Three sets -/

namespace Store

variable {s : Store} {a : MadeSet} {ms : List MadeSet} {cs : List Candidate}

/-- Candidates over values that a search finds to be fit for broadening. -/
def fitFor (s : Store) (depth : Nat) (cs : List Candidate) : Bool :=
  cs.all fun c => c.children.all fun n => s.everywhere s.broadenableAt depth n

theorem broadenable_of_fitFor {depth : Nat} (h : s.fitFor depth cs = true) :
    ∀ c ∈ cs, ∀ n ∈ c.children, s.Broadenable n ∧ s.DistinctCandidates n := fun c hc n hn =>
  Broadenable.of_everywhere depth (List.all_eq_true.mp (List.all_eq_true.mp h c hc) n hn)

/-- A set that was made of complete candidates is neat if a search says so. -/
theorem NeatSet.of_fitFor (depth : Nat) (htimely : a.timely = true)
    (h : s.fitFor depth a.set.candidates = true) : s.NeatSet a where
  finished c hc n hn := (broadenable_of_fitFor h c hc n hn).1.finished
  acyclic c hc n hn := (broadenable_of_fitFor h c hc n hn).1.acyclic
  members c hc n hn := (broadenable_of_fitFor h c hc n hn).1.distinctMembers
  candidates c hc n hn := (broadenable_of_fitFor h c hc n hn).2
  unequal hlate := nomatch htimely.symm.trans hlate

/-- A set may be made of different candidates that are complete. -/
theorem Collected.made (h : s.Collected ms) (cs : List Candidate) (depth : Nat) (hsome : cs ≠ [])
    (hcs : s.fitFor depth cs = true) (hkept : s.addCandidates [] cs = cs) :
    (Change.token.apply s).Collected (⟨⟨s.tokens, cs⟩, true⟩ :: ms) := by
  refine .new cs true h (fun _ c hc n hn => (broadenable_of_fitFor hcs c hc n hn).1.finished) ?_
  rw [Infer.outcome_possibilitiesOf_thinned hsome, hkept]
  rfl

/-- A number, which was a placeholder first, and that or a list of it. -/
def numbers : Store :=
  let s := (Change.complete 0 (.scalar .anything .i64)).apply (Change.placeholder.apply {})
  (Change.build (.union [0, 1])).apply ((Change.build (.list 0)).apply s)

/-- Functions of one number, of which one had its first argument bound. -/
def unary : Possibilities :=
  ⟨0, [.function (.virtual [0] 0), .function (.partialApp (.virtual [0, 0] 0) [0])]⟩

/-- A function that takes the union to such a function, and one of a number. -/
def mapping : Possibilities := ⟨1, [.function (.virtual [2] 3), .function (.virtual [0] 0)]⟩

/-- Both sets are made, the one for a function that the other is over, and put together. -/
def functions : Store :=
  let s := (Change.build (.function (.possibilities unary))).apply (Change.token.apply numbers)
  Change.token.apply (Change.token.apply s)

/-- The sets put together. -/
def unaryOrMapping : Possibilities :=
  ⟨2, [.function (.virtual [0] 0), .function (.partialApp (.virtual [0, 0] 0) [0]),
    .function (.virtual [2] 3)]⟩

theorem collected_functions :
    functions.Collected [⟨unaryOrMapping, true⟩, ⟨mapping, true⟩, ⟨unary, true⟩] := by
  have hnumbers : numbers.Collected [] := by
    have hnumber := Collected.change (.complete 0 (.scalar .anything .i64))
      (.change .placeholder .start trivial) nofun
    exact .change (.build (.union [0, 1])) (.change (.build (.list 0)) hnumber nofun) nofun
  have hunary := hnumbers.made unary.candidates 3 (by simp [unary]) (by decide +kernel)
    (by decide +kernel)
  have hfunction := hunary.change (.build (.function (.possibilities unary))) (by
    rintro slot hslot p rfl
    cases hslot
    exact hnumbers.collection.sound.admits_new (by decide))
  have hmapping := hfunction.made mapping.candidates 4 (by simp [mapping]) (by decide +kernel)
    (by decide +kernel)
  refine .union ⟨unary, true⟩ ⟨mapping, true⟩ hmapping (by simp [unary]) (by simp) ?_
  have hcandidates : Store.addCandidates ((Change.build (.function (.possibilities unary))).apply
      (Change.token.apply numbers)) unary.candidates mapping.candidates =
        unaryOrMapping.candidates := by
    decide +kernel
  rw [Infer.outcome_unionSets]
  exact congrArg (fun cs => (Except.ok (Possibilities.mk 2 cs), functions)) hcandidates

end Store

/-- Of the candidates that come in twice, one is left. -/
theorem Infer.sets_act_as_finite_sets_functions :
    Store.functions.ActAsSets Store.unary Store.mapping Store.unaryOrMapping :=
  Infer.sets_act_as_finite_sets Store.collected_functions (a := ⟨Store.unary, true⟩)
    (b := ⟨Store.mapping, true⟩) (c := ⟨Store.unaryOrMapping, true⟩) (by simp) (by simp) (by simp)
    (.of_fitFor 4 rfl (by decide +kernel)) (.of_fitFor 4 rfl (by decide +kernel))
    (.of_fitFor 4 rfl (by decide +kernel))

end ValueInference
