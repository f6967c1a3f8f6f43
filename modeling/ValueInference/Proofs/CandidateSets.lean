/-
Lists of candidates as finite sets.

Sets of candidates are kept as lists in which no candidate equals an earlier one.  Over values whose
equality can be turned round and composed such a list is known, up to equality, by what it takes in:
lists that take in each other have the same length, and matching each on the left with one on the
right then leaves nothing out on the right.

* **`Store.BalancedIn`** — candidates over such values;
* **`Store.hasCandidate_addCandidates_eq`** — what is put together takes in what either part does;
* **`Store.Exact`** — lists of such candidates, no two of them equal;
* **`Store.Exact.addCandidates`** — putting candidates together keeps them unequal;
* **`Store.isSubset_iff_takes`**, **`Store.equalPossibilities_iff_takes`** — inclusion and equality
  by what the sets take in.
-/
import ValueInference.Proofs.Attained
import ValueInference.Proofs.JoinedSlots
import ValueInference.Proofs.KnownSlots

namespace ValueInference

namespace Store

variable {s : Store} {c d e x : Candidate} {cs ds : List Candidate} {p q : Possibilities}

/-! ### Equality of candidates -/

/-- The candidate is over nodes of the store. -/
def PresentIn (s : Store) (c : Candidate) : Prop := ∀ n ∈ c.children, n < s.nodes.size

/-- The candidate is over nodes of the store whose equality can be turned round and composed. -/
structure BalancedIn (s : Store) (c : Candidate) : Prop where
  present : s.PresentIn c
  balanced : ∀ n ∈ c.children, s.Balanced n

theorem BalancedIn.symm (hs : s.Sound) (hc : s.BalancedIn c) (hd : s.PresentIn d)
    (h : s.equalCandidates c d = true) : s.equalCandidates d c = true := by
  have hcd := (equalCandidates_iff_alike hs hc.present hd).mp h
  refine (equalCandidates_iff_alike hs hd hc.present).mpr ?_
  exact hcd.flip.imp fun y _ x hx hxy => (hc.balanced x hx).symm y hxy

theorem BalancedIn.trans (hs : s.Sound) (hc : s.BalancedIn c) (hd : s.PresentIn d)
    (he : s.PresentIn e) (h : s.equalCandidates c d = true) (h' : s.equalCandidates d e = true) :
    s.equalCandidates c e = true := by
  have hcd := (equalCandidates_iff_alike hs hc.present hd).mp h
  have hde := (equalCandidates_iff_alike hs hd he).mp h'
  refine (equalCandidates_iff_alike hs hc.present he).mpr ((hcd.comp hde).imp ?_)
  rintro x hx z - ⟨y, hxy, hyz⟩
  exact (hc.balanced x hx).trans y z hxy hyz

/-- What takes in a candidate takes in what this one equals. -/
theorem hasCandidate_of_equal (hs : s.Sound) (hcs : ∀ c ∈ cs, s.BalancedIn c) (hd : s.PresentIn d)
    (hx : s.PresentIn x) (h : s.hasCandidate cs d = true) (hdx : s.equalCandidates d x = true) :
    s.hasCandidate cs x = true := by
  obtain ⟨c, hc, hcd⟩ := List.any_eq_true.mp h
  exact List.any_eq_true.mpr ⟨c, hc, (hcs c hc).trans hs hd hx hcd hdx⟩

/-! ### Putting candidates together -/

/-- **What is put together takes in what either part takes in.** -/
theorem hasCandidate_addCandidates_eq (hs : s.Sound) (hcs : ∀ c ∈ cs, s.BalancedIn c)
    (hds : ∀ d ∈ ds, s.BalancedIn d) (hx : s.PresentIn x) :
    s.hasCandidate (s.addCandidates cs ds) x = (s.hasCandidate cs x || s.hasCandidate ds x) := by
  rw [Bool.eq_iff_iff, Bool.or_eq_true]
  constructor
  · intro h
    obtain ⟨c, hc, hcx⟩ := List.any_eq_true.mp h
    exact (mem_of_mem_addCandidates hc).imp (fun hc => List.any_eq_true.mpr ⟨c, hc, hcx⟩)
      fun hc => List.any_eq_true.mpr ⟨c, hc, hcx⟩
  · rintro (h | h)
    · exact hasCandidate_mono subset_addCandidates h
    · -- what was left out equals something that is there
      obtain ⟨d, hd, hdx⟩ := List.any_eq_true.mp h
      refine hasCandidate_of_equal hs (fun c hc => ?_) (hds d hd).present hx
        (hasCandidate_addCandidates d hd) hdx
      exact (mem_of_mem_addCandidates hc).elim (hcs c) (hds c)

/-! ### Lists without repetition -/

/-- No candidate equals a later one. -/
def Unequal (s : Store) (cs : List Candidate) : Prop :=
  cs.Pairwise fun c d => s.equalCandidates c d = false

/-- Candidates whose equality can be turned round and composed, no two of them equal. -/
structure Exact (s : Store) (cs : List Candidate) : Prop where
  balanced : ∀ c ∈ cs, s.BalancedIn c
  unequal : s.Unequal cs

namespace Exact

theorem addCandidates (hcs : s.Exact cs) (hds : ∀ d ∈ ds, s.BalancedIn d) :
    s.Exact (s.addCandidates cs ds) where
  balanced c hc := (mem_of_mem_addCandidates hc).elim (hcs.balanced c) (hds c)
  unequal := pairwise_addCandidates hcs.unequal

/-- No two of the candidates are equal, whichever of them comes first. -/
theorem distinct_both (hs : s.Sound) (h : s.Exact cs) :
    cs.Pairwise fun c d => s.equalCandidates c d = false ∧ s.equalCandidates d c = false := by
  refine h.unequal.imp_of_mem fun {c d} hc hd hcd => ⟨hcd, Bool.eq_false_iff.mpr fun hdc => ?_⟩
  exact Bool.eq_false_iff.mp hcd ((h.balanced d hd).symm hs (h.balanced c hc).present hdc)

/-- No two of the candidates equal the same one. -/
theorem apart (hs : s.Sound) (h : s.Exact cs) (hds : ∀ d ∈ ds, s.PresentIn d) :
    ApartIn (Candidate.Alike s.EqualIn) cs ds := by
  refine h.unequal.imp_of_mem fun {c d} hc hd hcd e he hce hde => ?_
  have hequal : ∀ {b}, b ∈ cs → b.Alike s.EqualIn e → s.equalCandidates b e = true :=
    fun hb => (equalCandidates_iff_alike hs (h.balanced _ hb).present (hds e he)).mpr
  have hed := (h.balanced d hd).symm hs (hds e he) (hequal hd hde)
  exact Bool.eq_false_iff.mp hcd
    ((h.balanced c hc).trans hs (hds e he) (h.balanced d hd).present (hequal hc hce) hed)

/-- **Lists that take in each other are matched**, and only those are. -/
theorem matches_iff (hs : s.Sound) (hcs : s.Exact cs) (hds : s.Exact ds) :
    Matches (Candidate.Alike s.EqualIn) cs ds ↔
      s.isSubset cs ds = true ∧ s.isSubset ds cs = true := by
  have halike : ∀ {cs ds}, s.Exact cs → s.Exact ds → ∀ {c d}, c ∈ cs → d ∈ ds →
      (s.equalCandidates d c = true ↔ c.Alike s.EqualIn d) := by
    intro cs ds hcs hds c d hc hd
    rw [← equalCandidates_iff_alike hs (hcs.balanced c hc).present (hds.balanced d hd).present]
    exact ⟨(hds.balanced d hd).symm hs (hcs.balanced c hc).present,
      (hcs.balanced c hc).symm hs (hds.balanced d hd).present⟩
  have hfinds : ∀ {cs ds}, s.Exact cs → s.Exact ds → (s.isSubset cs ds = true ↔
      ∀ c ∈ cs, ∃ d ∈ ds, c.Alike s.EqualIn d) := by
    intro cs ds hcs hds
    refine isSubset_iff_forall.trans (forall₂_congr fun c hc => List.any_eq_true.trans ?_)
    exact exists_congr fun d => and_congr_right fun hd => halike hcs hds hc hd
  -- no two candidates share a partner, so lists that find partners for each other are as long
  have hapart : ∀ {cs ds}, s.Exact cs → s.Exact ds →
      ApartIn (Candidate.Alike s.EqualIn) cs ds :=
    fun hcs hds => hcs.apart hs fun d hd => (hds.balanced d hd).present
  constructor
  · intro h
    refine ⟨(hfinds hcs hds).mpr h.2, isSubset_iff_forall.mpr fun d hd => List.any_eq_true.mpr ?_⟩
    obtain ⟨c, hc, hcd⟩ := (h.flip (hapart hcs hds)).2 d hd
    exact ⟨c, hc, (equalCandidates_iff_alike hs (hcs.balanced c hc).present
      (hds.balanced d hd).present).mpr hcd⟩
  · rintro ⟨h, h'⟩
    exact matches_of_apart ((hfinds hcs hds).mp h) ((hfinds hds hcs).mp h') (hapart hcs hds)
      (hapart hds hcs)

end Exact

/-! ### Sets by what they take in -/

/-- **A set is a subset of another one** exactly if that one takes in whatever the first does. -/
theorem isSubset_iff_takes (hs : s.Sound) (hcs : ∀ c ∈ cs, s.BalancedIn c)
    (hds : ∀ d ∈ ds, s.BalancedIn d) : s.isSubset cs ds = true ↔
      ∀ x, s.PresentIn x → s.hasCandidate cs x = true → s.hasCandidate ds x = true := by
  rw [isSubset_iff_forall]
  constructor
  · intro h x hx hcx
    obtain ⟨c, hc, hcx⟩ := List.any_eq_true.mp hcx
    exact hasCandidate_of_equal hs hds (hcs c hc).present hx (h c hc) hcx
  · exact fun h c hc => h c (hcs c hc).present (hasCandidate_of_mem hc)

/-- **A set is a subset of another one** exactly if putting it together with that adds nothing. -/
theorem isSubset_iff_adds_nothing (hs : s.Sound) (hcs : ∀ c ∈ cs, s.BalancedIn c)
    (hds : ∀ d ∈ ds, s.BalancedIn d) : s.isSubset cs ds = true ↔
      ∀ x, s.PresentIn x → s.hasCandidate (s.addCandidates ds cs) x = s.hasCandidate ds x := by
  rw [isSubset_iff_takes hs hcs hds]
  refine forall₂_congr fun x hx => ?_
  rw [hasCandidate_addCandidates_eq hs hds hcs hx]
  cases s.hasCandidate ds x <;> simp

/-- **Two sets are equal** exactly if each is a subset of the other. -/
theorem equalPossibilities_eq_isSubset (hs : s.Sound) (hp : s.Exact p.candidates)
    (hq : s.Exact q.candidates) (htoken : p.token = q.token → p = q) :
    s.equalPossibilities p q =
      (s.isSubset p.candidates q.candidates && s.isSubset q.candidates p.candidates) := by
  rw [Bool.eq_iff_iff, Bool.and_eq_true,
    equalPossibilities_iff_alike hs (fun c hc => (hp.balanced c hc).present)
      fun d hd => (hq.balanced d hd).present]
  constructor
  · rintro (h | h)
    · rw [htoken h]
      exact ⟨isSubset_self s _, isSubset_self s _⟩
    · exact (hp.matches_iff hs hq).mp h
  · exact fun h => .inr ((hp.matches_iff hs hq).mpr h)

/-- **Two sets are equal** exactly if they take in the same candidates. -/
theorem equalPossibilities_iff_takes (hs : s.Sound) (hp : s.Exact p.candidates)
    (hq : s.Exact q.candidates) (htoken : p.token = q.token → p = q) :
    s.equalPossibilities p q = true ↔
      ∀ x, s.PresentIn x → s.hasCandidate p.candidates x = s.hasCandidate q.candidates x := by
  rw [equalPossibilities_eq_isSubset hs hp hq htoken, Bool.and_eq_true,
    isSubset_iff_takes hs hp.balanced hq.balanced, isSubset_iff_takes hs hq.balanced hp.balanced]
  constructor
  · exact fun h x hx => Bool.eq_iff_iff.mpr ⟨h.1 x hx, h.2 x hx⟩
  · exact fun h => ⟨fun x hx => (h x hx ▸ id), fun x hx => (h x hx ▸ id)⟩

end Store

end ValueInference
