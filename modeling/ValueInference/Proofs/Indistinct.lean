/-
What a comparison that succeeds has found out, also about values that contain themselves.

A comparison assumes equal what it is still inside of, so its success says at first that nothing
was found within so many levels that tells the nodes apart.  There are finitely many pairs of
nodes, so some number of levels tells apart all that any number does, and from there on the
nodes that nothing tells apart are paired by a bisimulation.

* **`Store.Indistinct`** — nothing within so many levels tells two nodes apart;
* **`Store.indistinct_of_equals`** — equal nodes are indistinct, within any number of levels;
* **`Store.exists_stable`** — the number of levels that is enough;
* **`Store.bisimulation_equals`** — equality pairs the nodes of a store by a bisimulation, the
  greatest one;
* **`Store.equalCandidates_iff_alike`**, **`Store.equalPossibilities_iff_alike`** — candidates are
  equal if the nodes in them are, and sets if their candidates are.
-/
import ValueInference.Proofs.Bisimilar

namespace ValueInference

namespace Store

variable {s : Store} {a b : NodeId} {depth fuel : Nat} {seen seen' : Assumed}

/-- Nothing within so many levels tells the two nodes apart. -/
def Indistinct (s : Store) : Nat → NodeId → NodeId → Prop
  | 0, _, _ => True
  | depth + 1, a, b =>
    a = b ∨ s.MayEqual a b ∧ (s.kind a).Alike (s.Indistinct depth) (s.kind b)

/-- Fewer levels tell less apart. -/
theorem Indistinct.less : ∀ {depth : Nat} {a b : NodeId}, s.Indistinct (depth + 1) a b →
    s.Indistinct depth a b := by
  intro depth
  induction depth with
  | zero => exact fun _ => trivial
  | succ depth ih =>
    intro a b h
    exact h.imp id fun ⟨hmay, halike⟩ => ⟨hmay, halike.imp fun x _ y _ => ih⟩

/-! ### Comparisons -/

/-- **A comparison that succeeds** met one node twice or an assumed pair, or it went on with the
forms. -/
theorem agree_eq_some (h : s.agree (fuel + 1) a b seen = some seen') :
    (seen' = seen ∧ (a = b ∨ (a, b) ∈ seen)) ∨
      s.MayEqual a b ∧
        Kind.agree (s.agree fuel) (s.kind a) (s.kind b) ((a, b) :: seen) = some seen' := by
  rw [agree] at h
  split at h
  · next hab => exact .inl ⟨(Option.some.inj h).symm, .inl hab⟩
  split at h
  · cases h
  next hd =>
  split at h
  · cases h
  next hi =>
  split at h
  · next hmem => exact .inl ⟨(Option.some.inj h).symm, .inr hmem⟩
  refine .inr ⟨⟨fun d e hda heb => ?_, by simpa using hi⟩, h⟩
  by_contra hne
  exact hd (by simp [hda, heb, hne])

/-- No assumed pair is told apart within so many levels. -/
private def Unrefuted (s : Store) (depth : Nat) (seen : Assumed) : Prop :=
  ∀ p ∈ seen, s.Indistinct depth p.1 p.2

private theorem Unrefuted.push (h : s.Unrefuted depth seen) (hab : s.Indistinct depth a b) :
    s.Unrefuted depth ((a, b) :: seen) :=
  List.forall_mem_cons.mpr ⟨hab, h⟩

/-- A comparison that starts with pairs that are indistinct finds such pairs. -/
private theorem agree_unrefuted (depth : Nat) : ∀ (fuel : Nat) (a b : NodeId),
    Between (s.Unrefuted depth) (s.agree fuel a b) False (s.Indistinct depth a b) := by
  induction depth with
  | zero =>
    intro fuel a b
    exact ⟨fun _ _ h => h.elim, fun _ _ _ _ => trivial, fun _ _ _ _ _ _ => trivial⟩
  | succ depth ih =>
    -- the pair itself is indistinct on one level less before the nodes below are looked at
    intro fuel
    induction fuel with
    | zero =>
      intro a b
      exact ⟨fun _ _ h => h.elim, fun _ _ _ h => (nomatch h), fun _ _ _ h => (nomatch h)⟩
    | succ fuel ihfuel =>
      intro a b
      have hforms : Between (s.Unrefuted depth) (Kind.agree (s.agree fuel) (s.kind a) (s.kind b))
          ((s.kind a).Alike (fun _ _ => False) (s.kind b))
          ((s.kind a).Alike (s.Indistinct depth) (s.kind b)) :=
        Kind.agree_between fun c _ d _ => ih fuel c d
      have hkeeps : Between (s.Unrefuted (depth + 1))
          (Kind.agree (s.agree fuel) (s.kind a) (s.kind b))
          ((s.kind a).Alike (fun _ _ => False) (s.kind b))
          ((s.kind a).Alike (s.Indistinct (depth + 1)) (s.kind b)) :=
        Kind.agree_between fun c _ d _ => ihfuel c d
      have hshows : ∀ seen seen', s.Unrefuted (depth + 1) seen →
          s.agree (fuel + 1) a b seen = some seen' → s.Indistinct (depth + 1) a b := by
        intro seen seen' hseen h
        have hless : s.Unrefuted depth seen := fun p hp => (hseen p hp).less
        have hab : s.Indistinct depth a b := (ih (fuel + 1) a b).shows seen seen' hless h
        rcases agree_eq_some h with ⟨-, hsame | hmem⟩ | ⟨hmay, hagree⟩
        · exact .inl hsame
        · exact hseen (a, b) hmem
        · exact .inr ⟨hmay, hforms.shows _ seen' (hless.push hab) hagree⟩
      refine ⟨fun _ _ h => h.elim, hshows, fun seen seen' hseen h => ?_⟩
      rcases agree_eq_some h with ⟨rfl, -⟩ | ⟨-, hagree⟩
      · exact hseen
      · exact hkeeps.keeps _ seen' (hseen.push (hshows seen seen' hseen h)) hagree

/-- **Equal nodes are indistinct.** -/
theorem indistinct_of_equals (h : s.Equals a b) (depth : Nat) : s.Indistinct depth a b := by
  obtain ⟨seen, hseen⟩ := Option.isSome_iff_exists.mp h
  exact (agree_unrefuted depth s.compareDepth a b).shows [] seen
    (fun _ hp => absurd hp List.not_mem_nil) hseen

/-! ### Enough levels -/

/-- The pairs of nodes of the store that so many levels do not tell apart. -/
private noncomputable def indistinctPairs (s : Store) (depth : Nat) : Finset (NodeId × NodeId) := by
  classical
  exact (Finset.range s.nodes.size ×ˢ Finset.range s.nodes.size).filter
    fun p => s.Indistinct depth p.1 p.2

private theorem mem_indistinctPairs : (a, b) ∈ s.indistinctPairs depth ↔
    (a < s.nodes.size ∧ b < s.nodes.size) ∧ s.Indistinct depth a b := by
  simp [indistinctPairs]

/-- **After some number of levels one more tells nothing apart** in the store. -/
theorem exists_stable (s : Store) : ∃ depth, ∀ a b, a < s.nodes.size → b < s.nodes.size →
    s.Indistinct depth a b → s.Indistinct (depth + 1) a b := by
  obtain ⟨-, ⟨depth, rfl⟩, hleast⟩ :=
    wellFounded_lt.has_min (Set.range s.indistinctPairs) ⟨_, 0, rfl⟩
  refine ⟨depth, fun a b ha hb hab => ?_⟩
  have hsub : s.indistinctPairs (depth + 1) ≤ s.indistinctPairs depth := by
    rintro ⟨x, y⟩ hxy
    obtain ⟨hpresent, hindistinct⟩ := mem_indistinctPairs.mp hxy
    exact mem_indistinctPairs.mpr ⟨hpresent, hindistinct.less⟩
  have hsame : s.indistinctPairs (depth + 1) = s.indistinctPairs depth := by
    by_contra hne
    exact hleast _ ⟨depth + 1, rfl⟩ (lt_of_le_of_ne hsub hne)
  have hmem : (a, b) ∈ s.indistinctPairs (depth + 1) :=
    hsame ▸ mem_indistinctPairs.mpr ⟨⟨ha, hb⟩, hab⟩
  exact (mem_indistinctPairs.mp hmem).2

/-! ### Equality as the greatest bisimulation -/

/-- The two nodes are equal nodes of the store. -/
def EqualIn (s : Store) (a b : NodeId) : Prop :=
  a < s.nodes.size ∧ b < s.nodes.size ∧ s.Equals a b

theorem equalIn_refl (ha : a < s.nodes.size) : s.EqualIn a a := ⟨ha, ha, s.equals_refl a⟩

/-- So many levels tell apart all nodes of the store that are not equal. -/
private theorem exists_enough (hs : s.Sound) : ∃ depth, ∀ a b, a < s.nodes.size →
    b < s.nodes.size → s.Indistinct depth a b → s.EqualIn a b := by
  obtain ⟨depth, hstable⟩ := s.exists_stable
  let R : NodeId → NodeId → Prop := fun a b =>
    a < s.nodes.size ∧ b < s.nodes.size ∧ s.Indistinct depth a b
  have hstep : ∀ a b, R a b → a = b ∨ s.MayEqual a b ∧ (s.kind a).Alike R (s.kind b) := by
    rintro a b ⟨ha, hb, hab⟩
    refine (hstable a b ha hb hab).imp id fun ⟨hmay, halike⟩ => ⟨hmay, halike.imp ?_⟩
    exact fun x hx y hy hxy => ⟨hs.child_lt hx, hs.child_lt hy, hxy⟩
  refine ⟨depth, fun a b ha hb hab => ⟨ha, hb, ?_⟩⟩
  exact equal_of_bisimulation hs hstep ha hb ⟨ha, hb, hab⟩

/-- **Equality is a bisimulation** of the nodes of the store. -/
theorem bisimulation_equals (hs : s.Sound) : s.Bisimulation s.EqualIn := by
  obtain ⟨depth, henough⟩ := exists_enough hs
  rintro a b ⟨ha, hb, hab⟩
  refine (indistinct_of_equals hab (depth + 1)).imp id fun ⟨hmay, halike⟩ => ⟨hmay, ?_⟩
  exact halike.imp fun x hx y hy => henough x y (hs.child_lt hx) (hs.child_lt hy)

/-- **Nodes of the store are equal** exactly if some bisimulation pairs them. -/
theorem equals_iff_bisimulation (hs : s.Sound) (ha : a < s.nodes.size) (hb : b < s.nodes.size) :
    s.Equals a b ↔ ∃ R, s.Bisimulation R ∧ R a b := by
  constructor
  · exact fun h => ⟨s.EqualIn, bisimulation_equals hs, ha, hb, h⟩
  · rintro ⟨R, hR, hab⟩
    exact equal_of_bisimulation hs hR ha hb hab

/-- Equal nodes have alike forms. -/
theorem alike_of_equalIn (hs : s.Sound) (h : s.EqualIn a b) :
    (s.kind a).Alike s.EqualIn (s.kind b) := by
  rcases bisimulation_equals hs a b h with rfl | ⟨-, halike⟩
  · exact .refl fun c hc => equalIn_refl (hs.child_lt hc)
  · exact halike

/-- **Candidates over nodes of the store are equal** exactly if the nodes in them are. -/
theorem equalCandidates_iff_alike {c d : Candidate} (hs : s.Sound)
    (hc : ∀ n ∈ c.children, n < s.nodes.size) (hd : ∀ n ∈ d.children, n < s.nodes.size) :
    s.equalCandidates c d = true ↔ c.Alike s.EqualIn d := by
  constructor
  · intro h
    obtain ⟨depth, henough⟩ := exists_enough hs
    obtain ⟨seen, hseen⟩ := Option.isSome_iff_exists.mp h
    have halike : c.Alike (s.Indistinct depth) d :=
      (Candidate.agree_between fun x _ y _ => agree_unrefuted depth s.compareDepth x y).shows
        [] seen (fun _ hp => absurd hp List.not_mem_nil) hseen
    exact halike.imp fun x hx y hy => henough x y (hc x hx) (hd y hy)
  · exact equalCandidates_of_bisimulation hs (bisimulation_equals hs) hc hd

/-- **Sets over nodes of the store are equal** exactly if they are one instance, or as many
candidates each of which is alike to one on the right. -/
theorem equalPossibilities_iff_alike {p q : Possibilities} (hs : s.Sound)
    (hp : ∀ c ∈ p.candidates, ∀ n ∈ c.children, n < s.nodes.size)
    (hq : ∀ d ∈ q.candidates, ∀ n ∈ d.children, n < s.nodes.size) :
    s.equalPossibilities p q = true ↔
      p.token = q.token ∨ Matches (Candidate.Alike s.EqualIn) p.candidates q.candidates := by
  constructor
  · intro h
    obtain ⟨depth, henough⟩ := exists_enough hs
    obtain ⟨seen, hseen⟩ := Option.isSome_iff_exists.mp h
    have halike := (Possibilities.agree_between fun x _ y _ =>
      agree_unrefuted depth s.compareDepth x y).shows
        [] seen (fun _ hp => absurd hp List.not_mem_nil) hseen
    refine halike.imp id fun hmatches => hmatches.imp fun c hc d hd hcd => ?_
    exact hcd.imp fun x hx y hy => henough x y (hp c hc x hx) (hq d hd y hy)
  · have hbetween := Possibilities.agree_between (p := p) (q := q) fun x hx y hy => by
      obtain ⟨c, hc, hx⟩ := List.mem_flatMap.mp hx
      obtain ⟨d, hd, hy⟩ := List.mem_flatMap.mp hy
      exact (bisimulation_equals hs).agree_between hs s.compareDepth (hp c hc x hx) (hq d hd y hy)
    exact hbetween.succeeds [] (.start s)

end Store

end ValueInference
