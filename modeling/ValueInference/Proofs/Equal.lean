/-
Structural equality of values that do not contain themselves.

A comparison remembers pairs that it has found equal, and pairs that it is still inside of.  Below
a founded node none of the latter is met again, so what a comparison remembers does not show:

* **`Store.agree_decides`** — a comparison that starts at a founded node decides `Store.equal`,
  whatever it has found equal before and however much deeper it may go;
* **`Store.equal_iff`** — a founded node equals another if they are the same, or if digests and
  instances allow it and the forms are alike, with equal nodes below.
-/
import ValueInference.Proofs.Matching
import ValueInference.Proofs.Ground

namespace ValueInference

namespace Store

variable {s : Store} {a b : NodeId}

/-- Structural equality, as a relation. -/
abbrev Equals (s : Store) (a b : NodeId) : Prop := s.equal a b = true

/-- Neither the digests nor the instances of two nodes tell them apart. -/
def MayEqual (s : Store) (a b : NodeId) : Prop :=
  (∀ d e, s.digest a = some d → s.digest b = some e → d = e) ∧
    ¬ (s.isInterned a = true ∧ s.isInterned b = true)

/-- What a look at two different nodes has to find for them to be equal. -/
def EqualStep (s : Store) (a b : NodeId) : Prop :=
  a = b ∨ s.MayEqual a b ∧ (s.kind a).Alike s.Equals (s.kind b)

/-- Every pair that is remembered was found equal, or is still under comparison. -/
private def Remembered (s : Store) (inside seen : Assumed) : Prop :=
  ∀ p ∈ seen, p ∈ inside ∨ s.Equals p.1 p.2

/-- None of the pairs starts at the node or below which the node stands. -/
private def Outside (s : Store) (inside : Assumed) (a : NodeId) : Prop :=
  ∀ p ∈ inside, p.1 ≠ a ∧ ¬ s.Below p.1 a

private theorem Outside.child {inside : Assumed} {c : NodeId} (h : s.Outside inside a)
    (ha : ¬ s.Below a a) (hc : c ∈ (s.kind a).children) : s.Outside ((a, b) :: inside) c := by
  have hstep : s.Below c a := .single hc
  rintro p (_ | ⟨_, hp⟩)
  · refine ⟨?_, fun hac => ha (hac.trans hstep)⟩
    rintro rfl
    exact ha hstep
  · obtain ⟨hne, hbelow⟩ := h p hp
    refine ⟨?_, fun hpc => hbelow (hpc.trans hstep)⟩
    rintro rfl
    exact hbelow hstep

/-- One level of a comparison of a pair that is not remembered. -/
private theorem agree_fresh {fuel : Nat} {inside seen : Assumed}
    (hbelow : ∀ c ∈ (s.kind a).children, ∀ d,
      Decides (s.Remembered ((a, b) :: inside)) (s.agree fuel c d) (s.Equals c d))
    (hseen : s.Remembered inside seen) (hfresh : (a, b) ∉ seen) :
    ((s.agree (fuel + 1) a b seen).isSome = true ↔ s.EqualStep a b) ∧
      ∀ seen', s.agree (fuel + 1) a b seen = some seen' →
        s.Remembered ((a, b) :: inside) seen' := by
  have hpush : s.Remembered ((a, b) :: inside) ((a, b) :: seen) := by
    rintro p (_ | ⟨_, hp⟩)
    · exact .inl List.mem_cons_self
    · exact (hseen p hp).imp (List.mem_cons_of_mem _) id
  rw [agree, EqualStep]
  split
  · next hab =>
    refine ⟨by simp [hab], ?_⟩
    rintro _ ⟨⟩
    exact fun p hp => (hseen p hp).imp (List.mem_cons_of_mem _) id
  next hab =>
  split
  · next hd =>
    simp only [Bool.and_eq_true, bne_iff_ne, Option.isSome_iff_exists] at hd
    obtain ⟨⟨⟨d, hda⟩, ⟨e, heb⟩⟩, hne⟩ := hd
    have hnot : ¬ s.MayEqual a b := fun h => hne (by rw [hda, heb, h.1 d e hda heb])
    exact ⟨by simp [hab, hnot], by simp⟩
  next hd =>
  split
  · next hi =>
    have hnot : ¬ s.MayEqual a b := fun h => h.2 (by simpa using hi)
    exact ⟨by simp [hab, hnot], by simp⟩
  next hi =>
  have hmay : s.MayEqual a b := by
    refine ⟨fun d e hda heb => ?_, by simpa using hi⟩
    by_contra hne
    exact hd (by simp [hda, heb, hne])
  obtain ⟨hiff, hkeep⟩ := Kind.agree_decides (fun c hc d _ => hbelow c hc d) _ hpush
  exact ⟨by simp [hab, hmay, hiff], hkeep⟩

private theorem agree_remembered {fuel : Nat} {seen : Assumed} (h : s.EqualStep a b)
    (hmem : (a, b) ∈ seen) : s.agree (fuel + 1) a b seen = some seen := by
  rw [agree]
  rcases h with hab | ⟨⟨hdigest, hinterned⟩, -⟩
  · rw [if_pos hab]
  have hd : ((s.digest a).isSome && (s.digest b).isSome && s.digest a != s.digest b) = false := by
    rcases hda : s.digest a with _ | d
    · rfl
    rcases heb : s.digest b with _ | e
    · rfl
    simp [hdigest d e hda heb]
  have hi : (s.isInterned a && s.isInterned b) = false := by
    simpa using hinterned
  rw [hd, hi, if_pos hmem]
  simp

/-- A comparison at a founded node decides one step of equality, and that step is equality. -/
private theorem agree_within (k : Nat) : ∀ {a : NodeId},
    s.EndsWithin k a → k ≤ s.compareDepth →
      (∀ b, s.Equals a b ↔ s.EqualStep a b) ∧
        ∀ fuel b inside, k ≤ fuel → s.Outside inside a →
          Decides (s.Remembered inside) (s.agree fuel a b) (s.Equals a b) := by
  induction k with
  | zero =>
    intro a h _
    exact h.elim
  | succ k ih =>
    intro a h hk
    have hbelow : ∀ fuel b inside, k ≤ fuel → s.Outside inside a → ∀ c ∈ (s.kind a).children,
        ∀ d, Decides (s.Remembered ((a, b) :: inside)) (s.agree fuel c d) (s.Equals c d) :=
      fun fuel b inside hfuel hout c hc d =>
        (ih (h.2 c hc) (by omega)).2 fuel d _ hfuel (hout.child h.acyclic hc)
    -- equality itself is a comparison that remembers nothing
    have hequal : ∀ b, s.Equals a b ↔ s.EqualStep a b := by
      intro b
      obtain ⟨depth, hdepth⟩ : ∃ depth, s.compareDepth = depth + 1 := ⟨_, rfl⟩
      rw [Equals, equal, hdepth]
      refine (agree_fresh (hbelow depth b [] (by omega) ?_) ?_ ?_).1
      · exact fun p hp => absurd hp List.not_mem_nil
      · exact fun p hp => absurd hp List.not_mem_nil
      · exact List.not_mem_nil
    refine ⟨hequal, fun fuel b inside hfuel hout seen hseen => ?_⟩
    obtain ⟨fuel, rfl⟩ : ∃ j, fuel = j + 1 := ⟨fuel - 1, by omega⟩
    by_cases hmem : (a, b) ∈ seen
    · -- the pair was found equal: the pairs still under comparison start above `a`
      have heq : s.Equals a b :=
        (hseen (a, b) hmem).resolve_left fun hin => (hout _ hin).1 rfl
      rw [agree_remembered ((hequal b).mp heq) hmem]
      exact ⟨iff_of_true rfl heq, by rintro _ ⟨⟩; exact hseen⟩
    · obtain ⟨hiff, hkeep⟩ := agree_fresh (hbelow fuel b inside (by omega) hout) hseen hmem
      refine ⟨hiff.trans (hequal b).symm, fun seen' hsome p hp => ?_⟩
      rcases hkeep seen' hsome p hp with (_ | ⟨_, hp⟩) | hp
      · exact .inr ((hequal b).mpr (hiff.mp (by simp [hsome])))
      · exact .inl hp
      · exact .inr hp

theorem size_lt_compareDepth : s.nodes.size < s.compareDepth :=
  Nat.lt_succ_of_le (Nat.le_mul_self _)

/-- **A comparison that starts at a founded node decides equality**, to any depth that is enough
for the node. -/
theorem agree_decides {fuel : Nat} (ha : s.Founded a) (hfuel : s.nodes.size < fuel) (b : NodeId) :
    Decides (s.Remembered []) (s.agree fuel a b) (s.Equals a b) :=
  (agree_within _ ha size_lt_compareDepth).2 fuel b [] hfuel fun _ hp =>
    absurd hp List.not_mem_nil

/-- **Equality of a founded node** is one of forms with equal nodes below. -/
theorem equal_iff (ha : s.Founded a) : s.Equals a b ↔ s.EqualStep a b :=
  (agree_within _ ha size_lt_compareDepth).1 b

theorem equals_refl (s : Store) (a : NodeId) : s.Equals a a := by
  obtain ⟨depth, hdepth⟩ : ∃ depth, s.compareDepth = depth + 1 := ⟨_, rfl⟩
  rw [Equals, equal, hdepth, agree, if_pos rfl]
  rfl

/-! ### Candidates -/

/-- Every node in a candidate is founded. -/
def FoundedIn (s : Store) (c : Candidate) : Prop := ∀ n ∈ c.children, s.Founded n

theorem equalCandidates_iff {c d : Candidate} (hc : s.FoundedIn c) :
    s.equalCandidates c d = true ↔ c.Alike s.Equals d := by
  refine (Candidate.agree_decides (I := s.Remembered []) fun a ha b _ => ?_) [] ?_ |>.1
  · exact agree_decides (hc a ha) size_lt_compareDepth b
  · exact fun p hp => absurd hp List.not_mem_nil

theorem hasCandidate_iff {cs : List Candidate} {c : Candidate} (hcs : ∀ d ∈ cs, s.FoundedIn d) :
    s.hasCandidate cs c = true ↔ ∃ d ∈ cs, d.Alike s.Equals c := by
  rw [hasCandidate, List.any_eq_true]
  refine exists_congr fun d => and_congr_right fun hd => ?_
  exact equalCandidates_iff (hcs d hd)

/-- **A set is part of another** if each candidate is alike to one of the other set. -/
theorem isSubset_iff {cs ds : List Candidate} (hds : ∀ d ∈ ds, s.FoundedIn d) :
    s.isSubset cs ds = true ↔ ∀ c ∈ cs, ∃ d ∈ ds, d.Alike s.Equals c := by
  rw [isSubset, List.all_eq_true]
  exact forall₂_congr fun c _ => hasCandidate_iff hds

theorem addCandidates_nil {cs : List Candidate} : s.addCandidates cs [] = cs := rfl

theorem addCandidates_cons {d : Candidate} {cs ds : List Candidate} :
    s.addCandidates cs (d :: ds) =
      s.addCandidates (if s.hasCandidate cs d then cs else cs ++ [d]) ds := rfl

/-- What is added comes from the candidates that were to be added. -/
theorem mem_of_mem_addCandidates {c : Candidate} : ∀ {ds cs : List Candidate},
    c ∈ s.addCandidates cs ds → c ∈ cs ∨ c ∈ ds := by
  intro ds
  induction ds with
  | nil => exact fun {cs} hc => .inl hc
  | cons d ds ih =>
    intro cs hc
    rw [addCandidates_cons] at hc
    split at hc
    · exact (ih hc).imp_right (List.mem_cons_of_mem d)
    · rcases ih hc with hc | hc
      · refine (List.mem_append.mp hc).imp_right fun hd => ?_
        rw [List.mem_singleton.mp hd]
        exact List.mem_cons_self
      · exact .inr (List.mem_cons_of_mem d hc)

theorem alike_refl (s : Store) (c : Candidate) : c.Alike s.Equals c :=
  .refl fun a _ => s.equals_refl a

end Store

end ValueInference
