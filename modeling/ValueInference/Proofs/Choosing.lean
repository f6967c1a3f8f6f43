/-
In what order pendings are chosen.

A loop that forces takes the pending of the highest rank, and of those with the same rank the one
that was registered first.  If a machine goes on in rounds, and in each round it starts the resolver
of the one that comes before all others that are left, then it starts all of them in order: the
rounds are those of a selection sort.

* **`Machine.Precedes`** — the order of the ranks, and of the numbers where ranks are the same;
* **`Machine.eq_of_precedes`** — there is only one order of some pendings;
* **`Machine.better_cases`** — the better of two pendings precedes the other;
* **`Machine.Passes`** — a part of a run, with the resolvers that start in it;
* **`Machine.passes_in_order`** — rounds that each take the first one that is left.
-/
import ValueInference.Proofs.Driving

namespace ValueInference

namespace Machine

variable {σ : Type} {m m' m'' : Machine σ} {rank : PendingId → Option Int} {p q r : PendingId}
  {ps : List PendingId} {depth : Nat}

/-! ### Ranks -/

theorem above_trans {a b c : Option Int} (h : above a b = true) (h' : above b c = true) :
    above a c = true := by
  rcases a with _ | a
  · exact nomatch h
  rcases b with _ | b
  · exact nomatch h'
  rcases c with _ | c
  · rfl
  · have hab : b < a := of_decide_eq_true h
    have hbc : c < b := of_decide_eq_true h'
    exact decide_eq_true (hbc.trans hab)

theorem eq_of_not_above {a b : Option Int} (h : ¬ above a b = true) (h' : ¬ above b a = true) :
    a = b := by
  rcases a with _ | a <;> rcases b with _ | b
  · rfl
  · exact absurd rfl h'
  · exact absurd rfl h
  · have hab : ¬ b < a := fun hlt => h (decide_eq_true hlt)
    have hba : ¬ a < b := fun hlt => h' (decide_eq_true hlt)
    exact congrArg some (by omega)

/-- One pending comes before another: its rank is above, or it was registered first among those of
the same rank. -/
def Precedes (m : Machine σ) (rank : PendingId → Option Int) (p q : PendingId) : Prop :=
  above (rank p) (rank q) = true ∨
    rank p = rank q ∧ m.store.pendingNumber p < m.store.pendingNumber q

instance : Decidable (m.Precedes rank p q) := inferInstanceAs (Decidable (_ ∨ _))

theorem Precedes.trans (h : m.Precedes rank p q) (h' : m.Precedes rank q r) :
    m.Precedes rank p r := by
  rcases h with habove | ⟨hsame, hlt⟩ <;> rcases h' with habove' | ⟨hsame', hlt'⟩
  · exact .inl (above_trans habove habove')
  · exact .inl (hsame' ▸ habove)
  · exact .inl (hsame ▸ habove')
  · exact .inr ⟨hsame.trans hsame', hlt.trans hlt'⟩

theorem not_precedes_self (m : Machine σ) (rank : PendingId → Option Int) (p : PendingId) :
    ¬ m.Precedes rank p p := by
  rintro (habove | ⟨-, hlt⟩)
  · cases h : rank p with
    | none =>
      rw [h] at habove
      exact nomatch habove
    | some a =>
      rw [h] at habove
      exact Int.lt_irrefl a (of_decide_eq_true habove)
  · exact Nat.lt_irrefl _ hlt

/-- **There is only one order** of some pendings. -/
theorem eq_of_precedes {qs : List PendingId} (hps : ps.Pairwise (m.Precedes rank))
    (hqs : qs.Pairwise (m.Precedes rank)) (hperm : ps.Perm qs) : ps = qs :=
  List.Perm.eq_of_pairwise
    (fun p _ _ _ hpq hqp => absurd (hpq.trans hqp) (m.not_precedes_self rank p)) hps hqs hperm

/-- A pending precedes a later one that is not above it. -/
theorem precedes_of_not_above (h : ¬ above (rank q) (rank p) = true)
    (hlt : m.store.pendingNumber p < m.store.pendingNumber q) : m.Precedes rank p q := by
  by_cases habove : above (rank p) (rank q) = true
  · exact .inl habove
  · exact .inr ⟨eq_of_not_above habove h, hlt⟩

/-- **The better** of a pending and the best one before it precedes the other one. -/
theorem better_cases (m : Machine σ) (rank : PendingId → Option Int)
    (hlt : m.store.pendingNumber p < m.store.pendingNumber q) :
    (better (some (p, rank p)) q (rank q) = (p, rank p) ∧ m.Precedes rank p q) ∨
      better (some (p, rank p)) q (rank q) = (q, rank q) ∧ m.Precedes rank q p := by
  by_cases habove : above (rank q) (rank p) = true
  · exact .inr ⟨if_pos habove, .inl habove⟩
  · exact .inl ⟨if_neg habove, precedes_of_not_above habove hlt⟩

/-! ### Parts of a run -/

theorem invocations_add (m : Machine σ) (i k : Nat) :
    m.invocations (i + k) = m.invocations i ++ (m.run i).invocations k := by
  induction k with
  | zero => exact (List.append_nil _).symm
  | succ k ih =>
    rw [← Nat.add_assoc, invocations_succ, ih, invocations_succ, run_add, List.append_assoc]

/-- A run comes to a machine, and these are the pendings whose resolvers start on the way.  Until
then the stack is higher than some depth. -/
def Passes (m : Machine σ) (depth : Nat) (started : List PendingId) (m' : Machine σ) : Prop :=
  ∃ n, m.run n = m' ∧ m.invocations n = started ∧ ∀ i < n, depth < (m.run i).stack.length

namespace Passes

variable {started started' : List PendingId}

theorem refl (m : Machine σ) (depth : Nat) : m.Passes depth [] m :=
  ⟨0, rfl, rfl, fun _ hi => absurd hi (Nat.not_lt_zero _)⟩

theorem trans (h : m.Passes depth started m') (h' : m'.Passes depth started' m'') :
    m.Passes depth (started ++ started') m'' := by
  obtain ⟨n, rfl, rfl, habove⟩ := h
  obtain ⟨n', rfl, rfl, habove'⟩ := h'
  refine ⟨n + n', run_add n n' m, invocations_add m n n', fun i hi => ?_⟩
  rcases Nat.lt_or_ge i n with hlt | hge
  · exact habove i hlt
  · obtain ⟨d, rfl⟩ := Nat.exists_eq_add_of_le hge
    rw [run_add]
    exact habove' d (Nat.lt_of_add_lt_add_left hi)

/-- A step is a part of a run. -/
theorem of_step (hstep : m.step = some m') (hdepth : depth < m.stack.length) :
    m.Passes depth m.invoked?.toList m' := by
  refine ⟨1, run_of_step (i := 0) hstep, invocations_succ m 0, fun i hi => ?_⟩
  obtain rfl : i = 0 := by omega
  exact hdepth

/-- A step that leaves no more resolvers under way starts none. -/
theorem of_quiet (hstep : m.step = some m') (hdepth : depth < m.stack.length)
    (h : m'.resolvers.length ≤ m.resolvers.length) : m.Passes depth [] m' := by
  have hpasses := of_step hstep hdepth
  rwa [invoked?_of_le hstep h] at hpasses

theorem reachable (h : m.Passes depth started m') (hm : m.Reachable) : m'.Reachable := by
  obtain ⟨n, rfl, -, -⟩ := h
  exact hm.run n

end Passes

/-! ### Rounds -/

/-- **A selection sort:** if in each round a machine starts the resolver of the pending that is
before all others that are left, it starts all of them in order. -/
theorem passes_in_order {Left : List PendingId → Machine σ → Prop} {Done : Machine σ → Prop}
    {R : PendingId → PendingId → Prop}
    (hround : ∀ rem m, rem ≠ [] → Left rem m → ∃ p ∈ rem, (∀ q ∈ rem, q ≠ p → R p q) ∧
      ∃ m', m.Passes depth [p] m' ∧ Left (rem.erase p) m')
    (hend : ∀ m, Left [] m → ∃ m', m.Passes depth [] m' ∧ Done m')
    (hnodup : ps.Nodup) (hm : Left ps m) :
    ∃ started m', m.Passes depth started m' ∧ Done m' ∧ started.Perm ps ∧ started.Pairwise R := by
  generalize hn : ps.length = n
  induction n generalizing ps m with
  | zero =>
    obtain rfl := List.length_eq_zero_iff.mp hn
    obtain ⟨m', hpasses, hdone⟩ := hend m hm
    exact ⟨[], m', hpasses, hdone, .refl _, .nil⟩
  | succ n ih =>
    have hne : ps ≠ [] := by
      rintro rfl
      exact nomatch hn
    obtain ⟨p, hp, hfirst, m', hpasses, hleft⟩ := hround ps m hne hm
    have hlength : (ps.erase p).length = n := by
      rw [List.length_erase_of_mem hp, hn, Nat.add_sub_cancel]
    obtain ⟨started, m'', hpasses', hdone, hperm, hordered⟩ := ih (hnodup.erase p) hleft hlength
    refine ⟨p :: started, m'', hpasses.trans hpasses', hdone, ?_, ?_⟩
    · exact (hperm.cons p).trans (List.perm_cons_erase hp).symm
    · refine List.pairwise_cons.mpr ⟨fun q hq => ?_, hordered⟩
      obtain ⟨hqp, hq⟩ := hnodup.mem_erase_iff.mp (hperm.mem_iff.mp hq)
      exact hfirst q hq hqp

end Machine

end ValueInference
