/-
Values as the check leaves them.

A value is *proper* if it is complete, lies on no cycle, reaches no pending, and every form in it
passes the check of a form.  What is in a proper value depends on the nodes below it alone, so it
stays proper in every later store, and a node that is made of a form over proper nodes is proper if
the form passes the check.

* **`Store.Proper`** — complete values without cycles and pendings, all of whose forms pass the
  check, and **`Store.Ground.proper`**: ground values that reach no pending are proper;
* **`Store.Tidy`** — no union in the value lists members that equal each other;
* **`Store.fault?_of_reordered`** — what passes the check passes it in every order, and later on;
* **`Store.Proper.of_children`**, **`Store.Grows.proper`** — how proper values come about, and last.
-/
import ValueInference.Proofs.Cleared
import ValueInference.Proofs.Histories

namespace ValueInference

/-! ### The check and order -/

section

variable {v w : Slot} {k k' : Kind}

theorem Slot.Reordered.mem_candidates {c : Candidate} (h : v.Reordered w) :
    c ∈ Infer.candidatesOf v ↔ c ∈ Infer.candidatesOf w := by
  cases h with
  | same => exact Iff.rfl
  | possibilities h => exact h.mem_iff

/-- What has no order does not matter to the rules about a form. -/
theorem Kind.Reordered.conforms (h : k.Reordered k') (hk : k'.Conforms) : k.Conforms := by
  cases h with
  | same => exact hk
  | scalar ty h => exact fun c hc => hk c (h.mem_candidates.mp hc)
  | record tag h => exact (h.map Prod.fst).nodup_iff.mpr hk
  | union h => exact hk.trans_eq h.length_eq.symm
  | tagged h =>
    refine ⟨?_, (h.map Prod.fst).nodup_iff.mpr hk.2⟩
    rintro rfl
    exact hk.1 h.symm.eq_nil
  | function h => exact fun c hc => hk c (h.mem_candidates.mp hc)

end

namespace Store

variable {s t u : Store} {a b c m n : NodeId} {k k' : Kind} {v : Slot}

/-- Every form in a reachable store follows the rules about a form alone. -/
theorem Reachable.conforms (h : s.Reachable) (n : NodeId) : (s.kind n).Conforms := by
  suffices hhistory : ∃ es, History es s from hhistory.elim fun _ hes => hes.conforms n
  induction h with
  | start => exact ⟨[], .start⟩
  | @step s c _ _ ih =>
    obtain ⟨es, hes⟩ := ih
    exact ⟨es ++ [(s, c)], .change c hes⟩

/-- **What passes the check** passes it in every order, and in every later store. -/
theorem fault?_of_reordered (hgrows : s.Grows t) (h : k'.Reordered k) (hk : s.fault? k = none) :
    t.fault? k' = none := by
  obtain ⟨hknows, hconforms, hflat⟩ := fault?_eq_none_iff.mp hk
  obtain ⟨hchildren, hpendings⟩ := knows_iff.mp hknows
  refine fault?_eq_none_iff.mpr ⟨knows_iff.mpr ⟨fun c hc => ?_, fun p hp => ?_⟩,
    h.conforms hconforms, ?_⟩
  · exact (hchildren c (h.mem_children.mp hc)).trans_le hgrows.size_le
  · rw [h.alike.pendings_eq] at hp
    rw [hgrows.pendings]
    exact hpendings p hp
  · rintro ms rfl m hm
    obtain ⟨ns, rfl, hperm⟩ := h.symm.union_inv
    have hmem : m ∈ ns := hperm.mem_iff.mpr hm
    rw [hgrows.kind_eq (hchildren m hmem)]
    exact hflat ns rfl m hmem

/-! ### Proper values -/

/-- A complete value without cycles that reaches no pending, all of whose forms pass the check: the
candidates of scalars fit their types, fields and options have different labels, functions have
functions to choose from, and unions have two members at least, none of them a union. -/
structure Proper (s : Store) (a : NodeId) : Prop where
  finished : s.Finished a
  acyclic : ∀ n, s.Leads a n → ¬ s.Below n n
  clear : s.Clear a
  valid : ∀ n, s.Leads a n → s.fault? (s.kind n) = none

namespace Proper

theorem leads (h : s.Proper a) (hab : s.Leads a b) : s.Proper b where
  finished := h.finished.leads hab
  acyclic n hn := h.acyclic n (hab.trans hn)
  clear n hn := h.clear n (hab.trans hn)
  valid n hn := h.valid n (hab.trans hn)

theorem child (h : s.Proper a) (hc : c ∈ (s.kind a).children) : s.Proper c :=
  h.leads (leads_child hc)

theorem member (h : s.Proper a) (hm : m ∈ s.members a) : s.Proper m := by
  rcases mem_members hm with hm | ⟨rfl, -⟩
  · exact h.child hm
  · exact h

theorem present (h : s.Proper a) : a < s.nodes.size := h.finished.present

theorem founded (h : s.Proper a) : s.Founded a :=
  endsWithin_of_acyclic (P := s.Proper) (fun _ hm => hm.present) (fun _ hm _ => hm.child)
    (fun m hm => hm.acyclic m .refl) h

theorem conforms (h : s.Proper a) : (s.kind a).Conforms :=
  (fault?_eq_none_iff.mp (h.valid a .refl)).2.1

theorem slot_pendings (h : s.Proper a) (hv : (s.kind a).slot? = some v) : v.pendings = [] := by
  have hnone := h.clear a .refl
  rwa [Kind.pendings, hv] at hnone

/-- No member of a proper value is a union. -/
theorem members_flat (h : s.Proper a) : ∀ m ∈ s.members a, (s.kind m).isUnion = false :=
  members_flat_of (fault?_eq_none_iff.mp (h.valid a .refl)).2.2

/-- The slot of a proper value is settled if the nodes below are closed. -/
theorem settled_of_below (h : s.Proper a) (hbelow : ∀ c ∈ (s.kind a).children, s.Closed c)
    (hv : (s.kind a).slot? = some v) : s.Settled v := by
  have hself := s.resolve_self v (h.slot_pendings hv)
  refine ⟨?_, fun c hc => hbelow c ?_⟩
  · have hnone := h.slot_pendings hv
    rw [waitsOn, hself]
    cases v with
    | pending p => exact absurd hnone (List.cons_ne_nil p [])
    | _ => rfl
  · rw [hself] at hc
    rwa [Kind.children_of_slot hv]

/-- **A proper value is closed.** -/
theorem closed (h : s.Proper a) : s.Closed a := by
  -- a slot is settled as soon as the nodes in its candidates are closed
  refine h.founded.induct (motive := fun n => s.Proper n → s.Closed n) ?_ h
  intro n _ ih hn
  have hbelow : ∀ c ∈ (s.kind n).children, s.Closed c := fun c hc => ih c hc (hn.child hc)
  exact .of_mentions hn.present hbelow fun v hv => hn.settled_of_below hbelow hv

theorem settled (h : s.Proper a) (hv : (s.kind a).slot? = some v) : s.Settled v :=
  h.closed.settled hv

/-- **A node is proper** if its form passes the check and is over proper nodes. -/
theorem of_children (hcomplete : s.isComplete a = true) (hclear : (s.kind a).pendings = [])
    (hvalid : s.fault? (s.kind a) = none) (h : ∀ c ∈ (s.kind a).children, s.Proper c) :
    s.Proper a where
  finished := finished_of_children hcomplete fun c hc => (h c hc).finished
  clear := clear_of_children hclear fun c hc => (h c hc).clear
  acyclic n hn := by
    rcases Relation.ReflTransGen.cases_head hn with rfl | ⟨c, hc, hcn⟩
    · exact EndsWithin.acyclic (Founded.of_children (present_of_isComplete hcomplete)
        fun c hc => (h c hc).founded)
    · exact (h c hc).acyclic n hcn
  valid n hn := by
    rcases Relation.ReflTransGen.cases_head hn with rfl | ⟨c, hc, hcn⟩
    · exact hvalid
    · exact (h c hc).valid n hcn

end Proper

/-- **Proper values last.** -/
theorem Grows.proper (h : s.Grows t) (ha : s.Proper a) : t.Proper a where
  finished := h.keeps.finished ha.finished
  clear := h.keeps.clear ha.finished ha.clear
  acyclic n hn := by
    -- the value leads to the same nodes as before, since all of them are finished
    have hlead := (h.keeps.leads_iff ha.finished).mp hn
    exact EndsWithin.acyclic (h.founded (ha.leads hlead).founded)
  valid n hn := by
    have hlead := (h.keeps.leads_iff ha.finished).mp hn
    rw [h.kind_eq (ha.leads hlead).present]
    exact fault?_of_reordered h (.same _) (ha.valid n hlead)

/-- What a node leads to can be reached from it. -/
theorem reaches_of_leads (h : s.Leads a n) : s.Reaches a n :=
  Relation.ReflTransGen.mono (fun _ _ hc => mem_mentions_of_child hc) _ _ h

/-- **Ground values that reach no pending are proper.** -/
theorem Ground.proper (hs : s.Reachable) (ha : s.Ground a) (hclear : s.Clear a) : s.Proper a where
  finished n hn := ha.complete n (reaches_of_leads hn)
  acyclic n hn := ha.acyclic n (reaches_of_leads hn)
  clear := hclear
  valid n hn := by
    refine fault?_eq_none_iff.mpr ⟨hs.sound.known n, hs.conforms n, fun ms hms => ?_⟩
    exact (ha.normalised n ms (reaches_of_leads hn) hms).flat

/-! ### Checking values -/

section

variable {p q : NodeId → Bool} {depth : Nat}

/-- What a search checks holds of every node that the value leads to. -/
theorem leads_of_everywhere (h : s.everywhere p depth a = true) (hn : s.Leads a n) :
    p n = true := by
  obtain ⟨d, hd⟩ := everywhere_reaches h (reaches_of_leads hn)
  exact here_of_everywhere hd

theorem everywhere_imp (hpq : ∀ n, p n = true → q n = true) :
    ∀ {a : NodeId}, s.everywhere p depth a = true → s.everywhere q depth a = true := by
  induction depth with
  | zero => exact fun h => h
  | succ depth ih =>
    intro a h
    rw [everywhere, Bool.and_eq_true, List.all_eq_true] at h ⊢
    exact ⟨hpq a h.1, fun c hc => ih (h.2 c hc)⟩

end

/-- Whether a node is complete and no pending's scalar or function, and its form passes the
check. -/
def properAt (s : Store) (n : NodeId) : Bool :=
  s.isComplete n && decide ((s.kind n).pendings = []) && (s.fault? (s.kind n)).isNone

/-- **A value is proper if a search says so.** -/
theorem Proper.of_everywhere (depth : Nat) (h : s.everywhere s.properAt depth a = true) :
    s.Proper a := by
  have hparts : ∀ n, s.properAt n = true → s.isComplete n = true ∧ (s.kind n).pendings = [] ∧
      s.fault? (s.kind n) = none := by
    intro n hn
    rwa [properAt, Bool.and_eq_true, Bool.and_eq_true, decide_eq_true_iff,
      Option.isNone_iff_eq_none, and_assoc] at hn
  have hat : ∀ n, s.Leads a n → _ := fun n hn => hparts n (leads_of_everywhere h hn)
  refine ⟨fun n hn => (hat n hn).1, fun n hn => ?_, fun n hn => (hat n hn).2.1,
    fun n hn => (hat n hn).2.2⟩
  obtain ⟨d, hd⟩ := everywhere_reaches h (reaches_of_leads hn)
  exact (endsWithin_of_everywhere (fun m hm => present_of_isComplete (hparts m hm).1) hd).acyclic

/-! ### Tidy values -/

/-- No two of some members equal each other. -/
def Unlike (s : Store) (ms : List NodeId) : Prop :=
  ms.Pairwise fun m n => ¬ (s.Equals m n ∧ s.Equals n m)

/-- No union in the value lists members that equal each other. -/
def Tidy (s : Store) (a : NodeId) : Prop :=
  ∀ n ms, s.Leads a n → s.kind n = .union ms → s.Unlike ms

theorem Tidy.child (h : s.Tidy a) (hc : c ∈ (s.kind a).children) : s.Tidy c :=
  fun n ms hn => h n ms (.head hc hn)

theorem Tidy.member (h : s.Tidy a) (hm : m ∈ s.members a) : s.Tidy m := by
  rcases mem_members hm with hm | ⟨rfl, -⟩
  · exact h.child hm
  · exact h

theorem tidy_of_children (hunion : ∀ ms, s.kind a = .union ms → s.Unlike ms)
    (h : ∀ c ∈ (s.kind a).children, s.Tidy c) : s.Tidy a := by
  intro n ms hn
  rcases Relation.ReflTransGen.cases_head hn with rfl | ⟨c, hc, hcn⟩
  · exact hunion ms
  · exact h c hc n ms hcn

theorem Unlike.of_perm {ms ns : List NodeId} (h : s.Unlike ms) (hperm : ns.Perm ms) : s.Unlike ns :=
  hperm.symm.pairwise h fun hmn hnm => hmn ⟨hnm.2, hnm.1⟩

/-- What is listed twice equals itself. -/
theorem Unlike.nodup {ms : List NodeId} (h : s.Unlike ms) : ms.Nodup :=
  h.imp fun {m n} hmn => by
    rintro rfl
    exact hmn ⟨s.equals_refl m, s.equals_refl m⟩

theorem Tidy.plain (h : s.Tidy a) : s.Plain a := by
  rintro n ms (rfl | hn) hms
  · exact (h n ms .refl hms).nodup
  · exact (h n ms (leads_of_below hn) hms).nodup

theorem Grows.unlike {ms : List NodeId} (h : s.Grows t) (hms : ∀ m ∈ ms, s.Founded m)
    (hunlike : s.Unlike ms) : t.Unlike ms := by
  refine List.Pairwise.imp_of_mem (fun {m n} hm hn hmn heq => hmn ?_) hunlike
  exact ⟨(h.equals_iff (hms m hm) (hms n hn)).mp heq.1,
    (h.equals_iff (hms n hn) (hms m hm)).mp heq.2⟩

theorem Grows.tidy (h : s.Grows t) (ha : s.Proper a) (htidy : s.Tidy a) : t.Tidy a := by
  intro n ms hn hms
  have hlead := (h.keeps.leads_iff ha.finished).mp hn
  rw [h.kind_eq (ha.leads hlead).present] at hms
  refine h.unlike (fun m hm => (ha.leads hlead).founded.child ?_) (htidy n ms hlead hms)
  rwa [hms]

theorem Ground.tidy (h : s.Ground a) : s.Tidy a := by
  intro n ms hn hms
  refine (h.normalised n ms (reaches_of_leads hn) hms).distinct.imp fun {m n} hmn heq => ?_
  exact Bool.eq_false_iff.mp hmn.1 heq.1

end Store

end ValueInference
