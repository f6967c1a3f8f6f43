/-
Values that a walk without changes gives back.

A walk cuts a cycle at the node by which it enters: the others on the cycle are rebuilt, and the
node is given back because its copy equals it.  A value is *steady* if this works for every cycle
in it, in whatever order its nodes are met.

* **`Store.Steady`** — every cycle is entered by one node from where it shows, and what is on a
  cycle can be told apart while parts of it are missing;
* **`Store.steady_of_acyclic`** — values without cycles are steady;
* **`Store.ToldApart`** — how members and what is in them are told apart;
* **`Store.Trail`** — the nodes that a walk is inside of, and **`Store.Trail.not_both`**: of two
  nodes it is inside of one only.
-/
import ValueInference.Proofs.Bisimilar
import ValueInference.Proofs.Equivalence

namespace ValueInference

namespace Store

variable {s : Store} {v x y m n u : NodeId} {stack : List NodeId}

/-! ### Ways through a value -/

/-- The first node is the second one, or the second one stands somewhere below it. -/
def Leads (s : Store) : NodeId → NodeId → Prop :=
  Relation.ReflTransGen fun x y => y ∈ (s.kind x).children

/-- One node leads to another one without a step onto `u`. -/
def LeadsAround (s : Store) (u : NodeId) : NodeId → NodeId → Prop :=
  Relation.ReflTransGen fun x y => y ∈ (s.kind x).children ∧ y ≠ u

theorem leads_child (h : y ∈ (s.kind x).children) : s.Leads x y := .single h

theorem below_of_child_leads (hy : y ∈ (s.kind x).children) (h : s.Leads y n) : s.Below n x := by
  induction h with
  | refl => exact .single hy
  | tail _ hstep ih => exact .head hstep ih

theorem leads_of_below (h : s.Below n x) : s.Leads x n := by
  induction h using Relation.TransGen.head_induction_on with
  | single h => exact .single h
  | head h _ ih => exact ih.tail h

theorem present_of_leads (hs : s.Sound) (hv : v < s.nodes.size) (hn : s.Leads v n) :
    n < s.nodes.size := by
  rcases Relation.ReflTransGen.cases_tail hn with rfl | ⟨c, -, hc⟩
  · exact hv
  · exact hs.child_lt hc

/-- A list of nodes that holds what is below them holds all that they lead to. -/
theorem mem_of_leads {ns : List NodeId} (hclosed : ∀ n ∈ ns, ∀ c ∈ (s.kind n).children, c ∈ ns)
    (hx : x ∈ ns) (h : s.Leads x y) : y ∈ ns := by
  induction h with
  | refl => exact hx
  | tail _ hc ih => exact hclosed _ ih _ hc

/-- A node on a cycle leads to itself through a node below it. -/
theorem exists_child_of_cycle (h : s.Below n n) :
    ∃ c ∈ (s.kind n).children, s.Leads c n := by
  obtain ⟨c, hpath, hc⟩ := Relation.TransGen.tail'_iff.mp h
  refine ⟨c, hc, ?_⟩
  rcases Relation.reflTransGen_iff_eq_or_transGen.mp hpath with rfl | hbelow
  · exact .refl
  · exact leads_of_below hbelow

theorem not_founded_of_cycle (h : s.Below n n) : ¬ s.Founded n := fun hn => hn.acyclic h

/-! ### Steady values -/

/-- A walk that changes something below the node changes the node: it is on no cycle, where it
would be compared with what it was, and no function, whose references are compared. -/
def Exposed (s : Store) (x : NodeId) : Prop :=
  ¬ s.Below x x ∧ ∀ slot, s.kind x ≠ .function slot

/-- Of the two nodes a walk that comes to `u` is inside of one at most, and what it is not inside of
has a form: one of them does not lead to `u`, or neither leads to the other except through it. -/
structure OneOpen (s : Store) (u m n : NodeId) : Prop where
  filled : s.kind m ≠ .error .incomplete ∧ s.kind n ≠ .error .incomplete
  around : ¬ s.Leads m u ∨ ¬ s.Leads n u ∨
    (m ≠ u ∧ n ≠ u) ∧ ¬ s.LeadsAround u m n ∧ ¬ s.LeadsAround u n m

/-- Neither of two nodes will be taken for the other by a walk that is inside of `u`. -/
inductive ToldApart (s : Store) (u : NodeId) : NodeId → NodeId → Prop where
  /-- They show different heads. -/
  | head {m n : NodeId} (one : s.OneOpen u m n) (heads : (s.kind m).head ≠ (s.kind n).head) :
      ToldApart s u m n
  /-- Their forms have different places. -/
  | form {m n : NodeId} (one : s.OneOpen u m n) (placed : (s.kind m).Placed)
      (unlike : ∀ R, ¬ (s.kind m).Alike R (s.kind n)) : ToldApart s u m n
  /-- Two nodes that stand in one place of them are told apart. -/
  | part {m n a b : NodeId} (one : s.OneOpen u m n) (placed : (s.kind m).Placed)
      (place : ∀ R, (s.kind m).Alike R (s.kind n) → R a b) (apart : ToldApart s u a b) :
      ToldApart s u m n
  /-- They cannot change, and are not equal. -/
  | fixed {m n : NodeId} (left : s.Founded m) (right : s.Founded n) (differ : s.equal m n = false) :
      ToldApart s u m n

theorem ToldApart.ne (h : s.ToldApart u m n) : m ≠ n := by
  induction h with
  | head _ heads =>
    rintro rfl
    exact heads rfl
  | form _ _ unlike =>
    rintro rfl
    exact unlike (· = ·) (.refl fun _ _ => rfl)
  | part _ _ place _ ih =>
    rintro rfl
    exact ih (place (· = ·) (.refl fun _ _ => rfl))
  | fixed _ _ differ =>
    rintro rfl
    exact Bool.eq_false_iff.mp differ (s.equals_refl _)

/-- What the members of a union on a cycle have to be like. -/
structure MembersApart (s : Store) (u : NodeId) (ms : List NodeId) : Prop where
  flat : ∀ m ∈ ms, (s.kind m).isUnion = false
  apart : ms.Pairwise (s.ToldApart u)

/-- What the candidates of a function on a cycle have to be like: their heads differ, or two nodes
that stand in one place of them are told apart, or they cannot change and are not equal. -/
def CandidatesApart (s : Store) (f : NodeId) (cs : List Candidate) : Prop :=
  cs.Pairwise fun c d =>
    c.head ≠ d.head ∨ (∃ a b, (∀ R, c.Alike R d → R a b) ∧ s.ToldApart f a b) ∨
      s.FoundedIn c ∧ s.FoundedIn d ∧ s.equalCandidates c d = false

/-- A walk without changes gives back the value.  This is asked of the value so that it does, and is
not needed in each case: where it says that candidates or members of unions are told apart by what
stands in one place, something in sets of candidates or unions below may tell them apart as well. -/
structure Steady (s : Store) (v : NodeId) : Prop where
  /-- An exposed node enters a cycle by the node by which all others enter it. -/
  entry : ∀ x y, s.Leads v x → s.Exposed x → y ∈ (s.kind x).children →
    ∀ x' y', s.Leads v x' → y' ∈ (s.kind x').children → ¬ s.Leads y' x' →
      s.Leads y y' → s.Leads y' y → y' = y
  members : ∀ u ms, s.Leads v u → s.Below u u → s.kind u = .union ms → s.MembersApart u ms
  candidates : ∀ f p, s.Leads v f → s.Below f f → s.kind f = .function (.possibilities p) →
    s.CandidatesApart f p.candidates

/-- **Values without cycles are steady.** -/
theorem steady_of_acyclic (h : ∀ n, s.Leads v n → ¬ s.Below n n) : s.Steady v where
  entry x y hx _ hy x' y' _ _ _ hyy' hy'y := by
    rcases Relation.ReflTransGen.cases_head hyy' with hsame | ⟨c, hc, hcy'⟩
    · exact hsame.symm
    · exact absurd (below_of_child_leads hc (hcy'.trans hy'y)) (h y (hx.tail hy))
  members u _ hu hloop := absurd hloop (h u hu)
  candidates f _ hf hloop := absurd hloop (h f hf)

/-- The value itself, or a node that an exposed node mentions. -/
def Entered (s : Store) (v n : NodeId) : Prop :=
  n = v ∨ ∃ x, s.Leads v x ∧ s.Exposed x ∧ n ∈ (s.kind x).children

/-! ### Trails -/

/-- The node may come next in a walk from `v` that is inside of some nodes, innermost first. -/
def Next (s : Store) (v : NodeId) : List NodeId → NodeId → Prop
  | [], n => n = v
  | x :: _, n => n ∈ (s.kind x).children

/-- The nodes that a walk from `v` may be inside of, innermost first. -/
inductive Trail (s : Store) (v : NodeId) : List NodeId → Prop where
  | nil : Trail s v []
  | cons {stack : List NodeId} {n : NodeId} : Trail s v stack → s.Next v stack n → n ∉ stack →
      Trail s v (n :: stack)

namespace Trail

theorem leads (h : s.Trail v stack) : ∀ {n}, s.Next v stack n → ∀ m ∈ stack, s.Leads m n := by
  induction h with
  | nil => exact fun _ _ hm => absurd hm List.not_mem_nil
  | @cons stack x _ hx _ ih =>
    intro n hn m hm
    rcases List.mem_cons.mp hm with rfl | hm
    · exact leads_child hn
    · exact (ih hx m hm).tail hn

/-- All that a walk is inside of leads to the innermost node. -/
theorem leads_top (h : s.Trail v (n :: stack)) (hm : m ∈ n :: stack) : s.Leads m n := by
  cases h with
  | cons hrest hnext _ =>
    rcases List.mem_cons.mp hm with rfl | hm
    · exact .refl
    · exact hrest.leads hnext m hm

theorem leads_root (h : s.Trail v stack) : ∀ {n}, s.Next v stack n → s.Leads v n := by
  induction h with
  | nil =>
    rintro n rfl
    exact .refl
  | @cons stack x _ hx _ ih => exact fun hn => (ih hx).tail hn

theorem leads_mem (h : s.Trail v stack) (hm : m ∈ stack) : s.Leads v m := by
  induction h with
  | nil => exact absurd hm List.not_mem_nil
  | @cons stack x htrail hx _ ih =>
    rcases List.mem_cons.mp hm with rfl | hm
    · exact htrail.leads_root hx
    · exact ih hm

/-- A walk that is inside of anything is inside of the value that it started with. -/
theorem root_mem (h : s.Trail v stack) (hsome : stack ≠ []) : v ∈ stack := by
  induction h with
  | nil => exact absurd rfl hsome
  | @cons stack x _ hx _ ih =>
    cases stack with
    | nil => exact List.mem_singleton.mpr (Eq.symm hx)
    | cons y stack => exact List.mem_cons_of_mem x (ih (by simp))

/-- A node that comes next although the walk is inside of it is on a cycle. -/
theorem below_of_reentry (h : s.Trail v stack) (hn : s.Next v stack n) (hmem : n ∈ stack) :
    s.Below n n := by
  cases h with
  | nil => exact absurd hmem List.not_mem_nil
  | @cons stack top hrest htop _ =>
    rcases List.mem_cons.mp hmem with rfl | hmem
    · exact below_of_child_leads hn .refl
    · rcases Relation.ReflTransGen.cases_head (hrest.leads htop n hmem) with rfl | ⟨c, hc, hctop⟩
      · exact below_of_child_leads hn .refl
      · exact below_of_child_leads hc (hctop.tail hn)

theorem nodup (h : s.Trail v stack) : stack.Nodup := by
  induction h with
  | nil => exact List.nodup_nil
  | cons _ _ hfresh ih => exact List.nodup_cons.mpr ⟨hfresh, ih⟩

/-- Of two nodes that a walk is inside of, one leads to the other without a step onto a node that
is not among them. -/
theorem leadsAround (h : s.Trail v stack) (hu : u ∉ stack) :
    ∀ {n}, s.Next v stack n → n ≠ u → ∀ m ∈ stack, s.LeadsAround u m n := by
  induction h with
  | nil => exact fun _ _ _ hm => absurd hm List.not_mem_nil
  | @cons stack x _ hx _ ih =>
    intro n hn hne m hm
    obtain ⟨hxu, hrest⟩ := not_or.mp (mt List.mem_cons.mpr hu)
    rcases List.mem_cons.mp hm with rfl | hm
    · exact .single ⟨hn, hne⟩
    · exact (ih hrest hx (Ne.symm hxu) m hm).tail ⟨hn, hne⟩

theorem around (h : s.Trail v stack) (hu : u ∉ stack) (hm : m ∈ stack) (hn : n ∈ stack)
    (hne : m ≠ n) : s.LeadsAround u m n ∨ s.LeadsAround u n m := by
  induction h with
  | nil => exact absurd hm List.not_mem_nil
  | @cons stack x htrail hx _ ih =>
    obtain ⟨hxu, hrest⟩ := not_or.mp (mt List.mem_cons.mpr hu)
    rcases List.mem_cons.mp hm with rfl | hm'
    · rcases List.mem_cons.mp hn with rfl | hn'
      · exact absurd rfl hne
      · exact .inr (htrail.leadsAround hrest hx (Ne.symm hxu) n hn')
    · rcases List.mem_cons.mp hn with rfl | hn'
      · exact .inl (htrail.leadsAround hrest hx (Ne.symm hxu) m hm')
      · exact ih hrest hm' hn'

/-- A walk is inside of one of two nodes at most, where that is asked for. -/
theorem not_both (h : s.Trail v (u :: stack)) (hone : s.OneOpen u m n) (hne : m ≠ n)
    (hm : m ∈ u :: stack) (hn : n ∈ u :: stack) : False := by
  rcases hone.around with hback | hback | ⟨⟨hmu, hnu⟩, hmn, hnm⟩
  · exact hback (h.leads_top hm)
  · exact hback (h.leads_top hn)
  · have hm' := (List.mem_cons.mp hm).resolve_left hmu
    have hn' := (List.mem_cons.mp hn).resolve_left hnu
    cases h with
    | cons hrest _ hfresh => exact (hrest.around hfresh hm' hn' hne).elim hmn hnm

end Trail

end Store

end ValueInference
