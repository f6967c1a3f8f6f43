/-
Values that are finished while others are still put together.

A node is *finished* if all that it leads to has a form.  A node that has a form keeps it, so
whatever a comparison finds out about finished nodes is found out again in every later store.

* **`Store.Finished`** — nothing that the node leads to is a placeholder;
* **`Store.Keeps`** — nodes that have a form keep it;
* **`Store.Keeps.equalIn_iff`**, **`Store.Keeps.equalCandidates_eq`** — comparisons of what is
  finished stay as they are;
* **`Store.finished_of_equalIn`** — what equals a complete value has no placeholders in it;
* **`Store.FinishedIn`** — candidates over finished nodes.
-/
import ValueInference.Proofs.Discernible

namespace ValueInference

namespace Store

variable {s t u : Store} {a b c m n x y z : NodeId}

/-- Everything that the node leads to has a form. -/
def Finished (s : Store) (x : NodeId) : Prop := ∀ n, s.Leads x n → s.isComplete n = true

theorem Finished.complete (h : s.Finished x) : s.isComplete x = true := h x .refl

theorem Finished.present (h : s.Finished x) : x < s.nodes.size := present_of_isComplete h.complete

theorem Finished.leads (h : s.Finished x) (hy : s.Leads x y) : s.Finished y :=
  fun n hn => h n (hy.trans hn)

theorem Finished.child (h : s.Finished x) (hc : c ∈ (s.kind x).children) : s.Finished c :=
  h.leads (leads_child hc)

/-- A finished node leads to no placeholder. -/
theorem Finished.not_leads (h : s.Finished x) (hy : s.isComplete y = false) : ¬ s.Leads x y := by
  intro hlead
  rw [h y hlead] at hy
  exact nomatch hy

/-- The value is complete: nothing that it leads to reads as a placeholder. -/
def Filled (s : Store) (x : NodeId) : Prop := ∀ n, s.Leads x n → s.kind n ≠ .error .incomplete

theorem Filled.finished (h : s.Filled x) : s.Finished x := by
  intro n hn
  by_contra hblank
  exact h n hn (kind_of_incomplete (Bool.eq_false_iff.mpr hblank))

theorem Filled.leads (h : s.Filled x) (hy : s.Leads x y) : s.Filled y :=
  fun n hn => h n (hy.trans hn)

/-- Nodes whose forms are the same in two stores, with all that they lead to, are equal in one of
them if they are in the other. -/
theorem equalIn_iff_of_same {A : NodeId → Prop} (hs : s.Sound) (ht : t.Sound)
    (hbelow : ∀ x, A x → ∀ c ∈ (s.kind x).children, A c)
    (hsame : ∀ x, A x → x < s.nodes.size ∧ x < t.nodes.size ∧ t.kind x = s.kind x)
    (hmay : ∀ x y, A x → A y → (t.MayEqual x y ↔ s.MayEqual x y)) (ha : A a) (hb : A b) :
    t.EqualIn a b ↔ s.EqualIn a b := by
  constructor
  · intro hab
    have hR : s.Bisimulation fun x y => A x ∧ A y ∧ t.EqualIn x y := by
      rintro x y ⟨hx, hy, hxy⟩
      refine (bisimulation_equals ht x y hxy).imp id fun ⟨hmay', halike⟩ =>
        ⟨(hmay x y hx hy).mp hmay', ?_⟩
      rw [(hsame x hx).2.2, (hsame y hy).2.2] at halike
      exact halike.imp fun c hc d hd hcd => ⟨hbelow x hx c hc, hbelow y hy d hd, hcd⟩
    exact ⟨(hsame a ha).1, (hsame b hb).1,
      equal_of_bisimulation hs hR (hsame a ha).1 (hsame b hb).1 ⟨ha, hb, hab⟩⟩
  · intro hab
    have hR : t.Bisimulation fun x y => A x ∧ A y ∧ s.EqualIn x y := by
      rintro x y ⟨hx, hy, hxy⟩
      refine (bisimulation_equals hs x y hxy).imp id fun ⟨hmay', halike⟩ =>
        ⟨(hmay x y hx hy).mpr hmay', ?_⟩
      rw [(hsame x hx).2.2, (hsame y hy).2.2]
      exact halike.imp fun c hc d hd hcd => ⟨hbelow x hx c hc, hbelow y hy d hd, hcd⟩
    exact ⟨(hsame a ha).2.1, (hsame b hb).2.1,
      equal_of_bisimulation ht hR (hsame a ha).2.1 (hsame b hb).2.1 ⟨ha, hb, hab⟩⟩

/-- Nodes that have a form keep it, with their digest and instance. -/
structure Keeps (s t : Store) : Prop where
  nodes : ∀ n, s.isComplete n = true → t.nodes[n]? = s.nodes[n]?
  size_le : s.nodes.size ≤ t.nodes.size

theorem Grows.keeps (h : s.Grows t) : s.Keeps t :=
  ⟨fun n hn => h.nodes n (present_of_isComplete hn), h.size_le⟩

theorem Filed.keeps {k : Kind} {d : Option Nat} {i : Bool} (h : s.Filed n k d i t) :
    s.Keeps t := by
  refine ⟨fun m hm => h.others m ?_, h.size_le⟩
  rintro rfl
  rw [h.blank] at hm
  exact nomatch hm

namespace Keeps

theorem refl (s : Store) : s.Keeps s := ⟨fun _ _ => rfl, Nat.le_refl _⟩

theorem isComplete (h : s.Keeps t) (hn : s.isComplete n = true) : t.isComplete n = true := by
  rw [Store.isComplete, h.nodes n hn]
  exact hn

theorem kind_eq (h : s.Keeps t) (hn : s.isComplete n = true) : t.kind n = s.kind n := by
  rw [kind, h.nodes n hn, kind]

theorem digest_eq (h : s.Keeps t) (hn : s.isComplete n = true) : t.digest n = s.digest n := by
  rw [digest, h.nodes n hn, digest]

theorem isInterned_eq (h : s.Keeps t) (hn : s.isComplete n = true) :
    t.isInterned n = s.isInterned n := by
  rw [isInterned, h.nodes n hn, isInterned]

theorem trans (h : s.Keeps t) (h' : t.Keeps u) : s.Keeps u where
  nodes n hn := (h'.nodes n (h.isComplete hn)).trans (h.nodes n hn)
  size_le := h.size_le.trans h'.size_le

theorem mayEqual_iff (h : s.Keeps t) (ha : s.isComplete a = true) (hb : s.isComplete b = true) :
    t.MayEqual a b ↔ s.MayEqual a b := by
  simp only [MayEqual, digest, isInterned, h.nodes a ha, h.nodes b hb]

/-- A finished node goes on to lead to the same nodes. -/
theorem leads_iff (h : s.Keeps t) (hx : s.Finished x) : t.Leads x n ↔ s.Leads x n := by
  constructor
  · intro hn
    induction hn with
    | refl => exact .refl
    | tail _ hc ih =>
      rw [h.kind_eq (hx _ ih)] at hc
      exact ih.tail hc
  · intro hn
    induction hn with
    | refl => exact .refl
    | tail hm hc ih =>
      rw [← h.kind_eq (hx _ hm)] at hc
      exact ih.tail hc

theorem finished (h : s.Keeps t) (hx : s.Finished x) : t.Finished x :=
  fun n hn => h.isComplete (hx n ((h.leads_iff hx).mp hn))

theorem filled (h : s.Keeps t) (hx : s.Filled x) : t.Filled x := by
  intro n hn
  have hlead := (h.leads_iff hx.finished).mp hn
  rw [h.kind_eq (hx.finished n hlead)]
  exact hx n hlead

/-- **Equality of finished nodes stays as it is.** -/
theorem equalIn_iff (h : s.Keeps t) (hs : s.Sound) (ht : t.Sound) (ha : s.Finished a)
    (hb : s.Finished b) : t.EqualIn a b ↔ s.EqualIn a b := by
  refine equalIn_iff_of_same (A := s.Finished) hs ht (fun x hx c hc => hx.child hc) (fun x hx => ?_)
    (fun x y hx hy => h.mayEqual_iff hx.complete hy.complete) ha hb
  exact ⟨hx.present, (h.finished hx).present, h.kind_eq hx.complete⟩

theorem equal_eq (h : s.Keeps t) (hs : s.Sound) (ht : t.Sound) (ha : s.Finished a)
    (hb : s.Finished b) : t.equal a b = s.equal a b := by
  have hiff := h.equalIn_iff hs ht ha hb
  rw [Bool.eq_iff_iff]
  constructor
  · exact fun hab => (hiff.mp ⟨(h.finished ha).present, (h.finished hb).present, hab⟩).2.2
  · exact fun hab => (hiff.mpr ⟨ha.present, hb.present, hab⟩).2.2

/-- **Equality of candidates over finished nodes stays as it is.** -/
theorem equalCandidates_eq {c d : Candidate} (h : s.Keeps t) (hs : s.Sound) (ht : t.Sound)
    (hc : ∀ n ∈ c.children, s.Finished n) (hd : ∀ n ∈ d.children, s.Finished n) :
    t.equalCandidates c d = s.equalCandidates c d := by
  rw [Bool.eq_iff_iff, equalCandidates_iff_alike hs (fun n hn => (hc n hn).present)
    fun n hn => (hd n hn).present, equalCandidates_iff_alike ht
    (fun n hn => (h.finished (hc n hn)).present) fun n hn => (h.finished (hd n hn)).present]
  constructor
  · exact fun hcd => hcd.imp fun a ha b hb => (h.equalIn_iff hs ht (hc a ha) (hd b hb)).mp
  · exact fun hcd => hcd.imp fun a ha b hb => (h.equalIn_iff hs ht (hc a ha) (hd b hb)).mpr

end Keeps

/-! ### Equal nodes -/

/-- What the first of two equal nodes leads to equals something that the second one leads to. -/
theorem leads_of_equalIn (hs : s.Sound) (h : s.EqualIn a b) (hx : s.Leads a x) :
    ∃ y, s.Leads b y ∧ s.EqualIn x y := by
  induction hx with
  | refl => exact ⟨b, .refl, h⟩
  | @tail x c _ hc ih =>
    obtain ⟨y, hy, hxy⟩ := ih
    obtain ⟨d, hd, hcd⟩ := (alike_of_equalIn hs hxy).exists_child
      (fun _ he => equalIn_refl (hs.child_lt he)) (hs.coherent x y) c hc
    exact ⟨d, hy.tail hd, hcd⟩

/-- **What equals a complete value** has no placeholders in it. -/
theorem finished_of_equalIn (hs : s.Sound) (h : s.EqualIn a b) (hb : s.Filled b) :
    s.Finished a := by
  intro x hx
  by_contra hblank
  obtain ⟨y, hy, hxy⟩ := leads_of_equalIn hs h hx
  have hhead := head_of_equals hxy.2.2
  rw [kind_of_incomplete (Bool.eq_false_iff.mpr hblank)] at hhead
  exact hb y hy (Kind.eq_error_of_head hhead.symm)

/-- Two finished nodes are equal. -/
structure SameValue (s : Store) (x y : NodeId) : Prop where
  left : s.Finished x
  right : s.Finished y
  equal : s.EqualIn x y

theorem SameValue.child (hs : s.Sound) (h : s.SameValue x y) :
    (s.kind x).Alike s.SameValue (s.kind y) :=
  (alike_of_equalIn hs h.equal).imp fun _ ha _ hb hab => ⟨h.left.child ha, h.right.child hb, hab⟩

theorem Keeps.sameValue (h : s.Keeps t) (hs : s.Sound) (ht : t.Sound) (hxy : s.SameValue x y) :
    t.SameValue x y :=
  ⟨h.finished hxy.left, h.finished hxy.right, (h.equalIn_iff hs ht hxy.left hxy.right).mpr hxy.equal⟩

/-! ### Candidates -/

/-- What is in the candidate is finished. -/
def FinishedIn (s : Store) (c : Candidate) : Prop := ∀ n ∈ c.children, s.Finished n

theorem FinishedIn.present {c : Candidate} (h : s.FinishedIn c) : ∀ n ∈ c.children, n < s.nodes.size :=
  fun n hn => (h n hn).present

theorem Keeps.finishedIn {c : Candidate} (h : s.Keeps t) (hc : s.FinishedIn c) : t.FinishedIn c :=
  fun n hn => h.finished (hc n hn)

/-- Finished candidates that are equal are over finished nodes that are equal. -/
theorem alike_of_finished {c d : Candidate} (hs : s.Sound) (hc : s.FinishedIn c) (hd : s.FinishedIn d)
    (h : s.equalCandidates c d = true) : c.Alike s.SameValue d :=
  ((equalCandidates_iff_alike hs hc.present hd.present).mp h).imp
    fun m hm n hn hmn => ⟨hc m hm, hd n hn, hmn⟩

end Store

end ValueInference
