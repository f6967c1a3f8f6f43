/-
Broadening generalises, keeps types and settles at once.

A complete value without cycles, with normalised unions and canonical types of scalars, is broadened
whatever state its pendings are in, and a second broadening gives back what the first one gave.  The
result takes in what it was made of and has its types.  For these two the values are compared, which
tells values apart only where no union lists a member twice and no function a candidate: that is
asked of the union that is made, which may be an interned one that was built before, and of the
candidates of the functions, which stay as they are.

* **`Store.Broadenable`** — values whose broadening is settled here;
* **`Store.DistinctMembers`**, **`Store.DistinctCandidates`** — no union in the value lists members
  that are equal, and no function candidates that are;
* **`Store.Discernible.of_founded`** — on no cycle that is enough to tell them apart;
* **`Infer.broaden_generalises`** — what a broadening gives.
-/
import ValueInference.Proofs.BroadTypes
import ValueInference.Proofs.BroadWalks
import ValueInference.Proofs.JoinedSlots

namespace ValueInference

namespace Store

variable {s t : Store} {a m : NodeId}

/-! ### The values -/

/-- A complete value without cycles, whose unions are normalised and whose scalars have canonical
types. -/
structure Broadenable (s : Store) (a : NodeId) : Prop where
  finished : s.Finished a
  acyclic : ∀ n, s.Leads a n → ¬ s.Below n n
  normalised : ∀ n ms, s.Leads a n → s.kind n = .union ms → s.Normalised ms
  canonical : s.CanonicalScalars a

/-- No union in the value lists members that are equal. -/
def DistinctMembers (s : Store) (a : NodeId) : Prop :=
  ∀ n ms, s.Leads a n → s.kind n = .union ms → ms.Pairwise fun m n => s.equal m n = false

/-- No function in the value lists candidates that are equal. -/
def DistinctCandidates (s : Store) (a : NodeId) : Prop :=
  ∀ n p, s.Leads a n → s.kind n = .function (.possibilities p) →
    p.candidates.Pairwise fun c d => s.equalCandidates c d = false

/-- A complete value without cycles is founded. -/
theorem Finished.founded (h : s.Finished a) (hacyclic : ∀ n, s.Leads a n → ¬ s.Below n n) :
    s.Founded a :=
  endsWithin_of_acyclic (P := s.Leads a) (fun _ hm => (h.leads hm).present)
    (fun _ hm _ hc => hm.tail hc) hacyclic .refl

/-- **On no cycle, what is distinct can be told apart**: members and candidates do not lead back to
where they are listed, so it is enough that they are not equal. -/
theorem Discernible.of_founded (h : s.Founded a) (hmembers : s.DistinctMembers a)
    (hcandidates : s.DistinctCandidates a) : s.Discernible a := by
  constructor
  · intro u ms hu hk
    have hback : ∀ m ∈ ms, ¬ s.Leads m u := fun m hm =>
      (h.leads hu).not_leads_of_child (by rwa [hk])
    exact (hmembers u ms hu hk).imp_of_mem fun hm hn hmn => .inr ⟨hback _ hm, hback _ hn, hmn⟩
  · intro f p hf hk
    have hback : ∀ c ∈ p.candidates, ∀ n ∈ c.children, ¬ s.Leads n f := by
      intro c hc n hn
      refine (h.leads hf).not_leads_of_child ?_
      rw [hk]
      exact List.mem_flatMap.mpr ⟨c, hc, hn⟩
    refine (hcandidates f p hf hk).imp_of_mem fun {c d} hc hd hcd => .inr ⟨fun n hn => ?_, hcd⟩
    rcases List.mem_append.mp hn with hn | hn
    · exact hback c hc n hn
    · exact hback d hd n hn

namespace Broadenable

theorem founded (h : s.Broadenable a) : s.Founded a := h.finished.founded h.acyclic

theorem flatBelow (h : s.Broadenable a) : s.FlatBelow a :=
  fun n hn ms hk => (h.normalised n ms hn hk).flat

theorem distinctMembers (h : s.Broadenable a) : s.DistinctMembers a :=
  fun n ms hn hk => (h.normalised n ms hn hk).distinct.imp fun hmn => hmn.1

theorem discernible (h : s.Broadenable a) (hdistinct : s.DistinctCandidates a) :
    s.Discernible a :=
  .of_founded h.founded h.distinctMembers hdistinct

end Broadenable

/-! ### Checking values -/

instance (ms : List NodeId) : Decidable (s.Normalised ms) :=
  decidable_of_iff (2 ≤ ms.length ∧ (∀ m ∈ ms, (s.kind m).isUnion = false) ∧
      ms.Pairwise fun m n => s.equal m n = false ∧ s.equal n m = false)
    ⟨fun h => ⟨h.1, h.2.1, h.2.2⟩, fun h => ⟨h.several, h.flat, h.distinct⟩⟩

/-- What `Broadenable` and `DistinctCandidates` ask of a single node. -/
def broadenableAt (s : Store) (n : NodeId) : Bool :=
  s.isComplete n && match s.kind n with
    | .union ms => decide (s.Normalised ms)
    | .scalar _ ty => decide ty.Canonical
    | .function (.possibilities p) =>
      decide (p.candidates.Pairwise fun c d => s.equalCandidates c d = false)
    | _ => true

/-- **A value can be broadened if a search says so.** -/
theorem Broadenable.of_everywhere (depth : Nat) (h : s.everywhere s.broadenableAt depth a = true) :
    s.Broadenable a ∧ s.DistinctCandidates a := by
  have hat : ∀ {n}, s.Leads a n → s.broadenableAt n = true := leads_of_everywhere h
  have hcomplete : ∀ n, s.broadenableAt n = true → s.isComplete n = true := by
    intro n hn
    rw [broadenableAt, Bool.and_eq_true] at hn
    exact hn.1
  refine ⟨⟨fun n hn => hcomplete n (hat hn), fun n hn => ?_, fun n ms hn hk => ?_,
    fun n v ty hn hk => ?_⟩, fun n p hn hk => ?_⟩
  · exact ((endsWithin_of_everywhere (fun m hm => present_of_isComplete (hcomplete m hm))
      h).founded.leads hn).acyclic
  · have hn := hat hn
    rw [broadenableAt, hk, Bool.and_eq_true] at hn
    exact of_decide_eq_true hn.2
  · have hn := hat hn
    rw [broadenableAt, hk, Bool.and_eq_true] at hn
    exact of_decide_eq_true hn.2
  · have hn := hat hn
    rw [broadenableAt, hk, Bool.and_eq_true] at hn
    exact of_decide_eq_true hn.2

/-! ### Later stores -/

/-- **What can be broadened** can be so in every store that has grown. -/
theorem Grows.broadenable (h : s.Grows t) (ha : s.Broadenable a) : t.Broadenable a := by
  have hback : ∀ {n}, t.Leads a n → s.Leads a n := (h.keeps.leads_iff ha.finished).mp
  have hfounded : ∀ {n}, t.Leads a n → s.Founded n := fun hn => ha.founded.leads (hback hn)
  have hkind : ∀ {n}, t.Leads a n → t.kind n = s.kind n := fun hn => h.kind_eq (hfounded hn).present
  refine ⟨h.keeps.finished ha.finished, fun n hn => (h.founded (hfounded hn)).acyclic,
    fun n ms hn hk => ?_, fun n v ty hn hk => ha.canonical n v ty (hback hn) (hkind hn ▸ hk)⟩
  rw [hkind hn] at hk
  exact h.normalised (fun m hm => (hfounded hn).child (by rwa [hk]))
    (ha.normalised n ms (hback hn) hk)

theorem Grows.distinctCandidates (h : s.Grows t) (ha : s.Broadenable a)
    (hdistinct : s.DistinctCandidates a) : t.DistinctCandidates a := by
  intro n p hn hk
  have hlead := (h.keeps.leads_iff ha.finished).mp hn
  have hfounded := ha.founded.leads hlead
  rw [h.kind_eq hfounded.present] at hk
  have hcandidates : ∀ c ∈ p.candidates, s.FoundedIn c := by
    intro c hc m hm
    refine hfounded.child ?_
    rw [hk]
    exact List.mem_flatMap.mpr ⟨c, hc, hm⟩
  refine (hdistinct n p hlead hk).imp_of_mem fun {c d} hc hd hcd => ?_
  rw [h.equalCandidates_eq (hcandidates c hc) (hcandidates d hd)]
  exact hcd

end Store

namespace Infer

variable {s : Store} {a : NodeId}

/-- **Broadening generalises, keeps types and settles at once.**  It succeeds in whatever state the
pendings are, and again gives what it gave.  A forced merge of that with the value gives it back,
and both have one type or none, if no function lists equal candidates and no union that was made
lists a member twice. -/
theorem broaden_generalises (hs : s.Attained) (ha : s.Broadenable a) :
    ∃ b t, (broaden a).outcome s = (.ok b, t) ∧ (broaden b).outcome t = (.ok b, t) ∧
      (s.DistinctCandidates a → t.Plain b →
        (∀ scope, (merge scope true b a).outcome t = (.ok b, t)) ∧
          ∀ T, t.typeOf b = .ok T ↔ t.typeOf a = .ok T) := by
  obtain ⟨b, t, hbroaden, hgrows, ht, hba, -⟩ := outcome_broaden hs.whole ha.founded ha.flatBelow
  have hta := hgrows.broadenable ha
  have hb : t.Founded b := hba.founded hta.founded
  -- there is nothing left to forget, so the second walk makes nothing
  obtain ⟨c, u, hagain, -, -, -, hsame⟩ := outcome_broaden ht hb (hba.flatBelow hta.flatBelow)
  obtain ⟨rfl, rfl⟩ := hsame hba.broad
  refine ⟨c, u, hbroaden, hagain, fun hdistinct hplain => ?_⟩
  have hda : u.Discernible a := hta.discernible (hgrows.distinctCandidates ha hdistinct)
  have hdb : u.Discernible c := hba.discernible ht hta.founded hda hplain
  have hgeneral : u.Generalises c a :=
    ⟨c, ⟨hb.present, hb.present, u.equals_refl c⟩, hba⟩
  constructor
  · intro scope
    rw [merge, outcome_store_bind]
    refine mergeWithin_generalises ht ?_ hb hta.founded hdb hda hta.flatBelow hgeneral scope
    have := @Store.size_lt_compareDepth u
    omega
  · intro T
    rw [Store.typeOf_iff_followed, Store.typeOf_iff_followed]
    exact hgeneral.sameTypes ht hb hdb hta.founded hta.canonical hta.flatBelow T

/-- Two tuples of a number and what is still open, and a list of that. -/
def openTuples : Store :=
  let s := (Change.openPending 0 none .unranked).apply ((Change.openLoop {}).apply {})
  let s := (Change.build (.scalar (.pending 0) .i64)).apply s
  let s := (Change.build (.scalar (.constant (.int 1)) .i64)).apply s
  let s := (Change.build (.scalar (.constant (.int 2)) .i64)).apply s
  let s := (Change.build (.tuple [1, 0])).apply s
  let s := (Change.build (.tuple [2, 0])).apply s
  let s := (Change.build (.list 0)).apply s
  (Change.build (.union [3, 4, 5])).apply s

/-- Without their numbers the tuples are equal, and one of them is left. -/
theorem broaden_generalises_openTuples :
    ∃ t, (broaden 6).outcome openTuples = (.ok 9, t) ∧ t.members 9 = [5, 8] ∧
      (broaden 9).outcome t = (.ok 9, t) ∧
      (∀ scope, (merge scope true 9 6).outcome t = (.ok 9, t)) ∧
      t.typeOf 9 = .ok (.union [.tuple [.i64, .i64], .list .i64]) ∧
      t.typeOf 6 = .ok (.union [.tuple [.i64, .i64], .list .i64]) := by
  have hs : openTuples.Reachable := by
    have hopen : Store.Reachable ((Change.openPending 0 none .unranked).apply
        ((Change.openLoop {}).apply {})) := .step _ (.step _ .start trivial) trivial
    have hscalars := Store.Reachable.step (.build (.scalar (.constant (.int 2)) .i64))
      (.step (.build (.scalar (.constant (.int 1)) .i64))
        (.step (.build (.scalar (.pending 0) .i64)) hopen nofun) nofun) nofun
    have htuples := Store.Reachable.step (.build (.tuple [2, 0]))
      (.step (.build (.tuple [1, 0])) hscalars nofun) nofun
    exact .step (.build (.union [3, 4, 5])) (.step (.build (.list 0)) htuples nofun) nofun
  obtain ⟨hbroadenable, hdistinct⟩ :=
    Store.Broadenable.of_everywhere (s := openTuples) (a := 6) 4 (by decide +kernel)
  have hrun : (broaden 6).outcome openTuples = (.ok 9, ((broaden 6).outcome openTuples).2) :=
    outcome_of_toOption (by decide +kernel)
  obtain ⟨b, t, hbroaden, hagain, hrest⟩ := broaden_generalises hs.attained hbroadenable
  cases hrun.symm.trans hbroaden
  obtain ⟨hmerge, htypes⟩ := hrest hdistinct (.of_everywhere 4 (by decide +kernel))
  have htype : ((broaden 6).outcome openTuples).2.typeOf 6 =
      .ok (.union [.tuple [.i64, .i64], .list .i64]) := Store.ok_of_toOption (by decide +kernel)
  exact ⟨_, hbroaden, by decide +kernel, hagain, hmerge, (htypes _).mpr htype, htype⟩

end Infer

end ValueInference
