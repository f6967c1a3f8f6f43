/-
What the check of a form secures for good.

A form is checked when it becomes that of a node, and a node keeps its form.  All rules but one are
about the form alone, so they hold of every node at all times.  That no member of a union is a union
is a rule about the forms of other nodes, and a node that had no form at the time of the check may
be completed with a union later: the check does not see the unions that list it.

* **`Kind.Conforms`**, **`Store.Flat`** — the rules, and **`Store.fault?_eq_none_iff`**: the check
  decides them;
* **`Store.History`** — the changes that led to a store, each with the store it was made on;
* **`Store.Proceeds`** — one store comes from another by such changes;
* **`Store.Nests`** — the completion that puts a union into a union;
* **`Store.History.conforms_and_flat_iff`** — along every history all rules hold, but for flatness,
  which holds exactly as long as there was no such completion;
* **`Machine.Reachable.history`** — what a machine does to the nodes is such a history.
-/
import ValueInference.Proofs.Joined
import ValueInference.Proofs.Lasting

namespace ValueInference

/-- The rules about a form alone: candidates fit where they are, labels are unique, and unions and
tagged unions are large enough.  Pendings are not followed. -/
def Kind.Conforms : Kind → Prop
  | .scalar value ty => ∀ c ∈ Infer.candidatesOf value, c.Fits ty
  | .record _ fields => (fields.map Prod.fst).Nodup
  | .union members => 2 ≤ members.length
  | .tagged options => options ≠ [] ∧ (options.map Prod.fst).Nodup
  | .function options => ∀ c ∈ Infer.candidatesOf options, c.function?.isSome = true
  | _ => True

namespace Store

variable {s t u : Store} {n : NodeId} {k : Kind} {es : List (Store × Change)}

/-- The rule about what is below a form: no member of a union is a union. -/
def Flat (s : Store) (k : Kind) : Prop :=
  ∀ ms, k = .union ms → ∀ m ∈ ms, (s.kind m).isUnion = false

/-! ### The check -/

theorem repeated?_fst_eq_none {β γ : Type} [DecidableEq β] {entries : List (β × γ)} :
    repeated? [] (entries.map Prod.fst) = none ↔ (entries.map Prod.fst).Nodup := by
  simp [repeated?_eq_none]

/-- **The check decides the rules.** -/
theorem fault?_eq_none_iff :
    s.fault? k = none ↔ s.knows k = true ∧ k.Conforms ∧ s.Flat k := by
  by_cases hknows : s.knows k = true
  swap
  · simp [fault?, hknows]
  -- a form that is no union is flat
  have hflat : k.isUnion = false → s.Flat k := by
    rintro hk ms rfl
    cases hk
  cases k with
  | scalar v ty => simp [fault?_scalar hknows, hknows, Kind.Conforms, hflat rfl]
  | function v => simp [fault?_function hknows, hknows, Kind.Conforms, hflat rfl]
  | record tag fields =>
    simp [fault?, hknows, Kind.Conforms, hflat rfl, repeated?_fst_eq_none]
  | tagged options =>
    rcases options with _ | ⟨option, options⟩
    · simp [fault?, hknows, Kind.Conforms]
    · simp only [fault?, hknows, Kind.Conforms, hflat rfl, Bool.not_true, Bool.false_eq_true,
        if_false, List.isEmpty_cons, Option.map_eq_none_iff, repeated?_fst_eq_none, ne_eq,
        reduceCtorEq, not_false_eq_true, true_and, and_true]
  | union ms =>
    simp only [fault?, hknows, Kind.Conforms, Flat, Bool.not_true, Bool.false_eq_true, if_false,
      Kind.union.injEq, forall_eq', true_and]
    by_cases hlen : ms.length < 2
    · simp [hlen]
    · simp [hlen, Nat.not_lt.mp hlen]
  | _ => simp [fault?, hknows, Kind.Conforms, hflat rfl]

/-! ### One change -/

/-- One node of the second store has the form, which had none in the first, and all others have the
forms that they had. -/
structure Gains (s : Store) (n : NodeId) (k : Kind) (t : Store) : Prop where
  passed : s.fault? k = none
  blank : s.isComplete n = false
  self : t.kind n = k
  others : ∀ m, m ≠ n → t.kind m = s.kind m
  size : s.nodes.size ≤ t.nodes.size

/-- A form that is built is there already, or a new node has it, unless it has a fault. -/
theorem build_gains (s : Store) (k : Kind) :
    (s.build k).2 = s ∨ s.Gains s.nodes.size k (s.build k).2 := by
  have hpush : ∀ (contents : Contents) (d : Option Nat) (i : Bool), s.fault? k = none →
      s.Gains s.nodes.size k { s with contents, nodes := s.nodes.push ⟨some k, d, i⟩ } := by
    intro contents d i hfault
    refine ⟨hfault, isComplete_of_absent (Nat.le_refl _), ?_, fun m hm => ?_, ?_⟩
    · simp [kind]
    · simp [kind, Array.getElem?_push, hm]
    · simp
  rw [build]
  split
  · exact .inl rfl
  next hfault =>
  simp only [place]
  repeat' split
  · exact .inl rfl
  all_goals exact .inr (hpush _ _ _ hfault)

/-- **A change leaves all forms as they are, or one node gains one:** a node that the change adds,
or the one that it completes. -/
theorem change_gains (s : Store) (c : Change) :
    (c.apply s).kind = s.kind ∨ ∃ n k, s.Gains n k (c.apply s) ∧
      (n = s.nodes.size ∨ c = .complete n k ∧ (s.complete n k).1 = .ok ()) := by
  have hnodes : (c.apply s).nodes = s.nodes → (c.apply s).kind = s.kind := fun h => by
    funext n
    rw [kind, kind, h]
  cases c with
  | build k =>
    rcases s.build_gains k with h | h
    · exact .inl (congrArg kind h)
    · exact .inr ⟨_, k, h, .inl rfl⟩
  | placeholder => exact .inl (sameNodes_placeholder s).kind
  | complete n k =>
    rcases hok : (s.complete n k).1 with fault | u
    · exact .inl (congrArg kind (complete_of_error hok))
    · obtain ⟨d, hfiled⟩ := complete_filed hok
      exact .inr ⟨n, k, ⟨fault?_of_complete hok, hfiled.blank, hfiled.kind_eq,
        fun m hm => hfiled.kind_of_ne hm, hfiled.size_le⟩, .inr ⟨rfl, hok⟩⟩
  | openPending l resolver priority =>
    refine .inl (hnodes ?_)
    simp only [Change.apply, openPending]
    repeat' split
    all_goals rfl
  | spawn l d => exact .inl (hnodes (s.nodes_spawn l (.merge d)))
  | setResult p slot => exact .inl (hnodes (s.nodes_setResult p slot))
  | _ => exact .inl (hnodes rfl)

theorem conforms_empty (n : NodeId) : (({} : Store).kind n).Conforms := by
  rw [kind_of_absent (Nat.zero_le n)]
  trivial

/-- **A change keeps the rules about a form alone**, at every node. -/
theorem conforms_change (h : ∀ n, (s.kind n).Conforms) (c : Change) (n : NodeId) :
    ((c.apply s).kind n).Conforms := by
  rcases s.change_gains c with hsame | ⟨x, k, hgains, -⟩
  · rw [hsame]
    exact h n
  by_cases hnx : n = x
  · rw [hnx, hgains.self]
    exact (fault?_eq_none_iff.mp hgains.passed).2.1
  · rw [hgains.others n hnx]
    exact h n

theorem isComplete_of_isUnion (h : (s.kind n).isUnion = true) : s.isComplete n = true := by
  by_contra hblank
  rw [kind_of_incomplete (Bool.eq_false_iff.mpr hblank)] at h
  exact nomatch h

/-- A union stays one. -/
theorem kind_apply_of_isUnion (c : Change) (h : (s.kind n).isUnion = true) :
    (c.apply s).kind n = s.kind n :=
  ((lasts_change (P := fun _ => True) c).kind n (isComplete_of_isUnion h)).2

/-! ### Unions in unions -/

/-- The node is a member of a union. -/
def Listed (s : Store) (n : NodeId) : Prop := ∃ u ms, s.kind u = .union ms ∧ n ∈ ms

/-- **The change that the check overlooks:** it completes a node with a union while another union
lists the node, or with a union that lists the node itself. -/
def Nests (s : Store) : Change → Prop
  | .complete n (.union ms) => (s.complete n (.union ms)).1 = .ok () ∧ (n ∈ ms ∨ s.Listed n)
  | _ => False

theorem nests_iff {c : Change} : s.Nests c ↔ ∃ n ms, c = .complete n (.union ms) ∧
    (s.complete n (.union ms)).1 = .ok () ∧ (n ∈ ms ∨ s.Listed n) := by
  constructor
  · intro h
    unfold Nests at h
    split at h
    · next n ms => exact ⟨n, ms, rfl, h⟩
    · exact h.elim
  · rintro ⟨n, ms, rfl, h⟩
    exact h

/-- A nesting change leaves a union with a union in it. -/
theorem not_flat_of_nests {c : Change} (h : s.Nests c) :
    ¬ ∀ n, (c.apply s).Flat ((c.apply s).kind n) := by
  obtain ⟨n, ms, rfl, hok, hlisted⟩ := nests_iff.mp h
  obtain ⟨d, hfiled⟩ := complete_filed hok
  have hkind : ((Change.complete n (.union ms)).apply s).kind n = .union ms := hfiled.kind_eq
  have hunion : (((Change.complete n (.union ms)).apply s).kind n).isUnion ≠ false := by
    rw [hkind]
    exact nofun
  intro hflat
  rcases hlisted with hself | ⟨u, us, hu, hn⟩
  · exact hunion (hflat n ms hkind n hself)
  · have hlast := kind_apply_of_isUnion (Change.complete n (.union ms)) (n := u) (by rw [hu]; rfl)
    exact hunion (hflat u us (hlast.trans hu) n hn)

/-- Unions are flat after a change if and only if they were before, and it was not one that nests
a union. -/
theorem flat_change_iff (hknown : ∀ n, ∀ m ∈ (s.kind n).children, m < s.nodes.size) (c : Change) :
    (∀ n, (c.apply s).Flat ((c.apply s).kind n)) ↔ (∀ n, s.Flat (s.kind n)) ∧ ¬ s.Nests c := by
  refine ⟨fun hflat => ⟨fun n ms hn m hm => ?_, fun h => not_flat_of_nests h hflat⟩, ?_⟩
  · by_contra hunion
    rw [Bool.not_eq_false] at hunion
    have hlast := kind_apply_of_isUnion c (n := n) (by rw [hn]; rfl)
    have hmember := hflat n ms (hlast.trans hn) m hm
    rw [kind_apply_of_isUnion c hunion, hunion] at hmember
    exact nomatch hmember
  rintro ⟨hflat, hnests⟩
  rcases s.change_gains c with hsame | ⟨n, k, hgains, horigin⟩
  · intro x ms hx m hm
    rw [hsame] at hx ⊢
    exact hflat x ms hx m hm
  intro x ms hx m hm
  by_cases hmn : m = n
  · -- the node that gains a form is listed only if it is the one that the change completes
    rw [hmn] at hm ⊢
    rw [hgains.self]
    by_contra hunion
    obtain ⟨ks, rfl⟩ : ∃ ks, k = .union ks := by
      cases k with
      | union ks => exact ⟨ks, rfl⟩
      | _ => exact absurd rfl hunion
    have hlisted : n ∈ ks ∨ s.Listed n := by
      by_cases hxn : x = n
      · rw [hxn, hgains.self] at hx
        cases hx
        exact .inl hm
      · rw [hgains.others x hxn] at hx
        exact .inr ⟨x, ms, hx, hm⟩
    rcases horigin with rfl | ⟨rfl, hok⟩
    · rcases hlisted with hself | ⟨u, us, hu, hmem⟩
      · have hknows := (knows_iff.mp (fault?_eq_none_iff.mp hgains.passed).1).1
        exact Nat.lt_irrefl _ (hknows _ hself)
      · exact Nat.lt_irrefl _ (hknown u _ (by rw [hu]; exact hmem))
    · exact hnests ⟨hok, hlisted⟩
  · rw [hgains.others m hmn]
    by_cases hxn : x = n
    · rw [hxn, hgains.self] at hx
      exact (fault?_eq_none_iff.mp hgains.passed).2.2 ms hx m hm
    · rw [hgains.others x hxn] at hx
      exact hflat x ms hx m hm

/-! ### Histories -/

/-- The changes that led to a store, from the empty one, each with the store it was made on.  What
happens aside from changes, to pendings and loops, leaves the nodes alone. -/
inductive History : List (Store × Change) → Store → Prop
  | start : History [] {}
  | change {es : List (Store × Change)} {s : Store} (c : Change) :
      History es s → History (es ++ [(s, c)]) (c.apply s)
  | aside {es : List (Store × Change)} {s t : Store} :
      History es s → t.nodes = s.nodes → History es t

/-- The second store comes from the first by changes, and by what happens aside from them. -/
inductive Proceeds (s : Store) : Store → Prop
  | refl : Proceeds s s
  | change {t : Store} (c : Change) : Proceeds s t → Proceeds s (c.apply t)
  | aside {t u : Store} : Proceeds s t → u.nodes = t.nodes → Proceeds s u

namespace Proceeds

theorem trans (h : s.Proceeds t) (h' : t.Proceeds u) : s.Proceeds u := by
  induction h' with
  | refl => exact h
  | change c _ ih => exact .change c ih
  | aside _ hnodes ih => exact .aside ih hnodes

theorem of_nodes (h : t.nodes = s.nodes) : s.Proceeds t := .aside .refl h

theorem of_evolves (h : Evolves s t) : s.Proceeds t := by
  induction h with
  | refl => exact .refl
  | step c _ ih => exact .change c ih

theorem of_quiet (h : s.Quiet t) : s.Proceeds t := by
  refine h.keeps (P := s.Proceeds) .refl ?_
  intro _ _ hstep ht
  cases hstep with
  | change c => exact .change c ht
  | register w p _ => exact .aside ht rfl
  | note l f _ _ _ _ => exact .aside ht rfl

end Proceeds

namespace History

theorem known (h : History es t) : ∀ n, ∀ m ∈ (t.kind n).children, m < t.nodes.size := by
  induction h with
  | start =>
    intro n m hm
    rw [kind_of_absent (Nat.zero_le n)] at hm
    exact absurd hm List.not_mem_nil
  | @change es s c _ ih =>
    intro n m hm
    have hsize := (lasts_change (s := s) (P := fun _ => True) c).nodes
    refine Nat.lt_of_lt_of_le ?_ hsize
    rcases s.change_gains c with hsame | ⟨x, k, hgains, -⟩
    · exact ih n m (hsame ▸ hm)
    by_cases hnx : n = x
    · rw [hnx, hgains.self] at hm
      exact (knows_iff.mp (fault?_eq_none_iff.mp hgains.passed).1).1 m hm
    · rw [hgains.others n hnx] at hm
      exact ih n m hm
  | @aside es s t _ hnodes ih =>
    intro n m hm
    rw [hnodes]
    rw [kind, hnodes] at hm
    exact ih n m hm

/-- The rules about a form alone hold of every node. -/
theorem conforms (h : History es t) : ∀ n, (t.kind n).Conforms := by
  induction h with
  | start => exact conforms_empty
  | change c _ ih => exact conforms_change ih c
  | @aside es s t _ hnodes ih =>
    intro n
    rw [kind, hnodes]
    exact ih n

/-- Unions are flat exactly as long as no change has nested one. -/
theorem flat_iff (h : History es t) :
    (∀ n, t.Flat (t.kind n)) ↔ ∀ e ∈ es, ¬ e.1.Nests e.2 := by
  induction h with
  | start =>
    refine iff_of_true (fun n ms hn => ?_) fun e he => absurd he List.not_mem_nil
    rw [kind_of_absent (Nat.zero_le n)] at hn
    exact nomatch hn
  | @change es s c hs ih =>
    rw [flat_change_iff hs.known, ih, List.forall_mem_append, List.forall_mem_singleton]
  | @aside es s t _ hnodes ih =>
    have hkind : t.kind = s.kind := by
      funext n
      rw [kind, hnodes, kind]
    rw [← ih]
    simp only [Flat, hkind]

/-- A history goes on with whatever a store proceeds by. -/
theorem proceeds (h : s.Proceeds t) : ∃ ds, ∀ es, History es s → History (es ++ ds) t := by
  induction h with
  | refl => exact ⟨[], fun es hes => by rwa [List.append_nil]⟩
  | @change t c _ ih =>
    obtain ⟨ds, hds⟩ := ih
    refine ⟨ds ++ [(t, c)], fun es hes => ?_⟩
    rw [← List.append_assoc]
    exact .change c (hds es hes)
  | aside _ hnodes ih =>
    obtain ⟨ds, hds⟩ := ih
    exact ⟨ds, fun es hes => .aside (hds es hes) hnodes⟩

/-- **All rules hold of all nodes at all times, but for one:** unions are flat exactly as long as no
node that a union lists was completed with a union.  Whatever a client computes goes on with the
history, so this holds after it as well. -/
theorem conforms_and_flat_iff (h : History es t) :
    (∀ n, (t.kind n).Conforms) ∧
    ((∀ n, t.Flat (t.kind n)) ↔ ∀ e ∈ es, ¬ e.1.Nests e.2) ∧
    ∀ {α : Type} (x : Infer α), ∃ ds, History (es ++ ds) (x.run.run t).2 := by
  refine ⟨h.conforms, h.flat_iff, fun x => ?_⟩
  obtain ⟨ds, hds⟩ := proceeds (.of_evolves (x.run.evolves t))
  exact ⟨ds, hds es h⟩

end History

/-- The stores that some changes are made on, from a given one. -/
def events (s : Store) : List Change → List (Store × Change)
  | [] => []
  | c :: cs => (s, c) :: (c.apply s).events cs

theorem History.changes (h : History es s) (cs : List Change) :
    History (es ++ s.events cs) (cs.foldl Change.apply s) := by
  induction cs generalizing es s with
  | nil => rwa [events, List.append_nil]
  | cons c cs ih =>
    rw [events, List.append_cons]
    exact ih (.change c h)

/-- A list of a placeholder in a union, and the placeholder completed with a union of the same
members. -/
def unionBelowList : List Change :=
  [.placeholder, .build (.list 0), .build (.type .nil), .build (.union [1, 2]),
    .complete 0 (.union [1, 2])]

/-- A union below a member of a union is not a member itself. -/
theorem conforms_and_flat_unionBelowList :
    let t := unionBelowList.foldl Change.apply {}
    History (events {} unionBelowList) t ∧
      t.kind 0 = .union [1, 2] ∧ t.kind 1 = .list 0 ∧ t.kind 3 = .union [1, 2] ∧
      ∀ n, (t.kind n).Conforms ∧ t.Flat (t.kind n) := by
  intro t
  have hhistory : History (events {} unionBelowList) t := History.start.changes unionBelowList
  obtain ⟨hconforms, hflat, -⟩ := hhistory.conforms_and_flat_iff
  refine ⟨hhistory, by decide +kernel, by decide +kernel, by decide +kernel, fun n =>
    ⟨hconforms n, hflat.mpr ?_ n⟩⟩
  -- only the last change completes a node, and the store before it has four
  let s := (unionBelowList.take 4).foldl Change.apply {}
  have hunlisted : ∀ u < 4, 0 ∈ (s.kind u).children → (s.kind u).isUnion = false := by
    decide +kernel
  have hlast : ¬ s.Nests (.complete 0 (.union [1, 2])) := by
    rintro ⟨-, hself | ⟨u, ms, hu, hlisted⟩⟩
    · exact absurd hself (by decide)
    · have hlt : u < 4 := by
        by_contra hge
        rw [kind_of_absent (Nat.not_lt.mp hge)] at hu
        exact nomatch hu
      have hnot := hunlisted u hlt
      rw [hu] at hnot
      exact nomatch hnot hlisted
  simp only [events, unionBelowList, List.forall_mem_cons]
  exact ⟨id, id, id, id, hlast, fun e he => absurd he List.not_mem_nil⟩

end Store

namespace Machine

variable {σ : Type} {m m' : Machine σ}

open Store (History Proceeds)

/-- **A store proceeds by whatever a machine does.** -/
theorem Move.proceeds (h : m.Move m') : m.store.Proceeds m'.store := by
  refine h.store_induction (motive := m.store.Proceeds) (.of_quiet (.refl _)) ?_ ?_ ?_ ?_
  · exact fun hs hnodes _ => hs.aside hnodes
  · exact fun hs hquiet => hs.trans (.of_quiet hquiet)
  · intro s t p res _ hs hbegin
    obtain ⟨-, hstore⟩ := Store.beginResolving_eq hbegin
    rw [hstore]
    exact hs.aside rfl
  · exact fun p e _ => .of_nodes (Store.nodes_close _)

/-- **What a machine does to the nodes is a history,** so all of the above holds in every machine
that a run comes to. -/
theorem Reachable.history (h : m.Reachable) : ∃ es, History es m.store := by
  induction h with
  | start client code => exact ⟨[], .start⟩
  | step _ hstep ih =>
    obtain ⟨es, hes⟩ := ih
    obtain ⟨ds, hds⟩ := Store.History.proceeds (moves hstep).proceeds
    exact ⟨es ++ ds, hds es hes⟩

end Machine

end ValueInference
