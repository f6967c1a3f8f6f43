/-
The types of abstract values, as typing rules.

A value has a type by the form of its node and the types of the nodes below it, where the slots of
functions are followed.  The rules are stated without a walk, and the walk that reads types off a
store finds exactly what they give: no type depends on the path on which a node is met, and none is
lost to the depth that bounds the walk.

* **`Kind.TypedBy`**, **`FunctionRef.TypedBy`** — the rules of forms and of function references;
* **`Store.HasType`** — a node has a type by the rules;
* **`Store.typeOf_iff_followed`** — the type that is read off a node is the one that it has;
* **`Store.Grows.hasType`** — nodes have their types in every later store.
-/
import ValueInference.Proofs.Cleared
import ValueInference.Proofs.Literals

namespace ValueInference

/-! ### The rules -/

/-- The type of a function after so many of its arguments; what has no signature stays. -/
def Ty.applied? (k : Nat) : Ty → Option Ty
  | .function params result =>
    if params.length < k then none else some (.function (params.drop k) result)
  | t => some t

/-- The type of a reference to a function, where `R` gives the types of nodes. -/
def FunctionRef.TypedBy (R : NodeId → Ty → Prop) : FunctionRef → Ty → Prop
  | .primitive prim, t => t = .ofSignature? prim.signature
  | .typed _ args output, t | .virtual args output, t =>
    ∃ params result, List.Forall₂ R args params ∧ R output result ∧ t = .function params result
  | .partialApp func args, t => ∃ u, func.TypedBy R u ∧ u.applied? args.length = some t
  | .graph _, t => t = .anyFunction

/-- Candidates that refer to functions, one at least, all of the type. -/
structure Candidate.AllTypedBy (R : NodeId → Ty → Prop) (cs : List Candidate) (t : Ty) : Prop where
  nonempty : cs ≠ []
  each : ∀ c ∈ cs, ∃ f, c = .function f ∧ f.TypedBy R t

/-- The type of a form, where `R` gives the types of nodes. -/
def Kind.TypedBy (R : NodeId → Ty → Prop) : Kind → Ty → Prop
  | .scalar _ ty, t => t = ty
  | .tuple items, t => ∃ ts, List.Forall₂ R items ts ∧ t = .tuple ts
  | .list item, t => ∃ u, R item u ∧ t = .list u
  | .array item _, t => ∃ u, R item u ∧ t = .array u
  | .record tag _, t => t = .record tag
  | .union members, t => ∃ ts, List.Forall₂ R members ts ∧ Ty.union? ts = some t
  | .tagged options, t =>
    ∃ ts, List.Forall₂ (fun o u => R o.2 u) options ts ∧ Ty.union? ts = some t
  | .function .anything, t => t = .anyFunction
  | .function (.possibilities p), t => Candidate.AllTypedBy R p.candidates t
  | .function _, _ => False
  | .jtagged inner, t => ∃ u, R inner u ∧ t = .jtagged u
  | .type _, t => t = .typeType
  | .error _, _ => False

section

variable {R R' : NodeId → Ty → Prop} {t : Ty}

theorem FunctionRef.TypedBy.imp {f : FunctionRef} (h : f.TypedBy R t)
    (hR : ∀ c ∈ f.children, ∀ u, R c u → R' c u) : f.TypedBy R' t := by
  induction f generalizing t with
  | primitive | graph => exact h
  | typed | virtual =>
    obtain ⟨params, result, hargs, houtput, rfl⟩ := h
    refine ⟨params, result, forall₂_imp_mem hargs fun c hc u _ => hR c ?_ u,
      hR _ ?_ _ houtput, rfl⟩
    · exact List.mem_append_left _ hc
    · exact List.mem_append_right _ (List.mem_singleton_self _)
  | partialApp func args ih =>
    obtain ⟨u, hu, hrest⟩ := h
    exact ⟨u, ih hu fun c hc => hR c (List.mem_append_left _ hc), hrest⟩

theorem Candidate.AllTypedBy.imp {cs : List Candidate} (h : AllTypedBy R cs t)
    (hR : ∀ c ∈ cs, ∀ n ∈ c.children, ∀ u, R n u → R' n u) : AllTypedBy R' cs t := by
  refine ⟨h.nonempty, fun c hc => ?_⟩
  obtain ⟨f, rfl, hf⟩ := h.each c hc
  exact ⟨f, rfl, hf.imp (hR _ hc)⟩

theorem Kind.TypedBy.imp {k : Kind} (h : k.TypedBy R t)
    (hR : ∀ c ∈ k.children, ∀ u, R c u → R' c u) : k.TypedBy R' t := by
  cases k with
  | scalar | record | type | error => exact h
  | tuple items =>
    obtain ⟨ts, hts, rfl⟩ := h
    exact ⟨ts, forall₂_imp_mem hts fun c hc u _ => hR c hc u, rfl⟩
  | list x | array x | jtagged x =>
    obtain ⟨u, hu, rfl⟩ := h
    exact ⟨u, hR x (List.mem_singleton_self x) u hu, rfl⟩
  | union ms =>
    obtain ⟨ts, hts, ht⟩ := h
    exact ⟨ts, forall₂_imp_mem hts fun c hc u _ => hR c hc u, ht⟩
  | tagged os =>
    obtain ⟨ts, hts, ht⟩ := h
    exact ⟨ts, forall₂_imp_mem hts fun o ho u _ => hR o.2 (List.mem_map_of_mem ho) u, ht⟩
  | function v =>
    cases v with
    | possibilities p =>
      exact Candidate.AllTypedBy.imp h fun c hc n hn => hR n (List.mem_flatMap.mpr ⟨c, hc, hn⟩)
    | _ => exact h

end

namespace Store

variable {s t : Store} {n : NodeId} {T : Ty}

/-- The node has the type. -/
inductive HasType (s : Store) : NodeId → Ty → Prop where
  -- the rules take the types of nodes in lists, so the premise goes through a relation
  | intro {n : NodeId} {T : Ty} (R : NodeId → Ty → Prop) :
      (∀ c u, R c u → HasType s c u) → (s.kind n).TypedBy R T → HasType s n T

/-- **A node has the type that its form has** over the types of the nodes below. -/
theorem hasType_iff : s.HasType n T ↔ (s.kind n).TypedBy s.HasType T := by
  refine ⟨?_, .intro _ fun _ _ => id⟩
  rintro ⟨R, hR, h⟩
  exact h.imp fun c _ => hR c

/-- Stores with the same forms, at a node and below it, give it the same types. -/
theorem HasType.transfer {P : NodeId → Prop} (h : s.HasType n T) (hn : P n)
    (hkind : ∀ m, P m → t.kind m = s.kind m)
    (hstep : ∀ m, P m → ∀ c ∈ (s.kind m).children, P c) : t.HasType n T := by
  induction h with
  | @intro n T R _ h ih =>
    refine hasType_iff.mpr ?_
    rw [hkind n hn]
    exact h.imp fun c hc u hu => ih c u hu (hstep n hn c hc)

/-- **Nodes have their types in every later store.** -/
theorem Grows.hasType (h : s.Grows t) (hn : s.Founded n) (hT : s.HasType n T) : t.HasType n T :=
  hT.transfer hn (fun _ hm => h.kind_eq hm.present) fun _ hm _ => hm.child

/-! ### Reading types -/

theorem ok_of_toOption {α : Type} {x : Reading α} {a : α} (h : x.toOption = some a) :
    x = .ok a := by
  cases x with
  | error e => exact nomatch h
  | ok b => exact congrArg Except.ok (Option.some.inj h)

theorem unionType_eq_ok {ts : List Ty} : unionType ts = .ok T ↔ Ty.union? ts = some T := by
  rw [unionType]
  split
  · next t h => rw [h, Except.ok.injEq, Option.some.injEq]
  · next h => simp [h]

variable {sub : NodeId → Reading Ty}

theorem typeOfRef_eq_ok {f : FunctionRef} :
    typeOfRef sub n f = .ok T ↔ f.TypedBy (Gives sub) T := by
  induction f generalizing T with
  | primitive => rw [typeOfRef, Except.ok.injEq, eq_comm]; rfl
  | graph => rw [typeOfRef, Except.ok.injEq, eq_comm]; rfl
  | typed | virtual =>
    simp only [typeOfRef, bind_eq_ok, mapM_eq_ok_iff, pure_eq_ok]
    refine exists_congr fun params => ?_
    constructor
    · rintro ⟨hargs, result, hresult, hT⟩
      exact ⟨result, hargs, hresult, hT⟩
    · rintro ⟨result, hargs, hresult, hT⟩
      exact ⟨hargs, result, hresult, hT⟩
  | partialApp func args ih =>
    simp only [typeOfRef, bind_eq_ok, ih]
    refine exists_congr fun u => and_congr_right fun _ => ?_
    cases u with
    | function params result =>
      simp only [Ty.applied?]
      split
      · simp [indeterminate]
      · rw [pure_eq_ok, Option.some.injEq, eq_comm]
    | _ => rw [pure_eq_ok, Ty.applied?, Option.some.injEq, eq_comm]; simp

/-- Candidates after a first one have to be of its type. -/
theorem typeOfCandidates_some {cs : List Candidate} {first : Ty} :
    s.typeOfCandidates sub n (some first) cs = .ok T ↔
      T = first ∧ ∀ c ∈ cs, ∃ f, c = .function f ∧ f.TypedBy (Gives sub) T := by
  induction cs with
  | nil => simp [typeOfCandidates, eq_comm]
  | cons c cs ih =>
    cases c with
    | constant x => simp [typeOfCandidates, indeterminate]
    | function f =>
      simp only [typeOfCandidates, bind_eq_ok, typeOfRef_eq_ok, List.forall_mem_cons,
        Candidate.function.injEq, exists_eq_left']
      constructor
      · rintro ⟨u, hu, h⟩
        split at h
        · next hfirst =>
          obtain ⟨rfl, hcs⟩ := ih.mp h
          exact ⟨rfl, hfirst ▸ hu, hcs⟩
        · exact nomatch h
      · rintro ⟨rfl, hf, hcs⟩
        exact ⟨T, hf, by rw [if_pos rfl]; exact ih.mpr ⟨rfl, hcs⟩⟩

theorem typeOfCandidates_none {cs : List Candidate} :
    s.typeOfCandidates sub n none cs = .ok T ↔ Candidate.AllTypedBy (Gives sub) cs T := by
  cases cs with
  | nil => exact ⟨nofun, fun h => absurd rfl h.nonempty⟩
  | cons c cs =>
    cases c with
    | constant x =>
      exact ⟨nofun, fun h => (h.each _ List.mem_cons_self).elim fun f hf => nomatch hf.1⟩
    | function f =>
      simp only [typeOfCandidates, bind_eq_ok, typeOfRef_eq_ok, typeOfCandidates_some]
      constructor
      · rintro ⟨u, hu, rfl, hcs⟩
        exact ⟨List.cons_ne_nil _ _, List.forall_mem_cons.mpr ⟨⟨f, rfl, hu⟩, hcs⟩⟩
      · intro h
        obtain ⟨⟨f', hf', hf⟩, hcs⟩ := List.forall_mem_cons.mp h.each
        cases hf'
        exact ⟨T, hf, rfl, hcs⟩

/-- **The type of a form** is read off by the rules, once its slot is followed. -/
theorem typeOfKind_eq_ok {k : Kind} :
    s.typeOfKind sub n k = .ok T ↔ (k.mapSlot s.resolve).TypedBy (Gives sub) T := by
  cases k with
  | scalar | record | type => rw [typeOfKind, Except.ok.injEq, eq_comm]; rfl
  | tuple items =>
    simp only [typeOfKind, bind_eq_ok, mapM_eq_ok_iff, pure_eq_ok]
    rfl
  | list x | array x | jtagged x =>
    simp only [typeOfKind, bind_eq_ok, pure_eq_ok]
    rfl
  | union ms =>
    simp only [typeOfKind, bind_eq_ok, mapM_eq_ok_iff, unionType_eq_ok]
    rfl
  | tagged os =>
    simp only [typeOfKind, bind_eq_ok, mapM_eq_ok_iff, unionType_eq_ok]
    rfl
  | error e => exact iff_of_false (fun h => by cases h) id
  | function v =>
    rw [typeOfKind, Kind.mapSlot]
    cases s.resolve v with
    | anything => rw [Except.ok.injEq, eq_comm]; rfl
    | possibilities p => exact typeOfCandidates_none
    | constant c => exact iff_of_false (fun h => by cases h) id
    | pending p => exact iff_of_false (fun h => by cases h) id

/-! ### Depth -/

/-- The type of a node, to a depth of at most `fuel`, on whatever path the node is met. -/
def typeWithin (s : Store) : Nat → NodeId → Reading Ty
  | 0, n => indeterminate n .recursiveType
  | fuel + 1, n => s.typeOfKind (s.typeWithin fuel) n (s.kind n)

theorem typeWithin_eq_ok {fuel : Nat} : s.typeWithin (fuel + 1) n = .ok T ↔
    (s.followed.kind n).TypedBy (Gives (s.typeWithin fuel)) T := by
  rw [typeWithin, typeOfKind_eq_ok, kind_followed]

/-- A type that is found within a depth is found within greater ones. -/
theorem typeWithin_mono {fuel fuel' : Nat} (h : s.typeWithin fuel n = .ok T)
    (hfuel : fuel ≤ fuel') : s.typeWithin fuel' n = .ok T := by
  induction fuel generalizing fuel' n T with
  | zero => exact nomatch h
  | succ fuel ih =>
    obtain ⟨fuel', rfl⟩ : ∃ k, fuel' = k + 1 := ⟨fuel' - 1, by omega⟩
    exact typeWithin_eq_ok.mpr ((typeWithin_eq_ok.mp h).imp fun c _ u hu => ih hu (by omega))

/-- What a walk finds is what the node has. -/
theorem hasType_of_typeBelow : ∀ {fuel : Nat} {path : List NodeId} {n : NodeId} {T : Ty},
    s.typeBelow fuel path n = .ok T → s.followed.HasType n T := by
  intro fuel
  induction fuel with
  | zero => exact nofun
  | succ fuel ih =>
    intro path n T h
    rw [typeBelow] at h
    split at h
    · exact nomatch h
    · refine hasType_iff.mpr ?_
      rw [kind_followed]
      exact (typeOfKind_eq_ok.mp h).imp fun c _ u hu => ih hu

/-- **What a node has is found within some depth.** -/
theorem HasType.typeWithin (h : s.followed.HasType n T) : ∃ fuel, s.typeWithin fuel n = .ok T := by
  induction h with
  | @intro n T R _ h ih =>
    -- one depth for each node below, whatever types the rules give it
    have hdepth : ∀ c, ∃ k, ∀ u, R c u → s.typeWithin k c = .ok u := by
      intro c
      by_cases hsome : ∃ u, R c u
      · obtain ⟨u, hu⟩ := hsome
        obtain ⟨k, hk⟩ := ih c u hu
        refine ⟨k, fun u' hu' => ?_⟩
        obtain ⟨k', hk'⟩ := ih c u' hu'
        have hsame := (typeWithin_mono hk (Nat.le_max_left k k')).symm.trans
          (typeWithin_mono hk' (Nat.le_max_right k k'))
        exact Except.ok.inj hsame ▸ hk
      · exact ⟨0, fun u hu => absurd ⟨u, hu⟩ hsome⟩
    choose depth hdepth using hdepth
    refine ⟨(s.followed.kind n).children.toFinset.sup depth + 1, typeWithin_eq_ok.mpr ?_⟩
    refine h.imp fun c hc u hu => typeWithin_mono (hdepth c u hu) ?_
    exact Finset.le_sup (List.mem_toFinset.mpr hc)

/-- **What is found within some depth is found by a walk**, from a path of nodes for which that
depth is not enough. -/
theorem typeBelow_of_typeWithin : ∀ {k fuel : Nat} {path : List NodeId} {n : NodeId} {T : Ty},
    s.typeWithin k n = .ok T → (∀ m ∈ path, ∀ U, s.typeWithin k m ≠ .ok U) → path.Nodup →
      (∀ m ∈ path, m < s.nodes.size) → s.nodes.size < fuel + path.length →
        s.typeBelow fuel path n = .ok T := by
  classical
  intro k
  induction k using Nat.strong_induction_on with
  | _ k ih =>
    intro fuel path n T h hpath hnodup hpresent hfuel
    -- the least depth that is enough for the node is not enough for what is above it
    have hsome : ∃ k, ∃ U, s.typeWithin k n = .ok U := ⟨k, T, h⟩
    obtain ⟨U, hU⟩ := Nat.find_spec hsome
    have hle : Nat.find hsome ≤ k := Nat.find_min' hsome ⟨T, h⟩
    obtain rfl : T = U := Except.ok.inj (h.symm.trans (typeWithin_mono hU hle))
    obtain ⟨j, hj⟩ : ∃ j, Nat.find hsome = j + 1 := by
      cases hfind : Nat.find hsome with
      | zero =>
        rw [hfind] at hU
        exact nomatch hU
      | succ j => exact ⟨j, rfl⟩
    rw [hj] at hU hle
    have hleast : ∀ V, s.typeWithin j n ≠ .ok V := fun V hV =>
      Nat.find_min hsome (hj ▸ Nat.lt_succ_self j) ⟨V, hV⟩
    have hfresh : n ∉ path := fun hmem => hpath n hmem T h
    have hn : n < s.nodes.size := by
      by_contra habsent
      rw [typeWithin_eq_ok, kind_followed, kind_of_absent (Nat.not_lt.mp habsent)] at hU
      exact hU
    have hlength : path.length < s.nodes.size := by
      have hsub : (n :: path).Subperm (List.range s.nodes.size) := by
        refine List.subperm_of_subset (List.nodup_cons.mpr ⟨hfresh, hnodup⟩) fun m hm => ?_
        exact List.mem_range.mpr ((List.mem_cons.mp hm).elim (· ▸ hn) (hpresent m))
      simpa using hsub.length_le
    obtain ⟨fuel, rfl⟩ : ∃ l, fuel = l + 1 := ⟨fuel - 1, by omega⟩
    rw [typeBelow, if_neg hfresh, typeOfKind_eq_ok, ← kind_followed]
    refine (typeWithin_eq_ok.mp hU).imp fun c _ u hu => ?_
    refine ih j hle hu (fun m hm V hV => ?_) (List.nodup_cons.mpr ⟨hfresh, hnodup⟩)
      (fun m hm => (List.mem_cons.mp hm).elim (· ▸ hn) (hpresent m)) (by simp; omega)
    rcases List.mem_cons.mp hm with rfl | hm
    · exact hleast V hV
    · exact hpath m hm V (typeWithin_mono hV (Nat.le_of_succ_le hle))

/-- **The type that is read off a value is the one that it has** when its slots are followed, and
where it has none, none is read off. -/
theorem typeOf_iff_followed : s.typeOf n = .ok T ↔ s.followed.HasType n T := by
  refine ⟨hasType_of_typeBelow, fun h => ?_⟩
  obtain ⟨k, hk⟩ := h.typeWithin
  exact typeBelow_of_typeWithin hk nofun .nil nofun (Nat.lt_succ_self _)

/-- **The type that is read off a value without pendings is the one that it has.** -/
theorem typeOf_iff (hclear : s.Clear n) : s.typeOf n = .ok T ↔ s.HasType n T := by
  rw [typeOf_iff_followed]
  constructor
  · refine fun h => h.transfer hclear (fun m hm => (Clear.kind_followed hm).symm)
      fun m hm c hc => ?_
    rw [Clear.kind_followed hm] at hc
    exact hm.child hc
  · exact fun h => h.transfer hclear (fun m hm => Clear.kind_followed hm)
      fun m hm c hc => hm.child hc

theorem HasType.unique {U : Ty} (h : s.HasType n T) (h' : s.HasType n U) (hclear : s.Clear n) :
    T = U :=
  Except.ok.inj (((typeOf_iff hclear).mpr h).symm.trans ((typeOf_iff hclear).mpr h'))

end Store

end ValueInference
