/-
Relaxed merges of values, said without a merge.

Whether two values go together, and what they join to, depends on the two values alone: on their
forms, with joined values below.  A value that is new has its form only up to the order of what
has no order, so what is said of a result is said of the node that has it in some later store.

* **`Store.Joinable`** — two values go together;
* **`Store.Joined`** — a node has the form that two values join to;
* **`Store.Landed`** — what a relaxed merge leaves: a regular value that the operands join to, if no
  union in it lists a member twice;
* **`Infer.produces_make`** — a node that is made of joined parts is such a value.
-/
import ValueInference.Proofs.Formed
import ValueInference.Proofs.Produced

namespace ValueInference

/-! ### Candidates that may stand where they are -/

/-- A scalar of the type may have the candidate. -/
def Candidate.Fits (ty : Ty) : Candidate → Prop
  | .constant c => c.fits ty = true
  | .function _ => False

section

variable {R : NodeId → NodeId → Prop} {c d : Candidate}

theorem Candidate.Fits.of_alike {ty : Ty} (h : c.Alike R d) (hc : c.Fits ty) : d.Fits ty := by
  cases c with
  | constant x =>
    cases d with
    | constant y =>
      obtain rfl : x = y := h
      exact hc
    | function g => exact h.elim
  | function f => exact hc.elim

theorem Candidate.function?_of_alike (h : c.Alike R d) (hc : c.function?.isSome = true) :
    d.function?.isSome = true := by
  cases c with
  | constant x => exact absurd hc (by simp [Candidate.function?])
  | function f =>
    cases d with
    | constant y => exact h.elim
    | function g => rfl

theorem Slot.Reordered.mem_children {v w : Slot} {n : NodeId} (h : v.Reordered w) :
    n ∈ v.children ↔ n ∈ w.children := by
  cases h with
  | same => exact Iff.rfl
  | possibilities h => exact (h.flatMap_right _).mem_iff

/-- The order of what is in a form does not show in what is below it. -/
theorem Kind.Reordered.mem_children {k k' : Kind} {n : NodeId} (h : k.Reordered k') :
    n ∈ k.children ↔ n ∈ k'.children := by
  cases h with
  | same => exact Iff.rfl
  | scalar ty h => exact h.mem_children
  | record tag h => exact (h.map Prod.snd).mem_iff
  | union h => exact h.mem_iff
  | tagged h => exact (h.map Prod.snd).mem_iff
  | function h => exact h.mem_children

/-- The slot of a form is that of a reordered one, reordered. -/
theorem Kind.Reordered.slot {k k' : Kind} {v : Slot} (h : k.Reordered k')
    (hv : k.slot? = some v) : ∃ w, k'.slot? = some w ∧ v.Reordered w := by
  cases h with
  | same => exact ⟨v, hv, .same v⟩
  | scalar ty h => exact ⟨_, rfl, Option.some.inj hv ▸ h⟩
  | function h => exact ⟨_, rfl, Option.some.inj hv ▸ h⟩
  | _ => exact nomatch hv

end

namespace Store

variable {s t u : Store} {a b r x y z n : NodeId} {v w : Slot} {ty : Ty} {k k' : Kind}
  {P : Candidate → Prop} {limit token token' : Nat}

theorem valueFault?_eq_none :
    s.valueFault? v ty = none ↔ ∀ c ∈ Infer.candidatesOf v, c.Fits ty := by
  cases v with
  | constant c => simp [valueFault?, Infer.candidatesOf, Candidate.Fits]
  | possibilities p =>
    rw [valueFault?, List.findSome?_eq_none_iff]
    refine forall₂_congr fun c _ => ?_
    cases c with
    | constant d => simp [Candidate.Fits]
    | function f => simp [Candidate.Fits]
  | _ => simp [valueFault?, Infer.candidatesOf]

theorem optionsFault?_eq_none :
    s.optionsFault? v = none ↔ ∀ c ∈ Infer.candidatesOf v, c.function?.isSome = true := by
  cases v with
  | constant c => simp [optionsFault?, Infer.candidatesOf, Candidate.function?]
  | possibilities p => simp [optionsFault?, Infer.candidatesOf, Option.isSome_iff_ne_none]
  | _ => simp [optionsFault?, Infer.candidatesOf]

theorem fault?_scalar (hknows : s.knows (.scalar v ty) = true) :
    s.fault? (.scalar v ty) = none ↔ ∀ c ∈ Infer.candidatesOf v, c.Fits ty := by
  rw [← valueFault?_eq_none (s := s), fault?, if_neg (by simp [hknows])]

theorem fault?_function (hknows : s.knows (.function v) = true) :
    s.fault? (.function v) = none ↔
      ∀ c ∈ Infer.candidatesOf v, c.function?.isSome = true := by
  rw [← optionsFault?_eq_none (s := s), fault?, if_neg (by simp [hknows])]

/-- The candidates of scalars in a reachable store fit their types. -/
theorem Reachable.fits (h : s.Reachable) : ∀ n v ty, s.kind n = .scalar v ty →
    ∀ c ∈ Infer.candidatesOf v, c.Fits ty := by
  induction h with
  | start =>
    intro n v ty hk
    rw [kind_of_absent (Nat.zero_le n)] at hk
    exact nomatch hk
  | @step s c hs _ ih =>
    intro n v ty hk
    rcases change_nodes hs.sound.interned c with hsame | ⟨m, k, d, i, hfault, hfiled⟩
    · exact ih n v ty (hsame.kind ▸ hk)
    · by_cases hnm : n = m
      · rw [hnm, hfiled.kind_eq] at hk
        subst hk
        exact (fault?_scalar (labels_of_fault? hfault).1).mp hfault
      · rw [hfiled.kind_of_ne hnm] at hk
        exact ih n v ty hk

/-- So do the candidates of functions. -/
theorem Reachable.refers (h : s.Reachable) (hk : s.kind n = .function v) :
    ∀ c ∈ Infer.candidatesOf v, c.function?.isSome = true := by
  have hformed := h.formed n
  rw [hk] at hformed
  cases v with
  | constant c => exact hformed.elim
  | possibilities p => exact hformed
  | _ => exact fun _ hc => absurd hc List.not_mem_nil

/-- A pending that is known is there. -/
theorem lt_of_known {p : PendingId} (h : s.waitsOn (.pending p) = none) : p < s.pendings.size := by
  by_contra hge
  have hnone : s.result? p = none := by
    rw [result?, pendingStatus, Array.getElem?_eq_none (Nat.not_lt.mp hge)]
    rfl
  have hself : ∀ fuel, s.follow fuel (.pending p) = .pending p := by
    intro fuel
    cases fuel with
    | zero => rfl
    | succ fuel => rw [follow, hnone]
  rw [waitsOn, resolve, hself] at h
  cases h

/-- A form over closed values, with a settled slot if it has one, refers to nothing that is not
there. -/
theorem knows_of_closed (hbelow : ∀ c ∈ k.children, s.Closed c)
    (hslot : ∀ v, k.slot? = some v → s.Settled v) : s.knows k = true := by
  refine knows_iff.mpr ⟨fun c hc => (hbelow c hc).present, fun p hp => ?_⟩
  cases k with
  | scalar v ty =>
    cases v with
    | pending q => exact List.mem_singleton.mp hp ▸ lt_of_known (hslot _ rfl).known
    | _ => exact absurd hp List.not_mem_nil
  | function v =>
    cases v with
    | pending q => exact List.mem_singleton.mp hp ▸ lt_of_known (hslot _ rfl).known
    | _ => exact absurd hp List.not_mem_nil
  | _ => exact absurd hp List.not_mem_nil

/-! ### Slots that go together -/

/-- Two slots join to one whose candidates all have a property. -/
def SlotsJoin (s : Store) (limit : Nat) (P : Candidate → Prop) (v w : Slot) : Prop :=
  ∃ token x, s.joinSlots limit token v w = some x ∧ ∀ c ∈ Infer.candidatesOf x, P c

/-- The token of a set does not show in its candidates. -/
theorem joinSlots_token {x : Slot} (token' : Nat) (h : s.joinSlots limit token v w = some x) :
    ∃ x', s.joinSlots limit token' v w = some x' ∧
      Infer.candidatesOf x' = Infer.candidatesOf x := by
  have hcandidates : Infer.candidatesOf (s.joinCandidates limit token' v w
      (Infer.candidatesOf (s.resolve v)) (Infer.candidatesOf (s.resolve w))) =
      Infer.candidatesOf (s.joinCandidates limit token v w
        (Infer.candidatesOf (s.resolve v)) (Infer.candidatesOf (s.resolve w))) := by
    rw [joinCandidates, joinCandidates]
    split
    · rfl
    split
    · rfl
    split
    · rfl
    · rfl
  rw [joinSlots] at h ⊢
  split at h
  · exact ⟨v, rfl, Option.some.inj h ▸ rfl⟩
  · exact ⟨.anything, rfl, Option.some.inj h ▸ rfl⟩
  · exact ⟨x, h, rfl⟩
  · exact ⟨_, rfl, Option.some.inj h ▸ hcandidates⟩

theorem slotsJoin_iff {x : Slot} (h : s.joinSlots limit token v w = some x) :
    s.SlotsJoin limit P v w ↔ ∀ c ∈ Infer.candidatesOf x, P c := by
  refine ⟨?_, fun hall => ⟨token, x, h, hall⟩⟩
  rintro ⟨token', x', h', hall⟩
  obtain ⟨x'', h'', hsame⟩ := joinSlots_token token' h
  obtain rfl : x'' = x' := Option.some.inj (h''.symm.trans h')
  rwa [hsame] at hall

theorem not_slotsJoin (h : s.joinSlots limit token v w = none) : ¬ s.SlotsJoin limit P v w := by
  rintro ⟨token', x, h', -⟩
  obtain ⟨x', hx', -⟩ := joinSlots_token token h'
  exact nomatch h.symm.trans hx'

/-! ### Joined values -/

/-- The forms of two values go together, where `J` says so of the nodes below. -/
def JoinableForm (s : Store) (limit : Nat) (J : NodeId → NodeId → Prop) : Kind → Kind → Prop
  | .scalar v t, .scalar w u => s.SlotsJoin limit (Candidate.Fits (t.join u)) v w
  | .tuple xs, .tuple ys => List.Forall₂ J xs ys
  | .list x, .list y => J x y
  | .array x shape, .array y shape' => shape = shape' ∧ J x y
  | .record tag fs, .record tag' gs =>
    tag = tag' ∧ fs.length = gs.length ∧ ∀ f ∈ fs, ∃ y, gs.lookup f.1 = some y ∧ J f.2 y
  | .tagged xs, .tagged ys => ∀ l x y, xs.lookup l = some x → ys.lookup l = some y → J x y
  | .function v, .function w => s.SlotsJoin limit (fun c => c.function?.isSome = true) v w
  | .jtagged x, .jtagged y => J x y
  | _, _ => False

/-- Two values go together because one is never reached, because of a union, or by their forms. -/
def JoinableStep (s : Store) (limit : Nat) (J : NodeId → NodeId → Prop) (a b : NodeId) : Prop :=
  s.kind a = .error .dead ∨ s.kind b = .error .dead ∨ (s.kind a).isUnion = true ∨
    (s.kind b).isUnion = true ∨ s.JoinableForm limit J (s.kind a) (s.kind b)

/-- Values that are reached and are no unions go together by their forms. -/
theorem joinableStep_iff {J : NodeId → NodeId → Prop} (ha : s.kind a = k) (hb : s.kind b = k')
    (hforms : k ≠ .error .dead ∧ k' ≠ .error .dead ∧ k.isUnion = false ∧ k'.isUnion = false) :
    s.JoinableStep limit J a b ↔ s.JoinableForm limit J k k' := by
  subst ha hb
  simp [JoinableStep, hforms]

/-- Two values go together. -/
inductive Joinable (s : Store) (limit : Nat) : NodeId → NodeId → Prop where
  | same {a b : NodeId} : s.Equals a b → Joinable s limit a b
  | step {a b : NodeId} (J : NodeId → NodeId → Prop) :
      (∀ x y, J x y → Joinable s limit x y) → s.JoinableStep limit J a b → Joinable s limit a b

/-- Of two labelled lists that match, the right one has nothing under a label that the left one has
not. -/
theorem lookup_of_matches {β : Type} [BEq β] [LawfulBEq β] {R : NodeId → NodeId → Prop}
    {xs ys : List (β × NodeId)} {l : β} (h : Matches (SameLabel R) xs ys)
    (hxs : (xs.map Prod.fst).Nodup) (hy : ys.lookup l = some y) :
    ∃ x, xs.lookup l = some x ∧ R x y := by
  obtain ⟨⟨l', x⟩, hx, hlabel, hxy⟩ :=
    (Matches.flip h (apartIn_of_labels hxs)).2 (l, y) (mem_of_lookup hy)
  obtain rfl : l' = l := hlabel
  exact ⟨x, (lookup_iff_mem hxs).mpr hx, hxy⟩

/-- Forms that go together are of one kind. -/
theorem JoinableForm.sameForm {J : NodeId → NodeId → Prop} (h : s.JoinableForm limit J k k') :
    k.SameForm k' := by
  cases k <;> cases k' <;> first | exact h.elim | constructor

/-- Forms go together as far as related ones do. -/
theorem JoinableForm.transfer {J J₁ E F : NodeId → NodeId → Prop} {k₁ k₁' : Kind}
    (hlabels : k.Labelled ∧ k₁.Labelled ∧ k'.Labelled ∧ k₁'.Labelled) (hk : k.Alike E k₁)
    (hk' : k'.Alike F k₁')
    (hslots : ∀ (P : Candidate → Prop) v v₁ w w₁, (∀ c d, c.Alike s.Equals d → P c → P d) →
      k.slot? = some v → k₁.slot? = some v₁ → k'.slot? = some w → k₁'.slot? = some w₁ →
        s.SlotsJoin limit P v w → s.SlotsJoin limit P v₁ w₁)
    (hJ : ∀ x ∈ k.children, ∀ x₁, ∀ y ∈ k'.children, ∀ y₁, E x x₁ → F y y₁ → J x y → J₁ x₁ y₁)
    (h : s.JoinableForm limit J k k') : s.JoinableForm limit J₁ k₁ k₁' := by
  obtain ⟨hl, hl₁, hl', hl₁'⟩ := hlabels
  -- the forms on the left are of one kind, and so is each with the one on its right
  cases h.sameForm with
  | scalar v w t u =>
    cases hk.sameForm with | scalar _ v₁ _ t₁ =>
    cases hk'.sameForm with | scalar _ w₁ _ u₁ =>
    obtain ⟨rfl, -⟩ := hk
    obtain ⟨rfl, -⟩ := hk'
    exact hslots _ v v₁ w w₁ (fun _ _ => Candidate.Fits.of_alike) rfl rfl rfl rfl h
  | tuple xs ys =>
    cases hk.sameForm with | tuple _ xs₁ =>
    cases hk'.sameForm with | tuple _ ys₁ =>
    have hboth : List.Forall₂ (fun x y => x ∈ xs ∧ y ∈ ys ∧ J x y) xs ys :=
      forall₂_imp_mem h fun x hx y hy hxy => ⟨hx, hy, hxy⟩
    refine (forall₂_comp (forall₂_comp (List.Forall₂.flip hk) hboth) hk').imp ?_
    rintro x₁ y₁ ⟨y, ⟨x, hx₁, hx, hy, hxy⟩, hy₁⟩
    exact hJ x hx x₁ y hy y₁ hx₁ hy₁ hxy
  | list x y =>
    cases hk.sameForm with | list _ x₁ =>
    cases hk'.sameForm with | list _ y₁ =>
    exact hJ x (List.mem_singleton_self x) x₁ y (List.mem_singleton_self y) y₁ hk hk' h
  | array x y shape shape' =>
    cases hk.sameForm with | array _ x₁ _ shape₁ =>
    cases hk'.sameForm with | array _ y₁ _ shape₁' =>
    obtain ⟨rfl, hx⟩ := hk
    obtain ⟨rfl, hy⟩ := hk'
    exact ⟨h.1, hJ x (List.mem_singleton_self x) x₁ y (List.mem_singleton_self y) y₁ hx hy h.2⟩
  | record tag tag' fs gs =>
    cases hk.sameForm with | record _ tag₁ _ fs₁ =>
    cases hk'.sameForm with | record _ tag₁' _ gs₁ =>
    obtain ⟨rfl, hfs⟩ := hk
    obtain ⟨rfl, hgs⟩ := hk'
    refine ⟨h.1, hfs.1.symm.trans (h.2.1.trans hgs.1), fun f₁ hf₁ => ?_⟩
    obtain ⟨x, hx, hx₁⟩ := lookup_of_matches hfs hl ((lookup_iff_mem hl₁).mpr hf₁)
    obtain ⟨y, hy, hxy⟩ := h.2.2 _ (mem_of_lookup hx)
    obtain ⟨y₁, hy₁, hyy⟩ := exists_lookup_of_matches hgs hl₁' _ (mem_of_lookup hy)
    exact ⟨y₁, hy₁, hJ x (mem_snd_of_lookup hx) f₁.2 y (mem_snd_of_lookup hy) y₁ hx₁ hyy hxy⟩
  | tagged xs ys =>
    cases hk.sameForm with | tagged _ xs₁ =>
    cases hk'.sameForm with | tagged _ ys₁ =>
    intro l x₁ y₁ hx₁ hy₁
    obtain ⟨x, hx, hxx⟩ := lookup_of_matches hk hl hx₁
    obtain ⟨y, hy, hyy⟩ := lookup_of_matches hk' hl' hy₁
    exact hJ x (mem_snd_of_lookup hx) x₁ y (mem_snd_of_lookup hy) y₁ hxx hyy (h l x y hx hy)
  | function v w =>
    cases hk.sameForm with | function _ v₁ =>
    cases hk'.sameForm with | function _ w₁ =>
    exact hslots _ v v₁ w w₁ (fun _ _ => Candidate.function?_of_alike) rfl rfl rfl rfl h
  | jtagged x y =>
    cases hk.sameForm with | jtagged _ x₁ =>
    cases hk'.sameForm with | jtagged _ y₁ =>
    exact hJ x (List.mem_singleton_self x) x₁ y (List.mem_singleton_self y) y₁ hk hk' h
  | union | error | type => exact h.elim

/-- **Two values that are not equal go together by one step of the rules.** -/
theorem joinable_iff (hs : s.Sound) (hne : ¬ s.Equals a b) :
    s.Joinable limit a b ↔ s.JoinableStep limit (s.Joinable limit) a b := by
  refine ⟨fun h => ?_, fun h => .step _ (fun _ _ => id) h⟩
  cases h with
  | same h => exact absurd h hne
  | step J hJ h =>
    refine h.imp id fun h => h.imp id fun h => h.imp id fun h => h.imp id fun h => ?_
    have hla := hs.labelled a
    have hlb := hs.labelled b
    refine h.transfer (E := (· = ·)) (F := (· = ·)) ⟨hla, hla, hlb, hlb⟩ (.refl fun _ _ => rfl)
      (.refl fun _ _ => rfl) (fun P v v₁ w w₁ _ hv hv₁ hw hw₁ h => ?_) ?_
    · obtain rfl := Option.some.inj (hv.symm.trans hv₁)
      obtain rfl := Option.some.inj (hw.symm.trans hw₁)
      exact h
    · rintro x - _ y - _ rfl rfl hxy
      exact hJ x y hxy

/-- The members of the union of two values: those of the left one, and those of the right one that
none before covers. -/
noncomputable def joinMembers (s : Store) (a b : NodeId) : List NodeId :=
  addNew s.Covers (s.members a) (s.members b)

/-- The third form is what the first two join to, with the parts joined by `J`. -/
def JoinForm (s : Store) (limit : Nat) (J : NodeId → NodeId → NodeId → Prop)
    (k k' joined : Kind) : Prop :=
  match k, k' with
  | .scalar v t, .scalar w u =>
    ∃ token x, s.joinSlots limit token v w = some x ∧ joined.Reordered (.scalar x (t.join u))
  | .tuple xs, .tuple ys => ∃ zs, JoinsEach J xs ys zs ∧ joined = .tuple zs
  | .list x, .list y => ∃ z, J x y z ∧ joined = .list z
  | .array x shape, .array y shape' => shape = shape' ∧ ∃ z, J x y z ∧ joined = .array z shape
  | .record tag fs, .record tag' gs =>
    tag = tag' ∧ ∃ zs, JoinsFields J gs fs zs ∧ joined.Reordered (.record tag zs)
  | .tagged xs, .tagged ys => ∃ zs, JoinsOptions J xs ys zs ∧ joined.Reordered (.tagged zs)
  | .function v, .function w =>
    ∃ token x, s.joinSlots limit token v w = some x ∧ joined.Reordered (.function x)
  | .jtagged x, .jtagged y => ∃ z, J x y z ∧ joined = .jtagged z
  | _, _ => False

/-- The node `r` of the store `u` is what two values of `s` join to, with the parts joined by
`J`. -/
def JoinStep (s u : Store) (limit : Nat) (J : NodeId → NodeId → NodeId → Prop) (a b r : NodeId) :
    Prop :=
  if s.kind a = .error .dead then r = b
  else if s.kind b = .error .dead then r = a
  else if (s.kind a).isUnion = true ∨ (s.kind b).isUnion = true then
    if (s.joinMembers a b).length = (s.members a).length then r = a
    else (u.kind r).Reordered (.union (s.joinMembers a b))
  else s.JoinForm limit J (s.kind a) (s.kind b) (u.kind r)

/-- The node `r` of the store `u` is what two values of `s` join to. -/
inductive Joined (s u : Store) (limit : Nat) : NodeId → NodeId → NodeId → Prop where
  | same {a b : NodeId} : s.Equals a b → Joined s u limit a b a
  | step {a b r : NodeId} (J : NodeId → NodeId → NodeId → Prop) :
      (∀ x y z, J x y z → Joined s u limit x y z) → ¬ s.Equals a b →
        s.JoinStep u limit J a b r → Joined s u limit a b r

/-- Forms that join to one are of one kind. -/
theorem JoinForm.sameForm {J : NodeId → NodeId → NodeId → Prop} {joined : Kind}
    (h : s.JoinForm limit J k k' joined) : k.SameForm k' := by
  cases k <;> cases k' <;> first | exact h.elim | constructor

theorem joinStep_of_form {J : NodeId → NodeId → NodeId → Prop}
    (h : s.JoinForm limit J (s.kind a) (s.kind b) (u.kind r)) : s.JoinStep u limit J a b r := by
  have hform : ∀ {k k'}, s.JoinForm limit J k k' (u.kind r) →
      k ≠ .error .dead ∧ k' ≠ .error .dead ∧ ¬ (k.isUnion = true ∨ k'.isUnion = true) := by
    intro k k' h
    cases k <;> cases k' <;> first | exact h.elim | simp [Kind.isUnion]
  obtain ⟨hdead, hdead', hunion⟩ := hform h
  rw [JoinStep, if_neg hdead, if_neg hdead', if_neg hunion]
  exact h

/-! ### Regular results -/

/-- A node is regular if what it mentions is, with a regular slot and normalised members. -/
theorem Regular.of_mentions (hcomplete : s.isComplete a = true)
    (hchildren : ∀ c ∈ (s.kind a).children, s.Regular c)
    (hslot : ∀ v, (s.kind a).slot? = some v → s.RegularSlot v)
    (hunion : ∀ ms, s.kind a = .union ms → s.Normalised ms) : s.Regular a := by
  have hreach : ∀ n, s.Reaches a n → n = a ∨ s.Regular n := by
    intro n hn
    rcases Relation.ReflTransGen.cases_head hn with rfl | ⟨c, hc, hcn⟩
    · exact .inl rfl
    refine .inr (Regular.reaches ?_ hcn)
    rcases List.mem_append.mp hc with hc | hc
    · exact hchildren c hc
    · cases hv : (s.kind a).slot? with
      | none =>
        rw [hv] at hc
        exact absurd hc List.not_mem_nil
      | some v =>
        rw [hv] at hc
        exact (hslot v hv).regular c hc
  refine ⟨⟨fun n hn => ?_, fun n hn => ?_, fun n v hn hv => ?_, fun n ms hn hms => ?_⟩,
    fun n v hn hv => ?_⟩
  · rcases hreach n hn with rfl | h
    · exact hcomplete
    · exact h.complete n .refl
  · rcases hreach n hn with rfl | h
    · exact EndsWithin.acyclic (Founded.of_children (present_of_isComplete hcomplete)
        fun c hc => (hchildren c hc).founded)
    · exact h.acyclic n .refl
  · rcases hreach n hn with rfl | h
    · exact (hslot v hv).known
    · exact h.settled n v .refl hv
  · rcases hreach n hn with rfl | h
    · exact hunion ms hms
    · exact h.union_normalised hms
  · rcases hreach n hn with rfl | h
    · exact (hslot v hv).separate
    · exact h.separate n v .refl hv

theorem RegularSlot.of_reordered (h : s.RegularSlot w) (hvw : v.Reordered w) : s.RegularSlot v := by
  cases hvw with
  | same => exact h
  | @possibilities p q hperm =>
    have hregular := h.regularIn
    have hseparate := h.separate
    rw [resolve_self _ (.possibilities q) rfl] at hregular hseparate
    exact .of_candidates rfl (fun c hc => hregular c (hperm.mem_iff.mp hc))
      (hperm.symm.pairwise hseparate fun hcd => hcd.symm)

theorem Grows.regularSlot (h : s.Grows t) (hv : s.RegularSlot v) : t.RegularSlot v where
  known := by rw [h.waitsOn_eq, hv.known]
  regular n hn := by
    rw [h.resolve_eq] at hn
    exact h.regular (hv.regular n hn)
  separate := by
    rw [h.resolve_eq]
    have hkeep : ∀ {c d : Candidate}, s.RegularIn c → s.RegularIn d →
        s.equalCandidates c d = false → t.equalCandidates c d = false := fun hc hd hcd =>
      (h.equalCandidates_eq hc.founded hd.founded).trans hcd
    refine List.Pairwise.imp_of_mem (fun {c d} hc hd hcd => ?_) hv.separate
    have hrc := hv.regularIn c hc
    have hrd := hv.regularIn d hd
    exact ⟨hkeep hrc hrd hcd.1, hkeep hrd hrc hcd.2⟩

/-- What a relaxed merge leaves as its result: a closed value; and in every later store, if no
union in it lists a member twice, a regular value that the operands join to. -/
structure Landed (s : Store) (limit : Nat) (u : Store) (a b r : NodeId) : Prop where
  closed : u.Closed r
  later : ∀ t, u.Grows t → t.Sound → t.Plain r → t.Regular r ∧ s.Joined t limit a b r

theorem Landed.lasts (h : s.Landed limit t a b r) (hgrows : t.Grows u) :
    s.Landed limit u a b r where
  closed := hgrows.closed h.closed
  later _ hu := h.later _ (hgrows.trans hu)

/-- An operand that the operands join to. -/
theorem landed_of_regular (hgrows : s.Grows u) (hr : s.Regular r)
    (h : ∀ t, u.Grows t → t.Sound → t.Plain r → s.Joined t limit a b r) :
    s.Landed limit u a b r where
  closed := hgrows.closed hr.closed
  later t hu ht hplain := ⟨(hgrows.trans hu).regular hr, h t hu ht hplain⟩

/-- A form that is composed of joined parts. -/
structure Composed (s : Store) (limit : Nat) (u : Store) (a b : NodeId) (k : Kind) : Prop where
  live : ∀ e, k ≠ .error e
  admitted : ∀ v, k.slot? = some v → u.AdmitsSlot v
  slot : ∀ v, k.slot? = some v → u.RegularSlot v
  below : ∀ c ∈ k.children, u.Closed c
  regular : ∀ t, u.Grows t → t.Sound → ∀ c ∈ k.children, t.Plain c → t.Regular c
  members : ∀ ms, k = .union ms → u.Normalised ms
  joined : ∀ t r, u.Grows t → t.Sound → (∀ c ∈ k.children, t.Plain c) →
    (t.kind r).Reordered k → s.Joined t limit a b r

theorem Composed.knows (h : s.Composed limit u a b k) : u.knows k = true :=
  knows_of_closed h.below fun v hv => (h.slot v hv).settled

/-- The left operand, where the form is its own. -/
theorem Composed.unchanged (h : s.Composed limit u a b k) (hgrows : s.Grows u) (ha : s.Regular a)
    (hka : (s.kind a).Reordered k) : s.Landed limit u a b a := by
  refine landed_of_regular hgrows ha fun t hu ht hplain => ?_
  have hkind := (hgrows.trans hu).kind_eq ha.closed.present
  refine h.joined t a hu ht (fun c hc => hplain.child ?_) (hkind ▸ hka)
  rw [hkind]
  exact hka.mem_children.mpr hc

/-- A normalised list of members is so in any order. -/
theorem Normalised.of_perm {ms ns : List NodeId} (h : s.Normalised ms) (hperm : ns.Perm ms) :
    s.Normalised ns where
  several := hperm.length_eq ▸ h.several
  flat m hm := h.flat m (hperm.mem_iff.mp hm)
  distinct := hperm.symm.pairwise h.distinct fun hmn => hmn.symm

/-- **A node that is made of the form.** -/
theorem Composed.made (h : s.Composed limit u a b k) (hmade : u.Made t k r) :
    s.Landed limit t a b r := by
  have hclosed := hmade.closed (fun v hv => (h.slot v hv).settled) h.below
  refine ⟨hclosed, fun t' ht hst hplain => ?_⟩
  have hgrows := hmade.grows.trans ht
  have hkind := ht.kind_eq hclosed.present
  have hreordered : (t'.kind r).Reordered k := by
    rw [hkind]
    exact hmade.reordered fun ms hms => hplain.here (hkind.trans hms)
  have hbelow : ∀ c ∈ k.children, t'.Plain c := fun c hc =>
    hplain.child (hreordered.mem_children.mpr hc)
  refine ⟨.of_mentions ?_ (fun c hc => ?_) (fun v hv => ?_) fun ms hms => ?_,
    h.joined t' r hgrows hst hbelow hreordered⟩
  · by_contra hblank
    rw [kind_of_incomplete (Bool.eq_false_iff.mpr hblank)] at hreordered
    generalize hk : k = k₀ at hreordered
    cases hreordered
    exact h.live _ hk
  · have hc' := hreordered.mem_children.mp hc
    exact h.regular t' hgrows hst c hc' (hbelow c hc')
  · obtain ⟨w, hw, hvw⟩ := hreordered.slot hv
    exact (hgrows.regularSlot (h.slot w hw)).of_reordered hvw
  · rw [hms] at hreordered
    cases hreordered with
    | same => exact hgrows.normalised (fun m hm => (h.below m hm).founded) (h.members ms rfl)
    | union hperm =>
      exact (hgrows.normalised (fun m hm => (h.below m hm).founded)
        (h.members _ rfl)).of_perm hperm

end Store

namespace Infer

variable {s t u : Store} {a b : NodeId} {k : Kind} {limit : Nat}

/-- **A node is made of joined parts** exactly if its form passes the check. -/
theorem produces_make (hu : u.Sound) (h : s.Composed limit u a b k) :
    Produces (make k) u (u.fault? k = none) fun t r => s.Landed limit t a b r := by
  rcases hfault : u.fault? k with _ | fault
  · rcases hplace : u.place k with ⟨r, t⟩
    have hrun : (make k).outcome u = (.ok r, t) := by
      rw [outcome_make, Store.build, hfault, hplace]
      rfl
    have hmade := Store.make_spec hu h.admitted hrun
    exact .gives hrun hmade.grows hmade.sound rfl (h.made hmade)
  · refine .fails (e := .invalidConstruction fault) (u := u) ?_ (.refl u) hu (by simp)
    rw [outcome_make, Store.build, hfault]
    rfl

/-- What a merge does with its parts: it gives back the left operand if nothing has changed, and
makes a node otherwise. -/
theorem Produces.settles {γ : Type} [DecidableEq γ] {x : Infer γ} {old : γ} {F : γ → Kind}
    {P : Prop} {Q : Store → γ → Prop} (h : Produces x t P Q) (hgrows : s.Grows t)
    (ha : s.Regular a) (hold : (s.kind a).Reordered (F old))
    (hcomposed : ∀ u new, t.Grows u → u.Sound → Q u new → s.Composed limit u a b (F new))
    (hfault : ∀ u new, t.Grows u → u.Sound → Q u new → u.fault? (F new) = none) :
    Produces (x >>= fun new => if new = old then pure a else make (F new)) t P
      fun u r => s.Landed limit u a b r := by
  refine (h.bind (C := True) fun u new hu hsu _ hnew => ?_).congr (and_iff_left trivial)
  have hcomp := hcomposed u new hu hsu hnew
  by_cases hsame : new = old
  · rw [if_pos hsame]
    exact produces_pure hsu (hcomp.unchanged (hgrows.trans hu) ha (hsame ▸ hold))
  · rw [if_neg hsame]
    exact (produces_make hsu hcomp).congr (iff_of_true (hfault u new hu hsu hnew) trivial)

end Infer

end ValueInference
