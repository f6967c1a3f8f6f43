/-
Relaxed merges of slots, said without a merge.

Two slots that are known join to a slot that depends on their candidates alone, or they do not go
together.  What is added to some candidates is added one after the other, and it does not matter
in which order, as long as none of the added ones stands for another one.

* **`addNew`** — adds to a list what nothing in it stands for, one after the other;
* **`addNew_matches`** — related lists get related additions;
* **`Store.joinSlots`** — the slot that two slots join to;
* **`Infer.mergeSlots_joins`** — a relaxed merge of slots gives that slot, or fails if there is
  none;
* **`Store.joinSlots_twins`** — equal slots join to equal ones.
-/
import ValueInference.Proofs.Transitivity
import ValueInference.Proofs.WidenedSlots

namespace ValueInference

/-! ### Adding what is new -/

section

variable {α : Type} {E R : α → α → Prop} {as as' bs bs' : List α}

open Classical in
/-- Adds the things of the second list to the first, one after the other, leaving out those that
something before them stands for. -/
noncomputable def addNew (E : α → α → Prop) (as bs : List α) : List α :=
  bs.foldl (fun as b => if ∃ a ∈ as, E a b then as else as ++ [b]) as

open Classical in
theorem addNew_cons (a : α) :
    addNew E as (a :: bs) = addNew E (if ∃ x ∈ as, E x a then as else as ++ [a]) bs :=
  rfl

/-- What is added comes from the second list. -/
theorem mem_of_mem_addNew {x : α} : ∀ {bs as : List α}, x ∈ addNew E as bs → x ∈ as ∨ x ∈ bs := by
  intro bs
  induction bs with
  | nil => exact fun h => .inl h
  | cons b bs ih =>
    intro as h
    rw [addNew_cons] at h
    rcases ih h with h | h
    · split at h
      · exact .inl h
      · rcases List.mem_append.mp h with h | h
        · exact .inl h
        · exact .inr (List.mem_singleton.mp h ▸ List.mem_cons_self)
    · exact .inr (List.mem_cons_of_mem b h)

/-- Things are added behind those that are there. -/
theorem prefix_addNew : ∀ {bs as : List α}, as <+: addNew E as bs := by
  intro bs
  induction bs with
  | nil => exact List.prefix_rfl
  | cons b bs ih =>
    intro as
    rw [addNew_cons]
    refine List.IsPrefix.trans ?_ ih
    split
    · exact List.prefix_rfl
    · exact List.prefix_append as [b]

/-- Nothing in the result stands for something that was added behind it. -/
theorem pairwise_addNew {D : α → α → Prop} (hED : ∀ a b, ¬ E a b → D a b) :
    ∀ {bs as : List α}, as.Pairwise D → (addNew E as bs).Pairwise D := by
  intro bs
  induction bs with
  | nil => exact fun h => h
  | cons b bs ih =>
    intro as has
    rw [addNew_cons]
    split
    · exact ih has
    · next hnew =>
      refine ih (List.pairwise_append.mpr ⟨has, List.pairwise_singleton _ _, fun a ha c hc => ?_⟩)
      obtain rfl := List.mem_singleton.mp hc
      exact hED a c fun hac => hnew ⟨a, ha, hac⟩

/-- **In the same order, related things are added.** -/
theorem addNew_forall₂ {E' : α → α → Prop}
    (hE : ∀ a a' b b', R a a' → R b b' → (E a b ↔ E' a' b')) (hbs : List.Forall₂ R bs bs') :
    ∀ {as as' : List α}, List.Forall₂ R as as' →
      List.Forall₂ R (addNew E as bs) (addNew E' as' bs') := by
  induction hbs with
  | nil => exact fun has => has
  | @cons b b' bs bs' hb _ ih =>
    intro as as' has
    have hstands : (∃ a ∈ as, E a b) ↔ ∃ a' ∈ as', E' a' b' := by
      constructor
      · rintro ⟨a, ha, hab⟩
        obtain ⟨a', ha', haa⟩ := exists_of_forall₂ has a ha
        exact ⟨a', ha', (hE a a' b b' haa hb).mp hab⟩
      · rintro ⟨a', ha', hab⟩
        obtain ⟨a, ha, haa⟩ := exists_of_forall₂ has.flip a' ha'
        exact ⟨a, ha, (hE a a' b b' haa hb).mpr hab⟩
    rw [addNew_cons, addNew_cons]
    by_cases h : ∃ a ∈ as, E a b
    · rw [if_pos h, if_pos (hstands.mp h)]
      exact ih has
    · rw [if_neg h, if_neg (hstands.not.mp h)]
      exact ih (List.rel_append has (.cons hb .nil))

/-- Things are added unless something that is there equals them. -/
theorem foldl_eq_addNew {E : α → α → Bool} {f : List α → α → List α}
    (hf : ∀ as b, f as b = if as.any fun a => E a b then as else as ++ [b]) :
    ∀ bs as : List α, bs.foldl f as = addNew (fun a b => E a b = true) as bs := by
  intro bs
  induction bs with
  | nil => exact fun _ => rfl
  | cons b bs ih =>
    intro as
    have hany : (as.any fun a => E a b) = true ↔ ∃ a ∈ as, E a b = true := List.any_eq_true
    rw [List.foldl_cons, addNew_cons, ih, hf]
    by_cases h : (as.any fun a => E a b) = true
    · rw [if_pos h, if_pos (hany.mp h)]
    · rw [if_neg h, if_neg (hany.not.mp h)]

/-- The order of the things that are there does not matter. -/
theorem addNew_perm_left : ∀ {bs as as' : List α}, as.Perm as' →
    (addNew E as bs).Perm (addNew E as' bs) := by
  intro bs
  induction bs with
  | nil => exact fun h => h
  | cons b bs ih =>
    intro as as' h
    have hstands : (∃ a ∈ as, E a b) ↔ ∃ a ∈ as', E a b := by
      simp only [h.mem_iff]
    rw [addNew_cons, addNew_cons]
    by_cases hb : ∃ a ∈ as, E a b
    · rw [if_pos hb, if_pos (hstands.mp hb)]
      exact ih h
    · rw [if_neg hb, if_neg (hstands.not.mp hb)]
      exact ih (h.append_right [b])

open Classical in
/-- Where nothing that is added stands for another one, all those are added that nothing stands
for which was there before. -/
theorem addNew_eq_filter : ∀ {bs as : List α}, (bs.Pairwise fun a b => ¬ E a b) →
    addNew E as bs = as ++ bs.filter fun b => ¬ ∃ a ∈ as, E a b := by
  intro bs
  induction bs with
  | nil => exact fun _ => (List.append_nil _).symm
  | cons b bs ih =>
    intro as h
    obtain ⟨hb, hbs⟩ := List.pairwise_cons.mp h
    rw [addNew_cons, ih hbs]
    by_cases hstands : ∃ a ∈ as, E a b
    · rw [if_pos hstands, List.filter_cons_of_neg (by simpa using hstands)]
    · rw [if_neg hstands, List.filter_cons_of_pos (by simpa using hstands), List.append_assoc,
        List.singleton_append]
      refine congrArg (as ++ b :: ·) (List.filter_congr fun c hc => ?_)
      have hbc := hb c hc
      simp [or_and_right, exists_or, hbc]

/-- **The order of what is added does not matter** where none of it stands for another one. -/
theorem addNew_perm_right (hbs : bs.Pairwise fun a b => ¬ E a b ∧ ¬ E b a) (h : bs.Perm bs') :
    (addNew E as bs).Perm (addNew E as bs') := by
  have hbs' : bs'.Pairwise fun a b => ¬ E a b ∧ ¬ E b a :=
    h.pairwise hbs fun hab => hab.symm
  rw [addNew_eq_filter (hbs.imp And.left), addNew_eq_filter (hbs'.imp And.left)]
  exact (h.filter _).append_left as

/-- **Related lists get related additions**, if the second ones are in the same order, or their
order does not matter. -/
theorem addNew_matches (hE : ∀ a a' b b', R a a' → R b b' → (E a b ↔ E a' b'))
    (has : Matches R as as') (hapart : ApartIn R as as')
    (hbs : List.Forall₂ R bs bs' ∨ Matches R bs bs' ∧ ApartIn R bs bs' ∧
      bs'.Pairwise fun a b => ¬ E a b ∧ ¬ E b a) :
    Matches R (addNew E as bs) (addNew E as' bs') := by
  obtain ⟨cs, hcs, hpairs⟩ := has.pairing hapart
  -- the second lists are related pairwise after a permutation that does not show
  obtain ⟨ds, hds, hpairs'⟩ : ∃ ds, (addNew E as' ds).Perm (addNew E as' bs') ∧
      List.Forall₂ R bs ds := by
    rcases hbs with hbs | ⟨hmatch, hdiff, hnone⟩
    · exact ⟨bs', .refl _, hbs⟩
    · obtain ⟨ds, hds, hpairs'⟩ := hmatch.pairing hdiff
      exact ⟨ds, (addNew_perm_right hnone hds.symm).symm, hpairs'⟩
  have hmatch := matches_of_forall₂ (addNew_forall₂ hE hpairs' hpairs)
  exact hmatch.of_perm_right ((addNew_perm_left hcs).trans hds).symm

end

/-- Different types join to `Any`. -/
def Ty.join (t u : Ty) : Ty :=
  if t = u ∨ t = .any then t else .any

namespace Store

variable {s t : Store} {a b : NodeId} {v v' w w' x x' : Slot} {c d e : Candidate}
  {ps ps' qs qs' : List Candidate} {limit token token' : Nat}

/-! ### Regular slots -/

/-- Every node in a candidate is regular. -/
def RegularIn (s : Store) (c : Candidate) : Prop := ∀ n ∈ c.children, s.Regular n

theorem RegularIn.founded (h : s.RegularIn c) : s.FoundedIn c := fun n hn => (h n hn).founded

/-- No two candidates are equal. -/
def Separate (s : Store) (cs : List Candidate) : Prop :=
  cs.Pairwise fun c d => s.equalCandidates c d = false ∧ s.equalCandidates d c = false

/-- A slot as regular values have them: it stands for something known, over regular values, with
candidates that are pairwise unequal. -/
structure RegularSlot (s : Store) (v : Slot) : Prop where
  known : s.waitsOn v = none
  regular : ∀ n ∈ (s.resolve v).children, s.Regular n
  separate : s.Separate (Infer.candidatesOf (s.resolve v))

theorem Regular.slot (h : s.Regular a) (hv : (s.kind a).slot? = some v) : s.RegularSlot v where
  known := h.settled a v .refl hv
  regular _ hn := h.reaches (.single (mem_mentions_of_slot hv hn))
  separate := h.separate a v .refl hv

namespace RegularSlot

theorem settled (h : s.RegularSlot v) : s.Settled v where
  known := h.known
  closed n hn := (h.regular n hn).closed

theorem regularIn (h : s.RegularSlot v) :
    ∀ c ∈ Infer.candidatesOf (s.resolve v), s.RegularIn c := fun _ hc n hn =>
  h.regular n (mem_children_of_candidate hc hn)

/-- The nodes in the slot itself are regular. -/
theorem child {n : NodeId} (h : s.RegularSlot v) (hn : n ∈ v.children) : s.Regular n := by
  cases v with
  | possibilities p =>
    refine h.regular n ?_
    rwa [resolve_self _ (.possibilities p) rfl]
  | _ => exact absurd hn List.not_mem_nil

/-- A slot that is no pending and whose candidates are those of regular slots. -/
theorem of_candidates (hv : v.pendings = []) (hregular : ∀ c ∈ Infer.candidatesOf v, s.RegularIn c)
    (hseparate : s.Separate (Infer.candidatesOf v)) : s.RegularSlot v := by
  have hself := s.resolve_self v hv
  refine ⟨?_, fun n hn => ?_, by rwa [hself]⟩
  · rw [waitsOn, hself]
    cases v with
    | pending p => exact absurd hv (List.cons_ne_nil p [])
    | _ => rfl
  · rw [hself] at hn
    cases v with
    | possibilities p =>
      obtain ⟨c, hc, hnc⟩ := List.mem_flatMap.mp hn
      exact hregular c hc n hnc
    | _ => exact absurd hn List.not_mem_nil

theorem anything : s.RegularSlot .anything :=
  of_candidates rfl (fun _ hc => absurd hc List.not_mem_nil) .nil

end RegularSlot

/-- Candidates over regular values: equality of them can be turned round. -/
theorem alike_symm (hs : s.Sound) (hc : s.RegularIn c) (hd : s.FoundedIn d)
    (h : c.Alike s.Equals d) : d.Alike s.Equals c :=
  h.flip.imp fun y hy x hx hxy => ((hc x hx).equivalent hs).symm y (hd y hy) hxy

/-- Candidates over regular values: equality of them can be composed. -/
theorem alike_trans (hs : s.Sound) (hc : s.RegularIn c) (hd : s.FoundedIn d) (he : s.FoundedIn e)
    (h : c.Alike s.Equals d) (h' : d.Alike s.Equals e) : c.Alike s.Equals e := by
  have hmid : c.Alike (fun x y => s.Equals x y ∧ s.Founded y) d :=
    h.imp fun x _ y hy hxy => ⟨hxy, hd y hy⟩
  refine (hmid.comp h').imp fun x hx z hz hxz => ?_
  obtain ⟨y, ⟨hxy, hy⟩, hyz⟩ := hxz
  exact ((hc x hx).equivalent hs).trans y z hy (he z hz) hxy hyz

/-- No two of some candidates that are pairwise unequal are alike to the same candidate. -/
theorem apartIn_candidates (hs : s.Sound) (hps : ∀ c ∈ ps, s.RegularIn c)
    (hseparate : s.Separate ps) (hqs : ∀ d ∈ qs, s.FoundedIn d) :
    ApartIn (Candidate.Alike s.Equals) ps qs := by
  refine List.Pairwise.imp_of_mem (fun {c d} hc hd hcd e he hce hde => ?_) hseparate
  have hdc := alike_symm hs (hps d hd) (hqs e he) hde
  exact absurd ((equalCandidates_iff (hps c hc).founded).mpr
    (alike_trans hs (hps c hc) (hqs e he) (hps d hd).founded hce hdc)) (Bool.eq_false_iff.mp hcd.1)

/-! ### Joined slots -/

/-- What two slots with these candidates join to, if they are no two constants. -/
def joinCandidates (s : Store) (limit token : Nat) (v w : Slot) (p q : List Candidate) : Slot :=
  if s.isSubset q p then v
  else if s.isSubset p q then w
  else if (s.addCandidates p q).all (fun c => c.constant?.isSome) &&
      limit < (s.addCandidates p q).length then .anything
  else .possibilities ⟨token, s.addCandidates p q⟩

/-- The slot that two known slots join to, if they go together; a new set gets the token. -/
def joinSlots (s : Store) (limit token : Nat) (v w : Slot) : Option Slot :=
  match s.resolve v, s.resolve w with
  | .anything, _ => some v
  | _, .anything => some .anything
  | .constant c, .constant d =>
    if c = d then some v
    else if c.widenable && d.widenable then some .anything
    else none
  | rv, rw =>
    some (s.joinCandidates limit token v w (Infer.candidatesOf rv) (Infer.candidatesOf rw))

theorem addCandidates_eq_addNew (s : Store) (qs ps : List Candidate) :
    s.addCandidates ps qs = addNew (fun c d => s.equalCandidates c d = true) ps qs :=
  foldl_eq_addNew (fun _ _ => rfl) qs ps

/-- No candidate equals one that was added behind it. -/
theorem pairwise_addCandidates {cs ds : List Candidate}
    (h : cs.Pairwise fun c d => s.equalCandidates c d = false) :
    (s.addCandidates cs ds).Pairwise fun c d => s.equalCandidates c d = false := by
  rw [addCandidates_eq_addNew]
  exact pairwise_addNew (fun _ _ => Bool.eq_false_iff.mpr) h

/-- The candidates of two regular slots, put together. -/
theorem addCandidates_regular (hs : s.Sound) (hv : s.RegularSlot v) (hw : s.RegularSlot w) :
    (∀ c ∈ s.addCandidates (Infer.candidatesOf (s.resolve v)) (Infer.candidatesOf (s.resolve w)),
      s.RegularIn c) ∧
    s.Separate (s.addCandidates (Infer.candidatesOf (s.resolve v))
      (Infer.candidatesOf (s.resolve w))) := by
  have hregular : ∀ c ∈ s.addCandidates (Infer.candidatesOf (s.resolve v))
      (Infer.candidatesOf (s.resolve w)), s.RegularIn c := fun c hc =>
    (mem_of_mem_addCandidates hc).elim (hv.regularIn c) (hw.regularIn c)
  refine ⟨hregular, ?_⟩
  have hpair : (s.addCandidates (Infer.candidatesOf (s.resolve v))
      (Infer.candidatesOf (s.resolve w))).Pairwise fun c d => s.equalCandidates c d = false :=
    pairwise_addCandidates (hv.separate.imp And.left)
  refine List.Pairwise.imp_of_mem (fun {c d} hc hd hcd =>
    ⟨hcd, Bool.eq_false_iff.mpr fun hdc => ?_⟩) hpair
  refine absurd ((equalCandidates_iff (hregular c hc).founded).mpr ?_) (Bool.eq_false_iff.mp hcd)
  exact alike_symm hs (hregular d hd) (hregular c hc).founded
    ((equalCandidates_iff (hregular d hd).founded).mp hdc)

/-- What the joined slots of regular ones are like. -/
theorem regularSlot_of_joinSlots (hs : s.Sound) (hv : s.RegularSlot v) (hw : s.RegularSlot w)
    (h : s.joinSlots limit token v w = some x) : s.RegularSlot x := by
  have hjoined : s.RegularSlot (s.joinCandidates limit token v w
      (Infer.candidatesOf (s.resolve v)) (Infer.candidatesOf (s.resolve w))) := by
    rw [joinCandidates]
    split
    · exact hv
    split
    · exact hw
    split
    · exact .anything
    · obtain ⟨hregular, hseparate⟩ := addCandidates_regular hs hv hw
      exact .of_candidates rfl hregular hseparate
  rw [joinSlots] at h
  split at h
  · exact Option.some.inj h ▸ hv
  · exact Option.some.inj h ▸ .anything
  · split at h
    · exact Option.some.inj h ▸ hv
    split at h
    · exact Option.some.inj h ▸ .anything
    · exact nomatch h
  · exact Option.some.inj h ▸ hjoined

/-! ### Slots that are twins -/

/-- Equal slots: they are alike, and so are the candidates that they stand for. -/
structure SlotTwins (s : Store) (v w : Slot) : Prop where
  alike : v.Alike s.Equals w
  candidates : Matches (Candidate.Alike s.Equals) (Infer.candidatesOf (s.resolve v))
    (Infer.candidatesOf (s.resolve w))

/-- Alike slots are twins if a set is what its token says. -/
theorem slotTwins_of_alike (hcoherent : v.Coherent w) (h : v.Alike s.Equals w) :
    s.SlotTwins v w := by
  refine ⟨h, ?_⟩
  have hself : ∀ cs : List Candidate, Matches (Candidate.Alike s.Equals) cs cs := fun _ =>
    matches_refl fun c _ => s.alike_refl c
  cases v with
  | possibilities p =>
    cases w with
    | possibilities q =>
      rw [resolve_self _ (.possibilities p) rfl, resolve_self _ (.possibilities q) rfl]
      rcases h with htoken | hmatch
      · have hsame : p.candidates = q.candidates := hcoherent p q rfl rfl htoken
        rw [Infer.candidatesOf, Infer.candidatesOf, hsame]
        exact hself _
      · exact hmatch
    | _ => exact h.elim
  | constant c =>
    cases w with
    | constant d =>
      obtain rfl : c = d := h
      exact hself _
    | _ => exact h.elim
  | anything =>
    cases w with
    | anything => exact hself _
    | _ => exact h.elim
  | pending p =>
    cases w with
    | pending q =>
      obtain rfl : p = q := h
      exact hself _
    | _ => exact h.elim

namespace SlotTwins

/-- Twins stand for the same, or both for sets. -/
theorem resolved (h : s.SlotTwins v w) : s.resolve v = s.resolve w ∨
    ∃ p q, s.resolve v = .possibilities p ∧ s.resolve w = .possibilities q := by
  have halike := h.alike
  cases v with
  | possibilities p =>
    cases w with
    | possibilities q => exact .inr ⟨p, q, s.resolve_self _ rfl, s.resolve_self _ rfl⟩
    | _ => exact halike.elim
  | constant c =>
    cases w with
    | constant d =>
      obtain rfl : c = d := halike
      exact .inl rfl
    | _ => exact halike.elim
  | anything =>
    cases w with
    | anything => exact .inl rfl
    | _ => exact halike.elim
  | pending p =>
    cases w with
    | pending q =>
      obtain rfl : p = q := halike
      exact .inl rfl
    | _ => exact halike.elim

theorem symm (hs : s.Sound) (hv : s.RegularSlot v) (hw : s.RegularSlot w) (h : s.SlotTwins v w) :
    s.SlotTwins w v := by
  have hflip : Matches (Candidate.Alike s.Equals) (Infer.candidatesOf (s.resolve w))
      (Infer.candidatesOf (s.resolve v)) := by
    refine (h.candidates.flip (apartIn_candidates hs hv.regularIn hv.separate fun d hd =>
      (hw.regularIn d hd).founded)).imp fun d hd c hc hcd => ?_
    exact alike_symm hs (hv.regularIn c hc) (hw.regularIn d hd).founded hcd
  refine ⟨?_, hflip⟩
  have halike := h.alike
  cases v with
  | possibilities p =>
    cases w with
    | possibilities q =>
      rw [resolve_self _ (.possibilities p) rfl, resolve_self _ (.possibilities q) rfl] at hflip
      exact .inr hflip
    | _ => exact halike.elim
  | constant c =>
    cases w with
    | constant d => exact Eq.symm halike
    | _ => exact halike.elim
  | anything =>
    cases w with
    | anything => trivial
    | _ => exact halike.elim
  | pending p =>
    cases w with
    | pending q => exact Eq.symm halike
    | _ => exact halike.elim

/-- What holds of the candidates of a slot, as far as equal ones have it together, holds of those
of a twin. -/
theorem forall_candidates {P : Candidate → Prop} (hs : s.Sound) (hv : s.RegularSlot v)
    (hw : s.RegularSlot w) (h : s.SlotTwins v w)
    (hP : ∀ c d : Candidate, c.Alike s.Equals d → P c → P d)
    (hall : ∀ c ∈ Infer.candidatesOf v, P c) : ∀ d ∈ Infer.candidatesOf w, P d := by
  have hself : ∀ u : Slot, ∀ c ∈ Infer.candidatesOf u, c ∈ Infer.candidatesOf (s.resolve u) := by
    intro u c hc
    cases u with
    | pending p => exact absurd hc List.not_mem_nil
    | _ => rwa [resolve_self _ _ rfl]
  intro d hd
  obtain ⟨c, hc, hdc⟩ := (h.symm hs hv hw).candidates.2 d (hself w d hd)
  refine hP c d (alike_symm hs (hw.regularIn d (hself w d hd)) (hv.regularIn c hc).founded hdc)
    (hall c ?_)
  -- a pending on the left is one on the right, which has no candidates itself
  cases v with
  | pending p =>
    have halike := h.alike
    cases w with
    | pending q => exact absurd hd List.not_mem_nil
    | _ => exact halike.elim
  | _ => rwa [resolve_self _ _ rfl] at hc

end SlotTwins

/-- Inclusion is the same for equal candidates. -/
theorem isSubset_of_twins (hs : s.Sound) (hv : s.RegularSlot v) (hv' : s.RegularSlot v')
    (hw : s.RegularSlot w) (hw' : s.RegularSlot w') (htv : s.SlotTwins v v')
    (htw : s.SlotTwins w w')
    (h : s.isSubset (Infer.candidatesOf (s.resolve v)) (Infer.candidatesOf (s.resolve w)) = true) :
    s.isSubset (Infer.candidatesOf (s.resolve v')) (Infer.candidatesOf (s.resolve w')) = true := by
  rw [isSubset_iff fun d hd => (hw.regularIn d hd).founded] at h
  refine (isSubset_iff fun d hd => (hw'.regularIn d hd).founded).mpr fun c' hc' => ?_
  obtain ⟨c, hc, hcc⟩ := (htv.symm hs hv hv').candidates.2 c' hc'
  obtain ⟨d, hd, hdc⟩ := h c hc
  obtain ⟨d', hd', hdd⟩ := htw.candidates.2 d hd
  have hrc := hv.regularIn c hc
  have hrc' := hv'.regularIn c' hc'
  have hrd := hw.regularIn d hd
  have hrd' := hw'.regularIn d' hd'
  refine ⟨d', hd', alike_trans hs hrd' hrd.founded hrc'.founded
    (alike_symm hs hrd hrd'.founded hdd) ?_⟩
  exact alike_trans hs hrd hrc.founded hrc'.founded hdc (alike_symm hs hrc' hrc.founded hcc)

/-- The candidates of twins get equal additions. -/
theorem addCandidates_twins (hs : s.Sound) (hv : s.RegularSlot v) (hv' : s.RegularSlot v')
    (hw : s.RegularSlot w) (hw' : s.RegularSlot w') (htv : s.SlotTwins v v')
    (htw : s.SlotTwins w w') : Matches (Candidate.Alike s.Equals)
      (s.addCandidates (Infer.candidatesOf (s.resolve v)) (Infer.candidatesOf (s.resolve w)))
      (s.addCandidates (Infer.candidatesOf (s.resolve v'))
        (Infer.candidatesOf (s.resolve w'))) := by
  let R : Candidate → Candidate → Prop := fun c d =>
    c.Alike s.Equals d ∧ s.RegularIn c ∧ s.RegularIn d
  have hR : ∀ {v v' : Slot}, s.RegularSlot v → s.RegularSlot v' → s.SlotTwins v v' →
      Matches R (Infer.candidatesOf (s.resolve v)) (Infer.candidatesOf (s.resolve v')) ∧
        ApartIn R (Infer.candidatesOf (s.resolve v)) (Infer.candidatesOf (s.resolve v')) := by
    intro v v' hv hv' htv
    refine ⟨htv.candidates.imp fun c hc d hd hcd => ⟨hcd, hv.regularIn c hc, hv'.regularIn d hd⟩,
      ?_⟩
    exact (apartIn_candidates hs hv.regularIn hv.separate fun d hd =>
      (hv'.regularIn d hd).founded).anti fun _ _ _ _ => And.left
  rw [addCandidates_eq_addNew, addCandidates_eq_addNew]
  refine (addNew_matches (R := R) ?_ (hR hv hv' htv).1 (hR hv hv' htv).2
    (.inr ⟨(hR hw hw' htw).1, (hR hw hw' htw).2, ?_⟩)).imp fun _ _ _ _ => And.left
  · rintro c c' d d' ⟨hcc, hc, hc'⟩ ⟨hdd, hd, hd'⟩
    rw [equalCandidates_iff hc.founded, equalCandidates_iff hc'.founded]
    constructor
    · exact fun hcd => alike_trans hs hc' hc.founded hd'.founded
        (alike_symm hs hc hc'.founded hcc) (alike_trans hs hc hd.founded hd'.founded hcd hdd)
    · exact fun hcd => alike_trans hs hc hc'.founded hd.founded hcc
        (alike_trans hs hc' hd'.founded hd.founded hcd (alike_symm hs hd hd'.founded hdd))
  · exact hw'.separate.imp fun hcd =>
      ⟨Bool.eq_false_iff.mp hcd.1, Bool.eq_false_iff.mp hcd.2⟩

/-- Equal candidates are constants together. -/
theorem constants_of_matches {R : NodeId → NodeId → Prop} (h : Matches (Candidate.Alike R) ps qs)
    (hqs : qs.all (fun c => c.constant?.isSome) = true) :
    ps.all (fun c => c.constant?.isSome) = true := by
  refine List.all_eq_true.mpr fun c hc => ?_
  obtain ⟨d, hd, hcd⟩ := h.2 c hc
  have hconstant := List.all_eq_true.mp hqs d hd
  cases c with
  | constant x => rfl
  | function f =>
    cases d with
    | constant y => exact hcd.elim
    | function g => exact absurd hconstant (by simp [Candidate.constant?])

/-- Twins join to twins, if one is no constant. -/
theorem joinCandidates_twins (hs : s.Sound) (hv : s.RegularSlot v) (hv' : s.RegularSlot v')
    (hw : s.RegularSlot w) (hw' : s.RegularSlot w') (htv : s.SlotTwins v v')
    (htw : s.SlotTwins w w') : s.SlotTwins
      (s.joinCandidates limit token v w (Infer.candidatesOf (s.resolve v))
        (Infer.candidatesOf (s.resolve w)))
      (s.joinCandidates limit token' v' w' (Infer.candidatesOf (s.resolve v'))
        (Infer.candidatesOf (s.resolve w'))) := by
  have htv' := htv.symm hs hv hv'
  have htw' := htw.symm hs hw hw'
  have hleft : s.isSubset (Infer.candidatesOf (s.resolve w)) (Infer.candidatesOf (s.resolve v)) =
      s.isSubset (Infer.candidatesOf (s.resolve w')) (Infer.candidatesOf (s.resolve v')) :=
    Bool.eq_iff_iff.mpr ⟨isSubset_of_twins hs hw hw' hv hv' htw htv,
      isSubset_of_twins hs hw' hw hv' hv htw' htv'⟩
  have hright : s.isSubset (Infer.candidatesOf (s.resolve v)) (Infer.candidatesOf (s.resolve w)) =
      s.isSubset (Infer.candidatesOf (s.resolve v')) (Infer.candidatesOf (s.resolve w')) :=
    Bool.eq_iff_iff.mpr ⟨isSubset_of_twins hs hv hv' hw hw' htv htw,
      isSubset_of_twins hs hv' hv hw' hw htv' htw'⟩
  have hunion := addCandidates_twins hs hv hv' hw hw' htv htw
  have hunion' := addCandidates_twins hs hv' hv hw' hw htv' htw'
  rw [joinCandidates, joinCandidates, ← hleft, ← hright, ← hunion.1,
    ← Bool.eq_iff_iff.mpr ⟨constants_of_matches hunion', constants_of_matches hunion⟩]
  split
  · exact htv
  split
  · exact htw
  split
  · exact slotTwins_of_alike (fun p _ hp => nomatch hp) trivial
  · refine ⟨.inr hunion, ?_⟩
    rw [resolve_self _ (.possibilities _) rfl, resolve_self _ (.possibilities _) rfl]
    exact hunion

/-- **Twins join to twins**, or neither pair goes together. -/
theorem joinSlots_twins (hs : s.Sound) (hv : s.RegularSlot v) (hv' : s.RegularSlot v')
    (hw : s.RegularSlot w) (hw' : s.RegularSlot w') (htv : s.SlotTwins v v')
    (htw : s.SlotTwins w w') :
    (s.joinSlots limit token v w = none ↔ s.joinSlots limit token' v' w' = none) ∧
      ∀ x x', s.joinSlots limit token v w = some x → s.joinSlots limit token' v' w' = some x' →
        s.SlotTwins x x' := by
  have hanything : s.SlotTwins .anything .anything :=
    slotTwins_of_alike (fun p _ hp => nomatch hp) trivial
  -- with slots that have come out alike, both sides are the same kind of slot
  have hsome : ∀ {y y' : Slot}, s.SlotTwins y y' → s.joinSlots limit token v w = some y →
      s.joinSlots limit token' v' w' = some y' →
      (s.joinSlots limit token v w = none ↔ s.joinSlots limit token' v' w' = none) ∧
        ∀ x x', s.joinSlots limit token v w = some x → s.joinSlots limit token' v' w' = some x' →
          s.SlotTwins x x' := by
    intro y y' hy h h'
    rw [h, h']
    refine ⟨by simp, ?_⟩
    rintro x x' ⟨⟩ ⟨⟩
    exact hy
  have hcandidates : s.SlotTwins
      (s.joinCandidates limit token v w (Infer.candidatesOf (s.resolve v))
        (Infer.candidatesOf (s.resolve w)))
      (s.joinCandidates limit token' v' w' (Infer.candidatesOf (s.resolve v'))
        (Infer.candidatesOf (s.resolve w'))) :=
    joinCandidates_twins hs hv hv' hw hw' htv htw
  have hcases : ∀ {v v' : Slot}, s.RegularSlot v → s.SlotTwins v v' →
      (∃ c, s.resolve v = .constant c ∧ s.resolve v' = .constant c) ∨
        (s.resolve v = .anything ∧ s.resolve v' = .anything) ∨
          ∃ p q, s.resolve v = .possibilities p ∧ s.resolve v' = .possibilities q := by
    intro v v' hv htv
    rcases htv.resolved with heq | hsets
    · rw [← heq]
      rcases hr : s.resolve v with c | _ | p | p
      · exact .inl ⟨c, rfl, rfl⟩
      · exact .inr (.inl ⟨rfl, rfl⟩)
      · exact .inr (.inr ⟨p, p, rfl, rfl⟩)
      · exact absurd hr (Infer.resolve_ne_pending hv.settled p)
    · exact .inr (.inr hsets)
  rcases hcases hv htv with ⟨c, hc, hc'⟩ | ⟨hc, hc'⟩ | ⟨p, p', hc, hc'⟩
  · rcases hcases hw htw with ⟨d, hd, hd'⟩ | ⟨hd, hd'⟩ | ⟨q, q', hd, hd'⟩
    · by_cases hcd : c = d
      · exact hsome htv (by simp [joinSlots, hc, hd, hcd]) (by simp [joinSlots, hc', hd', hcd])
      by_cases hwiden : (c.widenable && d.widenable) = true
      · refine hsome hanything ?_ ?_
        · simp only [joinSlots, hc, hd, if_neg hcd, if_pos hwiden]
        · simp only [joinSlots, hc', hd', if_neg hcd, if_pos hwiden]
      · have hnone : s.joinSlots limit token v w = none := by
          simp only [joinSlots, hc, hd, if_neg hcd, if_neg hwiden]
        have hnone' : s.joinSlots limit token' v' w' = none := by
          simp only [joinSlots, hc', hd', if_neg hcd, if_neg hwiden]
        rw [hnone, hnone']
        exact ⟨Iff.rfl, fun x x' h => nomatch h⟩
    · exact hsome hanything (by simp [joinSlots, hc, hd]) (by simp [joinSlots, hc', hd'])
    · rw [hc, hc', hd, hd'] at hcandidates
      exact hsome hcandidates (by simp [joinSlots, hc, hd]) (by simp [joinSlots, hc', hd'])
  · exact hsome htv (by simp [joinSlots, hc]) (by simp [joinSlots, hc'])
  · rcases hcases hw htw with ⟨d, hd, hd'⟩ | ⟨hd, hd'⟩ | ⟨q, q', hd, hd'⟩
    · rw [hc, hc', hd, hd'] at hcandidates
      exact hsome hcandidates (by simp [joinSlots, hc, hd]) (by simp [joinSlots, hc', hd'])
    · exact hsome hanything (by simp [joinSlots, hc, hd]) (by simp [joinSlots, hc', hd'])
    · rw [hc, hc', hd, hd'] at hcandidates
      exact hsome hcandidates (by simp [joinSlots, hc, hd]) (by simp [joinSlots, hc', hd'])

/-! ### Stores that grow -/

namespace Grows

theorem equalCandidates_eq (h : s.Grows t) (hc : s.FoundedIn c) (hd : s.FoundedIn d) :
    t.equalCandidates c d = s.equalCandidates c d := by
  rw [Bool.eq_iff_iff, equalCandidates_iff hc, equalCandidates_iff (h.foundedIn hc)]
  exact h.alike_iff hc hd

theorem hasCandidate_eq (h : s.Grows t) (hps : ∀ c ∈ ps, s.FoundedIn c) (hd : s.FoundedIn d) :
    t.hasCandidate ps d = s.hasCandidate ps d := by
  rw [Bool.eq_iff_iff, hasCandidate_iff fun c hc => h.foundedIn (hps c hc), hasCandidate_iff hps]
  exact exists_congr fun c => and_congr_right fun hc => h.alike_iff (hps c hc) hd

theorem addCandidates_eq (h : s.Grows t) : ∀ {qs ps : List Candidate},
    (∀ c ∈ ps, s.FoundedIn c) → (∀ d ∈ qs, s.FoundedIn d) →
      t.addCandidates ps qs = s.addCandidates ps qs := by
  intro qs
  induction qs with
  | nil => exact fun _ _ => by rw [addCandidates_nil, addCandidates_nil]
  | cons d qs ih =>
    intro ps hps hqs
    have hd := hqs d List.mem_cons_self
    have hqs' : ∀ e ∈ qs, s.FoundedIn e := fun e he => hqs e (List.mem_cons_of_mem d he)
    rw [addCandidates_cons, addCandidates_cons, h.hasCandidate_eq hps hd]
    split
    · exact ih hps hqs'
    · refine ih (fun c hc => ?_) hqs'
      rcases List.mem_append.mp hc with hc | hc
      · exact hps c hc
      · rwa [List.mem_singleton.mp hc]

/-- **Settled slots join as before** when a store has grown. -/
theorem joinSlots_eq (h : s.Grows t) (hv : s.Settled v) (hw : s.Settled w) :
    t.joinSlots limit token v w = s.joinSlots limit token v w := by
  have hfv := foundedIn_candidatesOf hv
  have hfw := foundedIn_candidatesOf hw
  have hjoined : t.joinCandidates limit token v w (Infer.candidatesOf (s.resolve v))
      (Infer.candidatesOf (s.resolve w)) = s.joinCandidates limit token v w
        (Infer.candidatesOf (s.resolve v)) (Infer.candidatesOf (s.resolve w)) := by
    rw [joinCandidates, joinCandidates, Bool.eq_iff_iff.mpr (h.isSubset_iff hfw hfv),
      Bool.eq_iff_iff.mpr (h.isSubset_iff hfv hfw), h.addCandidates_eq hfv hfw]
  rw [joinSlots, joinSlots, h.resolve_eq]
  split <;> first | rfl | rw [hjoined]

theorem regular (h : s.Grows t) (ha : s.Regular a) : t.Regular a where
  toGround := h.ground ha.toGround
  separate n slot hn hslot := by
    have hreg := ha.reaches (h.reaches ha.closed hn)
    rw [h.kind_eq hreg.closed.present] at hslot
    have hregular := (hreg.slot hslot).regularIn
    rw [h.resolve_eq]
    refine List.Pairwise.imp_of_mem (fun {c d} hc hd hcd => ?_) (hreg.slot hslot).separate
    have hfc := (hregular c hc).founded
    have hfd := (hregular d hd).founded
    exact ⟨(h.equalCandidates_eq hfc hfd).trans hcd.1, (h.equalCandidates_eq hfd hfc).trans hcd.2⟩

end Grows

end Store

/-! ### The merge of slots -/

namespace Infer

variable {s t : Store} {v w x : Slot}

theorem mergeCandidates_joins (scope : MergeScope) : ∃ t,
    (mergeCandidates scope false v w (s.resolve v) (s.resolve w)).outcome s =
      (.ok (s.joinCandidates scope.config.maxPossibilities s.tokens v w
        (candidatesOf (s.resolve v)) (candidatesOf (s.resolve w))), t) := by
  rw [mergeCandidates, outcome_store_bind, Store.joinCandidates]
  dsimp only
  split
  · exact ⟨s, rfl⟩
  rw [if_neg (by simp)]
  split
  · exact ⟨s, rfl⟩
  split
  · exact ⟨_, rfl⟩
  · exact ⟨_, rfl⟩

/-- **A relaxed merge of slots** gives the slot that they join to, or fails and leaves the store as
it is. -/
theorem mergeSlots_joins (scope : MergeScope) (hv : s.Settled v) (hw : s.Settled w) :
    (∃ x t, s.joinSlots scope.config.maxPossibilities s.tokens v w = some x ∧
      (mergeSlots scope false v w).outcome s = (.ok x, t)) ∨
    s.joinSlots scope.config.maxPossibilities s.tokens v w = none ∧
      ∃ e, (mergeSlots scope false v w).outcome s = (.error e, s) := by
  have hcandidates := mergeCandidates_joins (s := s) (v := v) (w := w) scope
  rw [mergeSlots, outcome_store_bind, Store.joinSlots]
  dsimp only
  rcases hrv : s.resolve v with c | _ | p | p
  · rcases hrw : s.resolve w with d | _ | q | q
    · dsimp only
      by_cases hcd : c = d
      · rw [if_pos hcd, if_pos hcd]
        exact .inl ⟨v, s, rfl, rfl⟩
      rw [if_neg hcd, if_neg hcd, if_neg Bool.false_ne_true]
      split
      · exact .inl ⟨.anything, _, rfl, rfl⟩
      · exact .inr ⟨rfl, _, rfl⟩
    · exact .inl ⟨.anything, s, rfl, rfl⟩
    · rw [hrv, hrw] at hcandidates
      obtain ⟨t, ht⟩ := hcandidates
      exact .inl ⟨_, t, rfl, ht⟩
    · exact absurd hrw (resolve_ne_pending hw q)
  · exact .inl ⟨v, s, rfl, rfl⟩
  · rcases hrw : s.resolve w with d | _ | q | q
    · rw [hrv, hrw] at hcandidates
      obtain ⟨t, ht⟩ := hcandidates
      exact .inl ⟨_, t, rfl, ht⟩
    · exact .inl ⟨.anything, s, rfl, rfl⟩
    · rw [hrv, hrw] at hcandidates
      obtain ⟨t, ht⟩ := hcandidates
      exact .inl ⟨_, t, rfl, ht⟩
    · exact absurd hrw (resolve_ne_pending hw q)
  · exact absurd hrv (resolve_ne_pending hv p)

end Infer

end ValueInference
