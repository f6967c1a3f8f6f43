/-
Matchings that pair things off.

`Matches` lets two things on the left be related to the same thing on the right.  Where no two
things on the left are related to a common one, a matching pairs the things off, and then it can
be read from the right to the left as well.

* **`Matches.pairing`** — where nothing is matched twice, the right side can be reordered so that
  the two sides are related item by item;
* **`Kind.Alike.imp`** — forms that are alike are alike under any relation that follows for the
  nodes in them;
* **`Kind.Alike.flip`** — forms that are alike are alike the other way round, if nothing in them
  is matched twice (`Kind.Apart`).
-/
import ValueInference.Proofs.Alike
import Mathlib.Data.List.Perm.Subperm
import Mathlib.Tactic.Choose

namespace ValueInference

variable {α β : Type} {R S : α → α → Prop} {as bs : List α}

/-! ### Lists -/

/-- No two things on the left are related to the same thing on the right. -/
def ApartIn (R : α → α → Prop) (as bs : List α) : Prop :=
  as.Pairwise fun x y => ∀ b ∈ bs, R x b → ¬ R y b

theorem ApartIn.anti (h : ApartIn R as bs) (hSR : ∀ x ∈ as, ∀ y ∈ bs, S x y → R x y) :
    ApartIn S as bs := by
  refine List.Pairwise.imp_of_mem (fun {x y} hx hy hxy b hb hxb hyb => ?_) h
  exact hxy b hb (hSR x hx b hb hxb) (hSR y hy b hb hyb)

/-- Different labels are never both matched with one label. -/
theorem apartIn_of_labels {xs ys : List (β × α)} (h : (xs.map Prod.fst).Nodup) :
    ApartIn (SameLabel R) xs ys := by
  refine List.Pairwise.imp ?_ (List.pairwise_map.mp h)
  rintro x y hxy b _ ⟨hx, _⟩ ⟨hy, _⟩
  exact hxy (hx.trans hy.symm)

theorem apartIn_eq (h : as.Nodup) : ApartIn (· = ·) as bs := by
  refine List.Pairwise.imp ?_ h
  rintro x y hxy b _ rfl rfl
  exact hxy rfl

/-- What is in a list is related to something in a related list. -/
theorem exists_of_forall₂ {R : α → β → Prop} {bs : List β} (h : List.Forall₂ R as bs) :
    ∀ a ∈ as, ∃ b ∈ bs, R a b := by
  induction h with
  | nil => exact fun _ ha => absurd ha List.not_mem_nil
  | cons hab _ ih =>
    intro a ha
    rcases List.mem_cons.mp ha with rfl | ha
    · exact ⟨_, List.mem_cons_self, hab⟩
    · obtain ⟨b, hb, hab⟩ := ih a ha
      exact ⟨b, List.mem_cons_of_mem _ hb, hab⟩

theorem forall₂_imp_mem {R S : α → β → Prop} {bs : List β} (h : List.Forall₂ R as bs)
    (hRS : ∀ a ∈ as, ∀ b ∈ bs, R a b → S a b) : List.Forall₂ S as bs := by
  induction h with
  | nil => exact .nil
  | @cons a b as bs hab _ ih =>
    refine .cons (hRS a List.mem_cons_self b List.mem_cons_self hab) (ih ?_)
    exact fun x hx y hy => hRS x (List.mem_cons_of_mem a hx) y (List.mem_cons_of_mem b hy)

theorem forall₂_and (h : List.Forall₂ R as bs) (h' : List.Forall₂ S as bs) :
    List.Forall₂ (fun a b => R a b ∧ S a b) as bs := by
  induction h with
  | nil => exact .nil
  | cons hab _ ih =>
    obtain ⟨hab', hrest⟩ := List.forall₂_cons.mp h'
    exact .cons ⟨hab, hab'⟩ (ih hrest)

/-- Lists of labelled things that are related one by one. -/
theorem forall₂_labelled_iff {γ : Type} {R : α → β → Prop} {xs : List (γ × α)} {ys : List (γ × β)} :
    List.Forall₂ (fun x y => x.1 = y.1 ∧ R x.2 y.2) xs ys ↔
      xs.map Prod.fst = ys.map Prod.fst ∧ List.Forall₂ R (xs.map Prod.snd) (ys.map Prod.snd) := by
  induction xs generalizing ys with
  | nil => cases ys <;> simp
  | cons x xs ih =>
    cases ys with
    | nil => simp
    | cons y ys =>
      simp only [List.forall₂_cons, List.map_cons, List.cons.injEq, ih]
      tauto

/-- Lists that are related to one list are the same if things related to one thing are. -/
theorem eq_of_forall₂ {R : α → β → Prop} {cs : List β} (has : List.Forall₂ R as cs)
    (hbs : List.Forall₂ R bs cs) (h : ∀ a ∈ as, ∀ b ∈ bs, ∀ c, R a c → R b c → a = b) :
    as = bs := by
  induction has generalizing bs with
  | nil =>
    cases hbs
    rfl
  | cons hac _ ih =>
    cases hbs with
    | cons hbc hbs =>
      rw [h _ List.mem_cons_self _ List.mem_cons_self _ hac hbc, ih hbs fun x hx y hy =>
        h x (List.mem_cons_of_mem _ hx) y (List.mem_cons_of_mem _ hy)]

theorem Matches.imp (h : Matches R as bs) (hRS : ∀ a ∈ as, ∀ b ∈ bs, R a b → S a b) :
    Matches S as bs := by
  refine ⟨h.1, fun a ha => ?_⟩
  obtain ⟨b, hb, hab⟩ := h.2 a ha
  exact ⟨b, hb, hRS a ha b hb hab⟩

theorem matches_refl (hR : ∀ a ∈ as, R a a) : Matches R as as :=
  ⟨rfl, fun a ha => ⟨a, ha, hR a ha⟩⟩

theorem matches_of_forall₂ (h : List.Forall₂ R as bs) : Matches R as bs :=
  ⟨h.length_eq, exists_of_forall₂ h⟩

/-- What is on the left of a matching may come in any order. -/
theorem Matches.of_perm {cs : List α} (h : Matches R as bs) (hcs : cs.Perm as) :
    Matches R cs bs :=
  ⟨hcs.length_eq.trans h.1, fun c hc => h.2 c (hcs.mem_iff.mp hc)⟩

theorem Matches.of_perm_right {cs : List α} (h : Matches R as bs) (hcs : cs.Perm bs) :
    Matches R as cs := by
  refine ⟨h.1.trans hcs.length_eq.symm, fun a ha => ?_⟩
  obtain ⟨b, hb, hab⟩ := h.2 a ha
  exact ⟨b, hcs.mem_iff.mpr hb, hab⟩

/-- **Where nothing is matched twice, the two sides can be paired off.** -/
theorem Matches.pairing : ∀ {as bs : List α}, Matches R as bs → ApartIn R as bs →
    ∃ cs, cs.Perm bs ∧ List.Forall₂ R as cs := by
  intro as
  induction as with
  | nil =>
    intro bs h _
    have hbs : bs = [] := List.length_eq_zero_iff.mp h.1.symm
    exact ⟨[], by rw [hbs], .nil⟩
  | cons a as ih =>
    intro bs h hapart
    obtain ⟨hhead, htail⟩ := List.pairwise_cons.mp hapart
    obtain ⟨b, hb, hab⟩ := h.2 a List.mem_cons_self
    obtain ⟨front, back, rfl⟩ := List.append_of_mem hb
    -- the others are matched with things other than `b`, which is taken
    have hrest : Matches R as (front ++ back) := by
      refine ⟨?_, fun x hx => ?_⟩
      · have := h.1
        simp only [List.length_cons, List.length_append] at this ⊢
        omega
      · obtain ⟨y, hy, hxy⟩ := h.2 x (List.mem_cons_of_mem a hx)
        have hne : y ≠ b := by
          rintro rfl
          exact hhead x hx y hb hab hxy
        refine ⟨y, ?_, hxy⟩
        simp only [List.mem_append, List.mem_cons] at hy ⊢
        rcases hy with hy | hy | hy
        · exact .inl hy
        · exact absurd hy hne
        · exact .inr hy
    have hsub : ∀ {y}, y ∈ front ++ back → y ∈ front ++ b :: back := by
      intro y hy
      simp only [List.mem_append, List.mem_cons] at hy ⊢
      exact hy.imp id .inr
    obtain ⟨cs, hperm, hpairs⟩ := ih hrest (htail.imp fun hxy y hy => hxy y (hsub hy))
    exact ⟨b :: cs, (hperm.cons b).trans List.perm_middle.symm, .cons hab hpairs⟩

theorem Matches.flip (h : Matches R as bs) (hapart : ApartIn R as bs) :
    Matches (fun b a => R a b) bs as := by
  obtain ⟨cs, hperm, hpairs⟩ := h.pairing hapart
  refine ⟨h.1.symm, fun b hb => ?_⟩
  obtain ⟨i, hi, rfl⟩ := List.mem_iff_getElem.mp (hperm.mem_iff.mpr hb)
  have hi' : i < as.length := hpairs.length_eq ▸ hi
  exact ⟨as[i], List.getElem_mem hi', List.forall₂_iff_get.mp hpairs |>.2 i hi' hi⟩

/-- A list is no longer than another one that has something for each of its things, and not for two
of them at once. -/
theorem length_le_of_apart (h : ∀ a ∈ as, ∃ b ∈ bs, R a b) (hapart : ApartIn R as bs) :
    as.length ≤ bs.length := by
  have hne : ∀ a ∈ as, Nonempty α := fun a _ => ⟨a⟩
  choose! f hmem hf using h
  have hnodup : (as.map f).Nodup := by
    refine List.pairwise_map.mpr (List.Pairwise.imp_of_mem (fun {a a'} ha ha' haa heq => ?_) hapart)
    exact haa (f a) (hmem a ha) (hf a ha) (heq ▸ hf a' ha')
  have hsub : as.map f ⊆ bs := by
    intro b hb
    obtain ⟨a, ha, rfl⟩ := List.mem_map.mp hb
    exact hmem a ha
  simpa using (hnodup.subperm hsub).length_le

/-- **Lists that have something for each thing of the other**, and not for two of them at once, are
matched. -/
theorem matches_of_apart (h : ∀ a ∈ as, ∃ b ∈ bs, R a b) (h' : ∀ b ∈ bs, ∃ a ∈ as, S b a)
    (hapart : ApartIn R as bs) (hapart' : ApartIn S bs as) : Matches R as bs :=
  ⟨Nat.le_antisymm (length_le_of_apart h hapart) (length_le_of_apart h' hapart'), h⟩

/-- Equally labelled things that are the same are the same in another order. -/
theorem perm_of_labels {xs ys : List (β × α)} (h : Matches (SameLabel (· = ·)) xs ys)
    (hxs : (xs.map Prod.fst).Nodup) : xs.Perm ys := by
  have heq : ∀ x y : β × α, SameLabel (· = ·) x y → x = y := fun x y hxy => Prod.ext hxy.1 hxy.2
  obtain ⟨zs, hperm, hpairs⟩ := h.pairing (apartIn_of_labels hxs)
  have hsame := hpairs.imp heq
  rw [List.forall₂_eq_eq_eq] at hsame
  rwa [hsame]

/-! ### Forms -/

section

variable {R S : NodeId → NodeId → Prop}

/-- Induction over references that are alike. -/
@[elab_as_elim]
theorem FunctionRef.Alike.rule_induction {motive : ∀ f g : FunctionRef, f.Alike R g → Prop}
    (primitive : ∀ p, motive (.primitive p) (.primitive p) rfl)
    (typed : ∀ p as bs a b (has : List.Forall₂ R as bs) (hab : R a b),
      motive (.typed p as a) (.typed p bs b) ⟨rfl, has, hab⟩)
    (partialApp : ∀ f g as bs (hfg : f.Alike R g) (has : List.Forall₂ R as bs), motive f g hfg →
      motive (.partialApp f as) (.partialApp g bs) ⟨hfg, has⟩)
    (virtual : ∀ as bs a b (has : List.Forall₂ R as bs) (hab : R a b),
      motive (.virtual as a) (.virtual bs b) ⟨has, hab⟩)
    (graph : ∀ n, motive (.graph n) (.graph n) rfl) :
    ∀ {f g : FunctionRef} (h : f.Alike R g), motive f g h := by
  intro f
  induction f with
  | primitive p =>
    intro g h
    cases g with
    | primitive q =>
      obtain rfl : p = q := h
      exact primitive p
    | _ => exact h.elim
  | typed p as a =>
    intro g h
    cases g with
    | typed q bs b =>
      obtain ⟨rfl, has, hab⟩ := h
      exact typed p as bs a b has hab
    | _ => exact h.elim
  | partialApp f as ih =>
    intro g h
    cases g with
    | partialApp g bs => exact partialApp f g as bs h.1 h.2 (ih h.1)
    | _ => exact h.elim
  | virtual as a =>
    intro g h
    cases g with
    | virtual bs b => exact virtual as bs a b h.1 h.2
    | _ => exact h.elim
  | graph m =>
    intro g h
    cases g with
    | graph n =>
      obtain rfl : m = n := h
      exact graph m
    | _ => exact h.elim

theorem FunctionRef.Alike.imp {f g : FunctionRef} (h : f.Alike R g)
    (hRS : ∀ a ∈ f.children, ∀ b ∈ g.children, R a b → S a b) : f.Alike S g := by
  induction h using FunctionRef.Alike.rule_induction with
  | primitive p => exact rfl
  | typed p as bs a b has hab =>
    refine ⟨rfl, forall₂_imp_mem has fun x hx y hy => ?_, ?_⟩
    · exact hRS x (List.mem_append_left _ hx) y (List.mem_append_left _ hy)
    · exact hRS a (by simp [children]) b (by simp [children]) hab
  | partialApp f g as bs hfg has ih =>
    refine ⟨ih fun x hx y hy => ?_, forall₂_imp_mem has fun x hx y hy => ?_⟩
    · exact hRS x (List.mem_append_left _ hx) y (List.mem_append_left _ hy)
    · exact hRS x (List.mem_append_right _ hx) y (List.mem_append_right _ hy)
  | virtual as bs a b has hab =>
    refine ⟨forall₂_imp_mem has fun x hx y hy => ?_, ?_⟩
    · exact hRS x (List.mem_append_left _ hx) y (List.mem_append_left _ hy)
    · exact hRS a (by simp [children]) b (by simp [children]) hab
  | graph n => exact rfl

/-- The nodes in function references that are alike are in order. -/
theorem FunctionRef.Alike.and {f g : FunctionRef} (h : f.Alike R g) (h' : f.Alike S g) :
    f.Alike (fun a b => R a b ∧ S a b) g := by
  induction h using FunctionRef.Alike.rule_induction with
  | primitive p => exact rfl
  | typed p as bs a b has hab => exact ⟨rfl, forall₂_and has h'.2.1, hab, h'.2.2⟩
  | partialApp f g as bs hfg has ih => exact ⟨ih h'.1, forall₂_and has h'.2⟩
  | virtual as bs a b has hab => exact ⟨forall₂_and has h'.1, hab, h'.2⟩
  | graph n => exact rfl

theorem Candidate.Alike.and {c d : Candidate} (h : c.Alike R d) (h' : c.Alike S d) :
    c.Alike (fun a b => R a b ∧ S a b) d := by
  cases c with
  | constant x =>
    cases d with
    | constant y => exact h
    | function g => exact h.elim
  | function f =>
    cases d with
    | constant y => exact h.elim
    | function g => exact FunctionRef.Alike.and h h'

theorem Candidate.Alike.imp {c d : Candidate} (h : c.Alike R d)
    (hRS : ∀ a ∈ c.children, ∀ b ∈ d.children, R a b → S a b) : c.Alike S d := by
  cases c with
  | constant c =>
    cases d with
    | constant d => exact h
    | function g => exact h.elim
  | function f =>
    cases d with
    | constant d => exact h.elim
    | function g => exact FunctionRef.Alike.imp h hRS

theorem Slot.Alike.imp {v w : Slot} (h : v.Alike R w)
    (hRS : ∀ a ∈ v.children, ∀ b ∈ w.children, R a b → S a b) : v.Alike S w := by
  cases v with
  | possibilities p =>
    cases w with
    | possibilities q =>
      refine Or.imp id (fun h => h.imp fun c hc d hd hcd => ?_) h
      exact hcd.imp fun a ha b hb =>
        hRS a (List.mem_flatMap_of_mem hc ha) b (List.mem_flatMap_of_mem hd hb)
    | _ => exact h.elim
  | _ => cases w <;> exact h

theorem SameLabel.imp_children {xs ys : List (β × NodeId)} (h : Matches (SameLabel R) xs ys)
    (hRS : ∀ a ∈ xs.map Prod.snd, ∀ b ∈ ys.map Prod.snd, R a b → S a b) :
    Matches (SameLabel S) xs ys :=
  h.imp fun _ hx _ hy hxy =>
    ⟨hxy.1, hRS _ (List.mem_map_of_mem hx) _ (List.mem_map_of_mem hy) hxy.2⟩

/-- **Forms that are alike stay so** under a relation that follows for the nodes in them. -/
theorem Kind.Alike.imp {k k' : Kind} (h : k.Alike R k')
    (hRS : ∀ a ∈ k.children, ∀ b ∈ k'.children, R a b → S a b) : k.Alike S k' := by
  cases h.sameForm with
  | scalar v w t u => exact ⟨h.1, h.2.imp hRS⟩
  | tuple as bs => exact forall₂_imp_mem h hRS
  | list a b => exact hRS a (by simp [children]) b (by simp [children]) h
  | array a b shape shape' => exact ⟨h.1, hRS a (by simp [children]) b (by simp [children]) h.2⟩
  | record tag tag' fs gs => exact ⟨h.1, SameLabel.imp_children h.2 hRS⟩
  | union as bs => exact Matches.imp h hRS
  | tagged as bs => exact SameLabel.imp_children h hRS
  | function v w => exact Slot.Alike.imp h hRS
  | jtagged a b => exact hRS a (by simp [children]) b (by simp [children]) h
  | error r r' => exact h
  | type t u => exact h

theorem Kind.Alike.isUnion_eq {k k' : Kind} (h : k.Alike R k') : k.isUnion = k'.isUnion := by
  cases h.sameForm <;> rfl

/-- Forms that are alike have slots that are alike. -/
theorem Kind.Alike.slot {k k' : Kind} {v : Slot} (h : k.Alike R k') (hv : k.slot? = some v) :
    ∃ w, k'.slot? = some w ∧ v.Alike R w := by
  cases h.sameForm with
  | scalar v' w t u =>
    obtain rfl : v' = v := by simpa [slot?] using hv
    exact ⟨w, rfl, h.2⟩
  | function v' w =>
    obtain rfl : v' = v := by simpa [slot?] using hv
    exact ⟨w, rfl, h⟩
  | _ => exact absurd hv (by simp [slot?])

/-- The nodes in a form with a slot are those in the slot. -/
theorem Kind.children_of_slot {k : Kind} {v : Slot} (hv : k.slot? = some v) :
    k.children = v.children := by
  cases k with
  | scalar v' t =>
    obtain rfl : v' = v := by simpa [slot?] using hv
    rfl
  | function v' =>
    obtain rfl : v' = v := by simpa [slot?] using hv
    rfl
  | _ => exact absurd hv (by simp [slot?])

theorem FunctionRef.Alike.refl : ∀ {f : FunctionRef}, (∀ a ∈ f.children, R a a) → f.Alike R f := by
  intro f
  induction f with
  | primitive p => exact fun _ => rfl
  | typed p as a =>
    intro hR
    refine ⟨rfl, List.forall₂_same.mpr fun x hx => ?_, hR a (by simp [children])⟩
    exact hR x (List.mem_append_left _ hx)
  | partialApp f as ih =>
    intro hR
    refine ⟨ih fun x hx => ?_, List.forall₂_same.mpr fun x hx => ?_⟩
    · exact hR x (List.mem_append_left _ hx)
    · exact hR x (List.mem_append_right _ hx)
  | virtual as a =>
    intro hR
    refine ⟨List.forall₂_same.mpr fun x hx => ?_, hR a (by simp [children])⟩
    exact hR x (List.mem_append_left _ hx)
  | graph m => exact fun _ => rfl

theorem Candidate.Alike.refl {c : Candidate} (hR : ∀ a ∈ c.children, R a a) : c.Alike R c := by
  cases c with
  | constant c => rfl
  | function f => exact FunctionRef.Alike.refl hR

theorem Slot.Alike.refl (v : Slot) : v.Alike R v := by
  cases v with
  | possibilities p => exact .inl rfl
  | anything => trivial
  | _ => rfl

theorem Kind.Alike.refl {k : Kind} (hR : ∀ a ∈ k.children, R a a) : k.Alike R k := by
  have hlabels : ∀ {β : Type} {xs : List (β × NodeId)}, (∀ a ∈ xs.map Prod.snd, R a a) →
      Matches (SameLabel R) xs xs := fun h =>
    matches_refl fun x hx => ⟨rfl, h x.2 (List.mem_map_of_mem hx)⟩
  cases k with
  | scalar v t => exact ⟨rfl, .refl v⟩
  | tuple as => exact List.forall₂_same.mpr hR
  | list a => exact hR a (by simp [children])
  | array a shape => exact ⟨rfl, hR a (by simp [children])⟩
  | record tag fs => exact ⟨rfl, hlabels hR⟩
  | union as => exact matches_refl hR
  | tagged as => exact hlabels hR
  | function v => exact Slot.Alike.refl v
  | jtagged a => exact hR a (by simp [children])
  | error r => rfl
  | type t => rfl

theorem FunctionRef.Alike.eq {f g : FunctionRef} (h : f.Alike (· = ·) g) : f = g := by
  induction h using FunctionRef.Alike.rule_induction with
  | primitive p => rfl
  | typed p as bs a b has hab =>
    rw [List.forall₂_eq_eq_eq] at has
    rw [has, hab]
  | partialApp f g as bs hfg has ih =>
    rw [List.forall₂_eq_eq_eq] at has
    rw [ih, has]
  | virtual as bs a b has hab =>
    rw [List.forall₂_eq_eq_eq] at has
    rw [has, hab]
  | graph n => rfl

theorem Candidate.alike_eq {c d : Candidate} : c.Alike (· = ·) d ↔ c = d := by
  constructor
  · intro h
    cases c with
    | constant c =>
      cases d with
      | constant d => exact congrArg _ h
      | function g => exact h.elim
    | function f =>
      cases d with
      | constant d => exact h.elim
      | function g => exact congrArg _ (FunctionRef.Alike.eq h)
  · rintro rfl
    exact .refl fun _ _ => rfl

/-! ### Sets with tokens -/

/-- Sets with one token in two slots have the same candidates. -/
def Slot.Coherent (v w : Slot) : Prop :=
  ∀ p q, v = .possibilities p → w = .possibilities q → p.token = q.token →
    p.candidates = q.candidates

/-- Sets with one token in two forms have the same candidates. -/
def Kind.Coherent (k k' : Kind) : Prop :=
  ∀ v w, k.slot? = some v → k'.slot? = some w → v.Coherent w

theorem Kind.Coherent.refl (k : Kind) : k.Coherent k := by
  rintro v w hv hw p q rfl rfl _
  have hslot := hv.symm.trans hw
  rw [Option.some.injEq, Slot.possibilities.injEq] at hslot
  rw [hslot]

theorem Kind.Coherent.symm {k k' : Kind} (h : k.Coherent k') : k'.Coherent k :=
  fun v w hv hw p q hp hq htoken => (h w v hw hv q p hq hp htoken.symm).symm

/-! ### Forms in which nothing is matched twice -/

/-- Two sets with one token have the same candidates, and no candidate on the right is matched
twice. -/
def Slot.Apart (R : NodeId → NodeId → Prop) : Slot → Slot → Prop
  | .possibilities p, .possibilities q =>
    (p.token = q.token → p.candidates = q.candidates) ∧
      ApartIn (Candidate.Alike R) p.candidates q.candidates
  | _, _ => True

/-- Nothing without an order in the second form is matched twice. -/
def Kind.Apart (R : NodeId → NodeId → Prop) : Kind → Kind → Prop
  | .scalar v _, .scalar w _ | .function v, .function w => v.Apart R w
  | .record _ fs, .record _ gs => ApartIn (SameLabel R) fs gs
  | .union as, .union bs => ApartIn R as bs
  | .tagged as, .tagged bs => ApartIn (SameLabel R) as bs
  | _, _ => True

theorem FunctionRef.Alike.flip {f g : FunctionRef} (h : f.Alike R g) :
    g.Alike (fun b a => R a b) f := by
  induction h using FunctionRef.Alike.rule_induction with
  | primitive p => exact rfl
  | typed p as bs a b has hab => exact ⟨rfl, .flip has, hab⟩
  | partialApp f g as bs hfg has ih => exact ⟨ih, .flip has⟩
  | virtual as bs a b has hab => exact ⟨.flip has, hab⟩
  | graph n => exact rfl

theorem Candidate.Alike.flip {c d : Candidate} (h : c.Alike R d) :
    d.Alike (fun b a => R a b) c := by
  cases c with
  | constant c =>
    cases d with
    | constant d => exact Eq.symm h
    | function g => exact h.elim
  | function f =>
    cases d with
    | constant d => exact h.elim
    | function g => exact FunctionRef.Alike.flip h

theorem Slot.Alike.flip {v w : Slot} (h : v.Alike R w) (hapart : v.Apart R w) :
    w.Alike (fun b a => R a b) v := by
  cases v with
  | possibilities p =>
    cases w with
    | possibilities q =>
      refine Or.imp Eq.symm (fun h => ?_) h
      refine (h.flip hapart.2).imp fun d _ c _ hcd => ?_
      exact Candidate.Alike.flip hcd
    | _ => exact h.elim
  | anything => cases w <;> exact h
  | _ =>
    cases w
    all_goals first | exact Eq.symm h | exact h.elim

/-- **Forms that are alike are alike the other way round** if nothing is matched twice. -/
theorem Kind.Alike.flip {k k' : Kind} (h : k.Alike R k') (hapart : k.Apart R k') :
    k'.Alike (fun b a => R a b) k := by
  have hlabels : ∀ {β : Type} {xs ys : List (β × NodeId)}, Matches (SameLabel R) xs ys →
      ApartIn (SameLabel R) xs ys → Matches (SameLabel fun b a => R a b) ys xs := fun h hx =>
    (h.flip hx).imp fun _ _ _ _ hxy => ⟨hxy.1.symm, hxy.2⟩
  cases h.sameForm with
  | scalar v w t u => exact ⟨h.1.symm, h.2.flip hapart⟩
  | tuple as bs => exact List.Forall₂.flip h
  | list a b => exact h
  | array a b shape shape' => exact ⟨h.1.symm, h.2⟩
  | record tag tag' fs gs => exact ⟨h.1.symm, hlabels h.2 hapart⟩
  | union as bs => exact Matches.flip h hapart
  | tagged as bs => exact hlabels h hapart
  | function v w => exact Slot.Alike.flip h hapart
  | jtagged a b => exact h
  | error r r' => exact Eq.symm h
  | type t u => exact Eq.symm h

end

end ValueInference
