/-
Structural equality as an equivalence.

Equality takes short cuts: different digests tell nodes apart, and so do two interned instances.
It also matches members, fields and candidates from the left only.  A node is *regular* if it is
ground and no set in it has two equal candidates.  On the left of regular nodes the short cuts tell
apart only what the forms tell apart, and the matchings can be read both ways.

* **`Store.Regular`** — ground, with candidates that are pairwise unequal;
* **`Store.Equivalent`** — equality of a node can be turned round and composed;
* **`Store.Regular.equals_of_alike`** — nodes with alike forms are equal, whatever the short cuts;
* **`Store.Regular.equivalent`** — every regular node has this.
-/
import ValueInference.Proofs.Covers
import Mathlib.Logic.Relation

namespace ValueInference

/-! ### Alike forms, one after another -/

section

variable {α β : Type} {R S : α → α → Prop} {as bs cs : List α}

theorem forall₂_comp {γ : Type} {R : α → β → Prop} {S : β → γ → Prop} {bs : List β}
    (h : List.Forall₂ R as bs) :
    ∀ {cs}, List.Forall₂ S bs cs → List.Forall₂ (Relation.Comp R S) as cs := by
  induction h with
  | nil =>
    intro cs h'
    cases h' with
    | nil => exact .nil
  | cons hab _ ih =>
    intro cs h'
    cases h' with
    | cons hbc hrest => exact .cons ⟨_, hab, hbc⟩ (ih hrest)

theorem Matches.comp (h : Matches R as bs) (h' : Matches S bs cs) :
    Matches (Relation.Comp R S) as cs := by
  refine ⟨h.1.trans h'.1, fun a ha => ?_⟩
  obtain ⟨b, hb, hab⟩ := h.2 a ha
  obtain ⟨c, hc, hbc⟩ := h'.2 b hb
  exact ⟨c, hc, b, hab, hbc⟩

theorem SameLabel.comp {xs ys zs : List (β × α)} (h : Matches (SameLabel R) xs ys)
    (h' : Matches (SameLabel S) ys zs) : Matches (SameLabel (Relation.Comp R S)) xs zs := by
  refine (Matches.comp h h').imp fun x _ z _ hxz => ?_
  obtain ⟨y, ⟨hxy, hR⟩, ⟨hyz, hS⟩⟩ := hxz
  exact ⟨hxy.trans hyz, y.2, hR, hS⟩

end

section

variable {R S : NodeId → NodeId → Prop}

theorem FunctionRef.Alike.comp {f g i : FunctionRef} (h : f.Alike R g) (h' : g.Alike S i) :
    f.Alike (Relation.Comp R S) i := by
  induction h using FunctionRef.Alike.rule_induction generalizing i with
  | primitive p => cases i <;> first | exact h'.elim | exact h'
  | typed p as bs a b has hab =>
    cases i with
    | typed q cs c => exact ⟨h'.1, forall₂_comp has h'.2.1, b, hab, h'.2.2⟩
    | _ => exact h'.elim
  | partialApp f g as bs hfg has ih =>
    cases i with
    | partialApp i cs => exact ⟨ih h'.1, forall₂_comp has h'.2⟩
    | _ => exact h'.elim
  | virtual as bs a b has hab =>
    cases i with
    | virtual cs c => exact ⟨forall₂_comp has h'.1, b, hab, h'.2⟩
    | _ => exact h'.elim
  | graph n => cases i <;> first | exact h'.elim | exact h'

theorem Candidate.Alike.comp {c d e : Candidate} (h : c.Alike R d) (h' : d.Alike S e) :
    c.Alike (Relation.Comp R S) e := by
  cases d with
  | constant y =>
    cases c with
    | constant x =>
      cases e with
      | constant z => exact Eq.trans h h'
      | function i => exact h'.elim
    | function f => exact h.elim
  | function g =>
    cases c with
    | constant x => exact h.elim
    | function f =>
      cases e with
      | constant z => exact h'.elim
      | function i => exact FunctionRef.Alike.comp h h'

/-- Slots that are alike one after another; a set is alike to itself because of the relations. -/
theorem Slot.Alike.comp {u v w : Slot} (huv : u.Coherent v) (hvw : v.Coherent w)
    (hR : ∀ a ∈ v.children, R a a) (hS : ∀ a ∈ v.children, S a a) (h : u.Alike R v)
    (h' : v.Alike S w) : u.Alike (Relation.Comp R S) w := by
  cases v with
  | possibilities q =>
    have hself : ∀ {T : NodeId → NodeId → Prop}, (∀ a ∈ (Slot.possibilities q).children, T a a) →
        Matches (Candidate.Alike T) q.candidates q.candidates := fun hT =>
      matches_refl fun c hc => .refl fun a ha => hT a (List.mem_flatMap_of_mem hc ha)
    cases u with
    | possibilities p =>
      cases w with
      | possibilities r =>
        -- a token stands for the matching of the candidates with themselves
        have hpq : p.token = q.token ∨ Matches (Candidate.Alike R) p.candidates q.candidates := h
        have hqr : q.token = r.token ∨ Matches (Candidate.Alike S) q.candidates r.candidates := h'
        have hmatch : ∀ {as bs : List Candidate}, Matches (Candidate.Alike R) as q.candidates →
            Matches (Candidate.Alike S) q.candidates bs →
              Matches (Candidate.Alike (Relation.Comp R S)) as bs := by
          intro as bs has hbs
          refine (Matches.comp has hbs).imp fun c _ e _ hce => ?_
          obtain ⟨d, hcd, hde⟩ := hce
          exact hcd.comp hde
        rcases hpq with hpq | hpq
        · rcases hqr with hqr | hqr
          · exact .inl (hpq.trans hqr)
          · rw [← huv p q rfl rfl hpq] at hmatch hqr hself
            exact .inr (hmatch (hself hR) hqr)
        · rcases hqr with hqr | hqr
          · rw [hvw q r rfl rfl hqr] at hmatch hpq hself
            exact .inr (hmatch hpq (hself hS))
          · exact .inr (hmatch hpq hqr)
      | _ => exact h'.elim
    | _ => exact h.elim
  | anything =>
    cases u with
    | anything => cases w <;> exact h'
    | _ => exact h.elim
  | constant d =>
    cases u with
    | constant c =>
      obtain rfl : c = d := h
      cases w <;> exact h'
    | _ => exact h.elim
  | pending q =>
    cases u with
    | pending p =>
      obtain rfl : p = q := h
      cases w <;> exact h'
    | _ => exact h.elim

/-- Forms that are alike one after another are alike under the composed relation; what is in their
tracks has to be related to itself. -/
theorem Kind.Alike.comp_of_slots {k₁ k₂ k₃ : Kind} (h₁ : k₁.Coherent k₂) (h₂ : k₂.Coherent k₃)
    (hR : ∀ v, k₂.slot? = some v → ∀ a ∈ v.children, R a a)
    (hS : ∀ v, k₂.slot? = some v → ∀ a ∈ v.children, S a a) (h : k₁.Alike R k₂)
    (h' : k₂.Alike S k₃) : k₁.Alike (Relation.Comp R S) k₃ := by
  cases h.sameForm with
  | scalar u v t' t =>
    cases h'.sameForm with | scalar _ w _ t'' =>
    exact ⟨h.1.trans h'.1, h.2.comp (h₁ u v rfl rfl) (h₂ v w rfl rfl) (hR v rfl) (hS v rfl) h'.2⟩
  | tuple as bs =>
    cases h'.sameForm with | tuple _ cs =>
    exact forall₂_comp h h'
  | list a b =>
    cases h'.sameForm with | list _ c =>
    exact ⟨b, h, h'⟩
  | array a b shape' shape =>
    cases h'.sameForm with | array _ c _ shape'' =>
    exact ⟨h.1.trans h'.1, b, h.2, h'.2⟩
  | record tag' tag fs gs =>
    cases h'.sameForm with | record _ tag'' _ hs =>
    exact ⟨h.1.trans h'.1, SameLabel.comp h.2 h'.2⟩
  | union as bs =>
    cases h'.sameForm with | union _ cs =>
    exact Matches.comp h h'
  | tagged as bs =>
    cases h'.sameForm with | tagged _ cs =>
    exact SameLabel.comp h h'
  | function u v =>
    cases h'.sameForm with | function _ w =>
    exact Slot.Alike.comp (h₁ u v rfl rfl) (h₂ v w rfl rfl) (hR v rfl) (hS v rfl) h h'
  | jtagged a b =>
    cases h'.sameForm with | jtagged _ c =>
    exact ⟨b, h, h'⟩
  | error r' r =>
    cases h'.sameForm with | error _ r'' =>
    exact Eq.trans h h'
  | type t' t =>
    cases h'.sameForm with | type _ t'' =>
    exact Eq.trans h h'

/-- **Forms that are alike one after another** are alike under the composed relation. -/
theorem Kind.Alike.comp {k₁ k₂ k₃ : Kind} (h₁ : k₁.Coherent k₂) (h₂ : k₂.Coherent k₃)
    (hR : ∀ a ∈ k₂.children, R a a) (hS : ∀ a ∈ k₂.children, S a a) (h : k₁.Alike R k₂)
    (h' : k₂.Alike S k₃) : k₁.Alike (Relation.Comp R S) k₃ := by
  refine h.comp_of_slots h₁ h₂ (fun v hv a ha => hR a ?_) (fun v hv a ha => hS a ?_) h'
  all_goals rwa [Kind.children_of_slot hv]

/-- Forms whose parts have places: no unions, and no sets of candidates. -/
structure Kind.Placed (k : Kind) : Prop where
  flat : k.isUnion = false
  slots : ∀ p, k.slot? ≠ some (.possibilities p)

theorem Slot.Alike.isSet_iff {v w : Slot} (h : v.Alike R w) :
    (∃ p, v = .possibilities p) ↔ ∃ q, w = .possibilities q := by
  cases v <;> cases w <;> first | exact h.elim | simp

theorem Kind.Alike.placed_iff {k k' : Kind} (h : k.Alike R k') : k.Placed ↔ k'.Placed := by
  have hslots : (∀ p, k.slot? ≠ some (.possibilities p)) ↔ ∀ p, k'.slot? ≠ some (.possibilities p) := by
    cases h.sameForm with
    | scalar v w => simpa [slot?] using not_congr h.2.isSet_iff
    | function v w => simpa [slot?] using not_congr (Slot.Alike.isSet_iff h)
    | _ => exact Iff.rfl
  exact ⟨fun hk => ⟨h.isUnion_eq ▸ hk.flat, hslots.mp hk.slots⟩,
    fun hk => ⟨h.isUnion_eq ▸ hk.flat, hslots.mpr hk.slots⟩⟩

/-- Whatever is in a form whose parts have places is related to something in the other one. -/
theorem Kind.Alike.exists_child_of_placed {k k' : Kind} (h : k.Alike R k') (hk : k'.Placed) :
    ∀ a ∈ k.children, ∃ b ∈ k'.children, R a b := by
  refine h.exists_child_of_slots fun v w _ hw hvw a ha => ?_
  cases v with
  | possibilities p =>
    obtain ⟨q, rfl⟩ := hvw.isSet_iff.mp ⟨p, rfl⟩
    exact absurd hw (hk.slots q)
  | _ => exact absurd ha List.not_mem_nil

/-- Forms whose parts have places are alike the other way round. -/
theorem Kind.Alike.flip_of_placed {k k' : Kind} (h : k.Alike R k') (hlabelled : k.Labelled)
    (hk : k'.Placed) : k'.Alike (fun b a => R a b) k := by
  refine h.flip (apart_of_labelled hlabelled (fun v w _ hw => ?_) fun as bs _ hbs => ?_)
  · cases w with
    | possibilities q => exact absurd hw (hk.slots q)
    | _ => cases v <;> trivial
  · have hflat := hk.flat
    rw [hbs] at hflat
    cases hflat

theorem Kind.Alike.comp_of_placed {k₁ k₂ k₃ : Kind} (h : k₁.Alike R k₂) (h' : k₂.Alike S k₃)
    (hk : k₂.Placed) : k₁.Alike (Relation.Comp R S) k₃ := by
  have hnone : ∀ {T : NodeId → NodeId → Prop} (w : Slot), k₂.slot? = some w →
      ∀ a ∈ w.children, T a a := by
    intro T w hw a ha
    cases w with
    | possibilities q => exact absurd hw (hk.slots q)
    | _ => exact absurd ha List.not_mem_nil
  have hcoherent : ∀ k : Kind, k.Coherent k₂ := by
    rintro k v w _ hw p q rfl rfl _
    exact absurd hw (hk.slots q)
  exact h.comp_of_slots (hcoherent k₁) (hcoherent k₃).symm hnone hnone h'

theorem Slot.Apart.anti {v w : Slot} (h : v.Apart R w)
    (hSR : ∀ a ∈ v.children, ∀ b ∈ w.children, S a b → R a b) : v.Apart S w := by
  cases v with
  | possibilities p =>
    cases w with
    | possibilities q =>
      refine ⟨h.1, h.2.anti fun c hc d hd hcd => hcd.imp fun a ha b hb => ?_⟩
      exact hSR a (List.mem_flatMap_of_mem hc ha) b (List.mem_flatMap_of_mem hd hb)
    | _ => trivial
  | _ => trivial

/-- What nothing is matched twice under, it is not under a relation that relates less of what is
in the forms. -/
theorem Kind.Apart.anti {k k' : Kind} (h : k.Apart R k')
    (hSR : ∀ a ∈ k.children, ∀ b ∈ k'.children, S a b → R a b) : k.Apart S k' := by
  have hlabels : ∀ {β : Type} {xs ys : List (β × NodeId)}, ApartIn (SameLabel R) xs ys →
      (∀ a ∈ xs.map Prod.snd, ∀ b ∈ ys.map Prod.snd, S a b → R a b) →
        ApartIn (SameLabel S) xs ys := fun hx hSR =>
    hx.anti fun _ hx _ hy hxy =>
      ⟨hxy.1, hSR _ (List.mem_map_of_mem hx) _ (List.mem_map_of_mem hy) hxy.2⟩
  cases k with
  | scalar v t =>
    cases k' with
    | scalar w u => exact Slot.Apart.anti h hSR
    | _ => trivial
  | record tag fs =>
    cases k' with
    | record tag' gs => exact hlabels h hSR
    | _ => trivial
  | union as =>
    cases k' with
    | union bs => exact ApartIn.anti h hSR
    | _ => trivial
  | tagged as =>
    cases k' with
    | tagged bs => exact hlabels h hSR
    | _ => trivial
  | function v =>
    cases k' with
    | function w => exact Slot.Apart.anti h hSR
    | _ => trivial
  | _ => trivial

end

namespace Store

variable {s : Store} {a b c : NodeId}

/-! ### Regular values -/

/-- A ground value in which no set, also none behind a pending, has two equal candidates. -/
structure Regular (s : Store) (a : NodeId) : Prop extends s.Ground a where
  separate : ∀ n slot, s.Reaches a n → (s.kind n).slot? = some slot →
    (Infer.candidatesOf (s.resolve slot)).Pairwise fun c d =>
      s.equalCandidates c d = false ∧ s.equalCandidates d c = false

theorem Regular.reaches (h : s.Regular a) (hab : s.Reaches a b) : s.Regular b where
  toGround := h.toGround.reaches hab
  separate n slot hn := h.separate n slot (hab.trans hn)

theorem Regular.child (h : s.Regular a) (hc : c ∈ (s.kind a).children) : s.Regular c :=
  h.reaches (.single (mem_mentions_of_child hc))

/-- What `Regular` asks of a single node. -/
def regularAt (s : Store) (n : NodeId) : Bool :=
  s.groundAt n && (s.kind n).slot?.all fun slot =>
    decide ((Infer.candidatesOf (s.resolve slot)).Pairwise fun c d =>
      s.equalCandidates c d = false ∧ s.equalCandidates d c = false)

/-- **A value is regular if a search says so.** -/
theorem Regular.of_everywhere (depth : Nat) (h : s.everywhere s.regularAt depth a = true) :
    s.Regular a where
  toGround := .of_everywhere depth (fun n hn => (Bool.and_eq_true _ _ ▸ hn).1) h
  separate n slot hn hslot := by
    obtain ⟨d, hd⟩ := everywhere_reaches h hn
    have hat := here_of_everywhere hd
    rw [regularAt, Bool.and_eq_true, hslot] at hat
    exact of_decide_eq_true hat.2

/-- Equality of the node can be turned round, and composed with equality. -/
structure Equivalent (s : Store) (a : NodeId) : Prop where
  symm : ∀ b, s.Founded b → s.Equals a b → s.Equals b a
  trans : ∀ b c, s.Founded b → s.Founded c → s.Equals a b → s.Equals b c → s.Equals a c

theorem Sound.coherent (hs : s.Sound) (a b : NodeId) : (s.kind a).Coherent (s.kind b) := by
  rintro v w hv hw p q rfl rfl htoken
  exact (hs.sets q (.inl ⟨b, hw⟩)).coherent p (.inl ⟨a, hv⟩) htoken

theorem alike_of_equals (ha : s.Founded a) (h : s.Equals a b) :
    (s.kind a).Alike s.Equals (s.kind b) := by
  rcases (equal_iff ha).mp h with rfl | ⟨-, halike⟩
  · exact .refl fun x _ => s.equals_refl x
  · exact halike

/-! ### Nothing is matched twice -/

/-- Candidates with equivalent nodes that are alike to a common one are alike. -/
theorem alike_of_common {c d e : Candidate} (hc : ∀ x ∈ c.children, s.Equivalent x)
    (hd : ∀ x ∈ d.children, s.Equivalent x ∧ s.Founded x) (he : s.FoundedIn e)
    (hce : c.Alike s.Equals e) (hde : d.Alike s.Equals e) : c.Alike s.Equals d := by
  have hed : e.Alike s.Equals d :=
    hde.flip.imp fun y hy x hx hxy => (hd x hx).1.symm y (he y hy) hxy
  have hmid : c.Alike (fun x y => s.Equals x y ∧ s.Founded y) e :=
    hce.imp fun x _ y hy hxy => ⟨hxy, he y hy⟩
  refine (hmid.comp hed).imp fun x hx z hz hxz => ?_
  obtain ⟨y, ⟨hxy, hy⟩, hyz⟩ := hxz
  exact (hc x hx).trans y z hy (hd z hz).2 hxy hyz

theorem Regular.apart_slots {v w : Slot} (hs : s.Sound) (ha : s.Regular a) (hb : s.Founded b)
    (hbelow : ∀ x ∈ (s.kind a).children, s.Equivalent x) (hv : (s.kind a).slot? = some v)
    (hw : (s.kind b).slot? = some w) : v.Apart s.Equals w := by
  have hva : v.children = (s.kind a).children := (Kind.children_of_slot hv).symm
  have hwb : w.children = (s.kind b).children := (Kind.children_of_slot hw).symm
  cases v with
  | possibilities p =>
    cases w with
    | possibilities q =>
      have hmem : ∀ {c : Candidate} {x : NodeId}, c ∈ p.candidates → x ∈ c.children →
          x ∈ (s.kind a).children := fun hc hx => hva ▸ List.mem_flatMap_of_mem hc hx
      refine ⟨hs.coherent a b _ _ hv hw p q rfl rfl, ?_⟩
      have hseparate := ha.separate a _ .refl hv
      rw [resolve_self _ (.possibilities _) rfl] at hseparate
      refine List.Pairwise.imp_of_mem (fun {c d} hc hd hcd e he hce hde => ?_) hseparate
      refine absurd ((equalCandidates_iff fun x hx => ?_).mpr ?_) (Bool.eq_false_iff.mp hcd.1)
      · exact (ha.child (hmem hc hx)).founded
      · refine alike_of_common (fun x hx => hbelow x (hmem hc hx)) (fun x hx => ?_) (fun x hx => ?_)
          hce hde
        · exact ⟨hbelow x (hmem hd hx), (ha.child (hmem hd hx)).founded⟩
        · exact hb.child (hwb ▸ List.mem_flatMap_of_mem he hx)
    | _ => trivial
  | _ => trivial

/-- No two things in a regular node are equal to the same thing in another node. -/
theorem Regular.apart (hs : s.Sound) (ha : s.Regular a) (hb : s.Founded b)
    (hbelow : ∀ x ∈ (s.kind a).children, s.Equivalent x) :
    (s.kind a).Apart s.Equals (s.kind b) := by
  refine Kind.apart_of_labelled (hs.labelled a) (fun v w => ha.apart_slots hs hb hbelow) ?_
  intro as bs hka hkb
  have hchild : ∀ m ∈ as, m ∈ (s.kind a).children := fun m hm => by rwa [hka]
  refine List.Pairwise.imp_of_mem ?_ (ha.union_normalised hka).distinct
  intro m n hm hn hmn o ho hmo hno
  have ho' : s.Founded o := hb.child (by rwa [hkb])
  have hon : s.Equals o n := (hbelow n (hchild n hn)).symm o ho' hno
  have hn' : s.Founded n := (ha.child (hchild n hn)).founded
  exact absurd ((hbelow m (hchild m hm)).trans o n ho' hn' hmo hon) (Bool.eq_false_iff.mp hmn.1)

/-! ### The short cuts -/

/-- Nodes with alike forms have one digest, if they have digests. -/
theorem digest_eq_of_alike {d e : Nat} (hs : s.Sound) (ha : s.Founded a)
    (hapart : (s.kind a).Apart s.Equals (s.kind b))
    (h : (s.kind a).Alike s.Equals (s.kind b)) (hda : s.digest a = some d)
    (hdb : s.digest b = some e) : d = e := by
  obtain ⟨hna, hca⟩ := hs.numbered a d hda
  obtain ⟨hnb, hcb⟩ := hs.numbered b e hdb
  let number : NodeId → Nat := fun n => (s.digest n).getD 0
  -- equal nodes with digests have the same digest, so the two contents are the same
  have hbelow : ∀ x ∈ (s.kind a).children, ∀ y ∈ (s.kind b).children, s.Equals x y →
      s.Equals x y ∧ number x = number y := by
    intro x hx y hy hxy
    refine ⟨hxy, ?_⟩
    obtain ⟨dx, hdx⟩ := Option.isSome_iff_exists.mp (hca x hx)
    obtain ⟨dy, hdy⟩ := Option.isSome_iff_exists.mp (hcb y hy)
    rcases (equal_iff (ha.child hx)).mp hxy with rfl | ⟨hmay, -⟩
    · rfl
    · simp only [number, hdx, hdy, hmay.1 dx dy hdx hdy]
  have hcontent : (s.content (s.kind a)).Reordered (s.content (s.kind b)) := by
    rw [content_eq, content_eq]
    exact (h.imp hbelow).relabel (fun _ _ => And.right) s.pendingNumber
      (hapart.anti fun _ _ _ _ => And.left)
  have hnumber := Contents.number_congr hcontent s.contents
  rw [digestOf] at hna hnb
  rwa [hna, hnb] at hnumber

/-- Interned nodes with alike forms are the same. -/
theorem eq_of_interned (hs : s.Sound) (ha : s.Founded a)
    (hapart : (s.kind a).Apart s.Equals (s.kind b))
    (h : (s.kind a).Alike s.Equals (s.kind b)) (hia : s.isInterned a = true)
    (hib : s.isInterned b = true) : a = b := by
  obtain ⟨hda, hca⟩ := hs.interned a hia
  obtain ⟨hdb, hcb⟩ := hs.interned b hib
  obtain ⟨d, hd⟩ := Option.isSome_iff_exists.mp hda
  obtain ⟨e, he⟩ := Option.isSome_iff_exists.mp hdb
  have hdigest : s.digest a = s.digest b := by
    rw [hd, he, digest_eq_of_alike hs ha hapart h hd he]
  -- below interned nodes equality is identity
  have hsame : (s.kind a).Alike (· = ·) (s.kind b) := by
    refine h.imp fun x hx y hy hxy => ?_
    rcases (equal_iff (ha.child hx)).mp hxy with rfl | ⟨hmay, -⟩
    · rfl
    · exact absurd ⟨hca x hx, hcb y hy⟩ hmay.2
  rcases Nat.lt_trichotomy a b with hlt | rfl | hlt
  · exact absurd hsame (hs.canonical a b hlt hia hib hdigest)
  · rfl
  · have hflip := (hsame.flip (hapart.anti fun x _ y _ hxy => hxy ▸ s.equals_refl x)).imp
      (S := (· = ·)) fun _ _ _ _ => Eq.symm
    exact absurd hflip (hs.canonical b a hlt hib hia hdigest.symm)

/-- **Nodes with alike forms are equal**, whatever the short cuts say. -/
theorem Regular.equals_of_alike (hs : s.Sound) (ha : s.Regular a) (hb : s.Founded b)
    (hbelow : ∀ x ∈ (s.kind a).children, s.Equivalent x)
    (h : (s.kind a).Alike s.Equals (s.kind b)) : s.Equals a b := by
  have hapart := ha.apart hs hb hbelow
  refine (equal_iff ha.founded).mpr ?_
  by_cases hab : a = b
  · exact .inl hab
  · refine .inr ⟨⟨fun d e => digest_eq_of_alike hs ha.founded hapart h, fun hint => ?_⟩, h⟩
    exact hab (eq_of_interned hs ha.founded hapart h hint.1 hint.2)

/-! ### Turning round and composing -/

/-- Equality from a regular node can be turned round, if it can below. -/
theorem Regular.symm_step (hs : s.Sound) (ha : s.Regular a) (hb : s.Founded b)
    (hbelow : ∀ x ∈ (s.kind a).children, s.Equivalent x) (h : s.Equals a b) : s.Equals b a := by
  rcases (equal_iff ha.founded).mp h with rfl | ⟨hmay, halike⟩
  · exact h
  refine (equal_iff hb).mpr (.inr ⟨⟨fun d e hd he => ?_, fun hint => ?_⟩, ?_⟩)
  · exact (hmay.1 e d he hd).symm
  · exact hmay.2 hint.symm
  · exact (halike.flip (ha.apart hs hb hbelow)).imp fun y hy x hx hxy =>
      (hbelow x hx).symm y (hb.child hy) hxy

/-- Equality from a regular node can be composed with equality, if it can below. -/
theorem Regular.trans_step (hs : s.Sound) (ha : s.Regular a) (hb : s.Founded b)
    (hc : s.Founded c) (hbelow : ∀ x ∈ (s.kind a).children, s.Equivalent x)
    (h : s.Equals a b) (h' : s.Equals b c) : s.Equals a c := by
  refine ha.equals_of_alike hs hc hbelow ?_
  have hmid : (s.kind a).Alike (fun x y => s.Equals x y ∧ s.Founded y) (s.kind b) :=
    (alike_of_equals ha.founded h).imp fun x _ y hy hxy => ⟨hxy, hb.child hy⟩
  refine (hmid.comp (hs.coherent a b) (hs.coherent b c) (fun y hy => ?_) (fun y _ => ?_)
    (alike_of_equals hb h')).imp fun x hx z hz hxz => ?_
  · exact ⟨s.equals_refl y, hb.child hy⟩
  · exact s.equals_refl y
  · obtain ⟨y, ⟨hxy, hy⟩, hyz⟩ := hxz
    exact (hbelow x hx).trans y z hy (hc.child hz) hxy hyz

/-- **Equality from a regular node can be turned round and composed.** -/
theorem Regular.equivalent (hs : s.Sound) (ha : s.Regular a) : s.Equivalent a := by
  refine ha.founded.induct (motive := fun a => s.Regular a → s.Equivalent a) ?_ ha
  intro m _ ih hm
  have hbelow : ∀ x ∈ (s.kind m).children, s.Equivalent x := fun x hx => ih x hx (hm.child hx)
  exact ⟨fun b hb => hm.symm_step hs hb hbelow, fun b c hb hc => hm.trans_step hs hb hc hbelow⟩

end Store

end ValueInference
