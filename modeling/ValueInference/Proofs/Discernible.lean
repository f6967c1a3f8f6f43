/-
Structural equality as an equivalence, also of values that contain themselves.

Equality matches members and candidates from the left, and two of them may be matched with the
same one on the right.  Where that cannot happen, matchings pair things off and can be read both
ways.  A value is *discernible* if no two members of a union in it equal a common node; for members
that do not lead back to the union it is enough that they are not equal to each other.

* **`Store.Discernible`** — members and candidates are never matched with the same one;
* **`Store.Balanced`** — equality of a node can be turned round and composed;
* **`Store.Discernible.apart`** — nothing in a discernible node is matched twice;
* **`Store.Discernible.balanced`** — discernible nodes are balanced;
* **`Store.equality_of_discernible`** — on discernible values equality is an equivalence.
-/
import ValueInference.Proofs.Equivalence
import ValueInference.Proofs.Formed
import ValueInference.Proofs.Indistinct
import ValueInference.Proofs.Steady

namespace ValueInference

namespace Store

variable {s : Store} {a b c f m n u v x y : NodeId}

/-! ### Discernible values -/

/-- Two members of a union are not matched with one member of another union: no node equals both,
or they do not lead back to the union and are not equal. -/
def Discerned (s : Store) (u m n : NodeId) : Prop :=
  (∀ x, ¬ (s.EqualIn m x ∧ s.EqualIn n x)) ∨
    ¬ s.Leads m u ∧ ¬ s.Leads n u ∧ s.equal m n = false

/-- Two candidates of a function are not matched with one candidate of another function: no
candidate is alike to both, or they do not lead back to the function and are not equal. -/
def CandidatesDiscerned (s : Store) (f : NodeId) (c d : Candidate) : Prop :=
  (∀ e, ¬ (c.Alike s.EqualIn e ∧ d.Alike s.EqualIn e)) ∨
    (∀ n ∈ c.children ++ d.children, ¬ s.Leads n f) ∧ s.equalCandidates c d = false

/-- No two members of a union and no two candidates of a function are matched with one. -/
structure Discernible (s : Store) (v : NodeId) : Prop where
  members : ∀ u ms, s.Leads v u → s.kind u = .union ms → ms.Pairwise (s.Discerned u)
  candidates : ∀ f p, s.Leads v f → s.kind f = .function (.possibilities p) →
    p.candidates.Pairwise (s.CandidatesDiscerned f)

theorem Discernible.leads (h : s.Discernible v) (hx : s.Leads v x) : s.Discernible x where
  members u ms hu := h.members u ms (hx.trans hu)
  candidates f p hf := h.candidates f p (hx.trans hf)

/-- Members with different heads are discerned. -/
theorem discerned_of_head (h : (s.kind m).head ≠ (s.kind n).head) : s.Discerned u m n :=
  .inl fun _ hx => h ((head_of_equals hx.1.2.2).trans (head_of_equals hx.2.2.2).symm)

theorem Discerned.differ (hm : m < s.nodes.size) (hn : n < s.nodes.size) (h : s.Discerned u m n) :
    s.equal m n = false := by
  rcases h with hcommon | ⟨-, -, hdiffer⟩
  · exact Bool.eq_false_iff.mpr fun hequal => hcommon n ⟨⟨hm, hn, hequal⟩, equalIn_refl hn⟩
  · exact hdiffer

theorem CandidatesDiscerned.differ {c d : Candidate} (hs : s.Sound)
    (hc : ∀ n ∈ c.children, n < s.nodes.size) (hd : ∀ n ∈ d.children, n < s.nodes.size)
    (h : s.CandidatesDiscerned f c d) : s.equalCandidates c d = false := by
  rcases h with hcommon | ⟨-, hdiffer⟩
  · refine Bool.eq_false_iff.mpr fun hequal => ?_
    exact hcommon d ⟨(equalCandidates_iff_alike hs hc hd).mp hequal,
      .refl fun n hn => equalIn_refl (hd n hn)⟩
  · exact hdiffer

/-! ### Balanced nodes -/

/-- Equality of the node can be turned round, and composed with equality. -/
structure Balanced (s : Store) (a : NodeId) : Prop where
  symm : ∀ b, s.EqualIn a b → s.EqualIn b a
  trans : ∀ b c, s.EqualIn a b → s.EqualIn b c → s.EqualIn a c

/-- The nodes that the node leads to and that do not lead back are balanced. -/
def BalancedBelow (s : Store) (a : NodeId) : Prop :=
  ∀ m, s.Leads a m → ¬ s.Leads m a → s.Balanced m

theorem BalancedBelow.leads (h : s.BalancedBelow a) (hx : s.Leads a x) : s.BalancedBelow x :=
  fun m hm hback => h m (hx.trans hm) fun hma => hback (hma.trans hx)

/-- Candidates over balanced nodes that are alike to a common one are alike. -/
theorem alike_of_balanced {c d e : Candidate} (hc : ∀ x ∈ c.children, s.Balanced x)
    (hd : ∀ x ∈ d.children, s.Balanced x) (hce : c.Alike s.EqualIn e)
    (hde : d.Alike s.EqualIn e) : c.Alike s.EqualIn d := by
  have hed : e.Alike s.EqualIn d := hde.flip.imp fun y _ x hx hxy => (hd x hx).symm y hxy
  refine (hce.comp hed).imp fun x hx z _ hxz => ?_
  obtain ⟨y, hxy, hyz⟩ := hxz
  exact (hc x hx).trans y z hxy hyz

/-- A node with endless ways down has neither a digest nor other instances. -/
theorem mayEqual_of_endless (hs : s.Reachable) (hx : ¬ s.Founded x) (y : NodeId) :
    s.MayEqual x y := by
  have hdigest : s.digest x = none := by
    by_contra hd
    exact hx (hs.founded_of_digest x (Option.isSome_iff_ne_none.mpr hd))
  refine ⟨fun d e hd _ => ?_, fun hi => ?_⟩
  · rw [hdigest] at hd
    exact nomatch hd
  · have hsome := (hs.sound.interned x hi.1).1
    rw [hdigest] at hsome
    exact nomatch hsome

/-! ### Nothing is matched twice -/

namespace Discernible

theorem apart_unions {as bs : List NodeId} (hx : s.Discernible x)
    (hbelow : s.BalancedBelow x) (hk : s.kind x = .union as) : ApartIn s.EqualIn as bs := by
  refine List.Pairwise.imp_of_mem ?_ (hx.members x as .refl hk)
  intro m n hm hn hmn y _ hmy hny
  have hchild : ∀ {l}, l ∈ as → s.Leads x l := fun hl => leads_child (by rwa [hk])
  rcases hmn with hcommon | ⟨hmx, hnx, hdiffer⟩
  · exact hcommon y ⟨hmy, hny⟩
  · -- both are balanced, so they would be equal to each other
    have hyn := (hbelow n (hchild hn) hnx).symm y hny
    have hmn := (hbelow m (hchild hm) hmx).trans y n hmy hyn
    exact Bool.eq_false_iff.mp hdiffer hmn.2.2

theorem apart_functions {p q : Possibilities} (hs : s.Sound) (hx : s.Discernible x)
    (hbelow : s.BalancedBelow x) (hk : s.kind x = .function (.possibilities p)) :
    ApartIn (Candidate.Alike s.EqualIn) p.candidates q.candidates := by
  have hchild : ∀ {c : Candidate} {z : NodeId}, c ∈ p.candidates → z ∈ c.children →
      z ∈ (s.kind x).children := by
    intro c z hc hz
    rw [hk]
    exact List.mem_flatMap_of_mem hc hz
  have hpresent : ∀ c ∈ p.candidates, ∀ z ∈ c.children, z < s.nodes.size :=
    fun c hc z hz => hs.child_lt (hchild hc hz)
  refine List.Pairwise.imp_of_mem ?_ (hx.candidates x p .refl hk)
  intro c d hc hd hcd e _ hce hde
  rcases hcd with hcommon | ⟨hback, hdiffer⟩
  · exact hcommon e ⟨hce, hde⟩
  · have hbalanced : ∀ c' ∈ p.candidates, (∀ z ∈ c'.children, ¬ s.Leads z x) →
        ∀ z ∈ c'.children, s.Balanced z := fun c' hc' hnot z hz =>
      hbelow z (leads_child (hchild hc' hz)) (hnot z hz)
    have halike : c.Alike s.EqualIn d := by
      refine alike_of_balanced (hbalanced c hc fun z hz => ?_) (hbalanced d hd fun z hz => ?_) hce hde
      · exact hback z (List.mem_append_left _ hz)
      · exact hback z (List.mem_append_right _ hz)
    exact Bool.eq_false_iff.mp hdiffer
      ((equalCandidates_iff_alike hs (hpresent c hc) (hpresent d hd)).mpr halike)

/-- **Nothing in a discernible node is matched twice.** -/
theorem apart (hs : s.Sound) (hformed : (s.kind x).Formed) (hx : s.Discernible x)
    (hbelow : s.BalancedBelow x) (y : NodeId) : (s.kind x).Apart s.EqualIn (s.kind y) := by
  refine Kind.apart_of_labelled (hs.labelled x) (fun v w hv hw => ?_)
    fun as bs hk _ => apart_unions hx hbelow hk
  cases v with
  | possibilities p =>
    cases w with
    | possibilities q =>
      refine ⟨hs.coherent x y _ _ hv hw p q rfl rfl, ?_⟩
      rcases hk : s.kind x with ⟨v', t⟩ | _ | _ | _ | _ | _ | _ | v' | _ | _ | _
      all_goals rw [hk] at hv hformed
      case scalar =>
        -- the candidates of a scalar are constants, which are alike only if they are the same
        obtain rfl : v' = .possibilities p := by simpa [Kind.slot?] using hv
        refine List.Pairwise.imp_of_mem ?_ (hs.sets p (.inl ⟨x, by rw [hk]; rfl⟩)).distinct
        intro c d hc hd hcd e _ hce hde
        have hconstant : ∀ c' ∈ p.candidates, c'.Alike s.EqualIn e → c' = e := by
          intro c' hc' halike
          have hnot := hformed c' hc'
          cases c' with
          | constant z => cases e <;> first | exact congrArg _ halike | exact halike.elim
          | function f => cases hnot
        exact hcd ((hconstant c hc hce).trans (hconstant d hd hde).symm)
      case function =>
        obtain rfl : v' = .possibilities p := by simpa [Kind.slot?] using hv
        exact apart_functions hs hx hbelow hk
      all_goals cases hv
    | _ => trivial
  | _ => trivial

/-! ### Turning round -/

/-- Equality from a discernible node can be turned round if it can below. -/
theorem symm_of_below (hs : s.Sound) (hformed : ∀ n, (s.kind n).Formed) (ha : s.Discernible a)
    (hbelow : s.BalancedBelow a) (h : s.EqualIn a b) : s.EqualIn b a := by
  let R : NodeId → NodeId → Prop := fun y x => s.Leads a x ∧ s.EqualIn x y
  have hR : s.Bisimulation R := by
    rintro y x ⟨hx, hxy⟩
    rcases bisimulation_equals hs x y hxy with rfl | ⟨⟨hdigest, hinterned⟩, halike⟩
    · exact .inl rfl
    refine .inr ⟨⟨fun d e hd he => (hdigest e d he hd).symm, fun h => hinterned h.symm⟩, ?_⟩
    have hflip := halike.flip ((ha.leads hx).apart hs (hformed x) (hbelow.leads hx) y)
    exact hflip.imp fun w _ z hz hzw => ⟨hx.tail hz, hzw⟩
  exact ⟨h.2.1, h.1, equal_of_bisimulation hs hR h.2.1 h.1 ⟨.refl, h⟩⟩

/-! ### Composing -/

/-- Where equality composes on what is in a node, the forms of nodes that are equal one after
another are alike. -/
private theorem alike_of_trans (hs : s.Sound) (h : s.EqualIn a b) (h' : s.EqualIn b c) :
    (s.kind a).Alike (Relation.Comp s.EqualIn s.EqualIn) (s.kind c) := by
  have hself : ∀ x ∈ (s.kind b).children, s.EqualIn x x := fun x hx =>
    equalIn_refl (hs.child_lt hx)
  exact (alike_of_equalIn hs h).comp (hs.coherent a b) (hs.coherent b c) hself hself
    (alike_of_equalIn hs h')

/-- A founded node equals what has an alike form: the short cuts follow the forms. -/
theorem equalIn_of_founded (hs : s.Sound) (hformed : (s.kind x).Formed) (hx : s.Discernible x)
    (hbelow : s.BalancedBelow x) (hfounded : s.Founded x) (hy : y < s.nodes.size)
    (halike : (s.kind x).Alike s.EqualIn (s.kind y)) : s.EqualIn x y := by
  have halike' : (s.kind x).Alike s.Equals (s.kind y) := halike.imp fun _ _ _ _ h => h.2.2
  have hapart : (s.kind x).Apart s.Equals (s.kind y) := by
    refine (hx.apart hs hformed hbelow y).anti fun w hw w' hw' hww' => ?_
    exact ⟨hs.child_lt hw, hs.child_lt hw', hww'⟩
  refine ⟨hfounded.present, hy, (equal_iff hfounded).mpr ?_⟩
  by_cases hsame : x = y
  · exact .inl hsame
  · refine .inr ⟨⟨fun d e => digest_eq_of_alike hs hfounded hapart halike', fun hint => ?_⟩,
      halike'⟩
    exact hsame (eq_of_interned hs hfounded hapart halike' hint.1 hint.2)

/-- Equality from a founded node composes. -/
theorem trans_of_founded (hs : s.Sound) (hformed : ∀ n, (s.kind n).Formed) (ha : s.Discernible a)
    (hbelow : s.BalancedBelow a) (hx : s.Founded x) :
    s.Leads a x → ∀ y z, s.EqualIn x y → s.EqualIn y z → s.EqualIn x z := by
  refine hx.induct (motive := fun x => s.Leads a x →
    ∀ y z, s.EqualIn x y → s.EqualIn y z → s.EqualIn x z) fun x hx ih hlead y z hxy hyz => ?_
  have halike : (s.kind x).Alike s.EqualIn (s.kind z) := by
    refine (alike_of_trans hs hxy hyz).imp fun w hw w' _ hww' => ?_
    obtain ⟨u, hwu, huw'⟩ := hww'
    exact ih w hw (hlead.tail hw) u w' hwu huw'
  exact (ha.leads hlead).equalIn_of_founded hs (hformed x) (hbelow.leads hlead) hx hyz.2.1 halike

/-- Equality from a discernible node composes if it does below. -/
theorem trans_of_below (hs : s.Reachable) (ha : s.Discernible a) (hbelow : s.BalancedBelow a)
    (h : s.EqualIn a b) (h' : s.EqualIn b c) : s.EqualIn a c := by
  let R : NodeId → NodeId → Prop := fun x z =>
    s.Leads a x ∧ Relation.Comp s.EqualIn s.EqualIn x z
  have hR : s.Bisimulation R := by
    rintro x z ⟨hx, y, hxy, hyz⟩
    by_cases hfounded : s.Founded x
    · have hxz := trans_of_founded hs.sound hs.formed ha hbelow hfounded hx y z hxy hyz
      refine (bisimulation_equals hs.sound x z hxz).imp id fun ⟨hmay, halike⟩ => ?_
      refine ⟨hmay, halike.imp fun w hw w' _ hww' => ?_⟩
      exact ⟨hx.tail hw, w', hww', equalIn_refl hww'.2.1⟩
    · refine .inr ⟨mayEqual_of_endless hs hfounded z, ?_⟩
      exact (alike_of_trans hs.sound hxy hyz).imp fun w hw w' _ hww' => ⟨hx.tail hw, hww'⟩
  exact ⟨h.1, h'.2.1, equal_of_bisimulation hs.sound hR h.1 h'.2.1 ⟨.refl, b, h, h'⟩⟩

end Discernible

/-! ### Every discernible node -/

/-- A node that does not lead back to one that leads to it leads to fewer nodes. -/
theorem ncard_leads_lt (hs : s.Sound) (ha : a < s.nodes.size) (hm : s.Leads a m)
    (hback : ¬ s.Leads m a) : {n | s.Leads m n}.ncard < {n | s.Leads a n}.ncard := by
  have hfinite : {n | s.Leads a n}.Finite :=
    (Set.finite_Iio s.nodes.size).subset fun n hn => present_of_leads hs ha hn
  refine Set.ncard_lt_ncard ⟨fun n hn => hm.trans hn, fun hsub => hback ?_⟩ hfinite
  exact hsub (Relation.ReflTransGen.refl : s.Leads a a)

/-- **Equality of a discernible node can be turned round and composed.** -/
theorem Discernible.balanced (hs : s.Reachable) (ha : a < s.nodes.size) (h : s.Discernible a) :
    s.Balanced a := by
  -- induction on how many nodes `a` leads to: only those below its own cycle come first
  induction hcard : {n | s.Leads a n}.ncard using Nat.strong_induction_on generalizing a with
  | _ card ih =>
    have hbelow : s.BalancedBelow a := by
      intro m hm hback
      have hless := ncard_leads_lt hs.sound ha hm hback
      exact ih _ (hcard ▸ hless) (present_of_leads hs.sound ha hm) (h.leads hm) rfl
    exact ⟨fun b => h.symm_of_below hs.sound hs.formed hbelow, fun b c => h.trans_of_below hs hbelow⟩

/-- Of a founded discernible node it is enough that the forms in the store are well-formed. -/
theorem Discernible.balanced_of_founded (hs : s.Sound) (hformed : ∀ n, (s.kind n).Formed)
    (ha : s.Founded a) (h : s.Discernible a) : s.Balanced a := by
  suffices hleads : ∀ m, s.Leads a m → s.Balanced m from hleads a .refl
  refine ha.induct (motive := fun a => s.Discernible a → ∀ m, s.Leads a m → s.Balanced m)
    (fun x hx ih hdiscernible m hm => ?_) h
  have hbelow : ∀ y, s.Leads x y → ¬ s.Leads y x → s.Balanced y := by
    intro y hy hback
    rcases Relation.ReflTransGen.cases_head hy with rfl | ⟨c, hc, hcy⟩
    · exact absurd .refl hback
    · exact ih c hc (hdiscernible.leads (leads_child hc)) y hcy
  rcases Relation.ReflTransGen.cases_head hm with rfl | ⟨c, hc, hcm⟩
  · exact ⟨fun b => hdiscernible.symm_of_below hs hformed hbelow,
      hdiscernible.trans_of_founded hs hformed hbelow hx .refl⟩
  · exact ih c hc (hdiscernible.leads (leads_child hc)) m hcm

/-- **On discernible values structural equality is an equivalence**, on whatever cycles they
lie. -/
theorem equality_of_discernible (hs : s.Reachable) (ha : a < s.nodes.size) (h : s.Discernible a) :
    s.equal a a = true ∧
      (∀ b, b < s.nodes.size → s.equal a b = true → s.equal b a = true) ∧
      ∀ b c, b < s.nodes.size → c < s.nodes.size → s.equal a b = true → s.equal b c = true →
        s.equal a c = true := by
  have hbalanced := h.balanced hs ha
  refine ⟨s.equals_refl a, fun b hb hab => ?_, fun b c hb hc hab hbc => ?_⟩
  · exact (hbalanced.symm b ⟨ha, hb, hab⟩).2.2
  · exact (hbalanced.trans b c ⟨ha, hb, hab⟩ ⟨hb, hc, hbc⟩).2.2

/-- A union of which two members equal one member of another union equals that union, which does
not equal it. -/
example :
    let s := ofForms [.type .nil, .type .bool]
    let s := Change.placeholder.apply (Change.placeholder.apply s)
    let s := (Change.build (.tuple [3, 0])).apply ((Change.build (.tuple [2, 0])).apply s)
    let s := (Change.complete 3 (.union [4, 1])).apply ((Change.complete 2 (.union [4, 5])).apply s)
    let s := (Change.build (.tuple [6, 0])).apply (Change.placeholder.apply s)
    let s := (Change.complete 6 (.union [7, 1])).apply s
    s.equal 2 6 = true ∧ s.equal 6 2 = false ∧ s.equal 4 5 = false ∧ s.equal 5 4 = false := by
  decide +kernel

/-! ### Nested lists -/

/-- What a node with a digest leads to has digests. -/
theorem digest_of_leads (hs : s.Sound) (h : s.Leads m n) (hd : (s.digest m).isSome) :
    (s.digest n).isSome := by
  induction h with
  | refl => exact hd
  | tail _ hc ih =>
    obtain ⟨d, hd⟩ := Option.isSome_iff_exists.mp ih
    exact (hs.numbered _ d hd).2 _ hc

/-- Three times the values that are a list of types or a tuple of such a value: twice the union
closes its own cycle, with the members in another order, and the third one leads to the first. -/
def nests : Store :=
  let s := ofForms [.type .nil, .type .bool, .list 0, .list 1]
  let s := (Change.build (.tuple [4])).apply (Change.placeholder.apply s)
  let s := (Change.build (.tuple [6])).apply (Change.placeholder.apply s)
  let s := (Change.complete 4 (.union [2, 3, 5])).apply s
  let s := (Change.complete 6 (.union [7, 3, 2])).apply s
  (Change.build (.union [3, 5, 2])).apply s

theorem reachable_nests : nests.Reachable := by
  have hlists : (ofForms [.type .nil, .type .bool, .list 0, .list 1]).Reachable := by
    refine reachable_ofForms (List.forall_mem_cons.mpr ⟨nofun, List.forall_mem_cons.mpr ⟨nofun, ?_⟩⟩)
    exact List.forall_mem_cons.mpr ⟨nofun, List.forall_mem_cons.mpr ⟨nofun, nofun⟩⟩
  have hfirst := Reachable.step (.build (.tuple [4])) (.step .placeholder hlists trivial) nofun
  have hsecond := Reachable.step (.build (.tuple [6])) (.step .placeholder hfirst trivial) nofun
  have hclosed := Reachable.step (.complete 6 (.union [7, 3, 2]))
    (.step (.complete 4 (.union [2, 3, 5])) hsecond nofun) nofun
  exact .step (.build (.union [3, 5, 2])) hclosed nofun

/-- The lists do not lead back to a union, and a tuple has another head. -/
theorem discernible_nests (v : NodeId) : nests.Discernible v := by
  have hkinds : (List.range 9).map nests.kind = [.type .nil, .type .bool, .list 0, .list 1,
      .union [2, 3, 5], .tuple [4], .union [7, 3, 2], .tuple [6], .union [3, 5, 2]] := by
    decide +kernel
  have hkind : ∀ n, nests.kind n = .error .incomplete ∨
      n < 9 ∧ nests.kind n ∈ (List.range 9).map nests.kind := by
    intro n
    have hsize : nests.nodes.size = 9 := by decide +kernel
    rcases Nat.lt_or_ge n 9 with hn | hn
    · exact .inr ⟨hn, List.mem_map_of_mem (List.mem_range.mpr hn)⟩
    · exact .inl (kind_of_absent (hsize ▸ hn))
  rw [hkinds] at hkind
  have hcyclic : ∀ u < 9, (nests.kind u).isUnion = true → nests.digest u = none := by
    decide +kernel
  have hpairs : ∀ ms ∈ [[2, 3, 5], [7, 3, 2], [3, 5, 2]], ms.Pairwise fun m n =>
      (nests.kind m).head ≠ (nests.kind n).head ∨
        (nests.digest m).isSome ∧ (nests.digest n).isSome ∧ nests.equal m n = false := by
    decide +kernel
  constructor
  · intro u ms _ hu
    rcases hkind u with hk | ⟨hlt, hk⟩
    · exact nomatch hk.symm.trans hu
    have hmem : ms ∈ [[2, 3, 5], [7, 3, 2], [3, 5, 2]] := by
      rw [hu] at hk
      simpa using hk
    have hdigest := hcyclic u hlt (by rw [hu]; rfl)
    have hback : ∀ m, (nests.digest m).isSome → ¬ nests.Leads m u := by
      intro m hm hlead
      have hsome := digest_of_leads reachable_nests.sound hlead hm
      rw [hdigest] at hsome
      exact nomatch hsome
    refine (hpairs ms hmem).imp fun {m n} hmn => ?_
    rcases hmn with hhead | ⟨hm, hn, hdiffer⟩
    · exact discerned_of_head hhead
    · exact .inr ⟨hback m hm, hback n hn, hdiffer⟩
  · intro f p _ hf
    rcases hkind f with hk | ⟨-, hk⟩
    · exact nomatch hk.symm.trans hf
    · rw [hf] at hk
      simp at hk

theorem equality_of_nests : nests.equal 4 6 = true ∧ nests.equal 6 8 = true ∧
    nests.equal 6 4 = true ∧ nests.equal 4 8 = true := by
  obtain ⟨-, hsymm, htrans⟩ := equality_of_discernible reachable_nests (by decide +kernel)
    (discernible_nests 4)
  have h46 : nests.equal 4 6 = true := by decide +kernel
  have h68 : nests.equal 6 8 = true := by decide +kernel
  exact ⟨h46, h68, hsymm 6 (by decide +kernel) h46,
    htrans 6 8 (by decide +kernel) (by decide +kernel) h46 h68⟩

end Store

end ValueInference
