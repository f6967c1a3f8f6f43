/-
Values without their constants.

Where a value is broadened, a scalar with a known constant becomes any value of its type, and the
forms above it are made anew.  Two members of a union may become equal; one of them is then kept
for both, and a single member that is left stands for the union.  Functions stay as they are.

* **`Store.Broad`** — a value in which there is nothing to forget;
* **`Store.Broadened`** — what one value is when another one has been broadened;
* **`Store.Broadened.broad`** — then there is nothing left to forget;
* **`Store.Grows.broadened`** — it stays so in stores that have grown;
* **`Store.Broadened.discernible`** — what is told apart in a value is so when it is broadened, if
  no union lists a member twice.
-/
import ValueInference.Broaden
import ValueInference.Proofs.Attained
import ValueInference.Proofs.Histories
import ValueInference.Proofs.Redrawn
import ValueInference.Proofs.Widened

namespace ValueInference

/-- The nodes of a form that are broadened with it. -/
def Kind.opened : Kind → List NodeId
  | .function _ => []
  | k => k.children

theorem Kind.mem_children_of_opened {k : Kind} {c : NodeId} (h : c ∈ k.opened) :
    c ∈ k.children := by
  cases k with
  | function v => exact absurd h List.not_mem_nil
  | _ => exact h

/-- Forms that are made anew over what their nodes become. -/
def Kind.Layered : Kind → Prop
  | .tuple _ | .list _ | .array .. | .record .. | .tagged _ | .jtagged _ => True
  | _ => False

theorem Kind.Layered.rigid {k : Kind} (h : k.Layered) : k.Rigid := by
  cases k with
  | tuple | list | array | record | tagged | jtagged => exact ⟨rfl, rfl⟩
  | _ => exact h.elim

/-- Only the scalar of any value of the type is alike to itself. -/
theorem Kind.Alike.eq_scalar {k : Kind} {R : NodeId → NodeId → Prop} {ty : Ty}
    (h : k.Alike R (.scalar .anything ty)) : k = .scalar .anything ty := by
  cases k with
  | scalar w u =>
    obtain ⟨rfl, hw⟩ := h
    cases w with
    | anything => rfl
    | _ => exact hw.elim
  | _ => exact h.elim

namespace Store

variable {s t : Store} {m n out : NodeId} {v : Slot} {ty : Ty} {ms ds : List NodeId}
  {R S : NodeId → NodeId → Prop}

/-! ### Flat values -/

/-- No member of a union in the value is a union. -/
def FlatBelow (s : Store) (n : NodeId) : Prop := ∀ u, s.Leads n u → s.Flat (s.kind u)

theorem FlatBelow.here (h : s.FlatBelow n) : s.Flat (s.kind n) := h n .refl

theorem FlatBelow.child (h : s.FlatBelow n) (hm : m ∈ (s.kind n).children) : s.FlatBelow m :=
  fun u hu => h u (.head hm hu)

theorem flatBelow_of_children (hn : s.Flat (s.kind n))
    (h : ∀ c ∈ (s.kind n).children, s.FlatBelow c) : s.FlatBelow n := by
  intro u hu
  rcases Relation.ReflTransGen.cases_head hu with rfl | ⟨c, hc, hcu⟩
  · exact hn
  · exact h c hc u hcu

/-! ### Slots -/

theorem broadenSlot_anything (s : Store) : s.broadenSlot .anything = .anything := by
  rw [broadenSlot, s.resolve_self _ rfl]

theorem broadenSlot_eq (s : Store) (v : Slot) :
    s.broadenSlot v = .anything ∨ s.broadenSlot v = v := by
  rw [broadenSlot]
  split
  · exact .inl rfl
  · exact .inr rfl

theorem broadenSlot_of_ne (h : s.broadenSlot v ≠ v) : s.broadenSlot v = .anything :=
  (s.broadenSlot_eq v).resolve_right h

theorem Grows.broadenSlot_eq (h : s.Grows t) : t.broadenSlot v = s.broadenSlot v := by
  rw [broadenSlot, broadenSlot, h.resolve_eq]

/-! ### Broad values -/

/-- One node leads to another one, and not through a function. -/
def Opens (s : Store) : NodeId → NodeId → Prop :=
  Relation.ReflTransGen fun x y => y ∈ (s.kind x).opened

/-- No scalar in the value has a constant that is known. -/
def Broad (s : Store) (n : NodeId) : Prop :=
  ∀ m v ty, s.Opens n m → s.kind m = .scalar v ty → s.broadenSlot v = v

theorem Broad.child (h : s.Broad n) (hm : m ∈ (s.kind n).opened) : s.Broad m :=
  fun l v ty hl => h l v ty (.head hm hl)

theorem broad_of_opened (hscalar : ∀ v ty, s.kind n = .scalar v ty → s.broadenSlot v = v)
    (hopened : ∀ c ∈ (s.kind n).opened, s.Broad c) : s.Broad n := by
  intro m v ty hm hk
  rcases Relation.ReflTransGen.cases_head hm with rfl | ⟨c, hc, hcm⟩
  · exact hscalar v ty hk
  · exact hopened c hc m v ty hcm hk

theorem Grows.broad_iff (h : s.Grows t) (hn : s.Founded n) : t.Broad n ↔ s.Broad n := by
  refine hn.induct (motive := fun n => t.Broad n ↔ s.Broad n) fun m hm ih => ?_
  have hkind := h.kind_eq hm.present
  constructor
  · refine fun hbroad => broad_of_opened (fun v ty hk => ?_) fun c hc => ?_
    · rw [← h.broadenSlot_eq]
      exact hbroad m v ty .refl (hkind.trans hk)
    · exact (ih c (Kind.mem_children_of_opened hc)).mp (hbroad.child (hkind.symm ▸ hc))
  · refine fun hbroad => broad_of_opened (fun v ty hk => ?_) fun c hc => ?_
    · rw [h.broadenSlot_eq]
      exact hbroad m v ty .refl (hkind.symm.trans hk)
    · rw [hkind] at hc
      exact (ih c (Kind.mem_children_of_opened hc)).mpr (hbroad.child hc)

/-! ### Broadened values -/

/-- What is kept of what replaces the members of a union: nothing of it equals what was kept
before, and every member is replaced by something that a kept one equals. -/
structure Kept (s : Store) (R : NodeId → NodeId → Prop) (ds ms : List NodeId) : Prop where
  distinct : ds.Pairwise fun c d => s.equal c d = false
  covered : ∀ m ∈ ms, ∃ d ∈ ds, ∃ x, s.EqualIn d x ∧ R x m
  used : ∀ d ∈ ds, ∃ m ∈ ms, R d m

/-- The node is the union of some nodes, or the only one of them. -/
def Unites (s : Store) (out : NodeId) (ds : List NodeId) : Prop :=
  ds = [out] ∨ ∃ ns, s.kind out = .union ns ∧ (∀ n ∈ ns, n ∈ ds) ∧ (ns.Nodup → ns.Perm ds)

/-- The first node is the second one without its constants. -/
inductive Broadened (s : Store) : NodeId → NodeId → Prop where
  | same {n : NodeId} : s.Broad n → Broadened s n n
  | scalar {out n : NodeId} {v : Slot} {ty : Ty} : s.kind n = .scalar v ty →
      s.kind out = .scalar .anything ty → Broadened s out n
  -- forms have their nodes in lists, so what is below goes through a relation
  | form {out n : NodeId} (R : NodeId → NodeId → Prop) : (∀ x y, R x y → Broadened s x y) →
      (s.kind n).Layered → out < s.nodes.size → (s.kind out).Alike R (s.kind n) → Broadened s out n
  | union {out n : NodeId} {ms ds : List NodeId} (R : NodeId → NodeId → Prop) :
      (∀ x y, R x y → Broadened s x y) → s.kind n = .union ms → s.Kept R ds ms →
        s.Unites out ds → Broadened s out n

/-- What united nodes have below is among them. -/
theorem Unites.cases (h : s.Unites out ds) :
    (out ∈ ds ∧ ds = [out]) ∨
      (s.kind out).isUnion = true ∧ ∀ c ∈ (s.kind out).children, c ∈ ds := by
  rcases h with rfl | ⟨ns, hk, hns, -⟩
  · exact .inl ⟨List.mem_singleton_self out, rfl⟩
  · rw [hk]
    exact .inr ⟨rfl, hns⟩

namespace Broadened

theorem founded (h : s.Broadened out n) : s.Founded n → s.Founded out := by
  induction h with
  | same => exact id
  | scalar _ hout =>
    refine fun _ => .of_children (present_of_kind hout nofun) ?_
    rw [hout]
    exact fun _ hc => absurd hc List.not_mem_nil
  | form R _ hlayered hpresent halike ih =>
    refine fun hn => .of_children hpresent fun c hc => ?_
    obtain ⟨d, hd, hcd⟩ := halike.exists_child_of_placed hlayered.rigid.placed c hc
    exact ih c d hcd (hn.child hd)
  | @union out n ms ds R _ hk hkept hout ih =>
    intro hn
    have hds : ∀ d ∈ ds, s.Founded d := by
      intro d hd
      obtain ⟨m, hm, hdm⟩ := hkept.used d hd
      exact ih d m hdm (hn.child (by rwa [hk]))
    rcases hout.cases with ⟨hmem, -⟩ | ⟨hunion, hbelow⟩
    · exact hds out hmem
    · refine .of_children (present_of_kind rfl fun herror => ?_) fun c hc => hds c (hbelow c hc)
      rw [herror] at hunion
      exact nomatch hunion

/-- **There is nothing left to forget.** -/
theorem broad (h : s.Broadened out n) : s.Broad out := by
  induction h with
  | same hbroad => exact hbroad
  | @scalar out n v ty _ hout =>
    refine broad_of_opened (fun w u hk => ?_) ?_
    · obtain ⟨rfl, -⟩ := Kind.scalar.inj (hout.symm.trans hk)
      exact s.broadenSlot_anything
    · rw [hout]
      exact fun _ hc => absurd hc List.not_mem_nil
  | @form out n R _ hlayered _ halike ih =>
    have hrigid' := hlayered.rigid.of_head halike.head_eq
    refine broad_of_opened (fun v ty hk => ?_) fun c hc => ?_
    · rw [hk] at hrigid'
      exact nomatch hrigid'.slotless
    · have hchild := Kind.mem_children_of_opened hc
      obtain ⟨d, -, hcd⟩ := halike.exists_child_of_placed hlayered.rigid.placed c hchild
      exact ih c d hcd
  | @union out n ms ds R _ _ hkept hout ih =>
    have hds : ∀ d ∈ ds, s.Broad d := by
      intro d hd
      obtain ⟨m, -, hdm⟩ := hkept.used d hd
      exact ih d m hdm
    rcases hout.cases with ⟨hmem, -⟩ | ⟨hunion, hbelow⟩
    · exact hds out hmem
    · refine broad_of_opened (fun v ty hk => ?_) fun c hc =>
        hds c (hbelow c (Kind.mem_children_of_opened hc))
      rw [hk] at hunion
      exact nomatch hunion

/-- Only unions become unions. -/
theorem isUnion_eq_false (h : s.Broadened out n) (hn : (s.kind n).isUnion = false) :
    (s.kind out).isUnion = false := by
  cases h with
  | same => exact hn
  | scalar _ hout =>
    rw [hout]
    rfl
  | form R _ hlayered _ halike => exact (hlayered.rigid.of_head halike.head_eq).single
  | union R _ hk =>
    rw [hk] at hn
    exact nomatch hn

/-- No union gets to be in a union. -/
theorem flatBelow (h : s.Broadened out n) : s.FlatBelow n → s.FlatBelow out := by
  induction h with
  | same => exact id
  | scalar _ hout =>
    refine fun _ => flatBelow_of_children (fun ms hms => nomatch hout.symm.trans hms) ?_
    rw [hout]
    exact fun _ hc => absurd hc List.not_mem_nil
  | form R _ hlayered _ halike ih =>
    intro hn
    have hrigid' := hlayered.rigid.of_head halike.head_eq
    refine flatBelow_of_children (fun ms hms => ?_) fun c hc => ?_
    · rw [hms] at hrigid'
      exact nomatch hrigid'.single
    · obtain ⟨d, hd, hcd⟩ := halike.exists_child_of_placed hlayered.rigid.placed c hc
      exact ih c d hcd (hn.child hd)
  | @union out n ms ds R hR hk hkept hout ih =>
    intro hn
    have hds : ∀ d ∈ ds, s.FlatBelow d ∧ (s.kind d).isUnion = false := by
      intro d hd
      obtain ⟨m, hm, hdm⟩ := hkept.used d hd
      exact ⟨ih d m hdm (hn.child (by rwa [hk])),
        (hR d m hdm).isUnion_eq_false (hn.here ms hk m hm)⟩
    rcases hout.cases with ⟨hmem, -⟩ | ⟨-, hbelow⟩
    · exact (hds out hmem).1
    · refine flatBelow_of_children (fun ns hns n hn => ?_) fun c hc => (hds c (hbelow c hc)).1
      exact (hds n (hbelow n (by rwa [hns]))).2

end Broadened

/-- Equality of founded nodes that exist stays as it is. -/
theorem Grows.equalIn (h : s.Grows t) (hm : s.Founded m) (hn : s.Founded n)
    (hmn : s.EqualIn m n) : t.EqualIn m n :=
  ⟨(h.founded hm).present, (h.founded hn).present, (h.equals_iff hm hn).mpr hmn.2.2⟩

theorem Grows.equal_eq_false (h : s.Grows t) (hm : s.Founded m) (hn : s.Founded n)
    (hmn : s.equal m n = false) : t.equal m n = false :=
  Bool.eq_false_iff.mpr fun hequal =>
    Bool.eq_false_iff.mp hmn ((h.equals_iff hm hn).mp hequal)

/-- What is kept for members is so in a store that has grown, if what replaces them is founded. -/
theorem Kept.later (h : s.Kept R ds ms) (hgrows : s.Grows t)
    (hR : ∀ x, ∀ m ∈ ms, R x m → s.Founded x ∧ S x m) : t.Kept S ds ms := by
  have hds : ∀ d ∈ ds, s.Founded d := by
    intro d hd
    obtain ⟨m, hm, hdm⟩ := h.used d hd
    exact (hR d m hm hdm).1
  refine ⟨h.distinct.imp_of_mem fun {c d} hc hd hcd => ?_, fun m hm => ?_, fun d hd => ?_⟩
  · exact hgrows.equal_eq_false (hds c hc) (hds d hd) hcd
  · obtain ⟨d, hd, x, hdx, hxm⟩ := h.covered m hm
    exact ⟨d, hd, x, hgrows.equalIn (hds d hd) (hR x m hm hxm).1 hdx, (hR x m hm hxm).2⟩
  · obtain ⟨m, hm, hdm⟩ := h.used d hd
    exact ⟨m, hm, (hR d m hm hdm).2⟩

/-- **What is broadened stays so** in a store that has grown. -/
theorem Grows.broadened (h : s.Grows t) (hb : s.Broadened out n) :
    s.Founded n → t.Broadened out n := by
  induction hb with
  | same hbroad => exact fun hn => .same ((h.broad_iff hn).mpr hbroad)
  | scalar hk hout =>
    refine fun hn => .scalar ((h.kind_eq hn.present).trans hk) ?_
    exact (h.kind_eq (present_of_kind hout nofun)).trans hout
  | form R _ hlayered hpresent halike ih =>
    intro hn
    refine .form t.Broadened (fun _ _ => id) ?_ (Nat.lt_of_lt_of_le hpresent h.size_le) ?_
    · rwa [h.kind_eq hn.present]
    · rw [h.kind_eq hn.present, h.kind_eq hpresent]
      exact halike.imp fun a _ b hb hab => ih a b hab (hn.child hb)
  | @union out n ms ds R hR hk hkept hout ih =>
    intro hn
    have hms : ∀ m ∈ ms, s.Founded m := fun m hm => hn.child (by rwa [hk])
    have hkept' : t.Kept t.Broadened ds ms :=
      hkept.later h fun x m hm hxm => ⟨(hR x m hxm).founded (hms m hm), ih x m hxm (hms m hm)⟩
    refine .union t.Broadened (fun _ _ => id) ((h.kind_eq hn.present).trans hk) hkept' ?_
    refine hout.imp_right fun ⟨ns, hns, hrest⟩ => ⟨ns, ?_, hrest⟩
    exact (h.kind_eq (present_of_kind hns nofun)).trans hns

/-! ### Discernible values -/

theorem discernible_of_children
    (hmembers : ∀ ms, s.kind n = .union ms → ms.Pairwise (s.Discerned n))
    (hcandidates : ∀ p, s.kind n = .function (.possibilities p) →
      p.candidates.Pairwise (s.CandidatesDiscerned n))
    (hchildren : ∀ c ∈ (s.kind n).children, s.Discernible c) : s.Discernible n := by
  constructor
  · intro u ms hu hk
    rcases Relation.ReflTransGen.cases_head hu with rfl | ⟨c, hc, hcu⟩
    · exact hmembers ms hk
    · exact (hchildren c hc).members u ms hcu hk
  · intro f p hf hk
    rcases Relation.ReflTransGen.cases_head hf with rfl | ⟨c, hc, hcf⟩
    · exact hcandidates p hk
    · exact (hchildren c hc).candidates f p hcf hk

theorem Founded.leads (h : s.Founded n) (hm : s.Leads n m) : s.Founded m := by
  induction hm with
  | refl => exact h
  | tail _ hc ih => exact ih.child hc

/-- What is in a founded node does not lead back to it. -/
theorem Founded.not_leads_of_child (h : s.Founded n) (hm : m ∈ (s.kind n).children) :
    ¬ s.Leads m n :=
  fun hback => not_founded_of_cycle (below_of_child_leads hm hback) h

/-- Members that differ from each other are discerned in a union of them, in any order. -/
theorem discerned_of_perm (hs : s.Whole) (hn : s.Founded n) (hk : s.kind n = .union ms)
    (hperm : ms.Perm ds) (hdistinct : ds.Pairwise fun c d => s.equal c d = false)
    (hds : ∀ d ∈ ds, s.Discernible d) : ms.Pairwise (s.Discerned n) := by
  have hfounded : ∀ d ∈ ds, s.Founded d := fun d hd =>
    hn.child (by rw [hk]; exact hperm.mem_iff.mpr hd)
  have hboth : ds.Pairwise fun c d => s.equal c d = false ∧ s.equal d c = false := by
    refine hdistinct.imp_of_mem fun {c d} hc hd hcd => ⟨hcd, Bool.eq_false_iff.mpr fun hdc => ?_⟩
    have hdc' : s.EqualIn d c := ⟨(hfounded d hd).present, (hfounded c hc).present, hdc⟩
    exact Bool.eq_false_iff.mp hcd ((hs.balanced (hfounded d hd) (hds d hd)).symm c hdc').2.2
  refine (hperm.symm.pairwise hboth fun hcd => ⟨hcd.2, hcd.1⟩).imp_of_mem fun {c d} hc hd hcd => ?_
  exact .inr ⟨hn.not_leads_of_child (by rwa [hk]), hn.not_leads_of_child (by rwa [hk]), hcd.1⟩

/-- **What is told apart in a value** is told apart when it is broadened, if no union lists a member
twice. -/
theorem Broadened.discernible (hs : s.Whole) (h : s.Broadened out n) :
    s.Founded n → s.Discernible n → s.Plain out → s.Discernible out := by
  induction h with
  | same => exact fun _ hdiscernible _ => hdiscernible
  | @scalar out n v ty _ hout =>
    intro _ _ _
    refine discernible_of_children (fun ms hk => nomatch hout.symm.trans hk)
      (fun p hk => nomatch hout.symm.trans hk) ?_
    rw [hout]
    exact fun _ hc => absurd hc List.not_mem_nil
  | @form out n R _ hlayered _ halike ih =>
    intro hn hdiscernible hplain
    have hrigid' := hlayered.rigid.of_head halike.head_eq
    refine discernible_of_children (fun ms hk => ?_) (fun p hk => ?_) fun c hc => ?_
    · rw [hk] at hrigid'
      exact nomatch hrigid'.single
    · rw [hk] at hrigid'
      exact nomatch hrigid'.slotless
    · obtain ⟨d, hd, hcd⟩ := halike.exists_child_of_placed hlayered.rigid.placed c hc
      exact ih c d hcd (hn.child hd) (hdiscernible.leads (leads_child hd)) (hplain.child hc)
  | @union out n ms ds R hR hk hkept hout ih =>
    intro hn hdiscernible hplain
    have hfounded : s.Founded out := (Broadened.union R hR hk hkept hout).founded hn
    have hbelow : ∀ d ∈ ds, s.Plain d → s.Discernible d := by
      intro d hd hplain
      obtain ⟨m, hm, hdm⟩ := hkept.used d hd
      have hmem : m ∈ (s.kind n).children := by rwa [hk]
      exact ih d m hdm (hn.child hmem) (hdiscernible.leads (leads_child hmem)) hplain
    rcases hout with rfl | ⟨ns, hns, hbelow', hperm⟩
    · exact hbelow out (List.mem_singleton_self out) hplain
    · have hperm := hperm (hplain.here hns)
      have hds : ∀ d ∈ ds, s.Discernible d := fun d hd =>
        hbelow d hd (hplain.child (by rw [hns]; exact hperm.mem_iff.mpr hd))
      refine discernible_of_children (fun ms' hk' => ?_) (fun p hk' => nomatch hns.symm.trans hk')
        fun c hc => ?_
      · obtain rfl := Kind.union.inj (hns.symm.trans hk')
        exact discerned_of_perm hs hfounded hns hperm hkept.distinct hds
      · rw [hns] at hc
        exact hds c (hbelow' c hc)

end Store

end ValueInference
