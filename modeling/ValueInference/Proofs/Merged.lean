/-
Merges of proper values.

A merge of proper values, forced or relaxed, in whatever scope, gives a proper value or fails with a
type mismatch.  Nothing else can go wrong: candidates that fitted their types fit what the types
join to, labels stay unique, a union of members is flat and has two of them at least, and what the
walk goes down to comes to an end before its fuel does.

* **`Store.Merged`** — what a merge leaves: a proper value, tidy if the operands are, and one that
  they join to if they are ground;
* **`Store.Assembled`** — a form that is put together of merged parts, and **`Infer.ends_make`**: it
  becomes a node without fail;
* **`Infer.mergeStep_ends`**, **`Infer.mergeWithin_ends`** — one level of a merge, and all of them;
* **`Infer.merge_proper_or_mismatch`** — merges of proper values are closed, and fail in one way.
-/
import ValueInference.Proofs.Endings
import ValueInference.Proofs.JoinedRuns
import ValueInference.Proofs.Proper

namespace ValueInference

/-- A candidate that fits one of two types fits what they join to. -/
theorem Candidate.Fits.join {c : Candidate} {t u : Ty} (h : c.Fits t ∨ c.Fits u) :
    c.Fits (t.join u) := by
  have hany : ∀ {ty : Ty}, c.Fits ty → c.Fits .any := by
    intro ty hc
    cases c with
    | constant x => exact Constant.fits.eq_1 x
    | function f => exact hc.elim
  rw [Ty.join]
  split
  · next hsame =>
    rcases h with h | h
    · exact h
    · rcases hsame with rfl | rfl
      · exact h
      · exact hany h
  · exact h.elim hany hany

/-- What is below a slot is in one of its candidates. -/
theorem Slot.exists_candidate {v : Slot} {n : NodeId} (h : n ∈ v.children) :
    ∃ c ∈ Infer.candidatesOf v, n ∈ c.children := by
  cases v with
  | possibilities p => exact List.mem_flatMap.mp h
  | _ => exact absurd h List.not_mem_nil

namespace Store

variable {s t u : Store} {a b r x y z m : NodeId} {k : Kind} {v w : Slot} {limit token : Nat}

/-! ### Joined slots -/

/-- What two slots that are no pendings join to is none, and has their candidates. -/
theorem joinSlots_candidates {x : Slot} (hv : v.pendings = []) (hw : w.pendings = [])
    (h : s.joinSlots limit token v w = some x) : x.pendings = [] ∧
      ∀ c ∈ Infer.candidatesOf x, c ∈ Infer.candidatesOf v ∨ c ∈ Infer.candidatesOf w := by
  have hleft : v.pendings = [] ∧
      ∀ c ∈ Infer.candidatesOf v, c ∈ Infer.candidatesOf v ∨ c ∈ Infer.candidatesOf w :=
    ⟨hv, fun _ => .inl⟩
  have hanything : Slot.anything.pendings = [] ∧
      ∀ c ∈ Infer.candidatesOf .anything, c ∈ Infer.candidatesOf v ∨ c ∈ Infer.candidatesOf w :=
    ⟨rfl, fun _ hc => absurd hc List.not_mem_nil⟩
  rw [joinSlots, s.resolve_self v hv, s.resolve_self w hw] at h
  split at h
  · exact Option.some.inj h ▸ hleft
  · exact Option.some.inj h ▸ hanything
  · split at h
    · exact Option.some.inj h ▸ hleft
    split at h
    · exact Option.some.inj h ▸ hanything
    · cases h
  · obtain rfl := Option.some.inj h
    rw [joinCandidates]
    split
    · exact hleft
    split
    · exact ⟨hw, fun _ => .inr⟩
    split
    · exact hanything
    · exact ⟨rfl, fun c hc => mem_of_mem_addCandidates hc⟩

/-! ### What a merge leaves -/

/-- A part of what a merge of `a` and `b` leaves. -/
structure Part (s u : Store) (a b z : NodeId) : Prop where
  proper : u.Proper z
  tidy : s.Tidy a → s.Tidy b → u.Tidy z

/-- What a merge of `a` and `b` leaves as its result. -/
structure Merged (s : Store) (limit : Nat) (u : Store) (a b r : NodeId) : Prop
    extends s.Part u a b r where
  joined : s.Ground a → s.Ground b → ∀ t, u.Grows t → s.Joined t limit a b r

theorem Merged.lasts (h : s.Merged limit t a b r) (hgrows : t.Grows u) :
    s.Merged limit u a b r where
  proper := hgrows.proper h.proper
  tidy ha hb := hgrows.tidy h.proper (h.tidy ha hb)
  joined ha hb t ht := h.joined ha hb t (hgrows.trans ht)

theorem Merged.part (h : s.Merged limit u x y z) (hx : x ∈ (s.kind a).children)
    (hy : y ∈ (s.kind b).children) : s.Part u a b z :=
  ⟨h.proper, fun ha hb => h.tidy (ha.child hx) (hb.child hy)⟩

theorem part_left (hgrows : s.Grows u) (ha : s.Proper a) (hx : x ∈ (s.kind a).children) :
    s.Part u a b x :=
  ⟨hgrows.proper (ha.child hx), fun htidy _ => hgrows.tidy (ha.child hx) (htidy.child hx)⟩

theorem part_right (hgrows : s.Grows u) (hb : s.Proper b) (hy : y ∈ (s.kind b).children) :
    s.Part u a b y :=
  ⟨hgrows.proper (hb.child hy), fun _ htidy => hgrows.tidy (hb.child hy) (htidy.child hy)⟩

/-- An operand as the result. -/
theorem merged_of_operand (hgrows : s.Grows u) (hr : s.Proper r)
    (htidy : s.Tidy a → s.Tidy b → s.Tidy r)
    (hjoined : s.Ground a → s.Ground b → ∀ t, u.Grows t → s.Joined t limit a b r) :
    s.Merged limit u a b r where
  proper := hgrows.proper hr
  tidy ha hb := hgrows.tidy hr (htidy ha hb)
  joined := hjoined

/-- A form that is put together of merged parts. -/
structure Assembled (s : Store) (limit : Nat) (u : Store) (a b : NodeId) (k : Kind) : Prop where
  admitted : ∀ v, k.slot? = some v → u.AdmitsSlot v
  clear : k.pendings = []
  valid : u.fault? k = none
  parts : ∀ c ∈ k.children, s.Part u a b c
  unlike : ∀ ms, k = .union ms → u.Unlike ms
  joined : s.Ground a → s.Ground b → ∀ t r, u.Grows t → (t.kind r).Reordered k →
    s.Joined t limit a b r

/-- The left operand, where the form is its own. -/
theorem Assembled.unchanged (h : s.Assembled limit u a b k) (hgrows : s.Grows u) (ha : s.Proper a)
    (hka : (s.kind a).Reordered k) : s.Merged limit u a b a := by
  refine merged_of_operand hgrows ha (fun htidy _ => htidy) fun hga hgb t ht => ?_
  refine h.joined hga hgb t a ht ?_
  rwa [(hgrows.trans ht).kind_eq ha.present]

end Store

namespace Infer

variable {s t u : Store} {a b : NodeId} {k : Kind} {limit : Nat} {forced : Bool}
  {rec : MergeScope → Bool → NodeId → NodeId → Infer NodeId}

/-- **A form that is put together of merged parts** becomes a node. -/
theorem ends_make (hu : u.Sound) (h : s.Assembled limit u a b k) :
    Ends (make k) u fun t r => s.Merged limit t a b r := by
  obtain ⟨r, t, hrun, hcomplete, hreordered⟩ := Store.exists_made hu h.valid h.admitted
    (by rintro ms rfl m hm; exact ⟨(h.parts m hm).proper.founded, (h.parts m hm).proper.clear⟩)
  have hmade := Store.make_spec hu h.admitted hrun
  have hgrows := hmade.grows
  -- the node may be an older one, which has the form in another order
  have hpart : ∀ c ∈ (t.kind r).children, s.Part u a b c := fun c hc =>
    h.parts c (hreordered.mem_children.mp hc)
  have hproper : t.Proper r := .of_children hcomplete (hreordered.alike.pendings_eq.trans h.clear)
    (Store.fault?_of_reordered hgrows hreordered h.valid)
    fun c hc => hgrows.proper (hpart c hc).proper
  refine .gives hrun hgrows hmade.sound ⟨⟨hproper, fun ha hb => ?_⟩, fun ha hb v hv => ?_⟩
  · refine Store.tidy_of_children (fun ms hms => ?_) fun c hc =>
      hgrows.tidy (hpart c hc).proper ((hpart c hc).tidy ha hb)
    rw [hms] at hreordered
    obtain ⟨ns, rfl, hperm⟩ := hreordered.symm.union_inv
    refine Store.Unlike.of_perm (hgrows.unlike (fun m hm => ?_) (h.unlike ns rfl)) hperm.symm
    exact (h.parts m hm).proper.founded
  · refine h.joined ha hb v r (hgrows.trans hv) ?_
    rwa [hv.kind_eq hmade.present]

/-- What a merge does with its parts: it gives back the left operand if nothing has changed, and
makes a node otherwise. -/
theorem Ends.settles {γ : Type} [DecidableEq γ] {x : Infer γ} {old : γ} {F : γ → Kind}
    {Q : Store → γ → Prop} (h : Ends x t Q) (hgrows : s.Grows t) (ha : s.Proper a)
    (hold : (s.kind a).Reordered (F old))
    (hassembled : ∀ u new, t.Grows u → u.Sound → Q u new → s.Assembled limit u a b (F new)) :
    Ends (x >>= fun new => if new = old then pure a else make (F new)) t
      fun u r => s.Merged limit u a b r := by
  refine h.bind fun u new hu hsu hnew => ?_
  have hform := hassembled u new hu hsu hnew
  by_cases hsame : new = old
  · rw [if_pos hsame]
    exact ends_pure hsu (hform.unchanged (hgrows.trans hu) ha (hsame ▸ hold))
  · rw [if_neg hsame]
    exact ends_make hsu hform

end Infer

namespace Store

variable {s t u : Store} {a b r x y z m : NodeId} {k : Kind} {v w : Slot} {limit token : Nat}

/-! ### Forms of merged parts -/

/-- A form without a slot, and no union, that follows the rules. -/
theorem assembled_of_parts (hne : ¬ s.Equals a b) (hslot : k.slot? = none)
    (hunion : ∀ ms, k ≠ .union ms) (hconforms : k.Conforms)
    (hparts : ∀ c ∈ k.children, s.Part u a b c)
    (hform : s.Ground a → s.Ground b → ∀ t k', u.Grows t → k'.Reordered k →
      s.JoinForm limit (s.Joined t limit) (s.kind a) (s.kind b) k') :
    s.Assembled limit u a b k := by
  have hclear : k.pendings = [] := by rw [Kind.pendings, hslot]; rfl
  exact
    { admitted := by simp [hslot]
      clear := hclear
      valid := fault?_eq_none_iff.mpr ⟨knows_iff.mpr ⟨fun c hc => (hparts c hc).proper.present,
        fun p hp => absurd (hclear ▸ hp) List.not_mem_nil⟩, hconforms,
        fun ms hk => absurd hk (hunion ms)⟩
      parts := hparts
      unlike := fun ms hk => absurd hk (hunion ms)
      joined := fun ha hb t _ hu hr =>
        .step _ (fun _ _ _ => id) hne (joinStep_of_form (hform ha hb t _ hu hr)) }

theorem assembled_single {F : NodeId → Kind} (hF : Wraps F) (hne : ¬ s.Equals a b)
    (hx : x ∈ (s.kind a).children) (hy : y ∈ (s.kind b).children) (hz : s.Merged limit u x y z)
    (hform : ∀ J z, J x y z → s.JoinForm limit J (s.kind a) (s.kind b) (F z)) :
    s.Assembled limit u a b (F z) := by
  have hplain : (F z).slot? = none ∧ (∀ ms, F z ≠ .union ms) ∧ (F z).Conforms := by
    cases hF <;> exact ⟨rfl, nofun, trivial⟩
  refine assembled_of_parts hne hplain.1 hplain.2.1 hplain.2.2 (fun c hc => ?_)
    fun ha hb t k' hu hk' => ?_
  · rw [hF.children] at hc
    exact List.mem_singleton.mp hc ▸ hz.part hx hy
  · rw [hF.reordered hk']
    exact hform _ z (hz.joined (ha.child hx) (hb.child hy) t hu)

theorem assembled_tuple {xs ys zs : List NodeId} (hne : ¬ s.Equals a b)
    (h : JoinsEach (s.Merged limit u) xs ys zs) (hka : s.kind a = .tuple xs)
    (hkb : s.kind b = .tuple ys) : s.Assembled limit u a b (.tuple zs) := by
  refine assembled_of_parts hne rfl nofun trivial (fun c hc => ?_) fun ha hb t k' hu hk' => ?_
  · obtain ⟨x, hx, y, hy, hxy⟩ := h.exists_mem c hc
    exact hxy.part (hka ▸ hx) (hkb ▸ hy)
  · rw [hka, hkb, hk'.tuple_inv]
    exact ⟨zs, h.imp fun x hx y hy z _ hxy =>
      hxy.joined (ha.child (hka ▸ hx)) (hb.child (hkb ▸ hy)) t hu, rfl⟩

theorem assembled_record {tag : String} {fs gs zs : List (String × NodeId)} (hne : ¬ s.Equals a b)
    (ha : s.Proper a) (h : JoinsFields (s.Merged limit u) gs fs zs)
    (hka : s.kind a = .record tag fs) (hkb : s.kind b = .record tag gs) :
    s.Assembled limit u a b (.record tag zs) := by
  have hnames : (zs.map Prod.fst).Nodup := by
    have hconforms := ha.conforms
    rw [hka] at hconforms
    rw [h.names]
    exact hconforms
  have hleft : ∀ f ∈ fs, f.2 ∈ (s.kind a).children := fun f hf =>
    hka ▸ List.mem_map_of_mem hf
  have hright : ∀ {l : String} {y : NodeId}, gs.lookup l = some y → y ∈ (s.kind b).children :=
    fun hy => hkb ▸ mem_snd_of_lookup hy
  refine assembled_of_parts hne rfl nofun hnames (fun c hc => ?_)
    fun hga hgb t k' hu hk' => ?_
  · obtain ⟨z, hz, rfl⟩ := List.mem_map.mp hc
    obtain ⟨f, hf, -, y, hy, hxy⟩ := exists_of_forall₂ (List.Forall₂.flip h) z hz
    exact hxy.part (hleft f hf) (hright hy)
  · rw [hka, hkb]
    refine ⟨rfl, zs, forall₂_imp_mem h fun f hf z _ hfz => ?_, hk'⟩
    obtain ⟨hname, y, hy, hxy⟩ := hfz
    exact ⟨hname, y, hy, hxy.joined (hga.child (hleft f hf)) (hgb.child (hright hy)) t hu⟩

theorem assembled_tagged {xs ys zs zs' : List (UInt32 × NodeId)} (hne : ¬ s.Equals a b)
    (hgrows : s.Grows u) (ha : s.Proper a) (hb : s.Proper b)
    (h : JoinsOptions (s.Merged limit u) xs ys zs) (hsort : zs'.Perm zs)
    (hka : s.kind a = .tagged xs) (hkb : s.kind b = .tagged ys) :
    s.Assembled limit u a b (.tagged zs') := by
  have hconforms := ha.conforms
  rw [hka] at hconforms
  have hleft : ∀ {l x}, xs.lookup l = some x → x ∈ (s.kind a).children := fun hx =>
    hka ▸ mem_snd_of_lookup hx
  have hright : ∀ {l y}, ys.lookup l = some y → y ∈ (s.kind b).children := fun hy =>
    hkb ▸ mem_snd_of_lookup hy
  refine assembled_of_parts hne rfl nofun ⟨?_, (hsort.map Prod.fst).nodup_iff.mpr h.labels⟩
    (fun c hc => ?_) fun hga hgb t k' hu hk' => ?_
  · rintro rfl
    exact h.ne_nil hconforms.2 hconforms.1 hsort.symm.eq_nil
  · -- an option was merged if both sides have its tag, and is taken from one side otherwise
    obtain ⟨o, ho, rfl⟩ := List.mem_map.mp ((hsort.map Prod.snd).mem_iff.mp hc)
    have hjoined := h.joined o.1
    rw [(lookup_iff_mem h.labels).mpr ho] at hjoined
    cases hx : xs.lookup o.1 with
    | none =>
      rw [hx] at hjoined
      exact part_right hgrows hb (hright (Eq.symm hjoined))
    | some x =>
      cases hy : ys.lookup o.1 with
      | none =>
        rw [hx, hy] at hjoined
        exact part_left hgrows ha (hleft (hx.trans (Eq.symm hjoined)))
      | some y =>
        rw [hx, hy] at hjoined
        obtain ⟨n, hn, hxy⟩ := hjoined
        exact Option.some.inj hn ▸ hxy.part (hleft hx) (hright hy)
  · rw [hka, hkb]
    refine ⟨zs, ⟨h.labels, fun l => (h.joined l).imp fun x y z hx hy _ hxy => ?_⟩,
      hk'.trans (.tagged hsort)⟩
    exact hxy.joined (hga.child (hleft hx)) (hgb.child (hright hy)) t hu

/-- A form of one slot. -/
theorem assembled_slot {F : Slot → Kind} {Q : Candidate → Prop} {x : Slot} (hF : Slotted F Q)
    (hne : ¬ s.Equals a b) (hgrows : s.Grows u) (ha : s.Proper a) (hb : s.Proper b)
    (hv : (s.kind a).slot? = some v) (hw : (s.kind b).slot? = some w)
    (hjoin : s.joinSlots limit token v w = some x) (hadmitted : u.AdmitsSlot x)
    (hQ : ∀ c, c ∈ Infer.candidatesOf v ∨ c ∈ Infer.candidatesOf w → Q c)
    (hform : ∀ J k, k.Reordered (F x) → s.JoinForm limit J (s.kind a) (s.kind b) k) :
    s.Assembled limit u a b (F x) := by
  obtain ⟨hclear, hcandidates⟩ :=
    joinSlots_candidates (ha.slot_pendings hv) (hb.slot_pendings hw) hjoin
  have hslot := hF.slot x
  have hpendings : (F x).pendings = [] := by rw [Kind.pendings, hslot]; exact hclear
  have hparts : ∀ n ∈ (F x).children, s.Part u a b n := by
    intro n hn
    rw [Kind.children_of_slot hslot] at hn
    obtain ⟨c, hc, hnc⟩ := Slot.exists_candidate hn
    rcases hcandidates c hc with hc | hc
    · refine part_left hgrows ha ?_
      rw [Kind.children_of_slot hv]
      exact mem_children_of_candidate hc hnc
    · refine part_right hgrows hb ?_
      rw [Kind.children_of_slot hw]
      exact mem_children_of_candidate hc hnc
  have hknows : u.knows (F x) = true := knows_iff.mpr ⟨fun n hn => (hparts n hn).proper.present,
    fun p hp => absurd (hpendings ▸ hp) List.not_mem_nil⟩
  exact
    { admitted := fun y hy => Option.some.inj (hslot.symm.trans hy) ▸ hadmitted
      clear := hpendings
      valid := (hF.fault?_eq_none hknows).mpr fun c hc => hQ c (hcandidates c hc)
      parts := hparts
      unlike := fun ms hk => by cases hF <;> cases hk
      joined := fun _ _ t r _ hr =>
        .step (s.Joined t limit) (fun _ _ _ => id) hne (joinStep_of_form (hform _ _ hr)) }

theorem Proper.members_pos (h : s.Proper a) : 1 ≤ (s.members a).length := by
  refine members_cases (P := fun ms => 1 ≤ ms.length) (fun ms hk => ?_) fun _ => Nat.le_refl _
  have hconforms := h.conforms
  rw [hk] at hconforms
  exact Nat.le_of_succ_le hconforms

/-- What is put together of the members of two values is a part of the result. -/
theorem part_of_joinMembers (hgrows : s.Grows u) (ha : s.Proper a) (hb : s.Proper b)
    (hm : m ∈ s.joinMembers a b) : s.Part u a b m := by
  rcases mem_of_mem_addNew hm with hm | hm
  · exact ⟨hgrows.proper (ha.member hm),
      fun htidy _ => hgrows.tidy (ha.member hm) (htidy.member hm)⟩
  · exact ⟨hgrows.proper (hb.member hm),
      fun _ htidy => hgrows.tidy (hb.member hm) (htidy.member hm)⟩

/-- None of the members of two values is a union. -/
theorem joinMembers_flat (hgrows : s.Grows u) (ha : s.Proper a) (hb : s.Proper b) :
    ∀ m ∈ s.joinMembers a b, (u.kind m).isUnion = false := by
  intro m hm
  rcases mem_of_mem_addNew hm with hm | hm
  · rw [hgrows.kind_eq (ha.member hm).present]
    exact ha.members_flat m hm
  · rw [hgrows.kind_eq (hb.member hm).present]
    exact hb.members_flat m hm

/-- The members of ground values that are put together differ. -/
theorem joinMembers_differ (hgrows : s.Grows u) (ha : s.Proper a) (hb : s.Proper b)
    (hga : s.Ground a) : (s.joinMembers a b).Pairwise fun m n => u.equal m n = false := by
  have hpair : (s.joinMembers a b).Pairwise fun m n => s.equal m n = false :=
    pairwise_addNew (fun m n hmn => Bool.eq_false_iff.mpr fun heq => hmn (covers_of_equals heq))
      hga.members_differ
  have hfounded : ∀ m ∈ s.joinMembers a b, s.Founded m := fun m hm =>
    (mem_of_mem_addNew hm).elim (fun h => (ha.member h).founded) fun h => (hb.member h).founded
  refine List.Pairwise.imp_of_mem (fun {m n} hm hn hmn => Bool.eq_false_iff.mpr fun heq => ?_) hpair
  exact Bool.eq_false_iff.mp hmn ((hgrows.equals_iff (hfounded m hm) (hfounded n hn)).mp heq)

end Store

namespace Infer

variable {s t u : Store} {a b : NodeId} {v w : Slot} {limit : Nat} {forced : Bool}
  {rec : MergeScope → Bool → NodeId → NodeId → Infer NodeId}

/-! ### The merge of values -/

/-- A form of one slot is merged by merging the slot. -/
theorem mergeSlotted_ends {F : Slot → Kind} {Q : Candidate → Prop} {c : Slot → Prop}
    [DecidablePred c] {scope : MergeScope} (hF : Store.Slotted F Q)
    (hlimit : scope.config.maxPossibilities = limit) (hne : ¬ s.Equals a b)
    (hgrows : s.Grows t) (ht : t.Sound) (ha : s.Proper a) (hb : s.Proper b)
    (hv : (s.kind a).slot? = some v) (hw : (s.kind b).slot? = some w)
    (hQ : ∀ c, c ∈ candidatesOf v ∨ c ∈ candidatesOf w → Q c)
    (hsame : ∀ x, c x → s.kind a = F x)
    (hform : ∀ token x J k, s.joinSlots limit token v w = some x → k.Reordered (F x) →
      s.JoinForm limit J (s.kind a) (s.kind b) k) :
    Ends (mergeSlots scope forced v w >>= fun x => if c x then pure a else make (F x)) t
      fun u r => s.Merged limit u a b r := by
  have hvs := ha.settled hv
  have hws := hb.settled hw
  refine (mergeSlots_ends scope ht (hgrows.holdsSlot (Store.holdsSlot_of_kind hv))
    (hgrows.holdsSlot (Store.holdsSlot_of_kind hw)) (hgrows.settled hvs) (hgrows.settled hws)
    (ha.slot_pendings hv) (hb.slot_pendings hw)).bind fun u x hu hsu hx => ?_
  obtain ⟨hadmitted, token, hjoin⟩ := hx
  rw [hlimit, hgrows.joinSlots_eq hvs hws] at hjoin
  have hgrows' := hgrows.trans hu
  have hform' := Store.assembled_slot hF hne hgrows' ha hb hv hw hjoin hadmitted hQ
    fun J k hk => hform token x J k hjoin hk
  by_cases hc : c x
  · rw [if_pos hc]
    exact ends_pure hsu (hform'.unchanged hgrows' ha (hsame x hc ▸ .same _))
  · rw [if_neg hc]
    exact ends_make hsu hform'

/-- A form of one node is merged by merging that node. -/
theorem mergeSingle_ends {F : NodeId → Kind} {m : NodeId → NodeId → Infer NodeId} {x y : NodeId}
    (hF : Store.Wraps F) (hne : ¬ s.Equals a b) (hgrows : s.Grows t) (ht : t.Sound)
    (ha : s.Proper a) (hka : s.kind a = F x) (hy : y ∈ (s.kind b).children)
    (hm : MergeEnds s m (s.Merged limit) x y)
    (hform : ∀ J z, J x y z → s.JoinForm limit J (s.kind a) (s.kind b) (F z)) :
    Ends (m x y >>= fun z => if z = x then pure a else make (F z)) t
      fun u r => s.Merged limit u a b r := by
  refine (hm t hgrows ht).settles hgrows ha (hka ▸ .same _) fun u z _ _ hz => ?_
  refine Store.assembled_single hF hne ?_ hy hz hform
  rw [hka, hF.children]
  exact List.mem_singleton_self x

/-- A union on either side is merged member by member, by trials. -/
theorem mergeUnion_ends {trial : NodeId → NodeId → Infer NodeId} {uncovered : Infer Unit}
    (ha : s.Proper a) (hb : s.Proper b) (hne : ¬ s.Equals a b)
    (hlive : s.kind a ≠ .error .dead ∧ s.kind b ≠ .error .dead)
    (hunion : (s.kind a).isUnion = true ∨ (s.kind b).isUnion = true) (hgrows : s.Grows t)
    (ht : t.Sound) (huncovered : Ends uncovered t fun u _ => u = t)
    (htrial : ∀ x ∈ s.members a ++ s.members b, ∀ y ∈ s.members b,
      Yields true (trial x y) t (s.Covers x y) x) :
    Ends (mergeMembers trial uncovered (s.members a) (s.members b) >>= fun merged =>
      if merged.length = (s.members a).length then return a else union merged) t
      fun u r => s.Merged limit u a b r := by
  refine (mergeMembers_ends ht huncovered htrial).bind fun t' merged _ _ hmerged => ?_
  obtain ⟨rfl, hmerged⟩ := hmerged
  have hjoin : merged = s.joinMembers a b := hmerged
  rw [hjoin]
  by_cases hlen : (s.joinMembers a b).length = (s.members a).length
  · rw [if_pos hlen]
    refine ends_pure ht (Store.merged_of_operand hgrows ha (fun htidy _ => htidy)
      fun _ _ u _ => ?_)
    refine .step (s.Joined u limit) (fun _ _ _ => id) hne ?_
    rw [Store.JoinStep, if_neg hlive.1, if_neg hlive.2, if_pos hunion, if_pos hlen]
  rw [if_neg hlen]
  have hpart : ∀ m ∈ s.joinMembers a b, s.Part t' a b m := fun m hm =>
    Store.part_of_joinMembers hgrows ha hb hm
  have hflat := Store.joinMembers_flat hgrows ha hb
  have hseveral : 2 ≤ (s.joinMembers a b).length := by
    have hprefix : (s.members a).length ≤ (s.joinMembers a b).length := prefix_addNew.length_le
    have hpos := ha.members_pos
    omega
  -- of ground values nothing is left out
  have hkept : s.Ground a → t'.distinctMembers (s.joinMembers a b) = s.joinMembers a b := fun hga =>
    Store.distinctMembers_eq hflat (Store.joinMembers_differ hgrows ha hb hga)
  have hthin := Store.thinned_distinctMembers hflat
  generalize hds : t'.distinctMembers (s.joinMembers a b) = ds at hkept hthin
  by_cases hone : 2 ≤ ds.length
  · refine Ends.of_outcome ?_ (outcome_union_several (hds ▸ hone))
    rw [hds]
    have hperm := t'.sortMembers_perm ds
    have hmem : ∀ m ∈ t'.sortMembers ds, m ∈ s.joinMembers a b := fun m hm =>
      hthin.sublist.subset (hperm.mem_iff.mp hm)
    refine ends_make ht
      ⟨by simp [Kind.slot?], rfl, ?_, fun m hm => hpart m (hmem m hm), ?_,
        fun hga _ u r _ hr => ?_⟩
    · refine Store.fault?_eq_none_iff.mpr ⟨Store.knows_iff.mpr ⟨fun m hm => ?_, ?_⟩, ?_, ?_⟩
      · exact (hpart m (hmem m hm)).proper.present
      · exact fun p hp => absurd hp List.not_mem_nil
      · exact hone.trans_eq hperm.length_eq.symm
      · exact fun ms hms m hm => hflat m (hmem m (Kind.union.inj hms ▸ hm))
    · intro ms hms
      obtain rfl := Kind.union.inj hms
      refine Store.Unlike.of_perm (hthin.distinct.imp fun hmn heq => ?_) hperm
      exact Bool.eq_false_iff.mp hmn heq.1
    · refine .step (s.Joined u limit) (fun _ _ _ => id) hne ?_
      rw [Store.JoinStep, if_neg hlive.1, if_neg hlive.2, if_pos hunion, if_neg hlen]
      exact hr.trans (.union (hkept hga ▸ hperm))
  · -- all members but one equal it
    obtain ⟨m, hm⟩ : ∃ m, ds = [m] := by
      refine List.length_eq_one_iff.mp ?_
      have hpos := List.length_pos_iff.mpr (hthin.ne_nil (List.ne_nil_of_length_pos (by omega)))
      omega
    refine .gives (outcome_union_single (hds.trans hm)) (.refl t') ht ?_
    have hpartm := hpart m (hthin.sublist.subset (hm ▸ List.mem_singleton_self m))
    refine ⟨hpartm, fun hga _ => absurd hone (not_not.mpr ?_)⟩
    rw [hkept hga]
    exact hseveral

/-- **One level of a merge** ends if the merges below do. -/
theorem mergeStep_ends {scope : MergeScope} (hlimit : scope.config.maxPossibilities = limit)
    (ha : s.Proper a) (hb : s.Proper b) (hne : ¬ s.Equals a b) (hgrows : s.Grows t)
    (ht : t.Sound)
    (hrec : ∀ x ∈ (s.kind a).children, ∀ y ∈ (s.kind b).children,
      MergeEnds s (rec scope forced) (s.Merged limit) x y)
    (htrial : (s.kind a).isUnion = true ∨ (s.kind b).isUnion = true →
      ∀ x ∈ s.members a ++ s.members b, ∀ y ∈ s.members b,
        Yields true (rec { scope with loop := none } true x y) t (s.Covers x y) x) :
    Ends (mergeStep rec scope forced a b) t fun u r => s.Merged limit u a b r := by
  have hlasts : Lasts (s.Merged limit) := fun _ _ _ _ _ hu h => h.lasts hu
  have hconforms := ha.conforms
  have hconforms' := hb.conforms
  have hunion : s.kind a ≠ .error .dead → s.kind b ≠ .error .dead →
      (s.kind a).isUnion = true ∨ (s.kind b).isUnion = true →
      Ends (mergeMembers (rec { scope with loop := none } true)
        (if forced = true then mismatch a b .uncovered else return ()) (s.members a) (s.members b)
          >>= fun merged =>
            if merged.length = (s.members a).length then return a else union merged) t
        fun u r => s.Merged limit u a b r := fun hla hlb hu =>
    mergeUnion_ends ha hb hne ⟨hla, hlb⟩ hu hgrows ht (Ends.guard fun _ => ends_pure ht rfl)
      (htrial hu)
  refine .of_store ?_
  -- the operands read as they did before the store has grown
  rw [hgrows.kind_eq ha.present, hgrows.kind_eq hb.present, hgrows.members_eq ha.present,
    hgrows.members_eq hb.present]
  split
  case h_1 hka =>
    refine Ends.guard fun _ => ends_pure ht ?_
    refine Store.merged_of_operand hgrows hb (fun _ htidy => htidy) fun _ _ u _ => ?_
    exact .step (s.Joined u limit) (fun _ _ _ => id) hne (by rw [Store.JoinStep, if_pos hka])
  case h_2 hkb hla =>
    refine ends_pure ht (Store.merged_of_operand hgrows ha (fun htidy _ => htidy) fun _ _ u _ => ?_)
    exact .step (s.Joined u limit) (fun _ _ _ => id) hne
      (by rw [Store.JoinStep, if_neg hla, if_pos hkb])
  case h_3 v ty w ty' hka hkb =>
    rw [hka] at hconforms
    rw [hkb] at hconforms'
    refine (mergeTypes_ends ht).bind fun u joined hu hsu hjoined => ?_
    subst hjoined
    refine mergeSlotted_ends (.scalar (ty.join ty')) hlimit hne (hgrows.trans hu) hsu ha hb
      (by rw [hka]; rfl) (by rw [hkb]; rfl)
      (fun c hc => .join (hc.imp (hconforms c) (hconforms' c))) (fun x hsame => ?_)
      fun token x J k hx hk => ?_
    · rw [hka, hsame.1, hsame.2]
    · rw [hka, hkb]
      exact ⟨token, x, hx, hk⟩
  case h_4 xs ys hka hkb =>
    rw [hka, hkb] at hrec
    refine Ends.guard fun hlen => ?_
    exact (mergeEach_ends hlasts (not_not.mp hlen) hrec hgrows ht).settles (F := Kind.tuple)
      hgrows ha (hka ▸ .same _) fun u zs _ _ h => Store.assembled_tuple hne h hka hkb
  case h_5 x y hka hkb =>
    rw [hka, hkb] at hrec
    refine mergeSingle_ends .list hne hgrows ht ha hka (hkb ▸ List.mem_singleton_self y)
      (hrec x List.mem_cons_self y List.mem_cons_self) fun J z hj => ?_
    rw [hka, hkb]
    exact ⟨z, hj, rfl⟩
  case h_6 x shape y shape' hka hkb =>
    rw [hka, hkb] at hrec
    refine Ends.guard fun hshape => ?_
    refine mergeSingle_ends (.array shape) hne hgrows ht ha hka (hkb ▸ List.mem_singleton_self y)
      (hrec x List.mem_cons_self y List.mem_cons_self) fun J z hj => ?_
    rw [hka, hkb]
    exact ⟨not_not.mp hshape, z, hj, rfl⟩
  case h_7 tag fs tag' gs hka hkb =>
    rw [hka, hkb] at hrec
    refine Ends.guard fun htag => Ends.guard fun _ => ?_
    obtain rfl := not_not.mp htag
    exact (mergeFields_ends hlasts hrec hgrows ht).settles (F := Kind.record tag) hgrows ha
      (hka ▸ .same _) fun u zs _ _ h => Store.assembled_record hne ha h hka hkb
  case h_8 ms hka hlb =>
    exact hunion (by simp [hka]) (fun h => hlb h) (.inl (by rw [hka]; rfl))
  case h_9 ns hkb hla _ =>
    exact hunion (fun h => hla h) (by simp [hkb]) (.inr (by rw [hkb]; rfl))
  case h_10 xs ys hka hkb =>
    rw [hka, hkb] at hrec
    rw [hka] at hconforms
    rw [hkb] at hconforms'
    -- the options are sorted by their tags before the node is made
    have hsort := stableSort_perm fun o o' : UInt32 × NodeId => decide (o.1 ≤ o'.1)
    exact (mergeOptions_ends (fun _ t' ht' => Ends.guard fun _ => ends_pure ht' trivial) hlasts
      hconforms.2 hconforms'.2 (fun l x y hx hy =>
        hrec x (mem_snd_of_lookup hx) y (mem_snd_of_lookup hy)) hgrows ht).settles
      (F := fun zs => Kind.tagged (stableSort (fun o o' => o.1 ≤ o'.1) zs)) hgrows ha
      (hka ▸ .tagged (hsort xs).symm) fun u zs hu _ h =>
        Store.assembled_tagged hne (hgrows.trans hu) ha hb h (hsort zs) hka hkb
  case h_11 v w hka hkb =>
    rw [hka] at hconforms
    rw [hkb] at hconforms'
    refine mergeSlotted_ends .function hlimit hne hgrows ht ha hb (by rw [hka]; rfl)
      (by rw [hkb]; rfl) (fun c hc => hc.elim (hconforms c) (hconforms' c)) (fun x hsame => ?_)
      fun token x J k hx hk => ?_
    · rw [hka, hsame]
    · rw [hka, hkb]
      exact ⟨token, x, hx, hk⟩
  case h_12 x y hka hkb =>
    rw [hka, hkb] at hrec
    refine mergeSingle_ends .jtagged hne hgrows ht ha hka (hkb ▸ List.mem_singleton_self y)
      (hrec x List.mem_cons_self y List.mem_cons_self) fun J z hj => ?_
    rw [hka, hkb]
    exact ⟨z, hj, rfl⟩
  all_goals exact ends_throw

/-- **A merge to a depth that is enough** ends. -/
theorem mergeWithin_ends {scope : MergeScope} (hlimit : scope.config.maxPossibilities = limit) :
    ∀ {fuel k : Nat} {a b : NodeId}, 2 * k ≤ fuel → s.Proper a →
      s.Proper b → s.EndsWithin k a → s.EndsWithin k b →
        MergeEnds s (mergeWithin fuel scope forced) (s.Merged limit) a b := by
  intro fuel
  induction fuel with
  | zero =>
    intro k a b hfuel _ _ ha
    obtain ⟨i, rfl, -⟩ := ha.below
    omega
  | succ fuel ih =>
    intro k a b hfuel hpa hpb ha hb t hgrows ht
    obtain ⟨i, rfl, hxs⟩ := ha.below
    obtain ⟨i', hi, hys⟩ := hb.below
    obtain rfl : i = i' := by omega
    refine .of_store ?_
    have hequal := same_or_equal_iff hgrows hpa.founded hpb.founded
    by_cases heq : a = b ∨ t.equal a b = true
    · rw [if_pos heq]
      exact ends_pure ht (Store.merged_of_operand hgrows hpa (fun htidy _ => htidy)
        fun _ _ _ _ => .same (hequal.mp heq))
    rw [if_neg heq]
    refine mergeStep_ends hlimit hpa hpb (hequal.not.mp heq) hgrows ht (fun x hx y hy => ?_)
      fun hu x hx y hy => ?_
    · exact ih (by omega) (hpa.child hx) (hpb.child hy) (hxs x hx) (hys y hy)
    · exact mergeWithin_trial_later ht { scope with loop := none } hgrows hpa.closed hpb.closed
        ha hb hfuel hu hx hy

/-- **A merge of proper values** ends, on whatever store has grown out of theirs. -/
theorem merge_ends (scope : MergeScope) (forced : Bool) (ha : s.Proper a) (hb : s.Proper b) :
    MergeEnds s (merge scope forced) (s.Merged scope.config.maxPossibilities) a b := by
  intro t hgrows ht
  refine .of_store (mergeWithin_ends rfl ?_ ha hb ha.founded hb.founded t hgrows ht)
  have hsize := @Store.size_lt_compareDepth t
  have hle := hgrows.size_le
  omega

/-- **Merges of proper values are closed, and fail in one way.**  In either mode, with whatever
loop and limits, the merge of two proper values gives a proper value, or it fails with a type
mismatch; and if no union in the operands lists members that equal each other, none in the result
does. -/
theorem merge_proper_or_mismatch (hs : s.Reachable) (ha : s.Proper a) (hb : s.Proper b)
    (scope : MergeScope) (forced : Bool) :
    (∃ r t, (merge scope forced a b).outcome s = (.ok r, t) ∧ t.Proper r ∧
      (s.Tidy a → s.Tidy b → t.Tidy r)) ∨
    ∃ l r reason t, (merge scope forced a b).outcome s = (.error (.typeMismatch l r reason), t) := by
  cases merge_ends scope forced ha hb s (.refl s) hs.sound with
  | @gives r t run _ _ result => exact .inl ⟨r, t, run, result.proper, result.tidy⟩
  | @mismatches l r reason t run => exact .inr ⟨l, r, reason, t, run⟩

/-- Tagged unions of an integer, nil and a list: one has a union under its first tag, the other one
has a tag of its own. -/
def choices : Store :=
  .ofForms [.scalar (.constant (.int 1)) .i64, .scalar (.constant .nil) .nil, .list 0,
    .union [0, 2], .tagged [(0, 3), (1, 1)], .tagged [(0, 1), (2, 2)]]

theorem merge_proper_or_mismatch_choices :
    (∃ t, (merge {} false 4 5).outcome choices = (.ok 7, t) ∧ t.Proper 7 ∧ t.Tidy 7) ∧
      ∃ l r reason t, (merge {} true 4 5).outcome choices = (.error (.typeMismatch l r reason), t) := by
  have hs : choices.Reachable := Store.reachable_ofForms (by simp [Kind.slot?])
  have hproper : ∀ n ∈ [4, 5], choices.Proper n := by
    intro n hn
    refine .of_everywhere 4 ?_
    revert n
    decide +kernel
  have htidy : ∀ n ∈ [4, 5], choices.Tidy n := by
    intro n hn
    refine (Store.Regular.of_everywhere 4 ?_).toGround.tidy
    revert n
    decide +kernel
  have ha := hproper 4 (by simp)
  have hb := hproper 5 (by simp)
  constructor
  · have hrun : (merge {} false 4 5).outcome choices =
        (.ok 7, ((merge {} false 4 5).outcome choices).2) := outcome_of_toOption (by decide +kernel)
    rcases merge_proper_or_mismatch hs ha hb {} false with ⟨r, t, h, hr⟩ | ⟨l, r, reason, t, h⟩
    · obtain rfl : 7 = r := Except.ok.inj (congrArg Prod.fst (hrun.symm.trans h))
      exact ⟨t, h, hr.1, hr.2 (htidy 4 (by simp)) (htidy 5 (by simp))⟩
    · cases congrArg Prod.fst (hrun.symm.trans h)
  · rcases merge_proper_or_mismatch hs ha hb {} true with ⟨r, t, h, -⟩ | h
    · have hnone : ((merge {} true 4 5).outcome choices).1.toOption = none := by decide +kernel
      rw [h] at hnone
      cases hnone
    · exact h

end Infer

end ValueInference
