/-
Relaxed merges run as said.

* **`Store.composed_of_parts`**, **`Store.composed_slot`**, **`Store.composed_union`** — forms that
  are composed of joined parts;
* **`Infer.mergeStep_produces`** — one level of a relaxed merge, if the merges below run as said;
* **`Infer.merge_produces`** — a relaxed merge of regular values succeeds exactly where they go
  together, and leaves what they join to.
-/
import ValueInference.Proofs.Joined

namespace ValueInference

namespace Store

variable {s t u : Store} {a b r x y z : NodeId} {k : Kind} {limit token : Nat}

/-! ### Forms over joined values -/

/-- A value that can be part of a result: a closed one that is regular in every later store, if no
union in it lists a member twice. -/
structure Held (u : Store) (z : NodeId) : Prop where
  closed : u.Closed z
  regular : ∀ t, u.Grows t → t.Sound → t.Plain z → t.Regular z

theorem Landed.held (h : s.Landed limit u a b z) : u.Held z :=
  ⟨h.closed, fun t hu ht hplain => (h.later t hu ht hplain).1⟩

theorem Regular.held (h : s.Regular z) (hgrows : s.Grows u) : u.Held z :=
  ⟨hgrows.closed h.closed, fun _ hu _ _ => (hgrows.trans hu).regular h⟩

/-- A form without a slot, and no union, over values that can be part of a result. -/
theorem composed_of_parts (hne : ¬ s.Equals a b) (hlive : ∀ e, k ≠ .error e)
    (hslot : k.slot? = none) (hunion : ∀ ms, k ≠ .union ms) (hheld : ∀ c ∈ k.children, u.Held c)
    (hform : ∀ t k', u.Grows t → t.Sound → (∀ c ∈ k.children, t.Plain c) → k'.Reordered k →
      s.JoinForm limit (s.Joined t limit) (s.kind a) (s.kind b) k') :
    s.Composed limit u a b k where
  live := hlive
  admitted _ hv := nomatch hslot.symm.trans hv
  slot _ hv := nomatch hslot.symm.trans hv
  below c hc := (hheld c hc).closed
  regular t hu ht c hc := (hheld c hc).regular t hu ht
  members ms hk := absurd hk (hunion ms)
  joined t _ hu ht hplain hr :=
    .step _ (fun _ _ _ => id) hne (joinStep_of_form (hform t _ hu ht hplain hr))

theorem composed_single {F : NodeId → Kind} (hF : Wraps F) (hne : ¬ s.Equals a b)
    (hz : s.Landed limit u x y z)
    (hform : ∀ J z, J x y z → s.JoinForm limit J (s.kind a) (s.kind b) (F z)) :
    s.Composed limit u a b (F z) := by
  have hunion : ∀ ms, F z ≠ .union ms := by
    cases hF <;> exact nofun
  refine composed_of_parts hne (hF.live z) (hF.slot z) hunion (fun c hc => ?_)
    fun t k' hu ht hplain hk' => ?_
  · rw [hF.children] at hc
    exact List.mem_singleton.mp hc ▸ hz.held
  · rw [hF.reordered hk']
    rw [hF.children] at hplain
    exact hform _ z (hz.later t hu ht (hplain z (List.mem_singleton_self z))).2

theorem composed_tuple {xs ys zs : List NodeId} (hne : ¬ s.Equals a b)
    (h : JoinsEach (s.Landed limit u) xs ys zs) (hka : s.kind a = .tuple xs)
    (hkb : s.kind b = .tuple ys) : s.Composed limit u a b (.tuple zs) := by
  refine composed_of_parts hne nofun rfl nofun (fun c hc => ?_) fun t k' hu ht hplain hk' => ?_
  · obtain ⟨x, -, y, -, hxy⟩ := h.exists_mem c hc
    exact hxy.held
  · rw [hka, hkb, hk'.tuple_inv]
    exact ⟨zs, h.imp fun x _ y _ z hz hxy => (hxy.later t hu ht (hplain z hz)).2, rfl⟩

theorem composed_record {tag : String} {fs gs zs : List (String × NodeId)} (hne : ¬ s.Equals a b)
    (h : JoinsFields (s.Landed limit u) gs fs zs) (hka : s.kind a = .record tag fs)
    (hkb : s.kind b = .record tag gs) : s.Composed limit u a b (.record tag zs) := by
  refine composed_of_parts hne nofun rfl nofun (fun c hc => ?_) fun t k' hu ht hplain hk' => ?_
  · obtain ⟨f, hf, rfl⟩ := List.mem_map.mp hc
    obtain ⟨f', -, -, y, -, hxy⟩ := exists_of_forall₂ (List.Forall₂.flip h) f hf
    exact hxy.held
  · rw [hka, hkb]
    refine ⟨rfl, zs, forall₂_imp_mem h fun f _ z hz hfz => ?_, hk'⟩
    obtain ⟨hname, y, hy, hxy⟩ := hfz
    exact ⟨hname, y, hy, (hxy.later t hu ht (hplain z.2 (List.mem_map_of_mem hz))).2⟩

theorem composed_tagged {xs ys zs zs' : List (UInt32 × NodeId)} (hne : ¬ s.Equals a b)
    (hgrows : s.Grows u) (ha : s.Regular a) (hb : s.Regular b)
    (h : JoinsOptions (s.Landed limit u) xs ys zs) (hsort : zs'.Perm zs)
    (hka : s.kind a = .tagged xs) (hkb : s.kind b = .tagged ys) :
    s.Composed limit u a b (.tagged zs') := by
  have hmem : ∀ {c}, c ∈ zs'.map Prod.snd ↔ c ∈ zs.map Prod.snd := (hsort.map Prod.snd).mem_iff
  have hregular : ∀ {o z : NodeId} {l : List (UInt32 × NodeId)}, s.Regular o →
      (s.kind o).children = l.map Prod.snd → ∀ {tag : UInt32}, l.lookup tag = some z →
        s.Regular z := fun ho hl _ hz =>
    ho.child (hl ▸ mem_snd_of_lookup hz)
  refine composed_of_parts hne nofun rfl nofun (fun c hc => ?_) fun t k' hu ht hplain hk' => ?_
  · obtain ⟨o, ho, rfl⟩ := List.mem_map.mp (hmem.mp hc)
    have hjoined := h.joined o.1
    rw [(lookup_iff_mem h.labels).mpr ho] at hjoined
    cases hx : xs.lookup o.1 with
    | none =>
      rw [hx] at hjoined
      exact (hregular hb (hkb ▸ rfl) (Eq.symm hjoined)).held hgrows
    | some x =>
      cases hy : ys.lookup o.1 with
      | none =>
        rw [hx, hy] at hjoined
        exact (hregular ha (hka ▸ rfl) (hx.trans (Eq.symm hjoined))).held hgrows
      | some y =>
        rw [hx, hy] at hjoined
        obtain ⟨n, hn, hxy⟩ := hjoined
        exact Option.some.inj hn ▸ hxy.held
  · rw [hka, hkb]
    refine ⟨zs, ⟨h.labels, fun l => (h.joined l).imp fun x y z _ _ hz hxy => ?_⟩,
      hk'.trans (.tagged hsort)⟩
    exact (hxy.later t hu ht (hplain z (hmem.mpr (mem_snd_of_lookup hz)))).2

/-- The forms that hold one slot, with what they ask of its candidates. -/
inductive Slotted : (Slot → Kind) → (Candidate → Prop) → Prop where
  | scalar (ty : Ty) : Slotted (Kind.scalar · ty) (Candidate.Fits ty)
  | function : Slotted Kind.function fun c => c.function?.isSome = true

namespace Slotted

variable {F : Slot → Kind} {Q : Candidate → Prop} {v w x : Slot}

theorem slot (hF : Slotted F Q) (v : Slot) : (F v).slot? = some v := by
  cases hF <;> rfl

theorem fault?_eq_none (hF : Slotted F Q) (hknows : s.knows (F v) = true) :
    s.fault? (F v) = none ↔ ∀ c ∈ Infer.candidatesOf v, Q c := by
  cases hF with
  | scalar ty => exact fault?_scalar hknows
  | function => exact fault?_function hknows

theorem candidates (hF : Slotted F Q) (hs : s.Reachable) (hk : s.kind a = F v) :
    ∀ c ∈ Infer.candidatesOf v, Q c := by
  cases hF with
  | scalar ty => exact hs.fits a v ty hk
  | function => exact hs.refers hk

end Slotted

/-- What a form of one slot is composed of is in the slot itself. -/
theorem composed_slot {F : Slot → Kind} {Q : Candidate → Prop} {v w x : Slot} (hF : Slotted F Q)
    (hs : s.Sound) (hne : ¬ s.Equals a b) (hgrows : s.Grows u) (hv : s.RegularSlot v)
    (hw : s.RegularSlot w) (hjoin : s.joinSlots limit token v w = some x)
    (hadmitted : u.AdmitsSlot x)
    (hform : ∀ J k, k.Reordered (F x) → s.JoinForm limit J (s.kind a) (s.kind b) k) :
    s.Composed limit u a b (F x) := by
  have hregular := regularSlot_of_joinSlots hs hv hw hjoin
  have hslot : ∀ y, (F x).slot? = some y → y = x := fun y hy =>
    Option.some.inj (hy.symm.trans (hF.slot x))
  have hchild : ∀ c ∈ (F x).children, s.Regular c := fun c hc =>
    hregular.child (Kind.children_of_slot (hF.slot x) ▸ hc)
  exact
    { live := fun e => by cases hF <;> exact nofun
      admitted := fun y hy => hslot y hy ▸ hadmitted
      slot := fun y hy => hslot y hy ▸ hgrows.regularSlot hregular
      below := fun c hc => hgrows.closed (hchild c hc).closed
      regular := fun t hu _ c hc _ => (hgrows.trans hu).regular (hchild c hc)
      members := fun ms => by cases hF <;> exact nofun
      joined := fun t r _ _ _ hr =>
        .step (s.Joined t limit) (fun _ _ _ => id) hne (joinStep_of_form (hform _ _ hr)) }

/-- The members of the union of two regular values are members of these. -/
theorem regular_of_joinMembers (ha : s.Regular a) (hb : s.Regular b) {n : NodeId}
    (hn : n ∈ s.joinMembers a b) : s.Regular n :=
  (mem_of_mem_addNew hn).elim ha.member hb.member

/-- What is added to the members makes a union of its own. -/
theorem normalised_joinMembers (hs : s.Sound) (ha : s.Regular a) (hb : s.Regular b)
    (hlen : (s.joinMembers a b).length ≠ (s.members a).length) :
    s.Normalised (s.joinMembers a b) := by
  have hmem : ∀ {n}, n ∈ s.joinMembers a b → s.Regular n := regular_of_joinMembers ha hb
  have hpair : (s.joinMembers a b).Pairwise fun m n => s.equal m n = false :=
    pairwise_addNew (fun m n hmn => Bool.eq_false_iff.mpr fun heq => hmn (covers_of_equals heq))
      ha.members_differ
  refine ⟨?_, fun m hm => ?_, ?_⟩
  · have hprefix : (s.members a).length ≤ (s.joinMembers a b).length := prefix_addNew.length_le
    have hpos := ha.members_pos
    omega
  · exact (mem_of_mem_addNew hm).elim (ha.members_flat m) (hb.members_flat m)
  · refine List.Pairwise.imp_of_mem (fun {m n} hm hn hmn => ⟨hmn, ?_⟩) hpair
    exact Bool.eq_false_iff.mpr fun hnm => Bool.eq_false_iff.mp hmn
      (((hmem hn).equivalent hs).symm m (hmem hm).founded hnm)

theorem composed_union {ms : List NodeId} (hs : s.Sound) (hne : ¬ s.Equals a b)
    (hgrows : s.Grows u) (ha : s.Regular a) (hb : s.Regular b)
    (hlive : s.kind a ≠ .error .dead ∧ s.kind b ≠ .error .dead)
    (hunion : (s.kind a).isUnion = true ∨ (s.kind b).isUnion = true)
    (hlen : (s.joinMembers a b).length ≠ (s.members a).length)
    (hperm : ms.Perm (s.joinMembers a b)) : s.Composed limit u a b (.union ms) := by
  have hregular : ∀ m ∈ ms, s.Regular m := fun m hm =>
    regular_of_joinMembers ha hb (hperm.mem_iff.mp hm)
  have hnormalised := hgrows.normalised (fun m hm => (hregular m hm).founded)
    ((normalised_joinMembers hs ha hb hlen).of_perm hperm)
  exact
    { live := nofun
      admitted := nofun
      slot := nofun
      below := fun c hc => hgrows.closed (hregular c hc).closed
      regular := fun t hu _ c hc _ => (hgrows.trans hu).regular (hregular c hc)
      members := fun ns hk => Kind.union.inj hk ▸ hnormalised
      joined := fun t r _ _ _ hr => by
        refine .step (s.Joined t limit) (fun _ _ _ => id) hne ?_
        rw [JoinStep, if_neg hlive.1, if_neg hlive.2, if_pos hunion, if_neg hlen]
        exact hr.trans (.union hperm) }

end Store

/-! ### The merge of values -/

namespace Infer

variable {α : Type} {s t : Store} {a b : NodeId} {v w : Slot} {limit : Nat}
  {rec : MergeScope → Bool → NodeId → NodeId → Infer NodeId}

theorem mergeTypes_produces {ty ty' : Ty} (ht : t.Sound) :
    Produces (mergeTypes false ty ty') t True fun _ joined => joined = ty.join ty' := by
  rw [mergeTypes, Ty.join]
  split
  · exact produces_pure ht rfl
  · exact .gives rfl (t.grows_record _) (ht.record _) trivial rfl

/-- A form of one slot is merged by merging the slot. -/
theorem mergeSlotted_produces {F : Slot → Kind} {Q : Candidate → Prop} {c : Slot → Prop}
    [DecidablePred c] {scope : MergeScope} (hF : Store.Slotted F Q)
    (hlimit : scope.config.maxPossibilities = limit) (hs : s.Reachable) (hne : ¬ s.Equals a b)
    (hgrows : s.Grows t) (ht : t.Sound) (ha : s.Regular a) (hb : s.Regular b)
    (hv : (s.kind a).slot? = some v) (hw : (s.kind b).slot? = some w)
    (hsame : ∀ x, c x → s.kind a = F x)
    (hform : ∀ token x J k, s.joinSlots limit token v w = some x → k.Reordered (F x) →
      s.JoinForm limit J (s.kind a) (s.kind b) k) :
    Produces (mergeSlots scope false v w >>= fun x => if c x then pure a else make (F x)) t
      (s.SlotsJoin limit Q v w) fun u r => s.Landed limit u a b r := by
  have hrv := ha.slot hv
  have hrw := hb.slot hw
  have heq : t.joinSlots limit t.tokens v w = s.joinSlots limit t.tokens v w :=
    hgrows.joinSlots_eq hrv.settled hrw.settled
  have hmerge := mergeSlots_joins scope (hgrows.settled hrv.settled) (hgrows.settled hrw.settled)
  rw [hlimit, heq] at hmerge
  rcases hmerge with ⟨x, u, hjoin, hrun⟩ | ⟨hnone, e, hrun⟩
  · have hwide := mergeSlots_widened ht (hgrows.holdsSlot (Store.holdsSlot_of_kind hv))
      (hgrows.holdsSlot (Store.holdsSlot_of_kind hw)) (hgrows.settled hrv.settled)
      (hgrows.settled hrw.settled) hrun
    have hgrows' := hgrows.trans hwide.grows
    have hcomposed := Store.composed_slot hF hs.sound hne hgrows' hrv hrw hjoin hwide.admitted
      fun J k hk => hform _ x J k hjoin hk
    have hrest : Produces (if c x then pure a else make (F x)) u (∀ c ∈ candidatesOf x, Q c)
        fun u r => s.Landed limit u a b r := by
      by_cases hx : c x
      · rw [if_pos hx]
        have hleft := hcomposed.unchanged hgrows' ha (hsame x hx ▸ .same _)
        exact (produces_pure hwide.sound hleft).congr
          (iff_of_true trivial (hF.candidates hs (hsame x hx)))
      · rw [if_neg hx]
        exact (produces_make hwide.sound hcomposed).congr (hF.fault?_eq_none hcomposed.knows)
    exact Produces.of_ok hrun hwide.grows (hrest.congr (Store.slotsJoin_iff hjoin).symm)
  · exact .fails (outcome_bind_of_error hrun) (.refl t) ht (Store.not_slotsJoin hnone)

/-- A form of one node is merged by merging that node. -/
theorem mergeSingle_produces {F : NodeId → Kind} {m : NodeId → NodeId → Infer NodeId} {x y : NodeId}
    (hF : Store.Wraps F) (hne : ¬ s.Equals a b) (hgrows : s.Grows t) (ht : t.Sound)
    (ha : s.Regular a) (hka : s.kind a = F x)
    (hm : Merges s m (s.Joinable limit) (s.Landed limit) x y)
    (hform : ∀ J z, J x y z → s.JoinForm limit J (s.kind a) (s.kind b) (F z)) :
    Produces (m x y >>= fun z => if z = x then pure a else make (F z)) t (s.Joinable limit x y)
      fun u r => s.Landed limit u a b r := by
  have hcomposed : ∀ u z, s.Landed limit u x y z → s.Composed limit u a b (F z) := fun u z hz =>
    Store.composed_single hF hne hz hform
  refine (hm t hgrows ht).settles hgrows ha (hka ▸ .same _) (fun u z _ _ h => hcomposed u z h)
    fun u z _ _ h => ?_
  have hknows := (hcomposed u z h).knows
  cases hF <;> exact Store.fault?_eq_none hknows trivial trivial nofun nofun

/-- A union on either side is merged member by member, by trials. -/
theorem mergeUnion_produces {trial : NodeId → NodeId → Infer NodeId}
    {uncovered : Infer Unit} (hs : s.Sound) (ha : s.Regular a) (hb : s.Regular b)
    (hne : ¬ s.Equals a b) (hlive : s.kind a ≠ .error .dead ∧ s.kind b ≠ .error .dead)
    (hunion : (s.kind a).isUnion = true ∨ (s.kind b).isUnion = true) (hgrows : s.Grows t)
    (ht : t.Sound) (huncovered : uncovered.outcome t = (.ok (), t))
    (htrial : ∀ x ∈ s.members a ++ s.members b, ∀ y ∈ s.members b,
      Yields true (trial x y) t (s.Covers x y) x) :
    Produces (mergeMembers trial uncovered (s.members a) (s.members b) >>= fun merged =>
      if merged.length = (s.members a).length then return a else union merged) t True
      fun u r => s.Landed limit u a b r := by
  have hrun : (mergeMembers trial uncovered (s.members a) (s.members b)).outcome t =
      (.ok (s.joinMembers a b), t) := mergeMembers_addNew huncovered htrial
  refine Produces.of_ok hrun (.refl t) ?_
  by_cases hlen : (s.joinMembers a b).length = (s.members a).length
  · rw [if_pos hlen]
    refine produces_pure ht (Store.landed_of_regular hgrows ha fun u _ _ _ => ?_)
    refine .step (s.Joined u limit) (fun _ _ _ => id) hne ?_
    rw [Store.JoinStep, if_neg hlive.1, if_neg hlive.2, if_pos hunion, if_pos hlen]
  · rw [if_neg hlen]
    have hregular : ∀ m ∈ s.joinMembers a b, s.Regular m := fun m hm =>
      Store.regular_of_joinMembers ha hb hm
    have hnormalised := hgrows.normalised (fun m hm => (hregular m hm).founded)
      (Store.normalised_joinMembers hs ha hb hlen)
    have hperm := t.sortMembers_perm (s.joinMembers a b)
    have hsorted := hnormalised.of_perm hperm
    have hcomposed : s.Composed limit t a b _ :=
      Store.composed_union hs hne hgrows ha hb hlive hunion hlen hperm
    have hfault : t.fault? (.union (t.sortMembers (s.joinMembers a b))) = none :=
      Store.fault?_eq_none hcomposed.knows trivial hsorted.several (by simp)
        fun ms hk => Kind.union.inj hk ▸ hsorted.flat
    have hmake := (produces_make ht hcomposed).congr (iff_of_true hfault trivial)
    exact hmake.of_outcome (outcome_union hnormalised.flat (hnormalised.distinct.imp And.left)
      hnormalised.several)

/-- **One level of a relaxed merge** runs as said if the merges below do. -/
theorem mergeStep_produces {scope : MergeScope} (hlimit : scope.config.maxPossibilities = limit)
    (hs : s.Reachable) (ha : s.Regular a) (hb : s.Regular b) (hne : ¬ s.Equals a b)
    (hgrows : s.Grows t) (ht : t.Sound)
    (hrec : ∀ x ∈ (s.kind a).children, ∀ y ∈ (s.kind b).children,
      Merges s (rec scope false) (s.Joinable limit) (s.Landed limit) x y)
    (htrial : (s.kind a).isUnion = true ∨ (s.kind b).isUnion = true →
      ∀ x ∈ s.members a ++ s.members b, ∀ y ∈ s.members b,
        Yields true (rec { scope with loop := none } true x y) t (s.Covers x y) x) :
    Produces (mergeStep rec scope false a b) t (s.JoinableStep limit (s.Joinable limit) a b)
      fun u r => s.Landed limit u a b r := by
  have hsound := hs.sound
  have hlasts : Lasts (s.Landed limit) := fun _ _ _ _ _ hu h => h.lasts hu
  have hlabels := hsound.labelled a
  have hlabels' := hsound.labelled b
  have hunion : s.kind a ≠ .error .dead → s.kind b ≠ .error .dead →
      (s.kind a).isUnion = true ∨ (s.kind b).isUnion = true →
      Produces (mergeMembers (rec { scope with loop := none } true)
        (if false = true then mismatch a b .uncovered else return ()) (s.members a) (s.members b)
          >>= fun merged =>
            if merged.length = (s.members a).length then return a else union merged) t
        (s.JoinableStep limit (s.Joinable limit) a b) fun u r => s.Landed limit u a b r :=
    fun hla hlb hu =>
      (mergeUnion_produces hsound ha hb hne ⟨hla, hlb⟩ hu hgrows ht rfl (htrial hu)).congr
        (iff_of_true trivial (.inr (.inr (hu.imp id .inl))))
  refine .of_store ?_
  -- the operands read as they did before the store has grown
  rw [hgrows.kind_eq ha.closed.present, hgrows.kind_eq hb.closed.present,
    hgrows.members_eq ha.closed.present, hgrows.members_eq hb.closed.present]
  split
  case h_1 hka =>
    refine (produces_pure ht (Store.landed_of_regular hgrows hb fun u _ _ _ => ?_)).congr
      (iff_of_true trivial (.inl hka))
    exact .step (s.Joined u _) (fun _ _ _ => id) hne (by rw [Store.JoinStep, if_pos hka])
  case h_2 hkb hla =>
    refine (produces_pure ht (Store.landed_of_regular hgrows ha fun u _ _ _ => ?_)).congr
      (iff_of_true trivial (.inr (.inl hkb)))
    exact .step (s.Joined u _) (fun _ _ _ => id) hne
      (by rw [Store.JoinStep, if_neg hla, if_pos hkb])
  case h_3 v ty w ty' hka hkb =>
    refine Produces.congr ?_ (Store.joinableStep_iff hka hkb ⟨by simp, by simp, rfl, rfl⟩).symm
    -- a merge of types never fails, so it is the slots that decide
    refine Produces.congr (P := True ∧ s.SlotsJoin limit (Candidate.Fits (ty.join ty')) v w) ?_
      (and_iff_right trivial)
    refine (mergeTypes_produces ht).bind fun u joined hu hsu _ hjoined => ?_
    subst hjoined
    refine mergeSlotted_produces (.scalar (ty.join ty')) hlimit hs hne (hgrows.trans hu) hsu ha hb
      (by rw [hka]; rfl) (by rw [hkb]; rfl) (fun x hsame => ?_) fun token x J k hx hk => ?_
    · rw [hka, hsame.1, hsame.2]
    · rw [hka, hkb]
      exact ⟨token, x, hx, hk⟩
  case h_4 xs ys hka hkb =>
    refine Produces.congr ?_ (Store.joinableStep_iff hka hkb ⟨by simp, by simp, rfl, rfl⟩).symm
    rw [hka, hkb] at hrec
    refine (Produces.guard ht fun hlen => ?_).congr
      ⟨fun h => h.2, fun h => ⟨not_not.mpr h.length_eq, h⟩⟩
    refine (mergeEach_produces hlasts (not_not.mp hlen) hrec hgrows ht).settles (F := Kind.tuple)
      hgrows ha (hka ▸ .same _) (fun u zs _ _ h => Store.composed_tuple hne h hka hkb)
      fun u zs _ _ h => ?_
    have hknows := (Store.composed_tuple hne h hka hkb).knows
    exact Store.fault?_eq_none hknows trivial trivial (by simp) (by simp)
  case h_5 x y hka hkb =>
    refine Produces.congr ?_ (Store.joinableStep_iff hka hkb ⟨by simp, by simp, rfl, rfl⟩).symm
    rw [hka, hkb] at hrec
    refine mergeSingle_produces Store.Wraps.list hne hgrows ht ha hka
      (hrec x List.mem_cons_self y List.mem_cons_self) fun J z hj => ?_
    rw [hka, hkb]
    exact ⟨z, hj, rfl⟩
  case h_6 x shape y shape' hka hkb =>
    refine Produces.congr ?_ (Store.joinableStep_iff hka hkb ⟨by simp, by simp, rfl, rfl⟩).symm
    rw [hka, hkb] at hrec
    refine (Produces.guard ht fun hshape => ?_).congr (and_congr_left fun _ => not_not)
    refine mergeSingle_produces (.array shape) hne hgrows ht ha hka
      (hrec x List.mem_cons_self y List.mem_cons_self) fun J z hj => ?_
    rw [hka, hkb]
    exact ⟨not_not.mp hshape, z, hj, rfl⟩
  case h_7 tag fs tag' gs hka hkb =>
    refine Produces.congr ?_ (Store.joinableStep_iff hka hkb ⟨by simp, by simp, rfl, rfl⟩).symm
    rw [hka] at hlabels
    rw [hka, hkb] at hrec
    refine (Produces.guard ht fun htag => ?_).congr (and_congr_left fun _ => not_not)
    obtain rfl := not_not.mp htag
    refine (Produces.guard ht fun _ => ?_).congr (and_congr_left fun hcover => ?_)
    · have hcomposed : ∀ u zs, JoinsFields (s.Landed limit u) gs fs zs →
          s.Composed limit u a b (.record tag zs) := fun u zs h =>
        Store.composed_record hne h hka hkb
      refine (mergeFields_produces hlasts hrec hgrows ht).settles (F := Kind.record tag) hgrows ha
        (hka ▸ .same _) (fun u zs _ _ h => hcomposed u zs h) fun u zs _ _ h => ?_
      refine Store.fault?_eq_none (hcomposed u zs h).knows ?_ trivial (by simp) (by simp)
      show (zs.map Prod.fst).Nodup
      rw [h.names]
      exact hlabels
    · rw [not_or, not_not, not_not]
      refine and_iff_left (List.all_eq_true.mpr fun f hf => ?_)
      obtain ⟨y, hy, -⟩ := hcover f hf
      exact List.any_eq_true.mpr ⟨(f.1, y), mem_of_lookup hy, by simp⟩
  case h_8 ms hka hlb =>
    exact hunion (by simp [hka]) (fun h => hlb h) (.inl (by rw [hka]; rfl))
  case h_9 ns hkb hla _ =>
    exact hunion (fun h => hla h) (by simp [hkb]) (.inr (by rw [hkb]; rfl))
  case h_10 xs ys hka hkb =>
    refine Produces.congr ?_ (Store.joinableStep_iff hka hkb ⟨by simp, by simp, rfl, rfl⟩).symm
    rw [hka, hkb] at hrec
    rw [hka] at hlabels
    rw [hkb] at hlabels'
    -- the options are sorted by their tags before the node is made
    have hsort := stableSort_perm fun o o' : UInt32 × NodeId => decide (o.1 ≤ o'.1)
    have hcomposed : ∀ u zs, t.Grows u → JoinsOptions (s.Landed limit u) xs ys zs →
        s.Composed limit u a b (.tagged (stableSort (fun o o' => o.1 ≤ o'.1) zs)) :=
      fun u zs hu h => Store.composed_tagged hne (hgrows.trans hu) ha hb h (hsort zs) hka hkb
    refine (mergeOptions_produces (fun _ _ => rfl) hlasts hlabels hlabels' (fun l x y hx hy =>
      hrec x (mem_snd_of_lookup hx) y (mem_snd_of_lookup hy)) hgrows ht).settles
      (F := fun zs => Kind.tagged (stableSort (fun o o' => o.1 ≤ o'.1) zs)) hgrows ha
      (hka ▸ .tagged (hsort xs).symm) (fun u zs hu _ h => hcomposed u zs hu h) fun u zs hu _ h => ?_
    refine Store.fault?_eq_none (hcomposed u zs hu h).knows ?_ ?_ (by simp) (by simp)
    · exact ((hsort zs).map Prod.fst).nodup_iff.mpr h.labels
    · have hformed := hs.formed a
      rw [hka] at hformed
      exact fun hnil => h.ne_nil hlabels hformed (List.eq_nil_of_length_eq_zero
        ((hsort zs).length_eq.symm.trans (congrArg List.length hnil)))
  case h_11 v w hka hkb =>
    refine Produces.congr ?_ (Store.joinableStep_iff hka hkb ⟨by simp, by simp, rfl, rfl⟩).symm
    refine mergeSlotted_produces .function hlimit hs hne hgrows ht ha hb (by rw [hka]; rfl)
      (by rw [hkb]; rfl) (fun x hsame => ?_) fun token x J k hx hk => ?_
    · rw [hka, hsame]
    · rw [hka, hkb]
      exact ⟨token, x, hx, hk⟩
  case h_12 x y hka hkb =>
    refine Produces.congr ?_ (Store.joinableStep_iff hka hkb ⟨by simp, by simp, rfl, rfl⟩).symm
    rw [hka, hkb] at hrec
    refine mergeSingle_produces Store.Wraps.jtagged hne hgrows ht ha hka
      (hrec x List.mem_cons_self y List.mem_cons_self) fun J z hj => ?_
    rw [hka, hkb]
    exact ⟨z, hj, rfl⟩
  case h_13 hka hkb =>
    exact (produces_throw ht).congr
      (Store.joinableStep_iff hka hkb ⟨by simp, by simp, rfl, rfl⟩).symm
  case h_14 r r' hdead hdead' hka hkb =>
    refine (produces_throw ht).congr (Store.joinableStep_iff hka hkb ⟨?_, ?_, rfl, rfl⟩).symm
    · exact fun h => hdead (Kind.error.inj h)
    · exact fun h => hdead' (Kind.error.inj h)
  case h_15 hla hua hlb hub _ _ _ _ _ _ _ _ _ _ =>
    -- two forms of different kinds, neither a union
    have hflat : ∀ {n}, (∀ ms, s.kind n = .union ms → False) → (s.kind n).isUnion = false := by
      intro n hn
      cases hk : s.kind n with
      | union ms => exact absurd hk (hn ms)
      | _ => rfl
    refine (produces_throw ht).congr (iff_of_false id ?_)
    rw [Store.joinableStep_iff rfl rfl ⟨hla, hlb, hflat hua, hflat hub⟩]
    simp [Store.JoinableForm, *]

/-- What a merge asks first of all, on a store that has grown. -/
theorem same_or_equal_iff (hgrows : s.Grows t) (ha : s.Founded a) (hb : s.Founded b) :
    (a = b ∨ t.equal a b = true) ↔ s.Equals a b := by
  rw [← hgrows.equals_iff ha hb]
  refine or_iff_right_of_imp ?_
  rintro rfl
  exact t.equals_refl a

/-- Trials that run on a store that has grown decide what coverage was before. -/
theorem mergeWithin_trial_later {fuel i : Nat} {x y : NodeId} (ht : t.Sound) (scope : MergeScope)
    (hgrows : s.Grows t) (hca : s.Closed a) (hcb : s.Closed b) (ha : s.EndsWithin (i + 1) a)
    (hb : s.EndsWithin (i + 1) b) (hfuel : 2 * (i + 1) ≤ fuel + 1)
    (hu : (s.kind a).isUnion = true ∨ (s.kind b).isUnion = true)
    (hx : x ∈ s.members a ++ s.members b) (hy : y ∈ s.members b) :
    Yields true (mergeWithin fuel scope true x y) t (s.Covers x y) x := by
  have hkeep : ∀ {n}, s.EndsWithin (i + 1) n → t.EndsWithin (i + 1) n := fun hn =>
    hn.mono (Nat.le_refl _) fun _ hm =>
      ⟨Nat.lt_of_lt_of_le hm hgrows.size_le, hgrows.kind_eq hm⟩
  have hka := hgrows.kind_eq hca.present
  have hkb := hgrows.kind_eq hcb.present
  have hma := hgrows.members_eq hca.present
  have hmb := hgrows.members_eq hcb.present
  have hyields := mergeWithin_trial (x := x) (y := y) ht scope (hgrows.closed hca)
    (hgrows.closed hcb) (hkeep ha) (hkeep hb) hfuel (by rwa [hka, hkb]) (by rwa [hma, hmb])
    (by rwa [hmb])
  have hcx : s.Closed x := (List.mem_append.mp hx).elim hca.member hcb.member
  exact hyields.congr (hgrows.covers_iff hcx (hcb.member hy))

/-- **A relaxed merge to a depth that is enough** runs as said. -/
theorem mergeWithin_produces {scope : MergeScope} (hlimit : scope.config.maxPossibilities = limit)
    (hs : s.Reachable) : ∀ {fuel k : Nat} {a b : NodeId}, 2 * k ≤ fuel → s.Regular a →
      s.Regular b → s.EndsWithin k a → s.EndsWithin k b →
        Merges s (mergeWithin fuel scope false) (s.Joinable limit) (s.Landed limit) a b := by
  intro fuel
  induction fuel with
  | zero =>
    intro k a b hfuel _ _ ha
    obtain ⟨i, rfl, -⟩ := ha.below
    omega
  | succ fuel ih =>
    intro k a b hfuel hra hrb ha hb t hgrows ht
    obtain ⟨i, rfl, hxs⟩ := ha.below
    obtain ⟨i', hi, hys⟩ := hb.below
    obtain rfl : i = i' := by omega
    refine .of_store ?_
    have hequal := same_or_equal_iff hgrows hra.founded hrb.founded
    by_cases heq : a = b ∨ t.equal a b = true
    · rw [if_pos heq]
      have hsame := hequal.mp heq
      refine (produces_pure ht (Store.landed_of_regular hgrows hra fun u _ _ _ => ?_)).congr
        (iff_of_true trivial (.same hsame))
      exact .same hsame
    rw [if_neg heq]
    have hne := hequal.not.mp heq
    refine Produces.congr ?_ (Store.joinable_iff hs.sound hne).symm
    refine mergeStep_produces hlimit hs hra hrb hne hgrows ht (fun x hx y hy => ?_)
      fun hu x hx y hy => ?_
    · exact ih (by omega) (hra.child hx) (hrb.child hy) (hxs x hx) (hys y hy)
    · exact mergeWithin_trial_later ht { scope with loop := none } hgrows hra.closed hrb.closed
        ha hb hfuel hu hx hy

/-- **A relaxed merge of regular values** succeeds exactly where they go together, and leaves what
they join to. -/
theorem merge_produces {scope : MergeScope} (hlimit : scope.config.maxPossibilities = limit)
    (hs : s.Reachable) (ha : s.Regular a) (hb : s.Regular b) (hgrows : s.Grows t) (ht : t.Sound) :
    Produces (merge scope false a b) t (s.Joinable limit a b)
      fun u r => s.Landed limit u a b r := by
  refine .of_store (mergeWithin_produces hlimit hs ?_ ha hb ha.founded hb.founded t hgrows ht)
  have hsize := @Store.size_lt_compareDepth t
  have hle := hgrows.size_le
  omega

end Infer

end ValueInference
