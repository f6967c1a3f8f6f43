/-
Broadened values take in what they were.

A forced merge asks that the left value covers the right one.  A value without its constants does:
where it is not equal to what it was, a scalar has become any value of its type, or the forms are
alike over such nodes, or the members of a union are taken in one by one.  The merge follows
pendings, which may be open, only where both sides have the same slot, and there it stops at once.
Trials of other members go wherever they go, and leave the store as it is.

* **`Infer.mergeWithin_gives_or_fails`** — a forced merge that cannot put anything off gives the
  left value back or fails, and leaves the store as it is;
* **`Store.Generalises`** — a node equals what another one is without its constants;
* **`Infer.mergeWithin_generalises`** — then a forced merge gives it back.
-/
import ValueInference.Proofs.Broadened
import ValueInference.Proofs.Forced
import ValueInference.Proofs.Transitivity

namespace ValueInference

/-- Where each thing on the right is matched with at most one on the left, it is listed once. -/
theorem Matches.nodup_right {α : Type} {R : α → α → Prop} {as bs : List α} (h : Matches R as bs)
    (hapart : ApartIn R as bs) : bs.Nodup := by
  obtain ⟨cs, hperm, hcs⟩ := h.pairing hapart
  have hmatched : List.Forall₂ (fun c a => c ∈ bs ∧ R a c) cs as :=
    forall₂_imp_mem hcs.flip fun c hc _ _ hac => ⟨hperm.mem_iff.mp hc, hac⟩
  refine hperm.nodup_iff.mp (pairwise_of_forall₂ hmatched hapart ?_)
  rintro c _ a - b - ⟨hc, hac⟩ ⟨-, hbc⟩ hab rfl
  exact hab c hc hac hbc

namespace Infer

variable {α : Type} {s : Store} {scope : MergeScope} {v w : Slot} {a b d n : NodeId}

/-! ### Trials -/

/-- A computation that gives its result or fails gives it exactly where it does. -/
theorem Yields.settled {x : Infer α} {c : α} {P : Prop} (h : Yields true x s P c) :
    Yields true x s (x.outcome s = (.ok c, s)) c := by
  refine h.congr ⟨h.1, fun hok => ?_⟩
  by_contra hnot
  obtain ⟨e, he⟩ := h.2 rfl hnot
  exact nomatch congrArg Prod.fst (hok.symm.trans he)

theorem yields_deferMerge (hloop : scope.loop = none) (forced : Bool) (v w x : Slot) :
    Yields true (deferMerge scope forced v w) s False x := by
  rw [deferMerge, hloop]
  exact yields_throw _ x

theorem mergeSlots_gives_or_fails (hloop : scope.loop = none) (v w : Slot) :
    Yields true (mergeSlots scope true v w) s ((mergeSlots scope true v w).outcome s = (.ok v, s))
      v := by
  suffices hyields : ∃ P, Yields true (mergeSlots scope true v w) s P v from
    hyields.elim fun _ h => h.settled
  by_cases hpending : (∀ p, s.resolve v ≠ .pending p) ∧ ∀ p, s.resolve w ≠ .pending p
  · exact ⟨_, mergeSlots_yields scope hpending.1 hpending.2⟩
  -- an open pending on either side could only be put off
  have hdefer : ∀ ra rb, Yields true (deferMerge scope true ra rb) s False v :=
    fun ra rb => yields_deferMerge hloop true ra rb v
  have hstart : ∀ {P : Prop} {f : Store → Infer Slot}, Yields true (f s) s P v →
      ∃ P, Yields true (store >>= f) s P v := fun h => ⟨_, h⟩
  rw [mergeSlots]
  cases hv : s.resolve v with
  | anything => exact hstart (P := True) (by rw [hv]; exact yields_pure v)
  | pending p =>
    cases hw : s.resolve w with
    | pending q =>
      by_cases hpq : p = q
      · exact hstart (P := True) (by rw [hv, hw]; simpa only [if_pos hpq] using yields_pure v)
      · exact hstart (P := False) (by rw [hv, hw]; simpa only [if_neg hpq] using hdefer _ _)
    | _ => exact hstart (P := False) (by rw [hv, hw]; exact hdefer _ _)
  | _ =>
    cases hw : s.resolve w with
    | pending q => exact hstart (P := False) (by rw [hv, hw]; exact hdefer _ _)
    | _ =>
      refine absurd ⟨fun p hp => ?_, fun p hp => ?_⟩ hpending
      · cases hv.symm.trans hp
      · cases hw.symm.trans hp

theorem mergeWithin_of_equal {fuel : Nat} {forced : Bool} (h : a = b ∨ s.equal a b = true) :
    (mergeWithin (fuel + 1) scope forced a b).outcome s = (.ok a, s) := by
  rw [mergeWithin, outcome_store_bind, if_pos h]
  rfl

theorem mergeWithin_of_ne {fuel : Nat} {forced : Bool} (h : ¬ (a = b ∨ s.equal a b = true)) :
    (mergeWithin (fuel + 1) scope forced a b).outcome s =
      (mergeStep (mergeWithin fuel) scope forced a b).outcome s := by
  rw [mergeWithin, outcome_store_bind, if_neg h]

/-- **A forced merge that can put nothing off** gives the left value back or fails, and leaves the
store as it is. -/
theorem mergeWithin_gives_or_fails (hs : s.Sound) :
    ∀ {fuel : Nat} {scope : MergeScope} {a b : NodeId}, scope.loop = none →
      Yields true (mergeWithin fuel scope true a b) s
      ((mergeWithin fuel scope true a b).outcome s = (.ok a, s)) a := by
  intro fuel
  induction fuel with
  | zero => exact fun _ => (yields_throw _ _).settled
  | succ fuel ih =>
    intro scope a b hloop
    by_cases heq : a = b ∨ s.equal a b = true
    · exact ⟨id, fun _ hnot => absurd (mergeWithin_of_equal heq) hnot⟩
    · have hstep : Yields true (mergeStep (mergeWithin fuel) scope true a b) s _ a :=
        mergeStep_admits hs scope id (fun v w _ _ => mergeSlots_gives_or_fails hloop v w)
          (fun x _ y _ => ih hloop) fun x y _ => ih rfl
      rw [Yields, mergeWithin_of_ne heq]
      exact hstep.settled

end Infer

namespace Store

variable {s : Store} {d m n x : NodeId} {ms : List NodeId}

/-! ### What a broadened value takes in -/

/-- The first node equals what the second one is without its constants. -/
def Generalises (s : Store) (d n : NodeId) : Prop := ∃ x, s.EqualIn d x ∧ s.Broadened x n

theorem admits_of_layered {C : Slot → Slot → Prop} {R : NodeId → NodeId → Prop} {U : Prop}
    {k k' : Kind} (hk : k.Labelled) (hk' : k'.Labelled) (hlayered : k'.Layered)
    (h : k.Alike R k') : k.Admits C R U k' := by
  refine (admits_of_alike hk hk' (fun v w _ hw => ?_) (fun as bs _ hbs => ?_) h).resolve_right ?_
  · exact nomatch hlayered.rigid.slotless.symm.trans hw
  · rw [hbs] at hlayered
    exact hlayered.elim
  · rintro (⟨r, -, rfl⟩ | ⟨t, -, rfl⟩)
    · exact hlayered.elim
    · exact hlayered.elim

/-- Errors with the same reason are equal. -/
theorem equalIn_of_error {r : ErrorReason} (hs : s.Whole) (hm : s.Founded m)
    (hn : n < s.nodes.size) (hkm : s.kind m = .error r) (hkn : s.kind n = .error r) :
    s.EqualIn m n := by
  have hleads : ∀ x, s.Leads m x → x = m := by
    intro x hx
    rcases Relation.ReflTransGen.cases_head hx with rfl | ⟨c, hc, -⟩
    · rfl
    · rw [hkm] at hc
      exact absurd hc List.not_mem_nil
  have hdiscernible : s.Discernible m := discernible_of_children
    (fun ms hk => nomatch hkm.symm.trans hk) (fun p hk => nomatch hkm.symm.trans hk) fun c hc => by
      rw [hkm] at hc
      exact absurd hc List.not_mem_nil
  refine hdiscernible.equalIn_of_founded hs.sound (hs.formed m) (fun x hx hback => ?_) hm hn ?_
  · exact absurd (hleads x hx ▸ hx) hback
  · rw [hkm, hkn]
    rfl

/-- **The members of a union** and those of what it is broadened to generalise in pairs, unless
nothing has changed. -/
theorem Generalises.members (hs : s.Whole) (hd : s.Founded d) (hdd : s.Discernible d)
    (hk : s.kind n = .union ms) (hflat : ∀ m ∈ ms, (s.kind m).isUnion = false)
    (h : s.Generalises d n) : s.EqualIn d n ∨
      (∀ m ∈ ms, ∃ e ∈ s.members d, s.Generalises e m) ∧
        ∀ e ∈ s.members d, ∃ m ∈ ms, s.Generalises e m := by
  obtain ⟨x, hdx, hxn⟩ := h
  have halike := alike_of_equalIn hs.sound hdx
  cases hxn with
  | same => exact .inl hdx
  | scalar hk' => exact nomatch hk.symm.trans hk'
  | form R _ hlayered =>
    rw [hk] at hlayered
    exact hlayered.elim
  | @union _ _ ms' ds R hR hk' hkept hunites =>
    obtain rfl := Kind.union.inj (hk.symm.trans hk')
    right
    have hused : ∀ c ∈ ds, ∀ e, s.EqualIn e c → ∃ m ∈ ms, s.Generalises e m := by
      intro c hc e hec
      obtain ⟨m, hm, hcm⟩ := hkept.used c hc
      exact ⟨m, hm, c, hec, hR c m hcm⟩
    -- what equals a kept node equals what that one is kept for
    have hcovered : (∀ c ∈ ds, ∃ e ∈ s.members d, s.Leads d e ∧ s.EqualIn e c) →
        ∀ m ∈ ms, ∃ e ∈ s.members d, s.Generalises e m := by
      intro hds m hm
      obtain ⟨c, hc, y, hcy, hym⟩ := hkept.covered m hm
      obtain ⟨e, he, hlead, hec⟩ := hds c hc
      have hbalanced := hs.balanced (hd.leads hlead) (hdd.leads hlead)
      exact ⟨e, he, y, hbalanced.trans c y hec hcy, hR y m hym⟩
    rcases hunites with rfl | ⟨ns, hns, hbelow, hperm⟩
    · have hmem : x ∈ [x] := List.mem_singleton_self x
      obtain ⟨l, hl, hxl⟩ := hkept.used x hmem
      have hsingle : (s.kind d).isUnion = false := by
        rw [← Kind.isUnion_head, halike.head_eq, Kind.isUnion_head]
        exact (hR x l hxl).isUnion_eq_false (hflat l hl)
      rw [members_of_not_union hsingle] at hcovered ⊢
      refine ⟨hcovered fun c hc => ⟨d, List.mem_singleton_self d, .refl, ?_⟩, fun e he => ?_⟩
      · exact List.mem_singleton.mp hc ▸ hdx
      · exact hused x hmem e (List.mem_singleton.mp he ▸ hdx)
    · have hapart := hdd.apart hs.sound (hs.formed d)
        (fun y hy _ => hs.balanced (hd.leads hy) (hdd.leads hy)) x
      cases hkd : s.kind d with
      | union es =>
        rw [hkd, hns] at halike hapart
        have hmembers : s.members d = es := by rw [Store.members, hkd]
        rw [hmembers] at hcovered ⊢
        refine ⟨hcovered fun c hc => ?_, fun e he => ?_⟩
        · have hmem := (hperm (Matches.nodup_right halike hapart)).mem_iff.mpr hc
          obtain ⟨e, he, hec⟩ := (Matches.flip halike hapart).2 c hmem
          exact ⟨e, he, leads_child (by rwa [hkd]), hec⟩
        · obtain ⟨c, hc, hec⟩ := halike.2 e he
          exact hused c (hbelow c hc) e hec
      | _ =>
        rw [hkd, hns] at halike
        exact halike.elim

/-- **Forms over what their nodes become** generalise node by node. -/
theorem Generalises.alike (hs : s.Sound) (h : s.Generalises d n) (hn : (s.kind n).isUnion = false) :
    s.EqualIn d n ∨ (∃ v ty, s.kind d = .scalar .anything ty ∧ s.kind n = .scalar v ty) ∨
      (s.kind n).Layered ∧ (s.kind d).Alike s.Generalises (s.kind n) := by
  obtain ⟨x, hdx, hxn⟩ := h
  have halike := alike_of_equalIn hs hdx
  cases hxn with
  | same => exact .inl hdx
  | union R _ hk =>
    rw [hk] at hn
    exact nomatch hn
  | @scalar _ _ v ty hk hout =>
    rw [hout] at halike
    exact .inr (.inl ⟨v, ty, halike.eq_scalar, hk⟩)
  | @form x _ R hR hlayered _ hform =>
    have hcomp := halike.comp_of_placed hform (hlayered.rigid.of_head hform.head_eq).placed
    exact .inr (.inr ⟨hlayered, hcomp.imp fun e _ m _ ⟨y, hey, hym⟩ => ⟨y, hey, hR y m hym⟩⟩)

/-- What is broadened to an error was that error, unless it was a union. -/
theorem Generalises.kind_eq_of_error {r : ErrorReason} (hs : s.Sound) (h : s.Generalises d n)
    (hn : (s.kind n).isUnion = false) (hd : s.kind d = .error r) : s.kind n = .error r := by
  rcases h.alike hs hn with hequal | ⟨v, ty, hk, -⟩ | ⟨hlayered, hpairs⟩
  · have halike := alike_of_equalIn hs hequal
    rw [hd] at halike
    exact Kind.eq_error_of_head halike.head_eq.symm
  · exact nomatch hd.symm.trans hk
  · rw [hd] at hpairs
    exact Kind.eq_error_of_head hpairs.head_eq.symm

/-- What takes in members that differ is not dead. -/
theorem not_error_of_generalises {r : ErrorReason} (hs : s.Whole) (hn : s.Founded n)
    (hdn : s.Discernible n) (hk : s.kind n = .union ms)
    (hflat : ∀ m ∈ ms, (s.kind m).isUnion = false)
    (h : ∀ m ∈ ms, ∃ e ∈ s.members d, s.Generalises e m) : s.kind d ≠ .error r := by
  intro hkd
  have hmembers : s.members d = [d] := members_of_not_union (by rw [hkd]; rfl)
  have herror : ∀ m ∈ ms, s.Founded m ∧ s.kind m = .error r := by
    intro m hm
    obtain ⟨e, he, hem⟩ := h m hm
    rw [hmembers] at he
    obtain rfl := List.mem_singleton.mp he
    exact ⟨hn.child (by rwa [hk]), hem.kind_eq_of_error hs.sound (hflat m hm) hkd⟩
  have hseveral := hs.formed n
  have hdistinct := hdn.members n ms .refl hk
  rw [hk] at hseveral
  match ms, hseveral with
  | l :: m :: _, _ =>
    have hl := herror l List.mem_cons_self
    have hm := herror m (List.mem_cons_of_mem _ List.mem_cons_self)
    have hdiffer := (List.rel_of_pairwise_cons hdistinct List.mem_cons_self).differ hl.1.present
      hm.1.present
    have hequal := equalIn_of_error hs hl.1 hm.1.present hl.2 hm.2
    exact Bool.eq_false_iff.mp hdiffer hequal.2.2

end Store

namespace Infer

variable {s : Store} {scope : MergeScope}

theorem mergeSlots_anything {forced : Bool} (v : Slot) :
    (mergeSlots scope forced .anything v).outcome s = (.ok .anything, s) := by
  unfold mergeSlots
  rw [outcome_store_bind]
  simp only [s.resolve_self .anything rfl]
  rfl

/-- A forced merge gives the left value back if it is not dead and its form admits the right one. -/
theorem mergeStep_of_admits {fuel : Nat} {a b : NodeId} (hs : s.Sound)
    (hlive : s.kind a ≠ .error .dead)
    (h : (s.kind a).Admits (fun v w => (mergeSlots scope true v w).outcome s = (.ok v, s))
      (fun x y => (mergeWithin fuel scope true x y).outcome s = (.ok x, s))
      (∀ n ∈ s.members b, ∃ m ∈ s.members a,
        (mergeWithin fuel { scope with loop := none } true m n).outcome s = (.ok m, s))
      (s.kind b)) : (mergeStep (mergeWithin fuel) scope true a b).outcome s = (.ok a, s) := by
  have hstep : Yields false (mergeStep (mergeWithin fuel) scope true a b) s _ a :=
    mergeStep_admits hs scope nofun (fun _ _ _ _ => ⟨id, nofun⟩) (fun _ _ _ _ => ⟨id, nofun⟩)
      fun x y _ => mergeWithin_gives_or_fails hs rfl
  exact hstep.1 ⟨hlive, .inr h⟩

/-- **A forced merge** of a broadened value with what it was gives the broadened value back. -/
theorem mergeWithin_generalises (hs : s.Whole) : ∀ {fuel j k : Nat} {d n : NodeId},
    j + k ≤ fuel → s.EndsWithin j d → s.EndsWithin k n → s.Discernible d → s.Discernible n →
      s.FlatBelow n → s.Generalises d n →
        ∀ scope, (mergeWithin fuel scope true d n).outcome s = (.ok d, s) := by
  intro fuel
  induction fuel with
  | zero =>
    intro j k d n hfuel hd
    obtain ⟨i, rfl, -⟩ := hd.below
    omega
  | succ fuel ih =>
    intro j k d n hfuel hd hn hdd hdn hflat h scope
    obtain ⟨i, rfl, hxs⟩ := hd.below
    obtain ⟨l, rfl, hys⟩ := hn.below
    by_cases heq : d = n ∨ s.equal d n = true
    · exact mergeWithin_of_equal heq
    rw [mergeWithin_of_ne heq]
    -- the left value goes down with the right one, except where it is itself the only member
    have hbelow : ∀ x, x ∈ (s.kind d).children ∨ x = d → ∀ y ∈ (s.kind n).children,
        s.Generalises x y → ∀ scope, (mergeWithin fuel scope true x y).outcome s = (.ok x, s) := by
      intro x hx y hy hxy
      have hdy := hdn.leads (Store.leads_child hy)
      rcases hx with hx | rfl
      · have hdx := hdd.leads (Store.leads_child hx)
        exact ih (by omega) (hxs x hx) (hys y hy) hdx hdy (hflat.child hy) hxy
      · exact ih (by omega) hd (hys y hy) hdd hdy (hflat.child hy) hxy
    rcases (s.kind n).isUnion_cases with ⟨ms, hk⟩ | hsingle
    · have hmembers : s.members n = ms := by rw [Store.members, hk]
      have hflat' := hflat.here ms hk
      rcases h.members hs hd.founded hdd hk hflat' with hequal | ⟨htaken, -⟩
      · exact absurd (.inr hequal.2.2) heq
      refine mergeStep_of_admits hs.sound
        (Store.not_error_of_generalises hs hn.founded hdn hk hflat' htaken) ?_
      refine (Kind.admits_of_isUnion (.inr (by rw [hk]; rfl))).mpr fun m hm => ?_
      rw [hmembers] at hm
      obtain ⟨e, he, hem⟩ := htaken m hm
      refine ⟨e, he, hbelow e ((Store.mem_members he).imp_right And.left) m ?_ hem _⟩
      rwa [hk]
    rcases h.alike hs.sound hsingle with hequal | ⟨v, ty, hkd, hk⟩ | ⟨hlayered, hpairs⟩
    · exact absurd (.inr hequal.2.2) heq
    · refine mergeStep_of_admits hs.sound (by simp [hkd]) ?_
      rw [hkd, hk]
      exact ⟨.inl rfl, mergeSlots_anything v⟩
    · refine mergeStep_of_admits hs.sound (fun hdead => ?_)
        (Store.admits_of_layered (hs.sound.labelled d) (hs.sound.labelled n) hlayered
          (hpairs.imp fun e he m hm hem => hbelow e (.inl he) m hm hem scope))
      rw [hdead] at hpairs
      rw [Kind.eq_error_of_head hpairs.head_eq.symm] at hlayered
      exact hlayered.elim

end Infer

end ValueInference
