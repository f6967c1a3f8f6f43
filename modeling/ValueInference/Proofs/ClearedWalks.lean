/-
Walks that clear a value of its pendings.

A task that walks a value waits where it meets an open pending, and goes on when that is resolved.
If in the end all pendings that the value leads to are resolved, to slots that are valid where they
stand, the task has gone on to its end by the time when it has nothing left to do.  It has made a
value that reaches no pending: the value itself, with each pending replaced by what it stands for in
the end.  When the pendings were resolved, in which order and by whom does not show in this.

* **`Store.clears_visits`** — every visit below the value yields what serves;
* **`Store.sound_of_checked`** — a store is sound if a check of what is in it says so;
* **`Machine.walk_clears`** — the walk of a task comes to its end with the value cleared.
-/
import ValueInference.Proofs.ClearedForms
import ValueInference.Proofs.Unpaused

namespace ValueInference

instance (k : Kind) : Decidable k.Labelled :=
  match k with
  | .record _ fields => inferInstanceAs (Decidable (fields.map Prod.fst).Nodup)
  | .tagged options => inferInstanceAs (Decidable (options.map Prod.fst).Nodup)
  | .scalar _ _ | .tuple _ | .list _ | .array _ _ | .union _ | .function _ | .jtagged _ | .error _
  | .type _ => .isTrue trivial

namespace Store

variable {κ : Type} {s T : Store} {v n : NodeId} {G : Store → Program κ → Prop}
  {stack : List NodeId}

/-- **Every visit below the value** yields what serves for the node, by induction on the levels that
are left.  The walk is inside of nodes above the node, so the node is none of them. -/
theorem clears_visits (hs : T.Sound) (hT : T.Clearable v) :
    ∀ {stack : List NodeId} {n : NodeId}, T.followed.Leads v n →
      (∀ m ∈ stack, T.followed.Below n m) → ∀ reached, n ∈ reached →
        Rebuild.Answers (T.Walking v stack reached)
          (fun σ y P => T.Clears v G stack reached σ y P) .plain (fun υ => T.ClearCopy υ.store)
          (T.followed.spare stack) n := by
  suffices hlevels : ∀ levels, ∀ {stack : List NodeId} {n : NodeId},
      T.followed.spare stack = levels → T.followed.Leads v n →
        (∀ m ∈ stack, T.followed.Below n m) → ∀ reached, n ∈ reached →
          Rebuild.Answers (T.Walking v stack reached)
            (fun σ y P => T.Clears v G stack reached σ y P) .plain (fun υ => T.ClearCopy υ.store)
            (T.followed.spare stack) n from
    fun {_ _} hn => hlevels _ rfl hn
  intro levels
  induction levels using Nat.strongRecOn with
  | ind levels ih =>
    intro stack n hlevels hn habove reached hreached fuel hfuel σ hσ
    obtain ⟨fuel, rfl⟩ : ∃ k, fuel = k + 1 := ⟨fuel - 1, by omega⟩
    have hfresh : n ∉ stack := fun hmem => hT.acyclic n hn (habove n hmem)
    have hpresent : n < T.followed.nodes.size := by
      rw [size_followed]
      exact present_of_isComplete (hσ.way.later.keeps.isComplete (hσ.complete hreached))
    have hspare := spare_cons hpresent hfresh
    rw [cost] at hspare
    have hinside : T.Clearing v G (n :: stack) n (T.followed.spare (n :: stack)) := by
      refine ⟨hs, hT, fun c hc => ih _ (by omega) rfl (hn.tail hc) fun m hm => ?_⟩
      rcases List.mem_cons.mp hm with rfl | hm
      · exact .single hc
      · exact .head hc (habove m hm)
    exact clears_visit hσ hfresh fun υ hυ => hinside.clears_byForm hυ hreached (by omega)

/-! ### Checking stores -/

/-- The sets that slots of forms and results of pendings are. -/
def heldSets (s : Store) : List Possibilities :=
  ((List.range s.nodes.size).filterMap (fun n => (s.kind n).slot?) ++
    (List.range s.pendings.size).filterMap s.result?).filterMap fun
      | .possibilities p => some p
      | _ => none

/-- What soundness asks of a single node, where interned nodes differ by their digests. -/
def soundAt (s : Store) (n : NodeId) : Bool :=
  s.isComplete n && s.knows (s.kind n) && decide (s.kind n).Labelled &&
    (s.digest n).all (fun d => decide (s.digestOf (s.kind n) = (d, s.contents)) &&
      (s.kind n).children.all fun c => (s.digest c).isSome) &&
    (!s.isInterned n || (s.digest n).isSome && (s.kind n).children.all s.isInterned &&
      (List.range n).all fun m => !s.isInterned m || decide (s.digest m ≠ s.digest n))

/-- Whether a store is sound, by a check of its nodes and of the sets that it holds. -/
def checked (s : Store) : Bool :=
  (List.range s.nodes.size).all s.soundAt && s.heldSets.all fun p =>
    decide (p.token < s.tokens) && decide p.candidates.Nodup &&
      s.heldSets.all fun q => decide (q.token = p.token → q.candidates = p.candidates)

theorem mem_heldSets {p : Possibilities} (h : s.HoldsSet p) : p ∈ s.heldSets := by
  have hslot : Slot.possibilities p ∈
      (List.range s.nodes.size).filterMap (fun n => (s.kind n).slot?) ++
        (List.range s.pendings.size).filterMap s.result? := by
    rcases h with ⟨n, hn⟩ | ⟨q, hq⟩
    · refine List.mem_append_left _ (List.mem_filterMap.mpr ⟨n, List.mem_range.mpr ?_, hn⟩)
      by_contra hge
      rw [kind_of_absent (Nat.not_lt.mp hge)] at hn
      exact nomatch hn
    · refine List.mem_append_right _ (List.mem_filterMap.mpr ⟨q, ?_, hq⟩)
      exact List.mem_range.mpr (lt_of_result? hq)
  exact List.mem_filterMap.mpr ⟨_, hslot, rfl⟩

theorem sound_of_checked (h : s.checked = true) : s.Sound := by
  rw [checked, Bool.and_eq_true, List.all_eq_true, List.all_eq_true] at h
  obtain ⟨hnodes, hsets⟩ := h
  have hat : ∀ n, n < s.nodes.size → s.soundAt n = true := fun n hn =>
    hnodes n (List.mem_range.mpr hn)
  simp only [soundAt, Bool.and_eq_true, Bool.or_eq_true, Bool.not_eq_true', decide_eq_true_eq,
    List.all_eq_true, Option.all_eq_true, List.mem_range] at hat
  simp only [Bool.and_eq_true, decide_eq_true_eq, List.all_eq_true] at hsets
  have habsent : ∀ n, ¬ n < s.nodes.size → s.kind n = .error .incomplete := fun n hn =>
    kind_of_absent (Nat.not_lt.mp hn)
  have hplain : ∀ n, ¬ n < s.nodes.size → s.digest n = none := by
    intro n hn
    rw [digest, Array.getElem?_eq_none (Nat.not_lt.mp hn)]
    rfl
  have hbare : ∀ n, s.isInterned n = true → n < s.nodes.size := fun n hn => lt_of_isInterned hn
  constructor
  · intro n
    by_cases hn : n < s.nodes.size
    · exact (hat n hn).1.1.1.2
    · rw [habsent n hn]
      rfl
  · intro n
    by_cases hn : n < s.nodes.size
    · exact (hat n hn).1.1.2
    · rw [habsent n hn]
      trivial
  · intro p hp
    obtain ⟨⟨htoken, hnodup⟩, hcoherent⟩ := hsets p (mem_heldSets hp)
    exact ⟨htoken, hnodup, fun q hq => hcoherent q (mem_heldSets hq)⟩
  · intro n hn
    have hge : ¬ n < s.nodes.size := fun hlt => by
      rw [(hat n hlt).1.1.1.1] at hn
      cases hn
    exact ⟨hplain n hge, Bool.eq_false_iff.mpr fun h => hge (hbare n h)⟩
  · intro n d hd
    have hn : n < s.nodes.size := by
      by_contra hge
      rw [hplain n hge] at hd
      cases hd
    exact (hat n hn).1.2 d hd
  · intro n hn
    exact ((hat n (hbare n hn)).2.resolve_left (by simp [hn])).1
  · intro m n hmn hm hn hdigest
    have h := ((hat n (hbare n hn)).2.resolve_left (by simp [hn])).2
    exact absurd hdigest ((h m hmn).resolve_left (by simp [hm]))

/-- What a function reference is over waits for nothing, if it equals a reference over nodes that
wait for nothing. -/
theorem pendings_of_equalRefs {f g : FunctionRef} (hs : s.Sound)
    (hf : ∀ a ∈ f.children, a < s.nodes.size)
    (hg : ∀ x ∈ g.children, x < s.nodes.size ∧ (s.kind x).pendings = [])
    (hequal : s.equalRefs g f = true) : ∀ a ∈ f.children, (s.kind a).pendings = [] := by
  have halike : (Candidate.function g).Alike s.EqualIn (.function f) :=
    (equalCandidates_iff_alike (c := .function g) (d := .function f) hs (fun x hx => (hg x hx).1)
      hf).mp hequal
  intro a ha
  obtain ⟨x, hx, hxa⟩ := halike.flip.exists_child a ha
  exact (alike_of_equalIn hs hxa).pendings_eq.symm.trans (hg x hx).2

end Store

namespace Machine

variable {κ : Type} {m : Machine κ}

/-- **The walk of a task clears the value.**  A task starts on a walk that changes nothing by
itself.  Along the run the stores are sound, as they are if client code brings in sets as they are
made (`Machine.run_sound`), and what the value leads to, through resolved pendings as well, is
complete.  At a later time all pendings that it leads to are resolved, to slots that are valid where
they stand; the value does not contain itself; and the task is neither queued nor under way.  Then
the walk has come to its end with a node that reaches no pending: the value with all pendings
replaced by what they stand for, where unions and sets of functions that changed are put together
anew. -/
theorem walk_clears {l : LoopId} {t : TaskId} {body : TaskBody} {rest : List (Frame κ)} {v : NodeId}
    {fuel k : Nat} {next : Except InferError NodeId → Program κ} (hm : m.Reachable)
    (hstack : m.stack = .task l t body :: rest)
    (hcontrol : m.control = .exec (Code.walk fuel .plain v { own := () } fun r => next r.1))
    (hsound : ∀ i ≤ k, (m.run i).store.Sound)
    (hfinished : ∀ i ≤ k, (m.run i).store.followed.Finished v)
    (hclearable : (m.run k).store.Clearable v)
    (hfuel : (m.run k).store.followed.walkDepth ≤ fuel)
    (hidle : ¬ (m.run k).store.Queued ⟨l, t⟩ ∧ ⟨l, t⟩ ∉ (m.run k).underway) :
    ∃ i ≤ k, ∃ rest out, (m.run i).stack = .task l t body :: rest ∧
      (m.run i).control = .exec (next (.ok out)) ∧ (m.run k).store.Finished out ∧
        (m.run k).store.Clear out ∧ (m.run k).store.Cleared out v := by
  let T := (m.run k).store
  have hway : ∀ i ≤ k, (m.run i).store.Towards T v := by
    intro i hi
    have hmi := hm.run i
    obtain ⟨es, hes⟩ := hmi.history
    have hlater : (m.run i).store.Before T := by
      obtain ⟨j, rfl⟩ := Nat.exists_eq_add_of_le hi
      have h := hmi.later j
      rwa [← run_add] at h
    exact ⟨hsound i hi, hmi.informed, hes.conforms, hlater, hfinished i hi⟩
  let G : Store → Program κ → Prop := fun s code =>
    ∃ out, code = next (.ok out) ∧ T.ClearCopy s out v
  have hstart : T.Walking v [] [v] ⟨m.store, { own := () }⟩ :=
    ⟨hway 0 (Nat.zero_le k), T.remembers_start _, fun c hc => List.mem_singleton.mp hc ▸ .refl⟩
  have hcomes : T.Comes v G m.store
      (Code.walk fuel .plain v { own := () } fun r => next r.1) := by
    have hlevels : T.followed.spare [] < fuel := T.followed.spare_lt_walkDepth.trans_le hfuel
    refine Store.clears_visits (hsound k le_rfl) hclearable .refl
      (fun _ hm => absurd hm List.not_mem_nil) [v] List.mem_cons_self fuel hlevels _ hstart _
      fun υ out hυ _ hout => ?_
    exact .here ⟨out, rfl, hout⟩
  obtain ⟨i, hi, rest', code, hstack', hcontrol', out, rfl, hout⟩ :=
    arrives hm hstack hcontrol hcomes hway hidle
  have hend := hout.later (hway i hi).later.keeps
  exact ⟨i, hi, rest', out, hstack', hcontrol', hend.finished, hend.clear, hend.cleared⟩

/-- A walk of the second node, of which the client keeps the result. -/
def walkSecond : Program (Option NodeId) :=
  Code.walk 13 .plain 1 { own := () } fun out =>
    .client (fun _ => ((), out.1.toOption)) fun _ => .done unit

/-- Code that makes a scalar and a function, both of which wait, and walks the function in a task.
The function is then resolved to one from the scalar to itself, and at last the scalar to five. -/
def resolvedLate : Program (Option NodeId) :=
  .update (Infer.openLoop {}).run fun _ =>
    .update (Infer.hole 0).run fun _ =>
      .update (Infer.hole 0).run fun _ =>
        .update (Infer.scalar (.pending 0) (.int 64)).run fun _ =>
          .update (Infer.function (.pending 1)).run fun _ =>
            .spawn 0 walkSecond fun _ =>
              .runReady 0 fun _ =>
                .update (Infer.possibilitiesOf [.function (.virtual [0] 0)]).run fun
                  | .ok p =>
                    .update (Infer.setResult 1 (.possibilities p)).run fun _ =>
                      .runReady 0 fun _ =>
                        .update (Infer.setResult 0 (.constant (.int 5))).run fun _ =>
                          .runReady 0 fun _ => .done unit
                  | .error e => .done (.error e)

/-- The task waits for the function and then for the scalar, and ends with the function of the
number five. -/
theorem walk_clears_resolvedLate :
    let m := (start none resolvedLate).run 8
    let T := (m.run 23).store
    m.store.followed.kind 1 = .function (.pending 1) ∧
      T.followed.kind 1 = .function (.possibilities ⟨0, [.function (.virtual [0] 0)]⟩) ∧
      T.followed.kind 0 = .scalar (.constant (.int 5)) (.int 64) ∧
      ∃ i ≤ 23, ∃ rest out, (m.run i).stack = .task 0 0 (.code 0) :: rest ∧
        (m.run i).control = .exec (.client (fun _ => ((), some out)) fun _ => .done unit) ∧
          T.Finished out ∧ T.Clear out ∧ T.Cleared out 1 := by
  intro m T
  have hm : m.Reachable := (Reachable.start none resolvedLate).run 8
  have hstack : ∃ rest, m.stack = .task 0 0 (.code 0) :: rest := ⟨_, by with_unfolding_all rfl⟩
  obtain ⟨rest, hstack⟩ := hstack
  let next : Except InferError NodeId → Program (Option NodeId) := fun r =>
    .client (fun _ => ((), r.toOption)) fun _ => .done unit
  have hcontrol : m.control = .exec (Code.walk 13 .plain 1 { own := () } fun r => next r.1) := by
    with_unfolding_all rfl
  have hchecked : ∀ i ≤ 23, (m.run i).store.checked = true := by decide +kernel
  have hbelow : ∀ i ≤ 23, ∀ n ∈ [0, 1], (m.run i).store.followed.isComplete n = true ∧
      ∀ c ∈ ((m.run i).store.followed.kind n).children, c ∈ [0, 1] := by decide +kernel
  have hleads : ∀ i ≤ 23, ∀ n, (m.run i).store.followed.Leads 1 n → n ∈ [0, 1] :=
    fun i hi n hn => Store.mem_of_leads (fun n hn => (hbelow i hi n hn).2) (by decide) hn
  have hkind : T.followed.kind 0 = .scalar (.constant (.int 5)) (.int 64) := by decide +kernel
  have hclearable : T.Clearable 1 := by
    have hends : ∀ n ∈ [0, 1], (T.followed.kind n).pendings = [] ∧
        T.followed.everywhere (fun n => decide (n < T.followed.nodes.size)) 2 n = true ∧
        T.fault? (T.followed.kind n) = none ∧
        ∀ f ∈ (T.followed.kind n).refs, f = .virtual [0] 0 := by decide +kernel
    have hat := fun n hn => hends n (hleads 23 le_rfl n hn)
    refine ⟨fun n hn => (hat n hn).1, fun n hn => ?_, fun n hn => (hat n hn).2.2.1,
      fun n f g hn hf hg hequal => ?_⟩
    · exact (Store.endsWithin_of_everywhere (fun _ => of_decide_eq_true) (hat n hn).2.1).acyclic
    · -- what the scalar becomes waits for nothing, so it does not equal the scalar
      obtain rfl := (hat n hn).2.2.2 f hf
      have hsound : T.Sound := Store.sound_of_checked (hchecked 23 le_rfl)
      have hnew : ∀ x, T.Cleared x 0 → x < T.nodes.size ∧ (T.kind x).pendings = [] := by
        intro x hx
        have hform := hx.clearedOf.2
        rw [hkind] at hform
        refine ⟨?_, hform.pendings_eq⟩
        by_contra hge
        rw [Store.kind_of_absent (Nat.not_lt.mp hge)] at hform
        exact hform.elim
      have hnone := Store.pendings_of_equalRefs hsound (by decide +kernel) (fun x hx => ?_) hequal
      · exact absurd (hnone 0 (by decide)) (by decide +kernel)
      · obtain ⟨z, hz, hxz⟩ := FunctionRef.Alike.exists_child hg x hx
        obtain rfl : z = 0 := by simpa [FunctionRef.children] using hz
        exact hnew x hxz
  have hwalked := walk_clears hm hstack hcontrol
    (fun i hi => Store.sound_of_checked (hchecked i hi))
    (fun i hi n hn => (hbelow i hi n (hleads i hi n hn)).1) hclearable (by decide +kernel)
    (by decide +kernel)
  exact ⟨by decide +kernel, by decide +kernel, hkind, hwalked⟩

end Machine

end ValueInference
