/-
Walks that succeed, and walks that fail.

A walk by plain updates is a function of what it remembers and of the store.  `Rebuild.Gives`
says what a computation of a walk gives where it succeeds, and `Rebuild.Fails` what it leaves where
it fails; the rules below open one step by step, and nothing after this module looks inside the
layers of `Rebuild`.

* **`Rebuild.Gives.bind`** — a sequence gives what its second part gives after the first one;
* **`Rebuild.Fails.bind`**, **`Rebuild.Gives.bind_fails`** — a sequence fails where a part of it
  does;
* **`Rebuild.gives_placeholder`** — a node that is reached again has a placeholder from then on;
* **`Rebuild.gives_conclude`** — the end of the work on a node for which one was handed out.
-/
import ValueInference.Rebuild
import ValueInference.Proofs.Outcome

namespace ValueInference

namespace Update

variable {α : Type}

theorem ext {x y : Update α} (h : ∀ s, x.run s = y.run s) : x = y := by
  obtain ⟨run, _⟩ := x
  obtain ⟨run', _⟩ := y
  obtain rfl : run = run' := funext h
  rfl

instance : LawfulMonad Update := LawfulMonad.mk' Update
  (fun _ => ext fun _ => rfl) (fun _ _ => ext fun _ => rfl) (fun _ _ _ => ext fun _ => rfl)

end Update

namespace Rebuild

variable {α β : Type} {memo memo' memo'' : Memo} {s t u : Store} {n : NodeId}

/-- The computation succeeds with a result, a memo and a store. -/
def Gives (x : Rebuild Unit Update α) (memo : Memo) (s : Store) (a : α) (memo' : Memo)
    (t : Store) : Prop :=
  ((ExceptT.run x).run ⟨memo, ()⟩).run s = ((.ok a, ⟨memo', ()⟩), t)

/-- The computation fails, and leaves a memo and a store. -/
def Fails (x : Rebuild Unit Update α) (memo : Memo) (s : Store) (e : InferError) (memo' : Memo)
    (t : Store) : Prop :=
  ((ExceptT.run x).run ⟨memo, ()⟩).run s = ((.error e, ⟨memo', ()⟩), t)

theorem gives_pure (a : α) (memo : Memo) (s : Store) : Gives (pure a) memo s a memo s := rfl

theorem fails_throw (e : InferError) (memo : Memo) (s : Store) :
    Fails (throw e : Rebuild Unit Update α) memo s e memo s := rfl

/-- What a sequence does after its first part. -/
theorem run_bind (x : Rebuild Unit Update α) (f : α → Rebuild Unit Update β) (memo : Memo)
    (s : Store) : ((ExceptT.run (x >>= f)).run ⟨memo, ()⟩).run s =
      (fun p : (Except InferError α × Walk Unit) × Store =>
        ((ExceptT.bindCont f p.1.1).run p.1.2).run p.2)
          (((ExceptT.run x).run ⟨memo, ()⟩).run s) := rfl

/-- **A sequence** gives what its second part gives after the first one. -/
theorem Gives.bind {x : Rebuild Unit Update α} {f : α → Rebuild Unit Update β} {a : α} {b : β}
    (hx : Gives x memo s a memo' t) (hf : Gives (f a) memo' t b memo'' u) :
    Gives (x >>= f) memo s b memo'' u := by
  rw [Gives, run_bind, hx]
  exact hf

/-- **A sequence** fails if its second part does after the first one. -/
theorem Gives.bind_fails {x : Rebuild Unit Update α} {f : α → Rebuild Unit Update β} {a : α}
    {e : InferError} (hx : Gives x memo s a memo' t) (hf : Fails (f a) memo' t e memo'' u) :
    Fails (x >>= f) memo s e memo'' u := by
  rw [Fails, run_bind, hx]
  exact hf

/-- **A sequence** fails if its first part does. -/
theorem Fails.bind {x : Rebuild Unit Update α} {e : InferError} (h : Fails x memo s e memo' t)
    (f : α → Rebuild Unit Update β) : Fails (x >>= f) memo s e memo' t := by
  rw [Fails, run_bind, h]
  rfl

theorem gives_infer {x : Infer α} {a : α} (h : x.outcome s = (.ok a, t)) (memo : Memo) :
    Gives (infer x) memo s a memo t := by
  have hrun : ((ExceptT.run (infer x : Rebuild Unit Update α)).run ⟨memo, ()⟩).run s =
      (((x.outcome s).1, ⟨memo, ()⟩), (x.outcome s).2) := rfl
  rw [Gives, hrun, h]

theorem gives_get (memo : Memo) (s : Store) :
    Gives (get : Rebuild Unit Update (Walk Unit)) memo s ⟨memo, ()⟩ memo s := rfl

theorem gives_modify (f : Walk Unit → Walk Unit) (memo : Memo) (s : Store) :
    Gives (modify f) memo s () (f ⟨memo, ()⟩).memo s := rfl

private theorem run_lift (x : Rebuild Unit Update α) (memo : Memo) (s : Store) :
    ((ExceptT.run (ExceptT.lift x.run : Rebuild Unit Update _)).run ⟨memo, ()⟩).run s =
      (fun p : (Except InferError α × Walk Unit) × Store => ((.ok p.1.1, p.1.2), p.2))
        (((ExceptT.run x).run ⟨memo, ()⟩).run s) := rfl

/-- The outcome of a computation that succeeds is its result. -/
theorem Gives.lift {x : Rebuild Unit Update α} {a : α} (h : Gives x memo s a memo' t) :
    Gives (ExceptT.lift x.run) memo s (.ok a) memo' t := by
  rw [Gives, run_lift, h]

/-- The outcome of a computation that fails is its error. -/
theorem Fails.lift {x : Rebuild Unit Update α} {e : InferError} (h : Fails x memo s e memo' t) :
    Gives (ExceptT.lift x.run) memo s (.error e) memo' t := by
  rw [Gives, run_lift, h]

/-! ### Looking nodes up -/

theorem gives_known_of_done {out : NodeId} (h : memo.done.lookup n = some out) :
    Gives (known? n) memo s (some out) memo s := by
  rw [known?]
  refine Gives.bind (gives_get _ _) ?_
  simp only [h]
  exact gives_pure _ _ _

theorem gives_known_of_fresh (hdone : memo.done.lookup n = none)
    (h : memo.inProgress.lookup n = none) : Gives (known? n) memo s none memo s := by
  rw [known?]
  refine Gives.bind (gives_get _ _) ?_
  simp only [hdone, h]
  exact gives_pure _ _ _

theorem gives_known_of_expected {ph : NodeId} (hdone : memo.done.lookup n = none)
    (h : memo.inProgress.lookup n = some (some ph)) :
    Gives (known? n) memo s (some ph) memo s := by
  rw [known?]
  refine Gives.bind (gives_get _ _) ?_
  simp only [hdone, h]
  exact gives_pure _ _ _

/-- **A node that is reached again** while it is being rebuilt gets a placeholder. -/
theorem gives_placeholder (hdone : memo.done.lookup n = none)
    (h : memo.inProgress.lookup n = some none) :
    Gives (known? n) memo s (some s.nodes.size) (memo.expect n s.nodes.size) s.placeholder.2 := by
  rw [known?]
  refine Gives.bind (gives_get _ _) ?_
  simp only [hdone, h]
  exact Gives.bind (gives_infer rfl memo) (Gives.bind (gives_modify _ _ _) (gives_pure _ _ _))

/-! ### The end of the work on a node -/

/-- The end of the work on a node that was not reached again. -/
theorem gives_conclude_quiet {out : NodeId} (h : (memo.inProgress.lookup n).join = none) :
    Gives (conclude n (.ok out)) memo s out ((memo.leave n).publish n out) s := by
  rw [conclude]
  refine Gives.bind (gives_get _ _) (Gives.bind (gives_modify _ _ _) ?_)
  simp only [h]
  refine Gives.bind (a := out) rfl (Gives.bind (a := out) (gives_pure _ _ _) ?_)
  exact Gives.bind (gives_modify _ _ _) (gives_pure _ _ _)

/-- The end of the work on a node that failed: nothing is remembered of it. -/
theorem fails_conclude (n : NodeId) (e : InferError) (memo : Memo) (s : Store) :
    Fails (conclude n (.error e)) memo s e (memo.leave n) s := by
  rw [conclude]
  refine Gives.bind_fails (gives_get _ _) (Gives.bind_fails (gives_modify _ _ _) ?_)
  exact Fails.bind (x := ExceptT.mk (pure (.error e))) rfl _

/-- **The end of the work on a node that was reached again**: its placeholder gets the form of the
result, and is given up for the node if it equals the node. -/
theorem gives_conclude {out ph : NodeId} (h : memo.inProgress.lookup n = some (some ph))
    (hne : out ≠ ph) (hok : (s.complete ph (s.kind out)).1 = .ok ())
    (ht : (s.complete ph (s.kind out)).2 = t) {result : NodeId}
    (hresult : (if t.equal ph n then n else ph) = result) :
    Gives (conclude n (.ok out)) memo s result ((memo.leave n).publish n result) t := by
  have hcomplete : (Infer.complete ph (s.kind out)).outcome s = (.ok (), t) := by
    have hrun : (Infer.complete ph (s.kind out)).outcome s =
        ((s.complete ph (s.kind out)).1.mapError .invalidConstruction,
          (s.complete ph (s.kind out)).2) := rfl
    rw [hrun, hok, ht]
    rfl
  have hsettle : Gives (settlePlaceholder n (some ph) out) (memo.leave n) s result
      (memo.leave n) t := by
    simp only [settlePlaceholder, if_neg hne]
    refine Gives.bind (gives_infer (a := ()) ?_ _) (Gives.bind (gives_infer (a := t) rfl _) ?_)
    · rw [Infer.outcome_store_bind]
      exact hcomplete
    · rw [← hresult]
      split <;> exact gives_pure _ _ _
  rw [conclude]
  refine Gives.bind (gives_get _ _) (Gives.bind (gives_modify _ _ _) ?_)
  simp only [h]
  refine Gives.bind (a := out) rfl (Gives.bind hsettle ?_)
  exact Gives.bind (gives_modify _ _ _) (gives_pure _ _ _)

end Rebuild

/-- A walk by plain updates starts with nothing remembered. -/
theorem Infer.outcome_rebuild {V : Variant (Rebuild Unit Update)} {s t : Store} {n out : NodeId}
    {memo : Memo} (h : Rebuild.Gives ((V.visitor s.walkDepth).visit n) {} s out memo t) :
    (rebuild V n).outcome s = (.ok out, t) := by
  have hrun : (rebuild V n).outcome s =
      (fun p : (Except InferError NodeId × Walk Unit) × Store => (p.1.1, p.2))
        (((ExceptT.run ((V.visitor s.walkDepth).visit n)).run ⟨{}, ()⟩).run s) := rfl
  rw [hrun, h]

end ValueInference
