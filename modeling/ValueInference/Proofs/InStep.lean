/-
Walks by updates and walks that could be suspended, in step.

A walk takes place in a host: one for plain updates, or one for code that may be suspended where a
slot waits for a pending.  Below a value that reaches no pending the second has nothing to wait
for, and does what the first does, request by request.  What differs from the default is given by
handlers, which are the same functions in either host.

* **`Handler`**, **`Handlers.variant`** — functions of a form and of the results below it, and the
  variant that they make in a host;
* **`Code.InStep`** — code that does what an update does, without a pause;
* **`Rebuild.InStep`** — computations of a walk that do, as its memo allows;
* **`Rebuild.along_handler`**, **`Rebuild.along_slot`**, **`Rebuild.along_ref`**,
  **`Rebuild.along_byForm`** — the work on a form, if the visits below it are in step.
-/
import ValueInference.Schedule.Machine
import ValueInference.Proofs.Content
import ValueInference.Proofs.Matching
import ValueInference.Proofs.PutOff
import ValueInference.Proofs.Running

universe u

namespace ValueInference

variable {σ τ α β : Type}

namespace FunctionRef

/-- The function that a partial application is of. -/
def applied : FunctionRef → List FunctionRef
  | .partialApp func _ => [func]
  | _ => []

end FunctionRef

/-- What a handler does: it asks for the results of what is below, and computes what becomes of its
subject from them. -/
inductive Handler (nodes : List NodeId) (slots : List Slot) (refs : List FunctionRef) (α : Type)
  | result (x : Infer α) (leaves : x.Leaves)
  | visit (n : NodeId) (below : n ∈ nodes)
      (next : Except InferError NodeId → Handler nodes slots refs α)
  | slot (v : Slot) (below : v ∈ slots)
      (next : Except InferError Slot → Handler nodes slots refs α)
  | ref (f : FunctionRef) (below : f ∈ refs)
      (next : Except InferError FunctionRef → Handler nodes slots refs α)

namespace Handler

variable {m : Type → Type u} [Host m] {nodes : List NodeId} {slots : List Slot}
  {refs : List FunctionRef}

/-- Runs a handler below which a visitor goes on. -/
def run (inner : Visitor (Rebuild τ m)) : Handler nodes slots refs α → Rebuild τ m α
  | .result x _ => Rebuild.infer x
  | .visit n _ next => do (next (← ExceptT.lift (inner.visit n).run)).run inner
  | .slot v _ next => do (next (← ExceptT.lift (inner.slot v).run)).run inner
  | .ref f _ next => do (next (← ExceptT.lift (inner.ref f).run)).run inner

end Handler

/-- The function references among the candidates of a slot. -/
def Slot.refs (v : Slot) : List FunctionRef :=
  (Infer.candidatesOf v).filterMap Candidate.function?

theorem Slot.mem_children_of_refs {v : Slot} {f : FunctionRef} (hf : f ∈ v.refs) {n : NodeId}
    (hn : n ∈ f.children) : n ∈ v.children := by
  obtain ⟨d, hd, hdf⟩ := List.mem_filterMap.mp hf
  cases v with
  | possibilities p =>
    refine List.mem_flatMap_of_mem hd ?_
    cases d with
    | constant _ => exact nomatch hdf
    | function g => exact (Option.some.inj hdf) ▸ hn
  | constant c =>
    obtain rfl := List.mem_singleton.mp hd
    exact nomatch hdf
  | _ => exact absurd hd List.not_mem_nil

/-- The function references in a form. -/
def Kind.refs (k : Kind) : List FunctionRef := (k.slot?.map Slot.refs).getD []

theorem Kind.mem_refs {k : Kind} {f : FunctionRef} (hf : f ∈ k.refs) :
    (∀ n ∈ f.children, n ∈ k.children) ∧ f.depth ≤ k.refDepth := by
  rw [refs] at hf
  cases hslot : k.slot? with
  | none => rw [hslot] at hf; exact absurd hf List.not_mem_nil
  | some v =>
    rw [hslot] at hf
    have hf : f ∈ v.refs := hf
    rw [Kind.children_of_slot hslot]
    refine ⟨fun n hn => Slot.mem_children_of_refs hf hn, ?_⟩
    obtain ⟨d, hd, hdf⟩ := List.mem_filterMap.mp hf
    cases v with
    | possibilities p =>
      cases d with
      | constant _ => exact nomatch hdf
      | function g =>
        obtain rfl : g = f := Option.some.inj hdf
        exact Kind.depth_le_refDepth hslot hd
    | constant c =>
      obtain rfl := List.mem_singleton.mp hd
      exact nomatch hdf
    | _ => exact absurd hd List.not_mem_nil

/-- Handlers of a variant, as functions of what they handle and of the results below it.  What has
none is handled by default. -/
structure Handlers where
  node : (k : Kind) → NodeId → Option (Handler k.children k.slot?.toList k.refs NodeId) :=
    fun _ _ => none
  slot : (v : Slot) → Option (Handler v.children [] v.refs Slot) := fun _ => none
  ref : (f : FunctionRef) → Option (Handler f.children [] f.applied FunctionRef) := fun _ => none

namespace Handlers

variable {m : Type → Type u} [Host m]

/-- The handler of a form, or the default one. -/
def given (h : Handlers) (k : Kind) (inner : Visitor (Rebuild τ m)) (n : NodeId)
    (default : Rebuild τ m NodeId) : Rebuild τ m NodeId :=
  match h.node k n with
  | some handler => handler.run inner
  | none => default

/-- The variant of some handlers, in whatever host. -/
def variant (h : Handlers) : Variant (Rebuild τ m) where
  scalar inner n value ty := h.given (.scalar value ty) inner n (Rebuild.scalar inner n value ty)
  tuple inner n items := h.given (.tuple items) inner n (Rebuild.tuple inner n items)
  list inner n item := h.given (.list item) inner n (Rebuild.list inner n item)
  array inner n item shape := h.given (.array item shape) inner n (Rebuild.array inner n item shape)
  record inner n tag fields :=
    h.given (.record tag fields) inner n (Rebuild.record inner n tag fields)
  union inner n members := h.given (.union members) inner n (Rebuild.union inner n members)
  tagged inner n options := h.given (.tagged options) inner n (Rebuild.tagged inner n options)
  function inner n options :=
    h.given (.function options) inner n (Rebuild.function inner n options)
  jtagged inner n x := h.given (.jtagged x) inner n (Rebuild.jtagged inner n x)
  error inner n reason := h.given (.error reason) inner n (return n)
  type inner n ty := h.given (.type ty) inner n (return n)
  slot inner v :=
    match h.slot v with
    | some handler => handler.run inner
    | none => Rebuild.slot inner v
  ref inner f :=
    match h.ref f with
    | some handler => handler.run inner
    | none => Rebuild.ref inner f

end Handlers

/-! ### In step -/

namespace Code

instance : LawfulMonad (Code σ) := LawfulMonad.mk' (Code σ)
  (fun _ => rfl) (fun _ _ => rfl) (fun _ _ _ => rfl)

variable {I : Store → Prop} {c : Code σ α} {x : Update α} {P P' : α → Prop}

/-- From every store with `I`, the code does what the update does and goes on with its result, with
no pause; the store keeps `I`. -/
def InStep (I : Store → Prop) (c : Code σ α) (x : Update α) (P : α → Prop) : Prop :=
  ∀ (m : Machine σ) (next : α → Program σ), I m.store →
    I (x.run m.store).2 ∧ P (x.run m.store).1 ∧
    ∃ k, (m.exec (c next)).run k =
      ({ m with store := (x.run m.store).2 }).exec (next (x.run m.store).1)

namespace InStep

theorem pure {a : α} (ha : P a) : InStep (σ := σ) I (Pure.pure a) (Pure.pure a) P :=
  fun _ _ hm => ⟨hm, ha, 0, rfl⟩

theorem imp (h : InStep I c x P) (hP : ∀ a, P a → P' a) : InStep I c x P' := fun m next hm => by
  obtain ⟨hI, hres, hrun⟩ := h m next hm
  exact ⟨hI, hP _ hres, hrun⟩

/-- **A sequence** is in step if its parts are. -/
theorem bind {f : α → Code σ β} {g : α → Update β} {Q : β → Prop} (h : InStep I c x P)
    (hf : ∀ a, P a → InStep I (f a) (g a) Q) : InStep I (c >>= f) (x >>= g) Q := by
  intro m next hm
  obtain ⟨hI, hP, k, hk⟩ := h m (fun a => f a next) hm
  obtain ⟨hI', hQ, l, hl⟩ := hf _ hP { m with store := (x.run m.store).2 } next hI
  refine ⟨hI', hQ, k + l, ?_⟩
  rw [Machine.run_add]
  exact (congrArg (Machine.run l) hk).trans hl

theorem update (hx : ∀ s, I s → I (x.run s).2 ∧ P (x.run s).1) :
    InStep (σ := σ) I (Host.update x) (Host.update x) P :=
  fun m _ hm => ⟨(hx m.store hm).1, (hx m.store hm).2, 1, rfl⟩

end InStep

end Code

namespace Rebuild

/-- The computation of a walk by code is in step with the one by updates, where the memo is as `J`
says; `K` is what follows for the memo and the result, and `F` for the memo after a failure. -/
def InStep (I : Store → Prop) (J : Walk τ → Prop) (c : Rebuild τ (Code σ) α)
    (x : Rebuild τ Update α) (K : Walk τ → α → Prop) (F : Walk τ → Prop) : Prop :=
  ∀ w, J w → Code.InStep I (c.run.run w) (x.run.run w) fun r =>
    match r.1 with
    | .ok a => K r.2 a
    | .error _ => F r.2

namespace InStep

variable {I : Store → Prop} {J : Walk τ → Prop} {c : Rebuild τ (Code σ) α}
  {x : Rebuild τ Update α} {K K' : Walk τ → α → Prop} {L : Walk τ → β → Prop}
  {F F' : Walk τ → Prop}

theorem pure {a : α} (h : ∀ w, J w → K w a) :
    InStep (σ := σ) I J (Pure.pure a) (Pure.pure a) K F :=
  fun w hw => .pure (h w hw)

theorem imp (h : InStep I J c x K F) (hK : ∀ w a, K w a → K' w a) (hF : ∀ w, F w → F' w) :
    InStep I J c x K' F' := fun w hw => (h w hw).imp fun r hr => by
  rcases r with ⟨e | a, w'⟩
  · exact hF _ hr
  · exact hK _ _ hr

theorem bind {f : α → Rebuild τ (Code σ) β} {g : α → Rebuild τ Update β}
    (h : InStep I J c x K F) (hf : ∀ a, InStep I (K · a) (f a) (g a) L F) :
    InStep I J (c >>= f) (x >>= g) L F := by
  intro w hw
  refine Code.InStep.bind (f := fun r => (ExceptT.bindCont f r.1).run r.2)
    (g := fun r => (ExceptT.bindCont g r.1).run r.2) (h w hw) fun r hr => ?_
  rcases r with ⟨e | a, w'⟩
  · exact .pure hr
  · exact hf a w' hr

theorem infer {y : Infer α} (hy : ∀ s, I s → I (y.outcome s).2)
    (hK : ∀ s a, I s → (y.outcome s).1 = .ok a → ∀ w, J w → K w a)
    (hF : ∀ w, J w → F w) : InStep (σ := σ) I J (infer y) (infer y) K F := by
  intro _ hw
  refine Code.InStep.bind (P := fun r => ∃ s, I s ∧ r = (y.outcome s).1) (.update fun s hs =>
    ⟨hy s hs, s, hs, rfl⟩) fun _ hr => .pure ?_
  obtain ⟨s, hs, rfl⟩ := hr
  rcases hout : (y.outcome s).1 with e | a
  · exact hF _ hw
  · exact hK s a hs hout _ hw

theorem get : InStep (σ := σ) I J (get : Rebuild τ (Code σ) (Walk τ)) get
    (fun w a => J w ∧ a = w) F :=
  fun _ hw => .pure ⟨hw, rfl⟩

theorem modify {f : Walk τ → Walk τ} {K : Walk τ → PUnit → Prop}
    (h : ∀ w, J w → K (f w) ⟨⟩) :
    InStep (σ := σ) I J (modify f) (modify f) K F :=
  fun w hw => .pure (h w hw)

/-- The outcome of a computation, whatever it is. -/
theorem lift (h : InStep I J c x K F) : InStep I J (ExceptT.lift c.run) (ExceptT.lift x.run)
    (fun w r => match r with | .ok a => K w a | .error _ => F w) F' :=
  fun w hw => Code.InStep.bind (f := fun r => Pure.pure (Except.ok r.1, r.2))
    (g := fun r => Pure.pure (Except.ok r.1, r.2)) (h w hw) fun r hr => .pure <| by
      rcases r with ⟨r, _⟩
      cases r <;> exact hr

theorem outcome {r : Except InferError α} (hK : ∀ a, r = .ok a → ∀ w, J w → K w a)
    (hF : ∀ w, J w → F w) :
    InStep (σ := σ) I J (ExceptT.mk (Pure.pure r)) (ExceptT.mk (Pure.pure r)) K F := by
  refine fun w hw => .pure ?_
  rcases r with e | a
  · exact hF w hw
  · exact hK a rfl w hw

/-- Slots that are no pendings are settled by either host. -/
theorem settle {v : Slot} (hv : v.pendings = []) :
    InStep (σ := σ) I J (settle v) (settle v) (fun w a => J w ∧ a = v) F := by
  intro w hw
  cases v with
  | pending p => exact nomatch hv
  | _ => exact .pure ⟨hw, rfl⟩

theorem ite {p : Prop} [Decidable p] {c' : Rebuild τ (Code σ) α} {x' : Rebuild τ Update α}
    (h : InStep I J c x K F) (h' : InStep I J c' x' K F) :
    InStep I J (if p then c else c') (if p then x else x') K F := by
  split
  · exact h
  · exact h'

/-- **A list of computations** is in step if each of them is. -/
theorem mapM {f : α → Rebuild τ (Code σ) β} {g : α → Rebuild τ Update β} {as : List α}
    (h : ∀ a ∈ as, InStep I J (f a) (g a) (fun w _ => J w) F) :
    InStep I J (as.mapM f) (as.mapM g) (fun w _ => J w) F := by
  induction as with
  | nil => exact .pure fun _ => id
  | cons a as ih =>
    rw [List.mapM_cons, List.mapM_cons]
    refine (h a List.mem_cons_self).bind fun b => ?_
    refine (ih fun a ha => h a (List.mem_cons_of_mem _ ha)).bind fun bs => ?_
    exact .pure fun _ => id

end InStep

end Rebuild

/-- A store in the middle of a walk: forms are kept, and no pending or loop changes. -/
structure Store.Walked (s u : Store) : Prop where
  lasts : Lasts (fun _ => False) s u
  untouched : s.Untouched u

namespace Store.Walked

variable {s u : Store}

theorem refl (s : Store) : s.Walked s := ⟨.refl s, .refl s⟩

theorem leaves {y : Infer α} (hy : y.Leaves) (hu : s.Walked u) : s.Walked (y.outcome u).2 := by
  obtain huntouched := (hy u).untouched
  have hlasts : Lasts (fun _ => False) u (y.outcome u).2 := by
    refine .of_pendings (hy u).nodes_le huntouched.pendings fun n hn => ?_
    rw [isComplete, kind, (hy u).nodes n (present_of_isComplete hn)]
    exact ⟨hn, rfl⟩
  exact ⟨hu.lasts.trans hlasts, hu.untouched.trans huntouched⟩

theorem placeholder (hu : s.Walked u) : s.Walked (Infer.placeholder.outcome u).2 :=
  ⟨hu.lasts.trans (lasts_change .placeholder), hu.untouched.trans ⟨rfl, rfl⟩⟩

theorem complete (hu : s.Walked u) (n : NodeId) (k : Kind) :
    s.Walked ((Infer.complete n k).outcome u).2 := by
  refine ⟨hu.lasts.trans (lasts_change (.complete n k)), hu.untouched.trans ?_⟩
  show u.Untouched (u.complete n k).2
  rw [Store.complete]
  repeat' split
  all_goals exact ⟨rfl, rfl⟩

end Store.Walked

namespace Rebuild

variable {s : Store} {J : Walk τ → Prop} {nodes : List NodeId} {slots : List Slot}
  {refs : List FunctionRef} {c : Visitor (Rebuild τ (Code σ))} {x : Visitor (Rebuild τ Update)}

/-- A computation that keeps the memo as it is in the end. -/
abbrev Along (s : Store) (J : Walk τ → Prop) (c : Rebuild τ (Code σ) α)
    (x : Rebuild τ Update α) : Prop :=
  InStep s.Walked J c x (fun w _ => J w) J

/-- Results of what is below are found in step. -/
structure Below (s : Store) (J : Walk τ → Prop) (nodes : List NodeId) (slots : List Slot)
    (refs : List FunctionRef) (c : Visitor (Rebuild τ (Code σ)))
    (x : Visitor (Rebuild τ Update)) : Prop where
  visit : ∀ n ∈ nodes, Along s J (c.visit n) (x.visit n)
  slot : ∀ v ∈ slots, Along s J (c.slot v) (x.slot v)
  ref : ∀ f ∈ refs, Along s J (c.ref f) (x.ref f)

theorem along_infer {y : Infer α} (hy : y.Leaves) : Along (σ := σ) s J (infer y) (infer y) :=
  .infer (fun _ => Store.Walked.leaves hy) (fun _ _ _ _ _ => id) fun _ => id

theorem along_lift {y : Rebuild τ (Code σ) α} {z : Rebuild τ Update α} (hyz : Along s J y z) :
    Along s J (ExceptT.lift y.run) (ExceptT.lift z.run) :=
  hyz.lift.imp (fun w r hr => by cases r <;> exact hr) fun _ => id

theorem along_handler {h : Handler nodes slots refs α} (hbelow : Below s J nodes slots refs c x) :
    Along s J (h.run c) (h.run x) := by
  induction h with
  | result y leaves => exact along_infer leaves
  | visit n hn next ih => exact (along_lift (hbelow.visit n hn)).bind fun _ => ih _
  | slot v hv next ih => exact (along_lift (hbelow.slot v hv)).bind fun _ => ih _
  | ref f hf next ih => exact (along_lift (hbelow.ref f hf)).bind fun _ => ih _

/-- What is kept, or made anew. -/
theorem along_rebuilt [DecidableEq α] {y : Rebuild τ (Code σ) α} {z : Rebuild τ Update α}
    {old : α} {n : NodeId} {E : α → Infer NodeId} (hyz : Along s J y z)
    (hE : ∀ new, (E new).Leaves) :
    Along s J (y >>= fun new => if new = old then return n else infer (E new))
      (z >>= fun new => if new = old then return n else infer (E new)) :=
  hyz.bind fun _ => .ite (.pure fun _ => id) (along_infer (hE _))

theorem along_visits (hbelow : Below s J nodes slots refs c x) {items : List NodeId}
    (hitems : ∀ n ∈ items, n ∈ nodes) : Along s J (items.mapM c.visit) (items.mapM x.visit) :=
  .mapM fun n hn => hbelow.visit n (hitems n hn)

theorem along_fields {δ : Type} (hbelow : Below s J nodes slots refs c x)
    {fields : List (δ × NodeId)} (hfields : ∀ n ∈ fields.map Prod.snd, n ∈ nodes) :
    Along s J (fields.mapM fun (name, field) => return (name, ← c.visit field))
      (fields.mapM fun (name, field) => return (name, ← x.visit field)) :=
  .mapM fun f hf => (hbelow.visit f.2 (hfields _ (List.mem_map_of_mem hf))).bind fun _ =>
    .pure fun _ => id

theorem along_candidate {d : Candidate}
    (hbelow : ∀ f, d = .function f → Along s J (c.ref f) (x.ref f)) :
    Along s J (visitCandidate c d) (visitCandidate x d) := by
  cases d with
  | constant v => exact .pure fun _ => id
  | function f =>
    refine (hbelow f rfl).bind fun g => ?_
    exact (along_infer fun u => .refl u).bind fun u => .pure fun _ => id

theorem leaves_possibilitiesOf (cs : List Candidate) : (Infer.possibilitiesOf cs).Leaves := by
  refine .store fun u => ?_
  split
  · exact .throw _
  · exact .possibilities _

theorem along_slot {v : Slot} (hv : v.pendings = []) (hbelow : Below s J nodes slots v.refs c x) :
    Along s J (Rebuild.slot c v) (Rebuild.slot x v) := by
  refine (InStep.settle hv).bind fun v' => ?_
  rintro w ⟨hw, rfl⟩
  revert hw w
  cases v' with
  | possibilities p =>
    have hcandidates : Along s J (p.candidates.mapM (visitCandidate c))
        (p.candidates.mapM (visitCandidate x)) := .mapM fun d hd =>
      along_candidate fun f hf => hbelow.ref f (List.mem_filterMap.mpr ⟨d, hd, by rw [hf]; rfl⟩)
    show Along s J (p.candidates.mapM (visitCandidate c) >>= _)
      (p.candidates.mapM (visitCandidate x) >>= _)
    refine hcandidates.bind fun new => .ite ?_ (.pure fun _ => id)
    exact (along_infer (leaves_possibilitiesOf _)).bind fun q => .pure fun _ => id
  | _ => exact fun w hw => .pure hw

theorem along_ref {f : FunctionRef} (hbelow : Below s J f.children slots f.applied c x) :
    Along s J (Rebuild.ref c f) (Rebuild.ref x f) := by
  cases f with
  | primitive p => exact .pure fun _ => id
  | typed p args output =>
    refine (along_visits hbelow fun n hn => List.mem_append_left _ hn).bind fun new => ?_
    refine (hbelow.visit output (List.mem_append_right _ List.mem_cons_self)).bind fun out => ?_
    exact .pure fun _ => id
  | partialApp func args =>
    refine (hbelow.ref func List.mem_cons_self).bind fun g => ?_
    refine (along_visits hbelow fun n hn => List.mem_append_right _ hn).bind fun new => ?_
    exact .pure fun _ => id
  | virtual args output =>
    refine (along_visits hbelow fun n hn => List.mem_append_left _ hn).bind fun new => ?_
    refine (hbelow.visit output (List.mem_append_right _ List.mem_cons_self)).bind fun out => ?_
    exact .pure fun _ => id
  | graph name => exact .pure fun _ => id

/-- The work on a node. -/
theorem along_byForm {h : Handlers} {n : NodeId} (hn : s.isComplete n = true)
    (hbelow : Below s J (s.kind n).children (s.kind n).slot?.toList (s.kind n).refs c x) :
    Along s J (byForm h.variant c n) (byForm h.variant x n) := by
  have hstore : InStep (σ := σ) s.Walked J (infer Infer.store) (infer Infer.store)
      (fun w u => J w ∧ u.kind n = s.kind n) J := by
    refine .infer (fun u hu => hu) (fun u a hu hout w hw => ⟨hw, ?_⟩) fun _ => id
    cases hout
    exact (hu.lasts.kind n hn).2
  refine hstore.bind fun u => ?_
  intro w hw
  obtain ⟨hw, hk⟩ := hw
  revert w
  rw [hk]
  have hgiven : ∀ {d : Rebuild τ (Code σ) NodeId} {d' : Rebuild τ Update NodeId},
      Along s J d d' → Along s J (h.given (s.kind n) c n d) (h.given (s.kind n) x n d') := by
    intro d d' hd
    rw [Handlers.given, Handlers.given]
    split
    · exact along_handler hbelow
    · exact hd
  cases hform : s.kind n with
  | scalar value ty =>
    rw [hform] at hgiven hbelow
    exact hgiven (along_rebuilt (hbelow.slot value List.mem_cons_self) fun _ => .make _)
  | tuple items =>
    rw [hform] at hgiven hbelow
    exact hgiven (along_rebuilt (along_visits hbelow fun _ => id) fun _ => .make _)
  | list item =>
    rw [hform] at hgiven hbelow
    exact hgiven (along_rebuilt (hbelow.visit item List.mem_cons_self) fun _ => .make _)
  | array item shape =>
    rw [hform] at hgiven hbelow
    exact hgiven (along_rebuilt (hbelow.visit item List.mem_cons_self) fun _ => .make _)
  | record tag fields =>
    rw [hform] at hgiven hbelow
    exact hgiven (along_rebuilt (along_fields hbelow fun _ => id) fun _ => .make _)
  | union members =>
    rw [hform] at hgiven hbelow
    exact hgiven (along_rebuilt (along_visits hbelow fun _ => id) fun _ => .union _)
  | tagged options =>
    rw [hform] at hgiven hbelow
    exact hgiven (along_rebuilt (along_fields hbelow fun _ => id) fun _ => .make _)
  | function options =>
    rw [hform] at hgiven hbelow
    exact hgiven (along_rebuilt (hbelow.slot options List.mem_cons_self) fun _ => .make _)
  | jtagged inner =>
    rw [hform] at hgiven hbelow
    exact hgiven (along_rebuilt (hbelow.visit inner List.mem_cons_self) fun _ => .make _)
  | error r =>
    rw [hform] at hgiven
    exact hgiven (.pure fun _ => id)
  | type ty =>
    rw [hform] at hgiven
    exact hgiven (.pure fun _ => id)

end Rebuild

end ValueInference
