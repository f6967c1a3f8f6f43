/-
Contents and their numbers.

A digest is the number of a content.  The content of a form is the form with its nodes and
pendings replaced by numbers, and contents that differ only in the order of what has no order are
numbered alike.

* **`Kind.sameContent_iff`** — the test for such contents decides `Kind.Reordered`;
* **`Contents.number_again`**, **`Contents.number_keeps`** — a number that was given once is given
  again, whatever was numbered in between;
* **`Kind.Alike.relabel`** — forms that are alike have the same content, if nodes that are related
  have the same number and nothing is matched twice.
-/
import ValueInference.Store.Digest
import ValueInference.Proofs.Matching

namespace ValueInference

/-- The pendings that a form mentions. -/
def Kind.pendings (k : Kind) : List PendingId := (k.slot?.map Slot.pendings).getD []

/-! ### Contents as relabelled forms -/

section Relabelling

variable {m : Type → Type} [Monad m] [LawfulMonad m]

/-- A reference with its nodes replaced by numbers. -/
def FunctionRef.relabel (f : NodeId → Nat) : FunctionRef → FunctionRef
  | .primitive prim => .primitive prim
  | .typed prim args output => .typed prim (args.map f) (f output)
  | .partialApp func args => .partialApp (func.relabel f) (args.map f)
  | .virtual args output => .virtual (args.map f) (f output)
  | .graph name => .graph name

def Candidate.relabel (f : NodeId → Nat) : Candidate → Candidate
  | .constant c => .constant c
  | .function func => .function (func.relabel f)

def Slot.relabel (f : NodeId → Nat) (number : PendingId → Nat) : Slot → Slot
  | .possibilities p => .possibilities ⟨0, p.candidates.map (Candidate.relabel f)⟩
  | .pending p => .pending (number p)
  | slot => slot

def Kind.relabel (f : NodeId → Nat) (number : PendingId → Nat) : Kind → Kind
  | .scalar value ty => .scalar (value.relabel f number) ty
  | .tuple items => .tuple (items.map f)
  | .list item => .list (f item)
  | .array item shape => .array (f item) shape
  | .record tag fields => .record tag (fields.map fun x => (x.1, f x.2))
  | .union members => .union (members.map f)
  | .tagged options => .tagged (options.map fun x => (x.1, f x.2))
  | .function options => .function (options.relabel f number)
  | .jtagged inner => .jtagged (f inner)
  | .error reason => .error reason
  | .type ty => .type ty

theorem FunctionRef.traverse_pure (f : NodeId → Nat) (r : FunctionRef) :
    r.traverse (fun n => (pure (f n) : m Nat)) = pure (r.relabel f) := by
  induction r with
  | primitive p => rfl
  | typed p as a => simp [traverse, relabel]
  | partialApp g as ih => simp [traverse, relabel, ih]
  | virtual as a => simp [traverse, relabel]
  | graph n => rfl

theorem Candidate.traverse_pure (f : NodeId → Nat) (c : Candidate) :
    c.traverse (fun n => (pure (f n) : m Nat)) = pure (c.relabel f) := by
  cases c with
  | constant c => rfl
  | function g => simp [traverse, relabel, FunctionRef.traverse_pure]

theorem Slot.traverse_pure (f : NodeId → Nat) (number : PendingId → Nat) (v : Slot) :
    v.traverse (fun n => (pure (f n) : m Nat)) number = pure (v.relabel f number) := by
  cases v with
  | possibilities p =>
    have hc : (Candidate.traverse fun n => (pure (f n) : m Nat)) =
        fun c => pure (c.relabel f) := funext (Candidate.traverse_pure f)
    simp [traverse, relabel, hc]
  | _ => rfl

theorem Kind.traverse_pure (f : NodeId → Nat) (number : PendingId → Nat) (k : Kind) :
    k.traverse (fun n => (pure (f n) : m Nat)) number = pure (k.relabel f number) := by
  cases k <;> simp [traverse, relabel, Slot.traverse_pure]

end Relabelling

/-! ### Relabelling by functions that agree -/

section

variable {f g : NodeId → Nat} {number number' : PendingId → Nat}

theorem FunctionRef.relabel_congr : ∀ {r : FunctionRef}, (∀ n ∈ r.children, f n = g n) →
    r.relabel f = r.relabel g := by
  intro r
  induction r with
  | primitive p => exact fun _ => rfl
  | typed p as a =>
    intro h
    have has : as.map f = as.map g :=
      List.map_congr_left fun n hn => h n (List.mem_append_left _ hn)
    rw [relabel, relabel, has, h a (by simp [children])]
  | partialApp r as ih =>
    intro h
    have has : as.map f = as.map g :=
      List.map_congr_left fun n hn => h n (List.mem_append_right _ hn)
    rw [relabel, relabel, has, ih fun n hn => h n (List.mem_append_left _ hn)]
  | virtual as a =>
    intro h
    have has : as.map f = as.map g :=
      List.map_congr_left fun n hn => h n (List.mem_append_left _ hn)
    rw [relabel, relabel, has, h a (by simp [children])]
  | graph m => exact fun _ => rfl

theorem Candidate.relabel_congr {c : Candidate} (h : ∀ n ∈ c.children, f n = g n) :
    c.relabel f = c.relabel g := by
  cases c with
  | constant c => rfl
  | function r => exact congrArg Candidate.function (FunctionRef.relabel_congr h)

theorem Slot.relabel_congr {v : Slot} (h : ∀ n ∈ v.children, f n = g n)
    (hp : ∀ p ∈ v.pendings, number p = number' p) :
    v.relabel f number = v.relabel g number' := by
  cases v with
  | possibilities p =>
    have hcs : p.candidates.map (Candidate.relabel f) = p.candidates.map (Candidate.relabel g) :=
      List.map_congr_left fun c hc =>
        Candidate.relabel_congr fun n hn => h n (List.mem_flatMap_of_mem hc hn)
    rw [relabel, relabel, hcs]
  | pending p => exact congrArg Slot.pending (hp p (by simp [pendings]))
  | _ => rfl

theorem Kind.relabel_congr {k : Kind} (h : ∀ n ∈ k.children, f n = g n)
    (hp : ∀ p ∈ k.pendings, number p = number' p) :
    k.relabel f number = k.relabel g number' := by
  have hlabels : ∀ {β : Type} {xs : List (β × NodeId)}, (∀ n ∈ xs.map Prod.snd, f n = g n) →
      xs.map (fun x => (x.1, f x.2)) = xs.map fun x => (x.1, g x.2) := fun h =>
    List.map_congr_left fun x hx => Prod.ext rfl (h x.2 (List.mem_map_of_mem hx))
  cases k with
  | scalar v t => exact congrArg (Kind.scalar · t) (Slot.relabel_congr h hp)
  | tuple as => exact congrArg Kind.tuple (List.map_congr_left h)
  | list a => exact congrArg Kind.list (h a (by simp [children]))
  | array a shape => exact congrArg (Kind.array · shape) (h a (by simp [children]))
  | record tag fs => exact congrArg (Kind.record tag) (hlabels h)
  | union as => exact congrArg Kind.union (List.map_congr_left h)
  | tagged as => exact congrArg Kind.tagged (hlabels h)
  | function v => exact congrArg Kind.function (Slot.relabel_congr h hp)
  | jtagged a => exact congrArg Kind.jtagged (h a (by simp [children]))
  | error r => rfl
  | type t => rfl

end

/-! ### Forms up to order -/

inductive Slot.Reordered : Slot → Slot → Prop
  | same (v : Slot) : Reordered v v
  | possibilities {p q : Possibilities} (h : p.candidates.Perm q.candidates) :
      Reordered (.possibilities p) (.possibilities q)

/-- The same form up to the order of what has no order, and up to the instances of sets. -/
inductive Kind.Reordered : Kind → Kind → Prop
  | same (k : Kind) : Reordered k k
  | scalar {v w : Slot} (ty : Ty) (h : v.Reordered w) : Reordered (.scalar v ty) (.scalar w ty)
  | record (tag : String) {fs gs : List (String × NodeId)} (h : fs.Perm gs) :
      Reordered (.record tag fs) (.record tag gs)
  | union {as bs : List NodeId} (h : as.Perm bs) : Reordered (.union as) (.union bs)
  | tagged {as bs : List (UInt32 × NodeId)} (h : as.Perm bs) : Reordered (.tagged as) (.tagged bs)
  | function {v w : Slot} (h : v.Reordered w) : Reordered (.function v) (.function w)

theorem Slot.sameContent_iff {v w : Slot} : v.sameContent w = true ↔ v.Reordered w := by
  constructor
  · intro h
    unfold sameContent at h
    split at h
    · exact .possibilities (List.isPerm_iff.mp h)
    · obtain rfl := eq_of_beq h
      exact .same _
  · intro h
    cases h with
    | same => cases v <;> simp [sameContent, List.isPerm_iff]
    | possibilities h => exact List.isPerm_iff.mpr h

theorem Kind.sameContent_iff {k k' : Kind} : k.sameContent k' = true ↔ k.Reordered k' := by
  constructor
  · intro h
    unfold sameContent at h
    split at h
    · simp only [Bool.and_eq_true, beq_iff_eq] at h
      obtain ⟨rfl, h⟩ := h
      exact .scalar _ (Slot.sameContent_iff.mp h)
    · simp only [Bool.and_eq_true, beq_iff_eq] at h
      obtain ⟨rfl, h⟩ := h
      exact .record _ (List.isPerm_iff.mp h)
    · exact .union (List.isPerm_iff.mp h)
    · exact .tagged (List.isPerm_iff.mp h)
    · exact .function (Slot.sameContent_iff.mp h)
    · obtain rfl := eq_of_beq h
      exact .same _
  · intro h
    cases h with
    | same => cases k <;> simp [sameContent, Slot.sameContent_iff, Slot.Reordered.same, List.isPerm_iff]
    | scalar ty h => simp [sameContent, Slot.sameContent_iff.mpr h]
    | record tag h => simpa [sameContent, List.isPerm_iff] using h
    | union h => exact List.isPerm_iff.mpr h
    | tagged h => exact List.isPerm_iff.mpr h
    | function h => exact Slot.sameContent_iff.mpr h

theorem Slot.Reordered.symm {v w : Slot} (h : v.Reordered w) : w.Reordered v := by
  cases h with
  | same => exact .same _
  | possibilities h => exact .possibilities h.symm

theorem Slot.Reordered.trans {u v w : Slot} (h : u.Reordered v) (h' : v.Reordered w) :
    u.Reordered w := by
  cases h with
  | same => exact h'
  | possibilities h =>
    cases h' with
    | same => exact .possibilities h
    | possibilities h' => exact .possibilities (h.trans h')

theorem Kind.Reordered.symm {k k' : Kind} (h : k.Reordered k') : k'.Reordered k := by
  cases h with
  | same => exact .same _
  | scalar ty h => exact .scalar ty h.symm
  | record tag h => exact .record tag h.symm
  | union h => exact .union h.symm
  | tagged h => exact .tagged h.symm
  | function h => exact .function h.symm

theorem Kind.Reordered.trans {k₁ k₂ k₃ : Kind} (h : k₁.Reordered k₂) (h' : k₂.Reordered k₃) :
    k₁.Reordered k₃ := by
  cases h with
  | same => exact h'
  | scalar ty h =>
    cases h' with
    | same => exact .scalar ty h
    | scalar _ h' => exact .scalar ty (h.trans h')
  | record tag h =>
    cases h' with
    | same => exact .record tag h
    | record _ h' => exact .record tag (h.trans h')
  | union h =>
    cases h' with
    | same => exact .union h
    | union h' => exact .union (h.trans h')
  | tagged h =>
    cases h' with
    | same => exact .tagged h
    | tagged h' => exact .tagged (h.trans h')
  | function h =>
    cases h' with
    | same => exact .function h
    | function h' => exact .function (h.trans h')

section

variable {k : Kind}

theorem Kind.Reordered.tuple_inv {as : List NodeId} (h : k.Reordered (.tuple as)) :
    k = .tuple as := by
  cases h
  rfl

theorem Kind.Reordered.record_inv {tag : String} {gs : List (String × NodeId)}
    (h : k.Reordered (.record tag gs)) : ∃ fs, k = .record tag fs ∧ fs.Perm gs := by
  cases h with
  | same => exact ⟨gs, rfl, .refl gs⟩
  | record _ h => exact ⟨_, rfl, h⟩

theorem Kind.Reordered.union_inv {bs : List NodeId} (h : k.Reordered (.union bs)) :
    ∃ as, k = .union as ∧ as.Perm bs := by
  cases h with
  | same => exact ⟨bs, rfl, .refl bs⟩
  | union h => exact ⟨_, rfl, h⟩

theorem Kind.Reordered.tagged_inv {bs : List (UInt32 × NodeId)} (h : k.Reordered (.tagged bs)) :
    ∃ as, k = .tagged as ∧ as.Perm bs := by
  cases h with
  | same => exact ⟨bs, rfl, .refl bs⟩
  | tagged h => exact ⟨_, rfl, h⟩

theorem Kind.Reordered.scalar_inv {w : Slot} {ty : Ty} (h : k.Reordered (.scalar w ty)) :
    ∃ v, k = .scalar v ty ∧ v.Reordered w := by
  cases h with
  | same => exact ⟨w, rfl, .same w⟩
  | scalar _ h => exact ⟨_, rfl, h⟩

theorem Kind.Reordered.function_inv {w : Slot} (h : k.Reordered (.function w)) :
    ∃ v, k = .function v ∧ v.Reordered w := by
  cases h with
  | same => exact ⟨w, rfl, .same w⟩
  | function h => exact ⟨_, rfl, h⟩

end

theorem Kind.sameContent_congr {k k' : Kind} (h : k.Reordered k') (c : Kind) :
    c.sameContent k = c.sameContent k' := by
  rw [Bool.eq_iff_iff, sameContent_iff, sameContent_iff]
  exact ⟨fun hc => hc.trans h, fun hc => hc.trans h.symm⟩

/-! ### Numbers of contents -/

namespace Contents

theorem number_congr {k k' : Kind} (h : k.Reordered k') (contents : Contents) :
    (number k contents).1 = (number k' contents).1 := by
  have hfind : (fun c : Kind => c.sameContent k) = fun c => c.sameContent k' :=
    funext (Kind.sameContent_congr h)
  rw [number, number, hfind]
  split <;> rfl

/-- Numbering again changes nothing. -/
theorem number_again {k : Kind} {contents contents' : Contents} {d : Nat}
    (h : number k contents = (d, contents')) : number k contents' = (d, contents') := by
  rw [number] at h
  split at h
  · next i hi =>
    cases h
    rw [number, hi]
  · next hi =>
    cases h
    have hself : k.sameContent k = true := Kind.sameContent_iff.mpr (.same k)
    rw [number, Array.findIdx?_push, hi]
    simp [hself]

/-- What has a number keeps it when other contents are numbered. -/
theorem number_keeps {k k' : Kind} {contents : Contents} {d : Nat}
    (h : number k contents = (d, contents)) :
    number k (number k' contents).2 = (d, (number k' contents).2) := by
  rw [number] at h
  split at h
  · next i hi =>
    cases h
    rw [number.eq_1 k']
    split
    · rw [number, hi]
    · rw [number, Array.findIdx?_push, hi]
      rfl
  · next hi =>
    have hsize : (contents.push k).size = contents.size := congrArg Array.size (congrArg Prod.snd h)
    simp at hsize

end Contents

/-! ### Forms over the same nodes -/

theorem FunctionRef.relabel_id (r : FunctionRef) : r.relabel id = r := by
  induction r with
  | primitive p => rfl
  | typed p as a => rw [relabel, List.map_id, id]
  | partialApp r as ih => rw [relabel, List.map_id, ih]
  | virtual as a => rw [relabel, List.map_id, id]
  | graph m => rfl

theorem Slot.reordered_relabel (v : Slot) : v.Reordered (v.relabel id id) := by
  cases v with
  | possibilities p =>
    refine .possibilities ?_
    have hid : Candidate.relabel id = id := by
      funext c
      cases c with
      | constant c => rfl
      | function r => exact congrArg Candidate.function r.relabel_id
    simp [hid]
  | _ => exact .same _

theorem Kind.reordered_relabel (k : Kind) : k.Reordered (k.relabel id id) := by
  cases k with
  | scalar v t => exact .scalar t v.reordered_relabel
  | function v => exact .function v.reordered_relabel
  | record tag fs => exact .record tag (.of_eq (List.map_id fs).symm)
  | tagged as => exact .tagged (.of_eq (List.map_id as).symm)
  | _ =>
    simp only [relabel, List.map_id, id]
    exact .same _

/-! ### Forms with the same content -/

section

variable {α β : Type} {R : α → α → Prop} {f g : α → β} {as bs : List α}

theorem map_eq_of_forall₂ (hfg : ∀ x y, R x y → f x = g y) (h : List.Forall₂ R as bs) :
    as.map f = bs.map g := by
  induction h with
  | nil => rfl
  | cons hab _ ih => rw [List.map_cons, List.map_cons, hfg _ _ hab, ih]

theorem Matches.map_perm (hf : ∀ x y, R x y → f x = f y) (h : Matches R as bs)
    (hapart : ApartIn R as bs) : (as.map f).Perm (bs.map f) := by
  obtain ⟨cs, hperm, hpairs⟩ := h.pairing hapart
  rw [map_eq_of_forall₂ hf hpairs]
  exact hperm.map f

end

section

variable {R : NodeId → NodeId → Prop} {f : NodeId → Nat}

theorem FunctionRef.Alike.relabel (hf : ∀ x y, R x y → f x = f y) {r r' : FunctionRef}
    (h : r.Alike R r') : r.relabel f = r'.relabel f := by
  induction h using FunctionRef.Alike.rule_induction with
  | primitive p => rfl
  | typed p as bs a b has hab =>
    simp only [FunctionRef.relabel, map_eq_of_forall₂ hf has, hf _ _ hab]
  | partialApp r r' as bs hr has ih =>
    simp only [FunctionRef.relabel, map_eq_of_forall₂ hf has, ih]
  | virtual as bs a b has hab =>
    simp only [FunctionRef.relabel, map_eq_of_forall₂ hf has, hf _ _ hab]
  | graph n => rfl

theorem Candidate.Alike.relabel (hf : ∀ x y, R x y → f x = f y) {c d : Candidate}
    (h : c.Alike R d) : c.relabel f = d.relabel f := by
  cases c with
  | constant c =>
    cases d with
    | constant d =>
      obtain rfl : c = d := h
      rfl
    | function g => exact h.elim
  | function g =>
    cases d with
    | constant d => exact h.elim
    | function g' => exact congrArg Candidate.function (FunctionRef.Alike.relabel hf h)

theorem Slot.Alike.relabel (hf : ∀ x y, R x y → f x = f y) (number : PendingId → Nat) {v w : Slot}
    (h : v.Alike R w) (hapart : v.Apart R w) :
    (v.relabel f number).Reordered (w.relabel f number) := by
  cases v with
  | possibilities p =>
    cases w with
    | possibilities q =>
      rcases h with h | h
      · exact .possibilities (by rw [hapart.1 h])
      · exact .possibilities (h.map_perm (fun _ _ => Candidate.Alike.relabel hf) hapart.2)
    | _ => exact h.elim
  | constant c =>
    cases w with
    | constant d =>
      obtain rfl : c = d := h
      exact .same _
    | _ => exact h.elim
  | anything =>
    cases w with
    | anything => exact .same _
    | _ => exact h.elim
  | pending p =>
    cases w with
    | pending q =>
      obtain rfl : p = q := h
      exact .same _
    | _ => exact h.elim

/-- **Forms that are alike have the same content**, if related nodes have the same number. -/
theorem Kind.Alike.relabel (hf : ∀ x y, R x y → f x = f y) (number : PendingId → Nat) {k k' : Kind}
    (h : k.Alike R k') (hapart : k.Apart R k') :
    (k.relabel f number).Reordered (k'.relabel f number) := by
  have hlabels : ∀ {β : Type} {xs ys : List (β × NodeId)}, Matches (SameLabel R) xs ys →
      ApartIn (SameLabel R) xs ys →
        (xs.map fun x => (x.1, f x.2)).Perm (ys.map fun x => (x.1, f x.2)) := fun h hx =>
    h.map_perm (fun x y hxy => Prod.ext hxy.1 (hf _ _ hxy.2)) hx
  cases h.sameForm with
  | scalar v w t u =>
    obtain ⟨rfl, h⟩ := h
    exact .scalar t (h.relabel hf number hapart)
  | tuple as bs =>
    rw [Kind.relabel, map_eq_of_forall₂ hf h]
    exact .same _
  | list a b =>
    rw [Kind.relabel, hf _ _ h]
    exact .same _
  | array a b shape shape' =>
    rw [Kind.relabel, h.1, hf _ _ h.2]
    exact .same _
  | record tag tag' fs gs =>
    obtain ⟨rfl, h⟩ := h
    exact .record tag (hlabels h hapart)
  | union as bs => exact .union (Matches.map_perm hf h hapart)
  | tagged as bs => exact .tagged (hlabels h hapart)
  | function v w => exact .function (Slot.Alike.relabel hf number h hapart)
  | jtagged a b =>
    rw [Kind.relabel, hf _ _ h]
    exact .same _
  | error r r' =>
    obtain rfl : r = r' := h
    exact .same _
  | type t u =>
    obtain rfl : t = u := h
    exact .same _

theorem Slot.Alike.reordered {v w : Slot} (h : v.Alike (· = ·) w)
    (hapart : v.Apart (· = ·) w) : v.Reordered w :=
  (v.reordered_relabel.trans (h.relabel (fun _ _ hxy => hxy) id hapart)).trans
    w.reordered_relabel.symm

/-- Forms over the same nodes are the same up to order, if nothing is matched twice. -/
theorem Kind.Alike.reordered {k k' : Kind} (h : k.Alike (· = ·) k')
    (hapart : k.Apart (· = ·) k') : k.Reordered k' :=
  (k.reordered_relabel.trans (h.relabel (fun _ _ hxy => hxy) id hapart)).trans
    k'.reordered_relabel.symm

end

end ValueInference
