/-
Nodes that are made twice.

What a computation on the store makes it makes again when it is run again later.  An interned node
is found again, and so is whatever was there before; any other node is made anew, over what was made
anew.  The two nodes are *replicas* of each other: neither a text nor a comparison tells them apart,
and only their numbers do.

* **`Kind.InOrder`** — the same form, with related nodes in the same places;
* **`Store.Tops`** — a node that is newer than all that it leads to;
* **`Store.Replicas`** — the same node, or two that were made of replicas in one way;
* **`Store.Replicas.render_eq`**, **`Store.Grows.render_eq`** — replicas have the same text, and
  have it for good;
* **`Store.equal_of_replicas`**, **`Store.equalCandidates_of_replicas`** — comparisons of replicas
  give what they give for the others, also when these are compared in an earlier store.
-/
import ValueInference.Proofs.Continuing
import ValueInference.Proofs.Equivalence
import ValueInference.Proofs.Terminating

namespace ValueInference

/-! ### Forms with related nodes in the same places -/

variable {R S : NodeId → NodeId → Prop}

/-- The same slot, or sets with the same candidates over related nodes in the same places. -/
inductive Slot.InOrder (R : NodeId → NodeId → Prop) : Slot → Slot → Prop
  | constant (c : Constant) : InOrder R (.constant c) (.constant c)
  | anything : InOrder R .anything .anything
  | possibilities {p q : Possibilities} :
      List.Forall₂ (Candidate.Alike R) p.candidates q.candidates →
        InOrder R (.possibilities p) (.possibilities q)
  | pending (p : PendingId) : InOrder R (.pending p) (.pending p)

/-- The same form over related nodes in the same places. -/
inductive Kind.InOrder (R : NodeId → NodeId → Prop) : Kind → Kind → Prop
  | scalar {v w : Slot} (ty : Ty) : v.InOrder R w → InOrder R (.scalar v ty) (.scalar w ty)
  | tuple {as bs : List NodeId} : List.Forall₂ R as bs → InOrder R (.tuple as) (.tuple bs)
  | list {a b : NodeId} : R a b → InOrder R (.list a) (.list b)
  | array {a b : NodeId} (shape : Shape) : R a b → InOrder R (.array a shape) (.array b shape)
  | record {fs gs : List (String × NodeId)} (tag : String) :
      List.Forall₂ (SameLabel R) fs gs → InOrder R (.record tag fs) (.record tag gs)
  | union {as bs : List NodeId} : List.Forall₂ R as bs → InOrder R (.union as) (.union bs)
  | tagged {xs ys : List (UInt32 × NodeId)} :
      List.Forall₂ (SameLabel R) xs ys → InOrder R (.tagged xs) (.tagged ys)
  | function {v w : Slot} : v.InOrder R w → InOrder R (.function v) (.function w)
  | jtagged {a b : NodeId} : R a b → InOrder R (.jtagged a) (.jtagged b)
  | error (reason : ErrorReason) : InOrder R (.error reason) (.error reason)
  | type (ty : Ty) : InOrder R (.type ty) (.type ty)

theorem FunctionRef.Alike.children {f g : FunctionRef} (h : f.Alike R g) :
    List.Forall₂ R f.children g.children := by
  induction h using FunctionRef.Alike.rule_induction with
  | primitive p => exact .nil
  | typed p as bs a b has hab => exact List.rel_append has (.cons hab .nil)
  | partialApp f g as bs hfg has ih => exact List.rel_append ih has
  | virtual as bs a b has hab => exact List.rel_append has (.cons hab .nil)
  | graph n => exact .nil

theorem Candidate.Alike.children {c d : Candidate} (h : c.Alike R d) :
    List.Forall₂ R c.children d.children := by
  cases c with
  | constant x =>
    cases d with
    | constant y => exact .nil
    | function g => exact h.elim
  | function f =>
    cases d with
    | constant y => exact h.elim
    | function g => exact FunctionRef.Alike.children h

namespace Slot.InOrder

variable {v w : Slot}

theorem refl (h : ∀ c ∈ v.children, R c c) : v.InOrder R v := by
  cases v with
  | constant c => exact .constant c
  | anything => exact .anything
  | possibilities p =>
    refine .possibilities (List.forall₂_same.mpr fun c hc => .refl fun x hx => h x ?_)
    exact List.mem_flatMap_of_mem hc hx
  | pending p => exact .pending p

theorem imp (h : v.InOrder R w) (hRS : ∀ a ∈ v.children, ∀ b ∈ w.children, R a b → S a b) :
    v.InOrder S w := by
  cases h with
  | constant c => exact .constant c
  | anything => exact .anything
  | possibilities h =>
    refine .possibilities (forall₂_imp_mem h fun c hc d hd hcd => hcd.imp fun a ha b hb => ?_)
    exact hRS a (List.mem_flatMap_of_mem hc ha) b (List.mem_flatMap_of_mem hd hb)
  | pending p => exact .pending p

theorem symm (h : v.InOrder R w) : w.InOrder (fun b a => R a b) v := by
  cases h with
  | constant c => exact .constant c
  | anything => exact .anything
  | possibilities h => exact .possibilities (h.imp fun _ _ => Candidate.Alike.flip).flip
  | pending p => exact .pending p

theorem children (h : v.InOrder R w) : List.Forall₂ R v.children w.children := by
  cases h with
  | possibilities h => exact List.rel_flatMap h fun _ _ => Candidate.Alike.children
  | _ => exact .nil

theorem alike (h : v.InOrder R w) : v.Alike R w := by
  cases h with
  | constant c => rfl
  | anything => trivial
  | possibilities h => exact .inr (matches_of_forall₂ h)
  | pending p => rfl

theorem relabel {f : NodeId → Nat} (h : v.InOrder R w) (hf : ∀ x y, R x y → f x = f y)
    (number : PendingId → Nat) : v.relabel f number = w.relabel f number := by
  cases h with
  | possibilities h =>
    rw [Slot.relabel, Slot.relabel,
      map_eq_of_forall₂ (R := Candidate.Alike R) (fun _ _ => Candidate.Alike.relabel hf) h]
  | _ => rfl

end Slot.InOrder

namespace Kind.InOrder

variable {k k' : Kind}

theorem refl (h : ∀ c ∈ k.children, R c c) : k.InOrder R k := by
  have hlabels : ∀ {β : Type} {xs : List (β × NodeId)}, (∀ c ∈ xs.map Prod.snd, R c c) →
      List.Forall₂ (SameLabel R) xs xs := fun h =>
    List.forall₂_same.mpr fun x hx => ⟨rfl, h x.2 (List.mem_map_of_mem hx)⟩
  cases k with
  | scalar v ty => exact .scalar ty (.refl h)
  | tuple items => exact .tuple (List.forall₂_same.mpr h)
  | list item => exact .list (h item List.mem_cons_self)
  | array item shape => exact .array shape (h item List.mem_cons_self)
  | record tag fields => exact .record tag (hlabels h)
  | union members => exact .union (List.forall₂_same.mpr h)
  | tagged options => exact .tagged (hlabels h)
  | function v => exact .function (.refl h)
  | jtagged inner => exact .jtagged (h inner List.mem_cons_self)
  | error reason => exact .error reason
  | type ty => exact .type ty

theorem imp (h : k.InOrder R k') (hRS : ∀ a ∈ k.children, ∀ b ∈ k'.children, R a b → S a b) :
    k.InOrder S k' := by
  have hlabels : ∀ {β : Type} {xs ys : List (β × NodeId)}, List.Forall₂ (SameLabel R) xs ys →
      (∀ a ∈ xs.map Prod.snd, ∀ b ∈ ys.map Prod.snd, R a b → S a b) →
      List.Forall₂ (SameLabel S) xs ys := fun h hRS =>
    forall₂_imp_mem h fun x hx y hy hxy =>
      ⟨hxy.1, hRS _ (List.mem_map_of_mem hx) _ (List.mem_map_of_mem hy) hxy.2⟩
  cases h with
  | scalar ty h => exact .scalar ty (h.imp hRS)
  | tuple h => exact .tuple (forall₂_imp_mem h hRS)
  | list h => exact .list (hRS _ List.mem_cons_self _ List.mem_cons_self h)
  | array shape h => exact .array shape (hRS _ List.mem_cons_self _ List.mem_cons_self h)
  | record tag h => exact .record tag (hlabels h hRS)
  | union h => exact .union (forall₂_imp_mem h hRS)
  | tagged h => exact .tagged (hlabels h hRS)
  | function h => exact .function (h.imp hRS)
  | jtagged h => exact .jtagged (hRS _ List.mem_cons_self _ List.mem_cons_self h)
  | error reason => exact .error reason
  | type ty => exact .type ty

theorem symm (h : k.InOrder R k') : k'.InOrder (fun b a => R a b) k := by
  have hlabels : ∀ {β : Type} {xs ys : List (β × NodeId)}, List.Forall₂ (SameLabel R) xs ys →
      List.Forall₂ (SameLabel fun b a => R a b) ys xs := fun h =>
    (h.imp fun _ _ hxy => (⟨hxy.1.symm, hxy.2⟩ : SameLabel (fun b a => R a b) _ _)).flip
  cases h with
  | scalar ty h => exact .scalar ty h.symm
  | tuple h => exact .tuple h.flip
  | list h => exact .list h
  | array shape h => exact .array shape h
  | record tag h => exact .record tag (hlabels h)
  | union h => exact .union h.flip
  | tagged h => exact .tagged (hlabels h)
  | function h => exact .function h.symm
  | jtagged h => exact .jtagged h
  | error reason => exact .error reason
  | type ty => exact .type ty

theorem children (h : k.InOrder R k') : List.Forall₂ R k.children k'.children := by
  have hlabels : ∀ {β : Type} {xs ys : List (β × NodeId)}, List.Forall₂ (SameLabel R) xs ys →
      List.Forall₂ R (xs.map Prod.snd) (ys.map Prod.snd) := fun h =>
    List.rel_map (fun _ _ hxy => hxy.2) h
  cases h with
  | scalar ty h => exact h.children
  | tuple h => exact h
  | list h => exact .cons h .nil
  | array shape h => exact .cons h .nil
  | record tag h => exact hlabels h
  | union h => exact h
  | tagged h => exact hlabels h
  | function h => exact h.children
  | jtagged h => exact .cons h .nil
  | error reason => exact .nil
  | type ty => exact .nil

theorem alike (h : k.InOrder R k') : k.Alike R k' := by
  cases h with
  | scalar ty h => exact ⟨rfl, h.alike⟩
  | tuple h => exact h
  | list h => exact h
  | array shape h => exact ⟨rfl, h⟩
  | record tag h => exact ⟨rfl, matches_of_forall₂ h⟩
  | union h => exact matches_of_forall₂ h
  | tagged h => exact matches_of_forall₂ h
  | function h => exact h.alike
  | jtagged h => exact h
  | error reason => rfl
  | type ty => rfl

theorem relabel {f : NodeId → Nat} (h : k.InOrder R k') (hf : ∀ x y, R x y → f x = f y)
    (number : PendingId → Nat) : k.relabel f number = k'.relabel f number := by
  have hlabels : ∀ {β : Type} {xs ys : List (β × NodeId)}, List.Forall₂ (SameLabel R) xs ys →
      (xs.map fun x => (x.1, f x.2)) = ys.map fun x => (x.1, f x.2) := fun h =>
    map_eq_of_forall₂ (fun _ _ hxy => Prod.ext hxy.1 (hf _ _ hxy.2)) h
  cases h with
  | scalar ty h => rw [Kind.relabel, Kind.relabel, h.relabel hf]
  | tuple h => rw [Kind.relabel, Kind.relabel, map_eq_of_forall₂ hf h]
  | list h => rw [Kind.relabel, Kind.relabel, hf _ _ h]
  | array shape h => rw [Kind.relabel, Kind.relabel, hf _ _ h]
  | record tag h => exact congrArg (Kind.record tag) (hlabels h)
  | union h => rw [Kind.relabel, Kind.relabel, map_eq_of_forall₂ hf h]
  | tagged h => exact congrArg Kind.tagged (hlabels h)
  | function h => rw [Kind.relabel, Kind.relabel, h.relabel hf]
  | jtagged h => rw [Kind.relabel, Kind.relabel, hf _ _ h]
  | error reason => rfl
  | type ty => rfl

end Kind.InOrder

/-! ### Texts of such forms -/

section

variable {sub sub' : NodeId → String}

theorem FunctionRef.Alike.render (hR : ∀ x y, R x y → sub x = sub' y) {f g : FunctionRef}
    (h : f.Alike R g) : f.render sub = g.render sub' := by
  induction h using FunctionRef.Alike.rule_induction with
  | primitive p => rfl
  | typed p as bs a b has hab =>
    rw [FunctionRef.render, FunctionRef.render, map_eq_of_forall₂ hR has, hR _ _ hab]
  | partialApp f g as bs hfg has ih =>
    rw [FunctionRef.render, FunctionRef.render, ih, map_eq_of_forall₂ hR has]
  | virtual as bs a b has hab =>
    rw [FunctionRef.render, FunctionRef.render, map_eq_of_forall₂ hR has, hR _ _ hab]
  | graph n => rfl

theorem Candidate.Alike.render (hR : ∀ x y, R x y → sub x = sub' y) {c d : Candidate}
    (h : c.Alike R d) : c.render sub = d.render sub' := by
  cases c with
  | constant x =>
    cases d with
    | constant y => exact congrArg Constant.render h
    | function g => exact h.elim
  | function f =>
    cases d with
    | constant y => exact h.elim
    | function g => exact FunctionRef.Alike.render hR h

theorem render_possibilities (hR : ∀ x y, R x y → sub x = sub' y) {p q : Possibilities}
    (h : List.Forall₂ (Candidate.Alike R) p.candidates q.candidates) :
    p.render sub = q.render sub' := by
  rw [Possibilities.render, Possibilities.render,
    map_eq_of_forall₂ (R := Candidate.Alike R) (fun _ _ => Candidate.Alike.render hR) h]

end

namespace Store

variable {s t u : Store} {bound n : Nat} {a b c d : NodeId} {made : NodeId → Prop}

/-! ### Nodes below a bound -/

/-- What is below the bound leads to nothing else, and the results of pendings do not, either. -/
structure Capped (s : Store) (bound : Nat) : Prop where
  children : ∀ m < bound, ∀ c ∈ (s.kind m).children, c < bound
  results : ∀ p slot, s.result? p = some slot → ∀ c ∈ slot.children, c < bound

/-- The node is newer than all that it leads to. -/
structure Tops (s : Store) (n : NodeId) : Prop extends s.Capped n where
  above : ∀ c ∈ (s.kind n).children, c < n

theorem Reachable.informed (h : s.Reachable) : s.Informed := by
  induction h with
  | start => exact fun p slot hp => absurd hp (by simp [result?, pendingStatus])
  | step c _ _ ih => exact ih.step (.change c)

theorem Reachable.capped (h : s.Reachable) : s.Capped s.nodes.size where
  children _ _ _ hc := h.sound.child_lt hc
  results p slot hp := (knowsSlot_iff.mp (h.informed p slot hp)).1

theorem Grows.result?_eq (h : s.Grows t) (p : PendingId) : t.result? p = s.result? p := by
  rw [result?, pendingStatus, h.pendings, ← pendingStatus, ← result?]

theorem Grows.capped (h : s.Grows t) (hs : s.Capped bound) (hbound : bound ≤ s.nodes.size) :
    t.Capped bound where
  children m hm := by
    rw [h.kind_eq (hm.trans_le hbound)]
    exact hs.children m hm
  results p slot := by
    rw [h.result?_eq]
    exact hs.results p slot

theorem Grows.tops (h : s.Grows t) (hn : n < s.nodes.size) (hs : s.Tops n) : t.Tops n where
  toCapped := h.capped hs.toCapped hn.le
  above := by
    rw [h.kind_eq hn]
    exact hs.above

/-! ### Texts -/

/-- What a slot has come to mentions what the slot mentions, or what a result does. -/
theorem mem_children_of_resolve {v : Slot} (h : c ∈ (s.resolve v).children) :
    c ∈ v.children ∨ ∃ p slot, s.result? p = some slot ∧ c ∈ slot.children := by
  have hfollow : ∀ fuel (v : Slot), c ∈ (s.follow fuel v).children →
      c ∈ v.children ∨ ∃ p slot, s.result? p = some slot ∧ c ∈ slot.children := by
    intro fuel
    induction fuel with
    | zero => exact fun v hc => .inl (by cases v <;> exact hc)
    | succ fuel ih =>
      intro v hc
      cases v with
      | pending p =>
        rw [follow] at hc
        split at hc
        · next slot hp => exact (ih slot hc).elim (fun hc => .inr ⟨p, slot, hp, hc⟩) .inr
        · exact .inl hc
      | _ => exact .inl hc
  exact hfollow _ v h

section

variable {sub sub' : NodeId → String} {v w : Slot} {k k' : Kind}
  (hp : t.pendings = s.pendings) (hR : ∀ x y, R x y → sub x = sub' y)
  (hresults : ∀ p slot, s.result? p = some slot → ∀ x ∈ slot.children, sub x = sub' x)

include hp hR hresults

theorem renderSlotWith_of_inOrder (h : v.InOrder R w) :
    s.renderSlotWith sub v = t.renderSlotWith sub' w := by
  have hsame : t.renderSlotWith sub' w = s.renderSlotWith sub' w := by
    simp only [renderSlotWith, resolve_congr hp, pendingNumber, hp]
  rw [hsame]
  cases h with
  | constant c => simp only [renderSlotWith, resolve_self s (.constant c) rfl]
  | anything => simp only [renderSlotWith, resolve_self s .anything rfl]
  | @possibilities p q h =>
    simp only [renderSlotWith, resolve_self s (.possibilities _) rfl]
    exact render_possibilities hR h
  | pending p =>
    refine renderSlotWith_congr fun c hc => ?_
    rcases mem_children_of_resolve hc with hc | ⟨q, slot, hq, hc⟩
    · exact absurd hc List.not_mem_nil
    · exact hresults q slot hq c hc

/-- **The text of a form,** from the texts of the nodes in it and in the results of pendings. -/
theorem renderKindWith_of_inOrder (h : k.InOrder R k') :
    s.renderKindWith sub k = t.renderKindWith sub' k' := by
  cases h with
  | @scalar v w ty h =>
    have htext := renderSlotWith_of_inOrder hp hR hresults h
    simp only [renderKindWith, resolve_congr hp]
    cases h with
    | constant c => simp only [resolve_self s (.constant c) rfl, htext]
    | anything => simp only [resolve_self s .anything rfl]
    | @possibilities p q h =>
      simp only [resolve_self s (.possibilities _) rfl, htext]
    | pending p =>
      -- what the pending has come to is followed once more
      have hknown : s.renderSlotWith sub (s.resolve (.pending p)) =
          t.renderSlotWith sub' (s.resolve (.pending p)) := by
        refine renderSlotWith_of_inOrder (R := fun x y => sub x = sub' y) hp (fun _ _ => id)
          hresults (.refl fun c hc => ?_)
        rcases mem_children_of_resolve hc with hc | ⟨q, slot, hq, hc⟩
        · exact absurd hc List.not_mem_nil
        · exact hresults q slot hq c hc
      split
      · rfl
      · rw [hknown]
  | tuple h => rw [renderKindWith, renderKindWith, map_eq_of_forall₂ hR h]
  | list h => rw [renderKindWith, renderKindWith, hR _ _ h]
  | array shape h => rw [renderKindWith, renderKindWith, hR _ _ h]
  | record tag h =>
    refine congrArg (fun texts => "*" ++ tag ++ "(" ++ ", ".intercalate texts ++ ")") ?_
    exact map_eq_of_forall₂ (R := SameLabel R) (fun _ _ hxy =>
      congrArg₂ (fun name text => name ++ "=" ++ text) hxy.1 (hR _ _ hxy.2)) h
  | union h => rw [renderKindWith, renderKindWith, map_eq_of_forall₂ hR h]
  | tagged h =>
    refine congrArg (fun texts => "TU(" ++ ", ".intercalate texts ++ ")") ?_
    exact map_eq_of_forall₂ (R := SameLabel R) (fun _ _ hxy =>
      congrArg₂ (fun (tag : UInt32) text => s!"{tag.toNat}: " ++ text) hxy.1 (hR _ _ hxy.2)) h
  | function h => rw [renderKindWith, renderKindWith, renderSlotWith_of_inOrder hp hR hresults h]
  | jtagged h => rw [renderKindWith, renderKindWith, hR _ _ h]
  | error reason => rfl
  | type ty => rfl

end

/-- **The text of a node below a bound** depends on what is below the bound alone, if there are
levels enough. -/
theorem renderBelow_congr (hs : s.Capped bound) (hkind : ∀ m < bound, t.kind m = s.kind m)
    (hp : t.pendings = s.pendings) :
    ∀ {depth depth' : Nat} {path path' : List NodeId} {n : NodeId}, n < bound →
      (∀ m < bound, m ∈ path ↔ m ∈ path') → left (Finset.range bound) path < depth →
        left (Finset.range bound) path' < depth' →
          s.renderBelow depth path n = t.renderBelow depth' path' n := by
  intro depth
  induction depth with
  | zero => exact fun _ _ h => absurd h (Nat.not_lt_zero _)
  | succ depth ih =>
    intro depth' path path' n hn hpath hdepth hdepth'
    obtain ⟨depth', rfl⟩ : ∃ k, depth' = k + 1 := ⟨depth' - 1, by omega⟩
    rw [renderBelow, renderBelow]
    by_cases hmem : n ∈ path
    · rw [if_pos hmem, if_pos ((hpath n hn).mp hmem)]
    have hmem' : n ∉ path' := fun h => hmem ((hpath n hn).mpr h)
    rw [if_neg hmem, if_neg hmem', hkind n hn]
    have hbelow : ∀ c < bound, s.renderBelow depth (n :: path) c =
        t.renderBelow depth' (n :: path') c := by
      intro c hc
      have hrange := Finset.mem_range.mpr hn
      refine ih hc (fun m hm => ?_) ?_ ?_
      · rw [List.mem_cons, List.mem_cons, hpath m hm]
      · exact (left_lt hrange hmem (List.Subset.refl _)).trans_le (Nat.le_of_lt_succ hdepth)
      · exact (left_lt hrange hmem' (List.Subset.refl _)).trans_le (Nat.le_of_lt_succ hdepth')
    refine renderKindWith_of_inOrder (R := fun x y => x = y ∧ x < bound) hp ?_ ?_ ?_
    · rintro x _ ⟨rfl, hx⟩
      exact hbelow x hx
    · exact fun p slot hslot x hx => hbelow x (hs.results p slot hslot x hx)
    · exact .refl fun c hc => ⟨rfl, hs.children n hn c hc⟩

theorem left_range_le (path : List NodeId) : left (Finset.range bound) path ≤ bound :=
  left_le_card.trans_eq (Finset.card_range bound)

/-- **Texts stay as they are.** -/
theorem Grows.render_eq (h : s.Grows t) (hs : s.Capped s.nodes.size) (ha : a < s.nodes.size) :
    t.render a = s.render a :=
  (renderBelow_congr hs (fun _ => h.kind_eq) h.pendings ha (fun _ _ => Iff.rfl)
    (Nat.lt_succ_of_le (left_range_le _)) (Nat.lt_succ_of_le ((left_range_le _).trans h.size_le))).symm

/-- The text of a node that is newer than what it leads to is the text of its form. -/
theorem Tops.render_eq (h : s.Tops a) (ha : a < s.nodes.size) :
    s.render a = s.renderKindWith s.render (s.kind a) := by
  have hbelow : ∀ c < a, s.renderBelow s.nodes.size [a] c = s.render c := by
    refine fun c hc => renderBelow_congr h.toCapped (fun _ _ => rfl) rfl hc (fun m hm => ?_)
      ((left_range_le _).trans_lt ha) ((left_range_le _).trans_lt (Nat.lt_succ_of_lt ha))
    exact iff_of_false (fun hmem => hm.ne (List.mem_singleton.mp hmem)) List.not_mem_nil
  rw [render, renderBelow, if_neg List.not_mem_nil]
  refine renderKindWith_of_inOrder (R := fun x y => x = y ∧ x < a) rfl ?_ ?_ ?_
  · rintro x _ ⟨rfl, hx⟩
    exact hbelow x hx
  · exact fun p slot hslot x hx => hbelow x (h.results p slot hslot x hx)
  · exact .refl fun c hc => ⟨rfl, h.above c hc⟩

/-! ### Replicas -/

/-- A node that a computation made for itself alone: it is among those that were made, and it is not
shared. -/
structure Own (s : Store) (made : NodeId → Prop) (n : NodeId) : Prop extends s.Tops n where
  isMade : made n
  unshared : s.isInterned n = false

/-- Related nodes are the same, or they were made in one way of related nodes. -/
def Replicating (s : Store) (made : NodeId → Prop) (R : NodeId → NodeId → Prop) : Prop :=
  ∀ a b, R a b → a = b ∨ s.Own made a ∧ s.Own made b ∧ s.digest a = s.digest b ∧
    (s.kind a).InOrder R (s.kind b)

/-- The two nodes are the same one, or two that were made of replicas in one way. -/
structure Replicas (s : Store) (made : NodeId → Prop) (a b : NodeId) : Prop where
  left_lt : a < s.nodes.size
  right_lt : b < s.nodes.size
  related : ∃ R, s.Replicating made R ∧ R a b

namespace Replicas

theorem refl (ha : a < s.nodes.size) : s.Replicas made a a :=
  ⟨ha, ha, Eq, fun _ _ h => .inl h, rfl⟩

/-- Replicas are the same, or they have forms over replicas in the same places. -/
theorem cases (hs : s.Sound) (h : s.Replicas made a b) :
    a = b ∨ s.Own made a ∧ s.Own made b ∧ s.digest a = s.digest b ∧
      (s.kind a).InOrder (s.Replicas made) (s.kind b) := by
  obtain ⟨-, -, R, hR, hab⟩ := h
  refine (hR a b hab).imp id fun ⟨ha, hb, hdigest, hform⟩ => ⟨ha, hb, hdigest, ?_⟩
  exact hform.imp fun c hc d hd hcd => ⟨hs.child_lt hc, hs.child_lt hd, R, hR, hcd⟩

/-- **Nodes that were made of replicas** in one way are replicas. -/
theorem of_made (hs : s.Sound) (ha : a < s.nodes.size) (hb : b < s.nodes.size)
    (hown : s.Own made a) (hown' : s.Own made b) (hdigest : s.digest a = s.digest b)
    (hform : (s.kind a).InOrder (s.Replicas made) (s.kind b)) : s.Replicas made a b := by
  refine ⟨ha, hb, fun x y => s.Replicas made x y ∨ x = a ∧ y = b, ?_, .inr ⟨rfl, rfl⟩⟩
  rintro x y (hxy | ⟨rfl, rfl⟩)
  · refine (hxy.cases hs).imp id fun ⟨hx, hy, hdigest, hform⟩ => ⟨hx, hy, hdigest, ?_⟩
    exact hform.imp fun _ _ _ _ => .inl
  · exact .inr ⟨hown, hown', hdigest, hform.imp fun _ _ _ _ => .inl⟩

theorem symm (h : s.Replicas made a b) : s.Replicas made b a := by
  obtain ⟨ha, hb, R, hR, hab⟩ := h
  refine ⟨hb, ha, fun y x => R x y, fun y x hxy => ?_, hab⟩
  exact (hR x y hxy).imp Eq.symm fun ⟨hx, hy, hdigest, hform⟩ => ⟨hy, hx, hdigest.symm, hform.symm⟩

/-- What counts as made matters for nodes that are not shared only. -/
theorem imp {made' : NodeId → Prop} (h : s.Replicas made a b)
    (hmade : ∀ n, s.isInterned n = false → made n → made' n) : s.Replicas made' a b := by
  obtain ⟨ha, hb, R, hR, hab⟩ := h
  refine ⟨ha, hb, R, fun a b hab => (hR a b hab).imp id ?_, hab⟩
  exact fun ⟨ha, hb, hform⟩ => ⟨⟨ha.toTops, hmade a ha.unshared ha.isMade, ha.unshared⟩,
    ⟨hb.toTops, hmade b hb.unshared hb.isMade, hb.unshared⟩, hform⟩

/-- Replicas of a node that no computation made are the node itself. -/
theorem eq_iff (hs : s.Sound) (h : s.Replicas made a b) (hc : ¬ made c) : a = c ↔ b = c := by
  rcases h.cases hs with rfl | ⟨ha, hb, -⟩
  · exact Iff.rfl
  · exact iff_of_false (fun hac => hc (hac ▸ ha.isMade)) fun hbc => hc (hbc ▸ hb.isMade)

theorem digest_eq (hs : s.Sound) (h : s.Replicas made a b) : s.digest a = s.digest b := by
  rcases h.cases hs with rfl | ⟨-, -, hdigest, -⟩
  · rfl
  · exact hdigest

theorem eq_of_isInterned (hs : s.Sound) (h : s.Replicas made a b)
    (ha : s.isInterned a = true) : a = b := by
  refine (h.cases hs).resolve_right fun ⟨hown, _⟩ => ?_
  exact absurd ha (Bool.eq_false_iff.mp hown.unshared)

theorem isInterned_eq (hs : s.Sound) (h : s.Replicas made a b) :
    s.isInterned a = s.isInterned b := by
  rcases h.cases hs with rfl | ⟨ha, hb, -⟩
  · rfl
  · rw [ha.unshared, hb.unshared]

theorem kind (hs : s.Sound) (h : s.Replicas made a b) :
    (s.kind a).InOrder (s.Replicas made) (s.kind b) := by
  rcases h.cases hs with rfl | ⟨-, -, -, hform⟩
  · exact .refl fun c hc => .refl (hs.child_lt hc)
  · exact hform

/-- **Replicas have the same text.** -/
theorem render_eq (hs : s.Sound) (h : s.Replicas made a b) : s.render a = s.render b := by
  -- what was made leads only to older nodes
  induction a using Nat.strongRecOn generalizing b with
  | ind a ih =>
    rcases h.cases hs with rfl | ⟨ha, hb, -, hform⟩
    · rfl
    rw [ha.toTops.render_eq h.left_lt, hb.toTops.render_eq h.right_lt]
    refine renderKindWith_of_inOrder (R := fun x y => s.Replicas made x y ∧ x < a) rfl ?_ ?_ ?_
    · exact fun x y hxy => ih x hxy.2 hxy.1
    · exact fun _ _ _ _ _ => rfl
    · exact hform.imp fun c hc d hd hcd => ⟨hcd, ha.above c hc⟩

end Replicas

theorem Own.grows (h : s.Grows t) (hn : n < s.nodes.size) (hown : s.Own made n) :
    t.Own made n where
  toTops := h.tops hn hown.toTops
  isMade := hown.isMade
  unshared := by
    rw [h.isInterned_eq hn]
    exact hown.unshared

/-- **Replicas stay replicas.** -/
theorem Grows.replicas (h : s.Grows t) (hs : s.Sound) (hab : s.Replicas made a b) :
    t.Replicas made a b := by
  refine ⟨hab.left_lt.trans_le h.size_le, hab.right_lt.trans_le h.size_le, s.Replicas made, ?_,
    hab⟩
  intro x y hxy
  refine (hxy.cases hs).imp id fun ⟨hx, hy, hdigest, hform⟩ => ?_
  rw [h.digest_eq hxy.left_lt, h.digest_eq hxy.right_lt, h.kind_eq hxy.left_lt,
    h.kind_eq hxy.right_lt]
  exact ⟨hx.grows h hxy.left_lt, hy.grows h hxy.right_lt, hdigest, hform⟩

/-! ### Comparisons -/

/-- What equals one of two replicas equals the other one, and on the right as well. -/
theorem EqualIn.of_replicas (hs : s.Sound) (hab : s.Replicas made b a) (hcd : s.Replicas made c d)
    (h : s.EqualIn a c) : s.EqualIn b d := by
  have hS : s.Bisimulation (Relation.Comp (Relation.Comp (s.Replicas made) s.EqualIn)
      (s.Replicas made)) := by
    rintro x y ⟨y', ⟨x', hx, hxy⟩, hy⟩
    have hsame : ∀ {z e : NodeId}, e ∈ (s.kind z).children → s.Replicas made e e ∧ s.EqualIn e e :=
      fun he => ⟨.refl (hs.child_lt he), equalIn_refl (hs.child_lt he)⟩
    have hleft : (s.kind x).Alike (Relation.Comp (s.Replicas made) s.EqualIn) (s.kind y') :=
      .comp (hs.coherent _ _) (hs.coherent _ _) (fun _ he => (hsame he).1)
        (fun _ he => (hsame he).2) (hx.kind hs).alike (alike_of_equalIn hs hxy)
    have hform := Kind.Alike.comp (hs.coherent _ _) (hs.coherent _ _)
      (fun e he => ⟨e, (hsame he).1, (hsame he).2⟩) (fun _ he => (hsame he).1) hleft
      (hy.kind hs).alike
    by_cases hne : x = y
    · exact .inl hne
    refine .inr ⟨⟨fun d e hd he => ?_, fun hshared => ?_⟩, hform⟩
    · rcases bisimulation_equals hs x' y' hxy with rfl | ⟨⟨hdigest, -⟩, -⟩
      · exact Option.some.inj (hd.symm.trans ((hx.digest_eq hs).trans ((hy.digest_eq hs).trans he)))
      · exact hdigest d e ((hx.digest_eq hs).symm.trans hd) ((hy.digest_eq hs).trans he)
    · obtain rfl := hx.eq_of_isInterned hs hshared.1
      obtain rfl := hy.symm.eq_of_isInterned hs hshared.2
      rcases bisimulation_equals hs _ _ hxy with heq | ⟨⟨-, hnot⟩, -⟩
      · exact hne heq
      · exact hnot hshared
  refine ⟨hab.left_lt, hcd.right_lt, ?_⟩
  exact equal_of_bisimulation hs hS hab.left_lt hcd.right_lt ⟨c, ⟨a, hab, h⟩, hcd⟩

section

variable (h : t.Grows u) (ht : t.Sound) (hu : u.Sound)

include h ht hu

/-- Equality stays as it is. -/
theorem equalIn_iff_of_grows (ha : a < t.nodes.size) (hb : b < t.nodes.size) :
    u.EqualIn a b ↔ t.EqualIn a b :=
  equalIn_iff_of_same (A := (· < t.nodes.size)) ht hu (fun _ _ _ hc => ht.child_lt hc)
    (fun _ hx => ⟨hx, hx.trans_le h.size_le, h.kind_eq hx⟩) (fun _ _ => h.mayEqual_iff) ha hb

/-- **Comparing replicas** gives what comparing the others gave. -/
theorem equal_of_replicas (ha : a < t.nodes.size) (hc : c < t.nodes.size)
    (hab : u.Replicas made a b) (hcd : u.Replicas made c d) : u.equal b d = t.equal a c := by
  have hiff := equalIn_iff_of_grows h ht hu ha hc
  rw [Bool.eq_iff_iff]
  constructor
  · intro hbd
    exact (hiff.mp (EqualIn.of_replicas hu hab hcd.symm ⟨hab.right_lt, hcd.right_lt, hbd⟩)).2.2
  · intro hac
    exact (EqualIn.of_replicas hu hab.symm hcd (hiff.mpr ⟨ha, hc, hac⟩)).2.2

/-- Nodes with a common replica are equal, also in the earlier store. -/
theorem equal_of_common_replica (ha : a < t.nodes.size) (hb : b < t.nodes.size)
    (hac : u.Replicas made a c) (hbc : u.Replicas made b c) : t.equal a b = true := by
  rw [← equal_of_replicas h ht hu ha hb hac hbc]
  exact (equalIn_refl hac.right_lt).2.2

/-- **Comparing candidates over replicas** gives what comparing the others gave. -/
theorem equalCandidates_of_replicas {x y x' y' : Candidate} (hx : ∀ n ∈ x.children, n < t.nodes.size)
    (hy : ∀ n ∈ y.children, n < t.nodes.size) (hxx : x.Alike (u.Replicas made) x')
    (hyy : y.Alike (u.Replicas made) y') :
    u.equalCandidates x' y' = t.equalCandidates x y := by
  have hpresent : ∀ {z z' : Candidate}, z.Alike (u.Replicas made) z' →
      ∀ n ∈ z'.children, n < u.nodes.size := by
    intro z z' hz n hn
    obtain ⟨m, -, hmn⟩ := hz.flip.exists_child n hn
    exact hmn.right_lt
  rw [Bool.eq_iff_iff, equalCandidates_iff_alike hu (hpresent hxx) (hpresent hyy),
    equalCandidates_iff_alike ht hx hy]
  constructor
  · intro hxy
    refine ((hxx.comp hxy).comp hyy.flip).imp fun m hm n hn => ?_
    rintro ⟨n', ⟨m', hmm, hmn⟩, hnn⟩
    exact (equalIn_iff_of_grows h ht hu (hx m hm) (hy n hn)).mp (.of_replicas hu hmm hnn.symm hmn)
  · intro hxy
    have hlater : x.Alike u.EqualIn y := hxy.imp fun m hm n hn =>
      (equalIn_iff_of_grows h ht hu (hx m hm) (hy n hn)).mpr
    refine ((hxx.flip.comp hlater).comp hyy).imp fun m _ n _ => ?_
    rintro ⟨n', ⟨m', hmm, hmn⟩, hnn⟩
    exact .of_replicas hu hmm.symm hnn hmn

end

end Store

end ValueInference
