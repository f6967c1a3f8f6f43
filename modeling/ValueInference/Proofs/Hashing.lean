/-
What equal values feed to a hash.

The number of a value is read off while contents are still numbered: nodes with a digest give the
digest, others are unfolded to some depth, and the walk adds the contents that it meets.  A content
keeps its number when others are added, so the walk finds the same number as a plain function of
any contents that come after it.

* **`Contents.Later`** — contents that come from others by numbering;
* **`Reads`** — a walk over contents finds what a function finds in all later contents;
* **`Store.numberIn`**, **`Store.reads_contentNumber`** — the number of a node as such a function;
* **`Store.numberIn_eq`** — one more level of unfolding gives a node its number, whether it has a
  digest or not;
* **`Store.Unfolds`** — where the unfolding of a node is cut off, nodes have digests or endless ways
  down;
* **`Store.sameHash_of_equal`** — equal values of this kind feed the same data to a hash.
-/
import ValueInference.Proofs.Discernible

namespace ValueInference

/-! ### Contents that grow -/

/-- The second contents come from the first by numbering. -/
inductive Contents.Later (contents : Contents) : Contents → Prop where
  | refl : Later contents contents
  | step {later : Contents} (k : Kind) : Later contents later →
      Later contents (Contents.number k later).2

namespace Contents.Later

variable {A B C : Contents}

theorem trans (h : A.Later B) (h' : B.Later C) : A.Later C := by
  induction h' with
  | refl => exact h
  | step k _ ih => exact .step k ih

/-- What has a number keeps it. -/
theorem number_eq {k : Kind} {d : Nat} (h : A.Later B) (hk : number k A = (d, A)) :
    number k B = (d, B) := by
  induction h with
  | refl => exact hk
  | step k' _ ih => exact number_keeps ih

end Contents.Later

/-! ### Walks over contents -/

section

variable {α β γ : Type}

/-- Wherever the walk starts, it only numbers contents, and what it finds is what the function
finds in all contents that come later. -/
def Reads (x : StateM Contents α) (y : Contents → α) : Prop :=
  ∀ A, ∃ a B, x A = (a, B) ∧ A.Later B ∧ ∀ C, B.Later C → y C = a

theorem reads_pure (a : α) : Reads (pure a) fun _ => a :=
  fun A => ⟨a, A, rfl, .refl, fun _ _ => rfl⟩

variable {x : StateM Contents α} {x' : StateM Contents β} {y : Contents → α} {y' : Contents → β}

theorem Reads.map₂ (h : Reads x y) (h' : Reads x' y') (f : α → β → γ) :
    Reads (do return f (← x) (← x')) fun C => f (y C) (y' C) := by
  intro A
  obtain ⟨a, B, hx, hAB, ha⟩ := h A
  obtain ⟨b, C, hx', hBC, hb⟩ := h' B
  refine ⟨f a b, C, ?_, hAB.trans hBC, fun D hCD => ?_⟩
  · show (f (x A).1 (x' (x A).2).1, (x' (x A).2).2) = _
    rw [hx, hx']
  · show f (y D) (y' D) = f a b
    rw [ha D (hBC.trans hCD), hb D hCD]

theorem Reads.map (h : Reads x y) (f : α → β) : Reads (do return f (← x)) fun C => f (y C) := by
  intro A
  obtain ⟨a, B, hx, hAB, ha⟩ := h A
  refine ⟨f a, B, ?_, hAB, fun C hBC => congrArg f (ha C hBC)⟩
  show (f (x A).1, (x A).2) = _
  rw [hx]

theorem reads_mapM {f : α → StateM Contents β} {g : α → Contents → β} {as : List α}
    (h : ∀ a ∈ as, Reads (f a) (g a)) : Reads (as.mapM f) fun C => as.map fun a => g a C := by
  induction as with
  | nil => exact reads_pure []
  | cons a as ih =>
    rw [List.mapM_cons]
    exact (h a List.mem_cons_self).map₂ (ih fun b hb => h b (List.mem_cons_of_mem a hb)) List.cons

/-- Numbering what was read off. -/
theorem Reads.number {x : StateM Contents Kind} {y : Contents → Kind} (h : Reads x y) :
    Reads (do modifyGet (Contents.number (← x))) fun C => (Contents.number (y C) C).1 := by
  intro A
  obtain ⟨k, B, hx, hAB, hk⟩ := h A
  refine ⟨(Contents.number k B).1, (Contents.number k B).2, ?_, hAB.trans (.step k .refl),
    fun C hC => ?_⟩
  · show Contents.number (x A).1 (x A).2 = _
    rw [hx]
  · have hBC : B.Later C := Contents.Later.trans (.step k .refl) hC
    have hagain : Contents.number k C = ((Contents.number k B).1, C) :=
      hC.number_eq (Contents.number_again rfl)
    show (Contents.number (y C) C).1 = _
    rw [hk C hBC, hagain]

end

section

variable {f : NodeId → StateM Contents Nat} {g : NodeId → Contents → Nat}

theorem FunctionRef.reads_traverse (h : ∀ n, Reads (f n) (g n)) (r : FunctionRef) :
    Reads (r.traverse f) fun C => r.relabel fun n => g n C := by
  induction r with
  | primitive p => exact reads_pure _
  | typed p as a => exact (reads_mapM fun n _ => h n).map₂ (h a) (FunctionRef.typed p)
  | partialApp r as ih => exact ih.map₂ (reads_mapM fun n _ => h n) FunctionRef.partialApp
  | virtual as a => exact (reads_mapM fun n _ => h n).map₂ (h a) FunctionRef.virtual
  | graph m => exact reads_pure _

theorem Candidate.reads_traverse (h : ∀ n, Reads (f n) (g n)) (c : Candidate) :
    Reads (c.traverse f) fun C => c.relabel fun n => g n C := by
  cases c with
  | constant x => exact reads_pure _
  | function r => exact (r.reads_traverse h).map Candidate.function

theorem Slot.reads_traverse (h : ∀ n, Reads (f n) (g n)) (number : PendingId → Nat) (v : Slot) :
    Reads (v.traverse f number) fun C => v.relabel (fun n => g n C) number := by
  cases v with
  | possibilities p =>
    exact (reads_mapM fun c _ => c.reads_traverse h).map fun cs => Slot.possibilities ⟨0, cs⟩
  | _ => exact reads_pure _

/-- A walk that replaces the nodes in a form finds the form with the nodes replaced. -/
theorem Kind.reads_traverse (h : ∀ n, Reads (f n) (g n)) (number : PendingId → Nat) (k : Kind) :
    Reads (k.traverse f number) fun C => k.relabel (fun n => g n C) number := by
  cases k with
  | scalar v t => exact (v.reads_traverse h number).map (Kind.scalar · t)
  | tuple as => exact (reads_mapM fun n _ => h n).map Kind.tuple
  | list a => exact (h a).map Kind.list
  | array a shape => exact (h a).map (Kind.array · shape)
  | record tag fs => exact (reads_mapM fun x _ => (h x.2).map (Prod.mk x.1)).map (Kind.record tag)
  | union as => exact (reads_mapM fun n _ => h n).map Kind.union
  | tagged as => exact (reads_mapM fun x _ => (h x.2).map (Prod.mk x.1)).map Kind.tagged
  | function v => exact (v.reads_traverse h number).map Kind.function
  | jtagged a => exact (h a).map Kind.jtagged
  | error r => exact reads_pure _
  | type t => exact reads_pure _

end

namespace Store

variable {s : Store} {a b c m n x y : NodeId} {C : Contents} {depth : Nat}

/-! ### Numbers of nodes -/

/-- The number of a node's content among given contents, with `depth` levels of unfolding left. -/
def numberIn (s : Store) (C : Contents) : Nat → NodeId → Nat
  | depth, n =>
    match s.digest n, depth with
    | some d, _ => d
    | none, 0 => 0
    | none, depth + 1 =>
      (Contents.number ((s.kind n).relabel (s.numberIn C depth) s.pendingNumber) C).1

/-- **The walk finds the number of a node** among all later contents. -/
theorem reads_contentNumber (s : Store) (depth : Nat) :
    ∀ n, Reads (s.contentNumber depth n) fun C => s.numberIn C depth n := by
  induction depth with
  | zero =>
    intro n
    cases hd : s.digest n with
    | none =>
      unfold contentNumber numberIn
      simp only [hd]
      exact reads_pure 0
    | some d =>
      unfold contentNumber numberIn
      simp only [hd]
      exact reads_pure d
  | succ depth ih =>
    intro n
    cases hd : s.digest n with
    | none =>
      unfold contentNumber numberIn
      simp only [hd]
      exact ((s.kind n).reads_traverse ih s.pendingNumber).number
    | some d =>
      unfold contentNumber numberIn
      simp only [hd]
      exact reads_pure d

/-- Nodes that have one number in all later contents feed the same data to a hash. -/
theorem sameHash_of_numberIn
    (h : ∀ C, Contents.Later s.contents C →
      s.numberIn C unfoldDepth a = s.numberIn C unfoldDepth b) :
    s.sameHash a b = true := by
  obtain ⟨i, B, ha, hB, hi⟩ := s.reads_contentNumber unfoldDepth a s.contents
  obtain ⟨j, C, hb, hC, hj⟩ := s.reads_contentNumber unfoldDepth b B
  have hij : i = j := by
    rw [← hi C hC, ← hj C .refl]
    exact h C (hB.trans hC)
  show ((s.contentNumber unfoldDepth a s.contents).1 == (s.contentNumber unfoldDepth b
    (s.contentNumber unfoldDepth a s.contents).2).1) = true
  rw [ha, hb, hij]
  exact beq_self_eq_true j

theorem numberIn_of_digest {d : Nat} (hd : s.digest n = some d) (depth : Nat) :
    s.numberIn C depth n = d := by
  cases depth
  all_goals
    unfold numberIn
    simp only [hd]

/-- **One more level of unfolding gives a node its number**, whether it has a digest or not: a
digest is the number of the content. -/
theorem numberIn_eq (hs : s.Sound) (hC : Contents.Later s.contents C) (depth : Nat) (n : NodeId) :
    s.numberIn C (depth + 1) n =
      (Contents.number ((s.kind n).relabel (s.numberIn C depth) s.pendingNumber) C).1 := by
  cases hd : s.digest n with
  | none =>
    unfold numberIn
    simp only [hd]
  | some d =>
    obtain ⟨hnumber, hbelow⟩ := hs.numbered n d hd
    have hcontent : (s.kind n).relabel (s.numberIn C depth) s.pendingNumber =
        s.content (s.kind n) := by
      rw [content_eq]
      refine Kind.relabel_congr (fun c hc => ?_) fun _ _ => rfl
      obtain ⟨e, he⟩ := Option.isSome_iff_exists.mp (hbelow c hc)
      rw [numberIn_of_digest he, he, Option.getD_some]
    rw [numberIn_of_digest hd, hcontent, hC.number_eq hnumber]

/-! ### Where the unfolding is cut off -/

/-- Where the unfolding of the node is cut off after so many levels, there are nodes with digests
and nodes with endless ways down: no digest is missing. -/
def Unfolds (s : Store) : Nat → NodeId → Prop
  | 0, n => (s.digest n).isSome = true ∨ ¬ s.Founded n
  | depth + 1, n => (s.digest n).isSome = true ∨ ∀ c ∈ (s.kind n).children, s.Unfolds depth c

theorem unfolds_of_digest (h : (s.digest n).isSome = true) : s.Unfolds depth n := by
  cases depth with
  | zero => exact .inl h
  | succ depth => exact .inl h

theorem Unfolds.child (hs : s.Sound) (h : s.Unfolds (depth + 1) n)
    (hc : c ∈ (s.kind n).children) : s.Unfolds depth c := by
  rcases h with h | h
  · obtain ⟨d, hd⟩ := Option.isSome_iff_exists.mp h
    exact unfolds_of_digest ((hs.numbered n d hd).2 c hc)
  · exact h c hc

/-- No digest is missing where the unfolding is cut off, if exactly the nodes with endless ways down
have none. -/
theorem unfolds_of_leads : ∀ {depth : Nat} {a : NodeId},
    (∀ n, s.Leads a n → (s.digest n).isSome = true ∨ ¬ s.Founded n) → s.Unfolds depth a := by
  intro depth
  induction depth with
  | zero => exact fun h => h _ .refl
  | succ depth ih =>
    intro a h
    exact .inr fun c hc => ih fun n hn => h n (.head hc hn)

/-- A node has endless ways down if it has a property that is handed down to some child. -/
theorem not_founded_of_endless {P : NodeId → Prop}
    (h : ∀ n, P n → ∃ c ∈ (s.kind n).children, P c) (hn : P n) : ¬ s.Founded n := by
  intro hfounded
  refine hfounded.induct (motive := fun n => ¬ P n) (fun m _ ih hm => ?_) hn
  obtain ⟨c, hc, hPc⟩ := h m hm
  exact ih c hc hPc

/-- What equals a founded node is founded, if the way it is compared is from the left. -/
theorem founded_left (hs : s.Sound) (hy : s.Founded y) : ∀ x, s.EqualIn x y → s.Founded x := by
  refine hy.induct (motive := fun y => ∀ x, s.EqualIn x y → s.Founded x) fun y _ ih x hxy => ?_
  refine .of_children hxy.1 fun c hc => ?_
  obtain ⟨d, hd, hcd⟩ := (alike_of_equalIn hs hxy).exists_child
    (fun _ he => equalIn_refl (hs.child_lt he)) (hs.coherent x y) c hc
  exact ih d hd c hcd

/-- Equal nodes are founded together, if the first one is discernible. -/
theorem Discernible.founded_iff (hs : s.Reachable) (hx : s.Discernible x) (h : s.EqualIn x y) :
    s.Founded x ↔ s.Founded y :=
  ⟨fun hfx => founded_left hs.sound hfx y ((hx.balanced hs h.1).symm y h),
    fun hfy => founded_left hs.sound hfy x h⟩

/-! ### Equal values -/

/-- Equal nodes have one number where the unfolding is cut off. -/
theorem numberIn_zero (hs : s.Reachable) (hd : s.Discernible x) (hx : s.Unfolds 0 x)
    (hy : s.Unfolds 0 y) (h : s.EqualIn x y) : s.numberIn C 0 x = s.numberIn C 0 y := by
  -- a digest on one side only would leave one node founded and the other one not
  have hfounded := hd.founded_iff hs h
  cases hdx : s.digest x with
  | some d =>
    cases hdy : s.digest y with
    | some e =>
      rw [numberIn_of_digest hdx, numberIn_of_digest hdy]
      rcases bisimulation_equals hs.sound x y h with rfl | ⟨hmay, -⟩
      · exact Option.some.inj (hdx.symm.trans hdy)
      · exact hmay.1 d e hdx hdy
    | none =>
      have hfx := hs.founded_of_digest x (by rw [hdx]; rfl)
      exact absurd (hfounded.mp hfx) (hy.resolve_left (by simp [hdy]))
  | none =>
    cases hdy : s.digest y with
    | some e =>
      have hfy := hs.founded_of_digest y (by rw [hdy]; rfl)
      exact absurd (hfounded.mpr hfy) (hx.resolve_left (by simp [hdx]))
    | none =>
      unfold numberIn
      simp only [hdx, hdy]

/-- **Equal nodes have one number**, to any depth of unfolding. -/
theorem numberIn_of_equalIn (hs : s.Reachable) (hC : Contents.Later s.contents C) (depth : Nat) :
    ∀ {x y}, s.Discernible x → s.Unfolds depth x → s.Unfolds depth y → s.EqualIn x y →
      s.numberIn C depth x = s.numberIn C depth y := by
  induction depth with
  | zero => exact numberIn_zero hs
  | succ depth ih =>
    intro x y hd hx hy h
    have halike : (s.kind x).Alike
        (fun c e => s.EqualIn c e ∧ s.numberIn C depth c = s.numberIn C depth e) (s.kind y) :=
      (alike_of_equalIn hs.sound h).imp fun c hc e he hce => ⟨hce,
        ih (hd.leads (leads_child hc)) (hx.child hs.sound hc) (hy.child hs.sound he) hce⟩
    have hbelow : s.BalancedBelow x := fun m hm _ =>
      (hd.leads hm).balanced hs (present_of_leads hs.sound h.1 hm)
    have hapart := (hd.apart hs.sound (hs.formed _) hbelow y).anti (S := fun c e =>
      s.EqualIn c e ∧ s.numberIn C depth c = s.numberIn C depth e) fun _ _ _ _ => And.left
    rw [numberIn_eq hs.sound hC, numberIn_eq hs.sound hC]
    exact Contents.number_congr (halike.relabel (fun _ _ => And.right) s.pendingNumber hapart) C

/-- **Equal values feed the same data to a hash**, interned or built over placeholders that were
completed later, with or without cycles, if no digest is missing where the unfolding is cut off. -/
theorem sameHash_of_equal (hs : s.Reachable) (ha : a < s.nodes.size) (hb : b < s.nodes.size)
    (hd : s.Discernible a) (hua : s.Unfolds unfoldDepth a) (hub : s.Unfolds unfoldDepth b)
    (h : s.equal a b = true) : s.sameHash a b = true :=
  sameHash_of_numberIn fun _ hC => numberIn_of_equalIn hs hC unfoldDepth hd hua hub ⟨ha, hb, h⟩

/-- In the nested lists all but the types and the lists themselves have endless ways down. -/
theorem sameHash_nests : nests.equal 4 6 = true ∧ nests.sameHash 4 6 = true := by
  have hequal : nests.equal 4 6 = true := by decide +kernel
  have hendless : ∀ n ∈ [4, 5, 6, 7, 8], ∃ c ∈ (nests.kind n).children, c ∈ [4, 5, 6, 7, 8] := by
    decide +kernel
  have hat : ∀ n < 9, (nests.digest n).isSome = true ∨ n ∈ [4, 5, 6, 7, 8] := by decide +kernel
  have hunfolds : ∀ a < 9, nests.Unfolds unfoldDepth a := by
    intro a ha
    have hsize : nests.nodes.size = 9 := by decide +kernel
    rw [← hsize] at ha hat
    exact unfolds_of_leads fun n hn => (hat n (present_of_leads reachable_nests.sound ha hn)).imp id
      (not_founded_of_endless hendless)
  exact ⟨hequal, sameHash_of_equal reachable_nests (by decide +kernel) (by decide +kernel)
    (discernible_nests 4) (hunfolds 4 (by decide)) (hunfolds 6 (by decide)) hequal⟩

end Store

end ValueInference
