/-
Interned nodes as canonical ones.

Two nodes have the same *structure* if what is below them can be paired off all the way down,
whatever their digests and instances are: what has no order is compared as a multiset, and pendings
are compared by identity.  Between interned nodes a comparison asks for nothing but the instance,
and that is right because no two of them have the same structure.

* **`Kind.Paired`** — the same outermost form, with what is in it paired off;
* **`Store.SameStructure`** — nodes with paired forms all the way down;
* **`Store.eq_of_sameStructure`** — interned nodes with the same structure are the same node;
* **`Store.Unmistaken`** — a form that is not taken for another one when it is looked up;
* **`Store.interned_canonical`** — equality, identity and structure of interned nodes, and what a
  form over interned nodes becomes;
* **`Store.eq_of_digest_below`** — interned nodes have different digests if the pendings below them
  have different numbers.
-/
import ValueInference.Proofs.Growth
import ValueInference.Proofs.Formed
import ValueInference.Proofs.Steady
import Mathlib.Data.Multiset.MapFold
import Mathlib.Data.Set.Function

namespace ValueInference

/-! ### Forms that can be paired off -/

/-- The things in two lists can be paired off, in whatever order they are. -/
abbrev Pairs {α : Type} (R : α → α → Prop) (as bs : List α) : Prop :=
  Multiset.Rel R (as : Multiset α) (bs : Multiset α)

/-- The same outermost slot; the candidates of two sets can be paired off. -/
def Slot.Paired (R : NodeId → NodeId → Prop) : Slot → Slot → Prop
  | .possibilities p, .possibilities q =>
    Pairs (Candidate.Alike R) p.candidates q.candidates
  | .constant c, .constant d => c = d
  | .anything, .anything => True
  | .pending p, .pending q => p = q
  | _, _ => False

/-- The same outermost form; fields, options, members and candidates can be paired off. -/
def Kind.Paired (R : NodeId → NodeId → Prop) : Kind → Kind → Prop
  | .scalar v t, .scalar w u => t = u ∧ v.Paired R w
  | .record tag fs, .record tag' gs => tag = tag' ∧ Pairs (SameLabel R) fs gs
  | .union as, .union bs => Pairs R as bs
  | .tagged as, .tagged bs => Pairs (SameLabel R) as bs
  | .function v, .function w => v.Paired R w
  | k, k' => k.Alike R k'

section

variable {R S : NodeId → NodeId → Prop}

theorem Slot.Paired.imp {v w : Slot} (h : v.Paired R w)
    (hRS : ∀ a ∈ v.children, ∀ b ∈ w.children, R a b → S a b) : v.Paired S w := by
  cases v with
  | possibilities p =>
    cases w with
    | possibilities q =>
      refine Multiset.Rel.mono h fun c hc d hd hcd => hcd.imp fun a ha b hb => ?_
      exact hRS a (List.mem_flatMap_of_mem hc ha) b (List.mem_flatMap_of_mem hd hb)
    | _ => exact h.elim
  | _ => cases w <;> exact h

/-- Paired forms stay paired under a relation that follows for the nodes in them. -/
theorem Kind.Paired.imp {k k' : Kind} (h : k.Paired R k')
    (hRS : ∀ a ∈ k.children, ∀ b ∈ k'.children, R a b → S a b) : k.Paired S k' := by
  have hlabels : ∀ {β : Type} {xs ys : List (β × NodeId)}, Pairs (SameLabel R) xs ys →
      (∀ a ∈ xs.map Prod.snd, ∀ b ∈ ys.map Prod.snd, R a b → S a b) →
        Pairs (SameLabel S) xs ys := fun hxy hRS =>
    hxy.mono fun _ hx _ hy hlabel =>
      ⟨hlabel.1, hRS _ (List.mem_map_of_mem hx) _ (List.mem_map_of_mem hy) hlabel.2⟩
  cases k with
  | scalar v t =>
    cases k' with
    | scalar w u => exact ⟨h.1, h.2.imp hRS⟩
    | _ => exact h.elim
  | record tag fs =>
    cases k' with
    | record tag' gs => exact ⟨h.1, hlabels h.2 hRS⟩
    | _ => exact h.elim
  | union as =>
    cases k' with
    | union bs => exact Multiset.Rel.mono h hRS
    | _ => exact h.elim
  | tagged as =>
    cases k' with
    | tagged bs => exact hlabels h hRS
    | _ => exact h.elim
  | function v =>
    cases k' with
    | function w => exact Slot.Paired.imp h hRS
    | _ => exact h.elim
  | _ => exact Kind.Alike.imp h hRS

theorem pairs_eq_iff {α : Type} {as bs : List α} : Pairs (· = ·) as bs ↔ as.Perm bs := by
  rw [Pairs, Multiset.rel_eq, Multiset.coe_eq_coe]

theorem pairs_candidates_iff {as bs : List Candidate} :
    Pairs (Candidate.Alike (· = ·)) as bs ↔ as.Perm bs := by
  have heq : Candidate.Alike (· = ·) = (· = ·) := by
    funext c d
    exact propext Candidate.alike_eq
  rw [heq, pairs_eq_iff]

theorem pairs_labels_iff {β : Type} {xs ys : List (β × NodeId)} :
    Pairs (SameLabel (· = ·)) xs ys ↔ xs.Perm ys := by
  have heq : SameLabel (β := β) (α := NodeId) (· = ·) = (· = ·) := by
    funext x y
    exact propext Prod.ext_iff.symm
  rw [heq, pairs_eq_iff]

theorem Slot.paired_eq_iff {v w : Slot} : v.Paired (· = ·) w ↔ v.Reordered w := by
  constructor
  · intro h
    cases v with
    | possibilities p =>
      cases w with
      | possibilities q => exact .possibilities (pairs_candidates_iff.mp h)
      | _ => exact h.elim
    | anything => cases w <;> first | exact .same _ | exact h.elim
    | constant c =>
      cases w with
      | constant d => exact (congrArg Slot.constant h : Slot.constant c = .constant d) ▸ .same _
      | _ => exact h.elim
    | pending p =>
      cases w with
      | pending q => exact (congrArg Slot.pending h : Slot.pending p = .pending q) ▸ .same _
      | _ => exact h.elim
  · intro h
    cases h with
    | same =>
      cases v with
      | possibilities p => exact pairs_candidates_iff.mpr (.refl _)
      | anything => trivial
      | _ => rfl
    | possibilities h => exact pairs_candidates_iff.mpr h

/-- **Forms over the same nodes are paired** exactly if they are the same up to the order of what
has no order. -/
theorem Kind.paired_eq_iff {k k' : Kind} : k.Paired (· = ·) k' ↔ k.Reordered k' := by
  constructor
  · intro h
    cases k with
    | scalar v t =>
      cases k' with
      | scalar w u =>
        obtain ⟨rfl, hvw⟩ := h
        exact .scalar t (Slot.paired_eq_iff.mp hvw)
      | _ => exact h.elim
    | record tag fs =>
      cases k' with
      | record tag' gs =>
        obtain ⟨rfl, hfs⟩ := h
        exact .record tag (pairs_labels_iff.mp hfs)
      | _ => exact h.elim
    | union as =>
      cases k' with
      | union bs => exact .union (pairs_eq_iff.mp h)
      | _ => exact h.elim
    | tagged as =>
      cases k' with
      | tagged bs => exact .tagged (pairs_labels_iff.mp h)
      | _ => exact h.elim
    | function v =>
      cases k' with
      | function w => exact .function (Slot.paired_eq_iff.mp h)
      | _ => exact h.elim
    | _ => exact Kind.Alike.reordered h trivial
  · intro h
    cases h with
    | same =>
      have hself : k.Alike (· = ·) k := .refl fun _ _ => rfl
      cases k with
      | scalar v t => exact ⟨rfl, Slot.paired_eq_iff.mpr (.same v)⟩
      | record tag fs => exact ⟨rfl, pairs_labels_iff.mpr (.refl fs)⟩
      | union as => exact pairs_eq_iff.mpr (.refl as)
      | tagged as => exact pairs_labels_iff.mpr (.refl as)
      | function v => exact Slot.paired_eq_iff.mpr (.same v)
      | _ => exact hself
    | scalar t h => exact ⟨rfl, Slot.paired_eq_iff.mpr h⟩
    | record tag h => exact ⟨rfl, pairs_labels_iff.mpr h⟩
    | union h => exact pairs_eq_iff.mpr h
    | tagged h => exact pairs_labels_iff.mpr h
    | function h => exact Slot.paired_eq_iff.mpr h

/-- Forms that are the same up to order are alike. -/
theorem Kind.Reordered.alike {k k' : Kind} (h : k.Reordered k') : k.Alike (· = ·) k' := by
  have hmatch : ∀ {α : Type} {E : α → α → Prop} {as bs : List α}, (∀ a, E a a) → as.Perm bs →
      Matches E as bs := fun hE hperm =>
    ⟨hperm.length_eq, fun a ha => ⟨a, hperm.mem_iff.mp ha, hE a⟩⟩
  have hslot : ∀ {v w : Slot}, v.Reordered w → v.Alike (· = ·) w := by
    intro v w hvw
    cases hvw with
    | same => exact .refl v
    | possibilities h => exact .inr (hmatch (fun c => .refl fun _ _ => rfl) h)
  cases h with
  | same => exact .refl fun _ _ => rfl
  | scalar t h => exact ⟨rfl, hslot h⟩
  | record tag h => exact ⟨rfl, hmatch (fun _ => ⟨rfl, rfl⟩) h⟩
  | union h => exact hmatch (fun _ => rfl) h
  | tagged h => exact hmatch (fun _ => ⟨rfl, rfl⟩) h
  | function h => exact hslot h

end

/-! ### Paired contents -/

section

variable {R : NodeId → NodeId → Prop} {f : NodeId → Nat} {number : PendingId → Nat}

theorem forall₂_of_map {as bs : List NodeId} (h : List.Forall₂ R (as.map f) (bs.map f)) :
    List.Forall₂ (fun x y => R (f x) (f y)) as bs := by
  rwa [List.forall₂_map_left_iff, List.forall₂_map_right_iff] at h

theorem pairs_of_map {α β : Type} {E : β → β → Prop} {g : α → β} {as bs : List α}
    (h : Pairs E (as.map g) (bs.map g)) : Pairs (fun x y => E (g x) (g y)) as bs := by
  rw [Pairs, ← Multiset.map_coe, ← Multiset.map_coe] at h
  exact Multiset.rel_map.mp h

theorem FunctionRef.Alike.of_relabel : ∀ {r r' : FunctionRef},
    (r.relabel f).Alike R (r'.relabel f) → r.Alike (fun x y => R (f x) (f y)) r' := by
  intro r
  induction r with
  | primitive p =>
    intro r' h
    cases r' with
    | primitive q => exact h
    | _ => exact h.elim
  | typed p as a =>
    intro r' h
    cases r' with
    | typed q bs b => exact ⟨h.1, forall₂_of_map h.2.1, h.2.2⟩
    | _ => exact h.elim
  | partialApp r as ih =>
    intro r' h
    cases r' with
    | partialApp r' bs => exact ⟨ih h.1, forall₂_of_map h.2⟩
    | _ => exact h.elim
  | virtual as a =>
    intro r' h
    cases r' with
    | virtual bs b => exact ⟨forall₂_of_map h.1, h.2⟩
    | _ => exact h.elim
  | graph m =>
    intro r' h
    cases r' with
    | graph n => exact h
    | _ => exact h.elim

theorem Candidate.Alike.of_relabel {c d : Candidate} (h : (c.relabel f).Alike R (d.relabel f)) :
    c.Alike (fun x y => R (f x) (f y)) d := by
  cases c with
  | constant x =>
    cases d with
    | constant y => exact h
    | function g => exact h.elim
  | function r =>
    cases d with
    | constant y => exact h.elim
    | function r' => exact FunctionRef.Alike.of_relabel h

theorem Slot.Paired.of_relabel {v w : Slot}
    (hp : ∀ p ∈ v.pendings, ∀ q ∈ w.pendings, number p = number q → p = q)
    (h : (v.relabel f number).Paired R (w.relabel f number)) :
    v.Paired (fun x y => R (f x) (f y)) w := by
  cases v with
  | possibilities p =>
    cases w with
    | possibilities q => exact (pairs_of_map h).mono fun c _ d _ => Candidate.Alike.of_relabel
    | _ => exact h.elim
  | pending p =>
    cases w with
    | pending q => exact hp p (by simp [pendings]) q (by simp [pendings]) h
    | _ => exact h.elim
  | _ => cases w <;> exact h

/-- **Forms with paired contents are paired**, if the numbers of the pendings tell these apart. -/
theorem Kind.Paired.of_relabel {k k' : Kind}
    (hp : ∀ p ∈ k.pendings, ∀ q ∈ k'.pendings, number p = number q → p = q)
    (h : (k.relabel f number).Paired R (k'.relabel f number)) :
    k.Paired (fun x y => R (f x) (f y)) k' := by
  cases k with
  | scalar v t =>
    cases k' with
    | scalar w u => exact ⟨h.1, h.2.of_relabel hp⟩
    | _ => exact h.elim
  | tuple as =>
    cases k' with
    | tuple bs => exact forall₂_of_map h
    | _ => exact h.elim
  | record tag fs =>
    cases k' with
    | record tag' gs => exact ⟨h.1, pairs_of_map (E := SameLabel R) h.2⟩
    | _ => exact h.elim
  | union as =>
    cases k' with
    | union bs => exact pairs_of_map h
    | _ => exact h.elim
  | tagged as =>
    cases k' with
    | tagged bs => exact pairs_of_map (E := SameLabel R) h
    | _ => exact h.elim
  | function v =>
    cases k' with
    | function w => exact Slot.Paired.of_relabel hp h
    | _ => exact h.elim
  | _ => cases k' <;> exact h

end

/-! ### Numbers that tell contents apart -/

/-- Contents with one number are the same up to order. -/
theorem Contents.reordered_of_number {k k' : Kind} {contents : Contents} {d : Nat}
    (h : number k contents = (d, contents)) (h' : (number k' contents).1 = d) :
    k.Reordered k' := by
  rcases hi : contents.findIdx? (fun c => c.sameContent k) with _ | i
  · rw [number, hi] at h
    have hsize := congrArg Array.size (congrArg Prod.snd h)
    simp at hsize
  rw [number, hi] at h
  obtain rfl : i + 1 = d := congrArg Prod.fst h
  obtain ⟨hlt, hsame, -⟩ := Array.findIdx?_eq_some_iff_getElem.mp hi
  rcases hj : contents.findIdx? (fun c => c.sameContent k') with _ | j
  · rw [number, hj] at h'
    have hsize : contents.size + 1 = i + 1 := h'
    omega
  · rw [number, hj] at h'
    obtain rfl : j = i := Nat.succ.inj h'
    obtain ⟨_, hsame', -⟩ := Array.findIdx?_eq_some_iff_getElem.mp hj
    exact (Kind.sameContent_iff.mp hsame).symm.trans (Kind.sameContent_iff.mp hsame')

/-- Lists are the same up to order if their images are under a map that tells the things in the
second list apart, which has all those of the first. -/
theorem perm_of_map {β : Type} {f : NodeId → β} {as bs : List NodeId}
    (h : (as.map f).Perm (bs.map f)) (hsub : ∀ a ∈ as, a ∈ bs)
    (hf : ∀ x ∈ bs, ∀ y ∈ bs, f x = f y → x = y) : as.Perm bs := by
  have hinj : Set.InjOn f {x | x ∈ bs} := fun x hx y hy => hf x hx y hy
  have hback : ∀ cs : List NodeId, (∀ c ∈ cs, c ∈ bs) →
      (cs.map f).map (Function.invFunOn f {x | x ∈ bs}) = cs := by
    intro cs hcs
    rw [List.map_map]
    refine (List.map_congr_left fun c hc => ?_).trans (List.map_id cs)
    exact hinj.leftInvOn_invFunOn (hcs c hc)
  have hperm := h.map (Function.invFunOn f {x | x ∈ bs})
  rwa [hback as hsub, hback bs fun _ hb => hb] at hperm

namespace Store

variable {s t : Store} {a b n : NodeId}

/-! ### Structure -/

/-- What is below the two nodes can be paired off, all the way down. -/
def SameStructure (s : Store) (a b : NodeId) : Prop :=
  ∃ R : NodeId → NodeId → Prop, (∀ x y, R x y → (s.kind x).Paired R (s.kind y)) ∧ R a b

theorem sameStructure_refl (s : Store) (a : NodeId) : s.SameStructure a a := by
  refine ⟨(· = ·), ?_, rfl⟩
  rintro x _ rfl
  exact Kind.paired_eq_iff.mpr (.same _)

/-- Nodes with the same structure have paired forms over nodes with the same structure. -/
theorem SameStructure.paired (h : s.SameStructure a b) :
    (s.kind a).Paired s.SameStructure (s.kind b) := by
  obtain ⟨R, hR, hab⟩ := h
  exact (hR a b hab).imp fun x _ y _ hxy => ⟨R, hR, hxy⟩

/-- Forms that are the same up to order have one digest. -/
theorem digestOf_congr {k k' : Kind} (h : k.Reordered k') :
    (s.digestOf k).1 = (s.digestOf k').1 := by
  have hslot : ∀ {f : NodeId → Nat} {v w : Slot}, v.Reordered w →
      (v.relabel f s.pendingNumber).Reordered (w.relabel f s.pendingNumber) := by
    intro f v w hvw
    cases hvw with
    | same => exact .same _
    | possibilities h => exact .possibilities (h.map _)
  refine Contents.number_congr ?_ s.contents
  rw [content_eq, content_eq]
  cases h with
  | same => exact .same _
  | scalar t h => exact .scalar t (hslot h)
  | record tag h => exact .record tag (h.map _)
  | union h => exact .union (h.map _)
  | tagged h => exact .tagged (h.map _)
  | function h => exact .function (hslot h)

/-- Interned nodes whose forms are the same up to order are the same. -/
theorem eq_of_reordered (hs : s.Sound) (ha : s.isInterned a = true) (hb : s.isInterned b = true)
    (h : (s.kind a).Reordered (s.kind b)) : a = b := by
  have hdigest : s.digest a = s.digest b := by
    obtain ⟨d, hd⟩ := Option.isSome_iff_exists.mp (hs.interned a ha).1
    obtain ⟨e, he⟩ := Option.isSome_iff_exists.mp (hs.interned b hb).1
    have hnumber : (s.digestOf (s.kind a)).1 = (s.digestOf (s.kind b)).1 := digestOf_congr h
    rw [(hs.numbered a d hd).1, (hs.numbered b e he).1] at hnumber
    rw [hd, he]
    exact congrArg some hnumber
  rcases Nat.lt_trichotomy a b with hlt | rfl | hlt
  · exact absurd h.alike (hs.canonical a b hlt ha hb hdigest)
  · rfl
  · exact absurd h.symm.alike (hs.canonical b a hlt hb ha hdigest.symm)

theorem founded_of_interned (hs : s.Reachable) (ha : s.isInterned a = true) : s.Founded a :=
  hs.founded_of_digest a (hs.sound.interned a ha).1

/-- **Interned nodes with the same structure are the same node.** -/
theorem eq_of_sameStructure (hs : s.Reachable) (ha : s.isInterned a = true)
    (hb : s.isInterned b = true) (h : s.SameStructure a b) : a = b := by
  refine (founded_of_interned hs ha).induct (motive := fun a => s.isInterned a = true →
    ∀ b, s.isInterned b = true → s.SameStructure a b → a = b) ?_ ha b hb h
  intro x _ ih hx y hy hxy
  -- the nodes below are interned, so that paired ones are the same
  have hsame : (s.kind x).Paired (· = ·) (s.kind y) := hxy.paired.imp fun c hc d hd hcd =>
    ih c hc ((hs.sound.interned x hx).2 c hc) d ((hs.sound.interned y hy).2 d hd) hcd
  exact eq_of_reordered hs.sound hx hy (Kind.paired_eq_iff.mp hsame)

/-! ### What a form over interned nodes becomes -/

/-- A form that is not a union, or one that is not taken for another one when it is looked up: its
members have different digests if they differ, or no interned union lists a member twice. -/
def Unmistaken (s : Store) (k : Kind) : Prop :=
  ∀ ms, k = .union ms →
    (∀ x ∈ ms, ∀ y ∈ ms, s.digest x = s.digest y → x = y) ∨
      ∀ n bs, s.isInterned n = true → s.kind n = .union bs → bs.Nodup

theorem interned?_spec {d : Nat} {k : Kind} (hs : s.Sound)
    (hk : ∀ c ∈ k.children, s.isInterned c = true) (h : s.interned? d k = some n) :
    s.isInterned n = true ∧ s.digest n = some d ∧ (s.kind n).Alike (· = ·) k := by
  have hfound := List.find?_some h
  simp only [Bool.and_eq_true, beq_iff_eq] at hfound
  obtain ⟨⟨hn, hd⟩, hequal⟩ := hfound
  exact ⟨hn, hd, (equalKinds_interned (hs.interned n hn).2 hk).mp hequal⟩

/-- The node that is found for a form has it, unless it is mistaken for another one. -/
theorem reordered_of_found {k : Kind} (hs : s.Sound)
    (hk : ∀ c ∈ k.children, s.isInterned c = true)
    (hnew : ∀ slot, k.slot? = some slot → s.AdmitsSlot slot) (hplain : s.Unmistaken k)
    (h : s.interned? (s.digestOf k).1 k = some n) : (s.kind n).Reordered k := by
  obtain ⟨hn, hd, halike⟩ := interned?_spec hs hk h
  by_cases hunion : ∀ bs, s.kind n = .union bs → bs.Nodup
  · exact halike.reordered (hs.apart hnew hunion)
  simp only [not_forall] at hunion
  obtain ⟨bs, hbs, hrepeated⟩ := hunion
  rw [hbs] at halike ⊢
  cases k with
  | union ms =>
    have hdiffer := (hplain ms rfl).resolve_right fun hnodup => hrepeated (hnodup n bs hn hbs)
    -- the digests of the members are those of the members found, in some order
    have hcontent : (s.content (.union bs)).Reordered (s.content (.union ms)) := by
      have hnumber := (hs.numbered n _ hd).1
      rw [hbs, digestOf] at hnumber
      exact Contents.reordered_of_number hnumber rfl
    rw [content_eq, content_eq] at hcontent
    obtain ⟨_, heq, hperm⟩ := hcontent.union_inv
    obtain rfl := Kind.union.inj heq
    refine .union (perm_of_map hperm (fun b hb => ?_) fun x hx y hy hxy => hdiffer x hx y hy ?_)
    · obtain ⟨m, hm, rfl⟩ := halike.2 b hb
      exact hm
    · obtain ⟨d, hdx⟩ := Option.isSome_iff_exists.mp (hs.interned x (hk x hx)).1
      obtain ⟨e, hey⟩ := Option.isSome_iff_exists.mp (hs.interned y (hk y hy)).1
      rw [hdx, hey] at hxy ⊢
      exact congrArg some hxy
  | _ => exact halike.elim

/-- A form over interned nodes becomes an interned node that has it. -/
theorem place_interned {k : Kind} (hs : s.Sound) (hk : ∀ c ∈ k.children, s.isInterned c = true)
    (hnew : ∀ slot, k.slot? = some slot → s.AdmitsSlot slot) (hplain : s.Unmistaken k)
    (h : s.place k = (n, t)) : t.isInterned n = true ∧ (t.kind n).Reordered k := by
  rw [place, if_pos (List.all_eq_true.mpr hk)] at h
  dsimp only at h
  split at h
  · next m hm =>
    cases h
    exact ⟨(interned?_spec hs hk hm).1, reordered_of_found hs hk hnew hplain hm⟩
  · cases h
    have hkind : (s.nodes.push ⟨some k, some (s.digestOf k).1, true⟩)[s.nodes.size]? =
        some ⟨some k, some (s.digestOf k).1, true⟩ := Array.getElem?_push_size
    constructor
    · simp only [isInterned, hkind, Option.map_some, Option.getD_some]
    · simp only [kind, hkind, Option.bind_some, Option.getD_some]
      exact .same k

/-- **Hash-consing is canonical.**  Interned nodes are equal exactly if they are the same, and the
same exactly if they have the same structure; and a form over interned nodes that has no fault and
is not mistaken for another one becomes an interned node with the structure of the form. -/
theorem interned_canonical (hs : s.Reachable) :
    (∀ a b, s.isInterned a = true → s.isInterned b = true →
      (s.equal a b = true ↔ a = b) ∧ (a = b ↔ s.SameStructure a b)) ∧
    ∀ k, s.fault? k = none → (∀ slot, k.slot? = some slot → s.AdmitsSlot slot) →
      (∀ c ∈ k.children, s.isInterned c = true) → s.Unmistaken k →
        ∃ n t, s.build k = (.ok n, t) ∧ t.isInterned n = true ∧
          (t.kind n).Paired t.SameStructure k := by
  refine ⟨fun a b ha hb => ⟨?_, fun hab => hab ▸ s.sameStructure_refl a,
    eq_of_sameStructure hs ha hb⟩, fun k hfault hnew hk hplain => ?_⟩
  · exact (agree_interned ha hb _ [] trivial).1
  · obtain ⟨hinterned, hreordered⟩ := place_interned hs.sound hk hnew hplain rfl
    refine ⟨(s.place k).1, (s.place k).2, by rw [build, hfault], hinterned, ?_⟩
    exact (Kind.paired_eq_iff.mpr hreordered).imp fun x _ y _ hxy => hxy ▸ sameStructure_refl _ x

/-- Three nodes, the last one a union that lists a member twice. -/
def repetition : Store := ofForms [.type .nil, .list 0, .union [0, 0, 1]]

theorem interned_canonical_repetition :
    (repetition.equal 1 2 = true ↔ 1 = 2) ∧ (1 = 2 ↔ repetition.SameStructure 1 2) ∧
      ∃ n t, repetition.build (.union [0, 1, 0]) = (.ok n, t) ∧ t.isInterned n = true ∧
        (t.kind n).Paired t.SameStructure (.union [0, 1, 0]) := by
  have hreachable : repetition.Reachable := reachable_ofForms (by simp [Kind.slot?])
  obtain ⟨hnodes, hforms⟩ := interned_canonical hreachable
  obtain ⟨hequal, hstructure⟩ := hnodes 1 2 (by decide +kernel) (by decide +kernel)
  refine ⟨hequal, hstructure,
    hforms _ (by decide +kernel) (by simp [Kind.slot?]) (by decide +kernel) ?_⟩
  rintro ms ⟨⟩
  exact .inl (by decide +kernel)

/-! ### Digests of interned nodes -/

/-- **Digests tell interned nodes apart** if the numbers of the pendings that one of them leads to
tell these apart. -/
theorem eq_of_digest_below (hs : s.Sound) (hfounded : s.Founded a)
    (hp : ∀ n, s.Leads a n → ∀ p ∈ (s.kind n).pendings, ∀ q < s.pendings.size,
      s.pendingNumber p = s.pendingNumber q → p = q)
    (ha : s.isInterned a = true) (hb : s.isInterned b = true) (h : s.digest a = s.digest b) :
    a = b := by
  refine hfounded.induct (motive := fun x => s.Leads a x → s.isInterned x = true →
    ∀ b, s.isInterned b = true → s.digest x = s.digest b → x = b) ?_ .refl ha b hb h
  intro x _ ih hlead hx y hy hxy
  have hbelow := (hs.interned x hx).2
  have hbelow' := (hs.interned y hy).2
  obtain ⟨d, hd⟩ := Option.isSome_iff_exists.mp (hs.interned x hx).1
  have hcontent : (s.content (s.kind x)).Reordered (s.content (s.kind y)) := by
    have hnumber := (hs.numbered x d hd).1
    have hnumber' := (hs.numbered y d (hxy ▸ hd)).1
    rw [digestOf] at hnumber hnumber'
    exact Contents.reordered_of_number hnumber (by rw [hnumber'])
  rw [content_eq, content_eq, ← Kind.paired_eq_iff] at hcontent
  have hsame := (hcontent.of_relabel fun p hpx q hqy =>
    hp x hlead p hpx q ((knows_iff.mp (hs.known y)).2 q hqy)).imp (S := (· = ·))
    fun c hc e he hce => by
      obtain ⟨i, hi⟩ := Option.isSome_iff_exists.mp (hs.interned c (hbelow c hc)).1
      obtain ⟨j, hj⟩ := Option.isSome_iff_exists.mp (hs.interned e (hbelow' e he)).1
      refine ih c hc (hlead.tail hc) (hbelow c hc) e (hbelow' e he) ?_
      rw [hi, hj] at hce ⊢
      exact congrArg some hce
  exact eq_of_reordered hs hx hy (Kind.paired_eq_iff.mp hsame)

end Store

end ValueInference
