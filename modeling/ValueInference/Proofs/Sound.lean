/-
What holds of every store that a client can reach.

A store is *reachable* if it comes from the empty one by changes, where every possibility set that
a change brings in is distinct and has a token of its own.  Every reachable store is *sound*: forms
mention only what exists, labels and candidates are distinct, digests number the contents, and no
two interned nodes have the same form.

* **`Store.Reachable`** — the stores that changes lead to;
* **`Store.Sound`** — the invariant;
* **`Store.Reachable.sound`** — every reachable store has it.
-/
import ValueInference.Update
import ValueInference.Proofs.Content

namespace ValueInference

/-- The fields of a record, or the options of a tagged union, have different labels. -/
def Kind.Labelled : Kind → Prop
  | .record _ fields => (fields.map Prod.fst).Nodup
  | .tagged options => (options.map Prod.fst).Nodup
  | _ => True

/-- Fields and options are told apart by their labels, so slots and members are what has to be. -/
theorem Kind.apart_of_labelled {R : NodeId → NodeId → Prop} {k k' : Kind} (hlabelled : k.Labelled)
    (hslots : ∀ v w, k.slot? = some v → k'.slot? = some w → v.Apart R w)
    (hunions : ∀ as bs, k = .union as → k' = .union bs → ApartIn R as bs) : k.Apart R k' := by
  cases k with
  | scalar v t =>
    cases k' with
    | scalar w u => exact hslots v w rfl rfl
    | _ => trivial
  | record tag fs =>
    cases k' with
    | record tag' gs => exact apartIn_of_labels hlabelled
    | _ => trivial
  | union as =>
    cases k' with
    | union bs => exact hunions as bs rfl rfl
    | _ => trivial
  | tagged as =>
    cases k' with
    | tagged bs => exact apartIn_of_labels hlabelled
    | _ => trivial
  | function v =>
    cases k' with
    | function w => exact hslots v w rfl rfl
    | _ => trivial
  | _ => trivial

theorem repeated?_eq_none {β : Type} [DecidableEq β] : ∀ {bs earlier : List β},
    repeated? earlier bs = none ↔ bs.Nodup ∧ ∀ b ∈ bs, b ∉ earlier := by
  intro bs
  induction bs with
  | nil => simp [repeated?]
  | cons b bs ih =>
    intro earlier
    rw [repeated?, List.nodup_cons]
    split
    · next hb =>
      refine iff_of_false (by simp) fun h => ?_
      exact h.2 b List.mem_cons_self hb
    next hb =>
    rw [ih]
    constructor
    · rintro ⟨hnodup, hfresh⟩
      refine ⟨⟨fun hmem => hfresh b hmem List.mem_cons_self, hnodup⟩, ?_⟩
      rintro x (_ | ⟨_, hx⟩)
      · exact hb
      · exact fun hmem => hfresh x hx (List.mem_cons_of_mem b hmem)
    · rintro ⟨⟨hnot, hnodup⟩, hfresh⟩
      refine ⟨hnodup, fun x hx hmem => ?_⟩
      rcases List.mem_cons.mp hmem with rfl | hmem
      · exact hnot hx
      · exact hfresh x (List.mem_cons_of_mem b hx) hmem

namespace Store

variable {s t : Store}

/-! ### Reachable stores -/

/-- A form, or the result of a pending, is or has the set. -/
def HoldsSet (s : Store) (p : Possibilities) : Prop :=
  (∃ n, (s.kind n).slot? = some (.possibilities p)) ∨ ∃ q, s.result? q = some (.possibilities p)

/-- A set that may be brought in: its token was handed out, its candidates are distinct, and they
are those of every set with this token. -/
structure AdmitsSet (s : Store) (p : Possibilities) : Prop where
  issued : p.token < s.tokens
  distinct : p.candidates.Nodup
  coherent : ∀ q, s.HoldsSet q → q.token = p.token → q.candidates = p.candidates

def AdmitsSlot (s : Store) (slot : Slot) : Prop := ∀ p, slot = .possibilities p → s.AdmitsSet p

/-- The changes that bring in nothing but sets as they are made. -/
def Admits (s : Store) : Change → Prop
  | .build k | .complete _ k => ∀ slot, k.slot? = some slot → s.AdmitsSlot slot
  | .setResult _ slot => s.AdmitsSlot slot
  | _ => True

/-- The stores that changes lead to, from the empty one. -/
inductive Reachable : Store → Prop where
  | start : Reachable {}
  | step {s : Store} (c : Change) : Reachable s → s.Admits c → Reachable (c.apply s)

/-- The store of some forms, built one after the other. -/
def ofForms (ks : List Kind) : Store := ks.foldl (fun s k => (Change.build k).apply s) {}

theorem reachable_ofForms {ks : List Kind}
    (h : ∀ k ∈ ks, ∀ p, k.slot? ≠ some (.possibilities p)) : (ofForms ks).Reachable := by
  suffices hfold : ∀ s : Store, s.Reachable →
      (ks.foldl (fun s k => (Change.build k).apply s) s).Reachable from hfold {} .start
  induction ks with
  | nil => exact fun _ => id
  | cons k ks ih =>
    intro s hs
    refine ih (fun k hk => h k (List.mem_cons_of_mem _ hk)) _ (.step (.build k) hs ?_)
    rintro slot hslot p rfl
    exact absurd hslot (h k List.mem_cons_self p)

/-! ### The invariant -/

/-- What holds of every reachable store. -/
structure Sound (s : Store) : Prop where
  known : ∀ n, s.knows (s.kind n) = true
  labelled : ∀ n, (s.kind n).Labelled
  sets : ∀ p, s.HoldsSet p → s.AdmitsSet p
  /-- A node without a form is not numbered. -/
  blank : ∀ n, s.isComplete n = false → s.digest n = none ∧ s.isInterned n = false
  /-- A digest is the number of the content, which is over nodes with digests. -/
  numbered : ∀ n d, s.digest n = some d →
    s.digestOf (s.kind n) = (d, s.contents) ∧ ∀ c ∈ (s.kind n).children, (s.digest c).isSome
  interned : ∀ n, s.isInterned n = true →
    (s.digest n).isSome ∧ ∀ c ∈ (s.kind n).children, s.isInterned c = true
  /-- Interned nodes with one digest have different forms. -/
  canonical : ∀ m n, m < n → s.isInterned m = true → s.isInterned n = true →
    s.digest m = s.digest n → ¬ (s.kind m).Alike (· = ·) (s.kind n)

theorem knows_iff {k : Kind} : s.knows k = true ↔
    (∀ c ∈ k.children, c < s.nodes.size) ∧ ∀ p ∈ k.pendings, p < s.pendings.size := by
  simp [knows, Kind.pendings]

theorem Sound.child_lt (hs : s.Sound) {n c : NodeId} (hc : c ∈ (s.kind n).children) :
    c < s.nodes.size :=
  (knows_iff.mp (hs.known n)).1 c hc

theorem kind_of_absent {n : NodeId} (h : s.nodes.size ≤ n) : s.kind n = .error .incomplete := by
  rw [kind, Array.getElem?_eq_none h]
  rfl

theorem present_of_kind {k : Kind} {n : NodeId} (h : s.kind n = k) (hk : k ≠ .error .incomplete) :
    n < s.nodes.size := by
  by_contra habsent
  exact hk (h.symm.trans (kind_of_absent (Nat.not_lt.mp habsent)))

theorem lt_of_isInterned {n : NodeId} (h : s.isInterned n = true) : n < s.nodes.size := by
  by_contra hge
  rw [isInterned, Array.getElem?_eq_none (Nat.not_lt.mp hge)] at h
  exact absurd h (by simp)

theorem isComplete_of_absent {n : NodeId} (h : s.nodes.size ≤ n) : s.isComplete n = false := by
  rw [isComplete, Array.getElem?_eq_none h]
  rfl

theorem kind_of_incomplete {n : NodeId} (h : s.isComplete n = false) :
    s.kind n = .error .incomplete := by
  rw [isComplete, Option.isSome_eq_false_iff, Option.isNone_iff_eq_none] at h
  rw [kind, h]
  rfl

theorem isComplete_of_kind {k : Kind} {n : NodeId} (h : s.kind n = k) (hk : k ≠ .error .incomplete) :
    s.isComplete n = true := by
  by_contra hblank
  exact hk (h.symm.trans (kind_of_incomplete (Bool.eq_false_iff.mpr hblank)))

/-! ### Contents of forms -/

theorem content_eq (s : Store) (k : Kind) :
    s.content k = k.relabel (fun n => (s.digest n).getD 0) s.pendingNumber :=
  congrArg Id.run (Kind.traverse_pure (m := Id) _ _ k)


/-- The content of a form depends on the digests of the nodes in it and on the numbers of the
pendings. -/
theorem content_congr {k : Kind} (hd : ∀ c ∈ k.children, t.digest c = s.digest c)
    (hp : ∀ p ∈ k.pendings, t.pendingNumber p = s.pendingNumber p) :
    t.content k = s.content k := by
  rw [content_eq, content_eq]
  exact Kind.relabel_congr (fun c hc => by rw [hd c hc]) hp

/-! ### Changes that leave the nodes alone -/

/-- Sets stay as they should be when at most one slot is brought in. -/
theorem admits_of_held {new : Option Slot} (hs : ∀ p, s.HoldsSet p → s.AdmitsSet p)
    (htokens : s.tokens ≤ t.tokens)
    (hheld : ∀ p, t.HoldsSet p → s.HoldsSet p ∨ new = some (.possibilities p))
    (hnew : ∀ slot, new = some slot → s.AdmitsSlot slot) :
    ∀ p, t.HoldsSet p → t.AdmitsSet p := by
  have hadmits : ∀ p, t.HoldsSet p → s.AdmitsSet p := fun p hp =>
    (hheld p hp).elim (hs p) fun h => hnew _ h p rfl
  intro p hp
  refine ⟨Nat.lt_of_lt_of_le (hadmits p hp).issued htokens, (hadmits p hp).distinct,
    fun q hq htoken => ?_⟩
  rcases hheld q hq with hq | hq
  · exact (hadmits p hp).coherent q hq htoken
  rcases hheld p hp with hp | hp
  · exact ((hnew _ hq q rfl).coherent p hp htoken.symm).symm
  · obtain rfl : q = p := by simpa using hq.symm.trans hp
    rfl

/-- The nodes of two stores read alike. -/
structure SameNodes (s t : Store) : Prop where
  size : s.nodes.size ≤ t.nodes.size
  kind : t.kind = s.kind
  digest : t.digest = s.digest
  interned : t.isInterned = s.isInterned
  complete : t.isComplete = s.isComplete
  contents : t.contents = s.contents

theorem sameNodes_of_eq (hnodes : t.nodes = s.nodes) (hcontents : t.contents = s.contents) :
    s.SameNodes t where
  size := Nat.le_of_eq (congrArg Array.size hnodes.symm)
  kind := by funext n; rw [Store.kind, Store.kind, hnodes]
  digest := by funext n; rw [Store.digest, Store.digest, hnodes]
  interned := by funext n; rw [isInterned, isInterned, hnodes]
  complete := by funext n; rw [isComplete, isComplete, hnodes]
  contents := hcontents

theorem Sound.of_sameNodes (hs : s.Sound) (new : Option Slot) (h : s.SameNodes t)
    (htokens : s.tokens ≤ t.tokens) (hsize : s.pendings.size ≤ t.pendings.size)
    (hnumber : ∀ p, p < s.pendings.size → t.pendingNumber p = s.pendingNumber p)
    (hresult : ∀ q slot, t.result? q = some slot → s.result? q = some slot ∨ new = some slot)
    (hnew : ∀ slot, new = some slot → s.AdmitsSlot slot) : t.Sound := by
  obtain ⟨hnodes, hkind, hdigest, hinterned, hcomplete, hcontents⟩ := h
  have hcontent : ∀ n, t.content (s.kind n) = s.content (s.kind n) := fun n =>
    content_congr (fun c _ => by rw [hdigest]) fun p hp =>
      hnumber p ((knows_iff.mp (hs.known n)).2 p hp)
  refine ⟨fun n => ?_, fun n => ?_, ?_, fun n => ?_, fun n d => ?_, fun n => ?_, fun m n => ?_⟩
  · obtain ⟨hc, hp⟩ := knows_iff.mp (hs.known n)
    rw [hkind, knows_iff]
    exact ⟨fun c h => Nat.lt_of_lt_of_le (hc c h) hnodes,
      fun p h => Nat.lt_of_lt_of_le (hp p h) hsize⟩
  · rw [hkind]
    exact hs.labelled n
  · refine admits_of_held hs.sets htokens (fun p hp => ?_) hnew
    rcases hp with ⟨n, hn⟩ | ⟨q, hq⟩
    · rw [hkind] at hn
      exact .inl (.inl ⟨n, hn⟩)
    · exact (hresult q _ hq).imp (fun h => .inr ⟨q, h⟩) id
  · rw [hcomplete, hdigest, hinterned]
    exact hs.blank n
  · rw [hdigest, hkind, digestOf, hcontent, hcontents]
    exact hs.numbered n d
  · rw [hkind, hdigest, hinterned]
    exact hs.interned n
  · rw [hkind, hdigest, hinterned]
    exact hs.canonical m n

/-! ### Nodes that get a form -/

/-- One store comes from another by giving a form to a node that had none. -/
structure Filed (s : Store) (n : NodeId) (k : Kind) (d : Option Nat) (i : Bool) (t : Store) :
    Prop where
  blank : s.isComplete n = false
  node : t.nodes[n]? = some ⟨some k, d, i⟩
  others : ∀ m, m ≠ n → t.nodes[m]? = s.nodes[m]?
  pendings : t.pendings = s.pendings
  tokens : t.tokens = s.tokens
  numbered : ∀ x, d = some x →
    s.digestOf k = (x, t.contents) ∧ ∀ c ∈ k.children, (s.digest c).isSome
  unnumbered : d = none → t.contents = s.contents
  /-- An interned node is a new one, and no other one has its form. -/
  interned : i = true → n = s.nodes.size ∧ (∀ c ∈ k.children, s.isInterned c = true) ∧
    ∃ x, d = some x ∧ s.interned? x k = none

namespace Filed

variable {n m : NodeId} {k : Kind} {d : Option Nat} {i : Bool}

theorem kind_eq (h : s.Filed n k d i t) : t.kind n = k := by
  rw [kind, h.node]
  rfl

theorem digest_eq (h : s.Filed n k d i t) : t.digest n = d := by
  rw [digest, h.node]
  rfl

theorem isInterned_eq (h : s.Filed n k d i t) : t.isInterned n = i := by
  rw [isInterned, h.node]
  rfl

theorem isComplete_eq (h : s.Filed n k d i t) : t.isComplete n = true := by
  rw [isComplete, h.node]
  rfl

theorem kind_of_ne (h : s.Filed n k d i t) (hm : m ≠ n) : t.kind m = s.kind m := by
  rw [kind, h.others m hm, kind]

theorem digest_of_ne (h : s.Filed n k d i t) (hm : m ≠ n) : t.digest m = s.digest m := by
  rw [digest, h.others m hm, digest]

theorem isInterned_of_ne (h : s.Filed n k d i t) (hm : m ≠ n) :
    t.isInterned m = s.isInterned m := by
  rw [isInterned, h.others m hm, isInterned]

theorem isComplete_of_ne (h : s.Filed n k d i t) (hm : m ≠ n) :
    t.isComplete m = s.isComplete m := by
  rw [isComplete, h.others m hm, isComplete]

theorem size_le (h : s.Filed n k d i t) : s.nodes.size ≤ t.nodes.size := by
  by_contra hlt
  have hnone : t.nodes[t.nodes.size]? = none := Array.getElem?_eq_none (Nat.le_refl _)
  by_cases hn : t.nodes.size = n
  · rw [hn, h.node] at hnone
    exact absurd hnone (by simp)
  · rw [h.others _ hn, Array.getElem?_eq_none_iff] at hnone
    exact hlt hnone

end Filed

/-- Two interned nodes are under comparison equal only if they are the same. -/
theorem agree_interned {a b : NodeId} (ha : s.isInterned a = true) (hb : s.isInterned b = true)
    (fuel : Nat) : Decides (fun _ => True) (s.agree (fuel + 1) a b) (a = b) := by
  intro seen _
  refine ⟨?_, fun _ _ => trivial⟩
  by_cases hab : a = b
  · simp [agree, hab]
  · simp only [agree, hab, if_false, ha, hb, Bool.and_self, if_true]
    split <;> simp

/-- Forms over interned nodes are equal if they have the same nodes. -/
theorem equalKinds_interned {k k' : Kind} (hk : ∀ c ∈ k.children, s.isInterned c = true)
    (hk' : ∀ c ∈ k'.children, s.isInterned c = true) :
    s.equalKinds k k' = true ↔ k.Alike (· = ·) k' :=
  (Kind.agree_decides (I := fun _ => True) fun a ha b hb =>
    agree_interned (hk a ha) (hk' b hb) _) [] trivial |>.1

theorem Sound.file {n : NodeId} {k : Kind} {d : Option Nat} {i : Bool} (hs : s.Sound)
    (h : s.Filed n k d i t) (hknown : t.knows k = true) (hlabels : k.Labelled)
    (hnew : ∀ slot, k.slot? = some slot → s.AdmitsSlot slot) : t.Sound := by
  have hnumber : t.pendingNumber = s.pendingNumber := by
    funext p
    rw [pendingNumber, h.pendings, pendingNumber]
  have hblank := hs.blank n h.blank
  -- a node with a digest is not above the one that had no form
  have hdigest : ∀ c, (s.digest c).isSome → t.digest c = s.digest c := by
    intro c hc
    refine h.digest_of_ne ?_
    rintro rfl
    rw [hblank.1] at hc
    exact absurd hc (by simp)
  have hcontent : ∀ k', (∀ c ∈ k'.children, (s.digest c).isSome) → t.content k' = s.content k' :=
    fun k' hk' => content_congr (fun c hc => hdigest c (hk' c hc)) fun p _ => by rw [hnumber]
  have hkept : ∀ c, s.isInterned c = true → c ≠ n := by
    rintro c hc rfl
    rw [hblank.2] at hc
    exact absurd hc (by simp)
  have hinternedMono : ∀ c, s.isInterned c = true → t.isInterned c = true := fun c hc => by
    rwa [h.isInterned_of_ne (hkept c hc)]
  refine ⟨fun m => ?_, fun m => ?_, ?_, fun m hm => ?_, fun m x hx => ?_, fun m hm => ?_,
    fun l m hlm hl hm hlmd => ?_⟩
  · by_cases hmn : m = n
    · rwa [hmn, h.kind_eq]
    · obtain ⟨hc, hp⟩ := knows_iff.mp (hs.known m)
      rw [h.kind_of_ne hmn, knows_iff, h.pendings]
      exact ⟨fun c hcm => Nat.lt_of_lt_of_le (hc c hcm) h.size_le, hp⟩
  · by_cases hmn : m = n
    · rwa [hmn, h.kind_eq]
    · rw [h.kind_of_ne hmn]
      exact hs.labelled m
  · refine admits_of_held hs.sets (Nat.le_of_eq h.tokens.symm) (fun p hp => ?_) hnew
    rcases hp with ⟨m, hm⟩ | ⟨q, hq⟩
    · by_cases hmn : m = n
      · rw [hmn, h.kind_eq] at hm
        exact .inr hm
      · rw [h.kind_of_ne hmn] at hm
        exact .inl (.inl ⟨m, hm⟩)
    · rw [result?, pendingStatus, h.pendings] at hq
      exact .inl (.inr ⟨q, hq⟩)
  · have hmn : m ≠ n := by
      rintro rfl
      rw [h.isComplete_eq] at hm
      exact absurd hm (by simp)
    rw [h.isComplete_of_ne hmn] at hm
    rw [h.digest_of_ne hmn, h.isInterned_of_ne hmn]
    exact hs.blank m hm
  · by_cases hmn : m = n
    · rw [hmn, h.digest_eq] at hx
      obtain ⟨hnum, hbelow⟩ := h.numbered x hx
      rw [hmn, h.kind_eq, digestOf, hcontent k hbelow]
      exact ⟨Contents.number_again hnum, fun c hc => by rw [hdigest c (hbelow c hc)]; exact hbelow c hc⟩
    · rw [h.digest_of_ne hmn] at hx
      obtain ⟨hnum, hbelow⟩ := hs.numbered m x hx
      rw [h.kind_of_ne hmn, digestOf, hcontent _ hbelow]
      refine ⟨?_, fun c hc => by rw [hdigest c (hbelow c hc)]; exact hbelow c hc⟩
      rcases d with _ | y
      · rwa [h.unnumbered rfl]
      · have hcontents : t.contents = (Contents.number (s.content k) s.contents).2 := by
          rw [← digestOf, (h.numbered y rfl).1]
        rw [hcontents]
        exact Contents.number_keeps hnum
  · by_cases hmn : m = n
    · rw [hmn, h.isInterned_eq] at hm
      obtain ⟨-, hbelow, x, hx, -⟩ := h.interned hm
      rw [hmn, h.digest_eq, h.kind_eq, hx]
      exact ⟨rfl, fun c hc => hinternedMono c (hbelow c hc)⟩
    · rw [h.isInterned_of_ne hmn] at hm
      obtain ⟨hd, hbelow⟩ := hs.interned m hm
      rw [h.digest_of_ne hmn, h.kind_of_ne hmn]
      exact ⟨hd, fun c hc => hinternedMono c (hbelow c hc)⟩
  · by_cases hln : l = n
    · -- an interned node that was just filed is the last one
      rw [hln, h.isInterned_eq] at hl
      obtain ⟨hsize, -⟩ := h.interned hl
      rw [hln, hsize] at hlm
      have hmn : m ≠ n := by
        rintro rfl
        exact Nat.lt_irrefl _ (hsize ▸ hlm)
      rw [h.isInterned_of_ne hmn] at hm
      exact absurd (lt_of_isInterned hm) (Nat.lt_asymm hlm)
    rw [h.isInterned_of_ne hln] at hl
    rw [h.kind_of_ne hln]
    by_cases hmn : m = n
    · rw [hmn, h.isInterned_eq] at hm
      obtain ⟨-, hbelow, x, hx, hnone⟩ := h.interned hm
      rw [h.digest_of_ne hln, hmn, h.digest_eq, hx] at hlmd
      rw [hmn, h.kind_eq]
      intro halike
      have hfind := List.find?_eq_none.mp hnone l (List.mem_range.mpr (lt_of_isInterned hl))
      rw [hl, hlmd, (equalKinds_interned (hs.interned l hl).2 hbelow).mpr halike] at hfind
      exact hfind (by simp)
    · rw [h.isInterned_of_ne hmn] at hm
      rw [h.digest_of_ne hln, h.digest_of_ne hmn] at hlmd
      rw [h.kind_of_ne hmn]
      exact hs.canonical l m hlm hl hm hlmd

/-! ### Placing and completing -/

theorem Filed.push {k : Kind} {d : Option Nat} {i : Bool} {contents : Contents}
    (hnumbered : ∀ x, d = some x →
      s.digestOf k = (x, contents) ∧ ∀ c ∈ k.children, (s.digest c).isSome)
    (hunnumbered : d = none → contents = s.contents)
    (hinterned : i = true → (∀ c ∈ k.children, s.isInterned c = true) ∧
      ∃ x, d = some x ∧ s.interned? x k = none) :
    s.Filed s.nodes.size k d i { s with contents, nodes := s.nodes.push ⟨some k, d, i⟩ } where
  blank := isComplete_of_absent (Nat.le_refl _)
  node := by simp
  others m hm := by
    show (s.nodes.push _)[m]? = _
    rw [Array.getElem?_push, if_neg hm]
  pendings := rfl
  tokens := rfl
  numbered := hnumbered
  unnumbered := hunnumbered
  interned hi := ⟨rfl, hinterned hi⟩

/-- **A form that is placed** gives the interned node that has it, or a new node. -/
theorem place_cases {k : Kind} {n : NodeId}
    (hs : ∀ n, s.isInterned n = true →
      (s.digest n).isSome ∧ ∀ c ∈ (s.kind n).children, s.isInterned c = true)
    (h : s.place k = (n, t)) :
    t = s ∧ s.isInterned n = true ∧ (∀ c ∈ k.children, s.isInterned c = true) ∧
        (s.kind n).Alike (· = ·) k ∨
      n = s.nodes.size ∧ ∃ d i, s.Filed n k d i t := by
  rw [place] at h
  split at h
  · next hall =>
    have hinterned : ∀ c ∈ k.children, s.isInterned c = true := List.all_eq_true.mp hall
    rcases hnum : s.digestOf k with ⟨d, contents⟩
    simp only [hnum] at h
    split at h
    · next m hm =>
      cases h
      have hfound := List.find?_some hm
      simp only [Bool.and_eq_true, beq_iff_eq] at hfound
      obtain ⟨⟨hn, -⟩, hequal⟩ := hfound
      exact .inl ⟨rfl, hn, hinterned, (equalKinds_interned (hs n hn).2 hinterned).mp hequal⟩
    · next hnone =>
      cases h
      refine .inr ⟨rfl, some d, true, .push (fun x hx => ?_) (fun hd => ?_) fun _ => ?_⟩
      · cases hx
        exact ⟨hnum, fun c hc => (hs c (hinterned c hc)).1⟩
      · exact absurd hd (by simp)
      · exact ⟨hinterned, d, rfl, hnone⟩
  · split at h
    · next hall =>
      rcases hnum : s.digestOf k with ⟨d, contents⟩
      simp only [hnum] at h
      cases h
      refine .inr ⟨rfl, some d, false, .push (fun x hx => ?_) (fun hd => ?_) fun hi => ?_⟩
      · cases hx
        exact ⟨hnum, List.all_eq_true.mp hall⟩
      · exact absurd hd (by simp)
      · exact absurd hi (by simp)
    · cases h
      refine .inr ⟨rfl, none, false, ?_⟩
      exact .push (fun x hx => absurd hx (by simp)) (fun _ => rfl)
        fun hi => absurd hi (by simp)

/-- A node without a form gets any form that has no fault. -/
theorem complete_ok {k : Kind} {n : NodeId} (hfault : s.fault? k = none) (hn : n < s.nodes.size)
    (hblank : s.isComplete n = false) : (s.complete n k).1 = .ok () := by
  have hnode : s.nodes[n]? = some s.nodes[n] := Array.getElem?_eq_getElem hn
  rw [isComplete, hnode] at hblank
  have hkind : ¬ s.nodes[n].kind.isSome = true := Bool.eq_false_iff.mp hblank
  rw [complete, hfault, hnode]
  simp only [if_neg hkind]
  split <;> rfl

/-- A placeholder that is completed gets its form, and nothing else changes. -/
theorem complete_filed {k : Kind} {n : NodeId} (h : (s.complete n k).1 = .ok ()) :
    ∃ d, s.Filed n k d false (s.complete n k).2 := by
  rw [complete] at h ⊢
  split at h
  · exact absurd h (by simp)
  next hfault =>
  rcases hn : s.nodes[n]? with _ | node
  · rw [hn] at h
    exact absurd h (by simp)
  rw [hn] at h
  simp only at h ⊢
  split at h
  · exact absurd h (by simp)
  next hblank =>
  have hlt : n < s.nodes.size := by
    by_contra hge
    rw [Array.getElem?_eq_none (Nat.not_lt.mp hge)] at hn
    exact absurd hn (by simp)
  have hfiled : ∀ {d : Option Nat} {contents : Contents},
      (∀ x, d = some x → s.digestOf k = (x, contents) ∧ ∀ c ∈ k.children, (s.digest c).isSome) →
      (d = none → contents = s.contents) →
      s.Filed n k d false { s with contents, nodes := s.nodes.set! n ⟨some k, d, false⟩ } := by
    intro d contents hnumbered hunnumbered
    refine ⟨?_, ?_, fun m hm => ?_, rfl, rfl, hnumbered, hunnumbered, fun hi => absurd hi (by simp)⟩
    · rw [isComplete, hn]
      simpa using hblank
    · simp [hlt]
    · simp [Ne.symm hm]
  rw [if_neg hblank]
  split
  · next hall =>
    rcases hnum : s.digestOf k with ⟨d, contents⟩
    refine ⟨some d, hfiled (fun x hx => ?_) fun hd => absurd hd (by simp)⟩
    cases hx
    exact ⟨hnum, List.all_eq_true.mp hall⟩
  · exact ⟨none, hfiled (fun x hx => absurd hx (by simp)) fun _ => rfl⟩

/-! ### Every change keeps the invariant -/

theorem labels_of_fault? {k : Kind} (h : s.fault? k = none) : s.knows k = true ∧ k.Labelled := by
  unfold fault? at h
  split at h
  · exact absurd h (by simp)
  next hknown =>
  refine ⟨by simpa using hknown, ?_⟩
  cases k with
  | record tag fields => exact (repeated?_eq_none.mp (by simpa using h)).1
  | tagged options =>
    simp only at h
    split at h
    · exact absurd h (by simp)
    · exact (repeated?_eq_none.mp (by simpa using h)).1
  | _ => trivial

theorem Sound.place {k : Kind} {n : NodeId} (hs : s.Sound) (h : s.place k = (n, t))
    (hfault : s.fault? k = none) (hnew : ∀ slot, k.slot? = some slot → s.AdmitsSlot slot) :
    t.Sound := by
  obtain ⟨hknown, hlabels⟩ := labels_of_fault? hfault
  rcases place_cases hs.interned h with ⟨rfl, -⟩ | ⟨-, d, i, hfiled⟩
  · exact hs
  · refine hs.file hfiled ?_ hlabels hnew
    obtain ⟨hc, hp⟩ := knows_iff.mp hknown
    rw [knows_iff, hfiled.pendings]
    exact ⟨fun c hck => Nat.lt_of_lt_of_le (hc c hck) hfiled.size_le, hp⟩

theorem Sound.build {k : Kind} (hs : s.Sound)
    (hnew : ∀ slot, k.slot? = some slot → s.AdmitsSlot slot) : (s.build k).2.Sound := by
  rw [Store.build]
  split
  · exact hs
  · next hfault => exact hs.place rfl hfault hnew

theorem complete_of_error {k : Kind} {n : NodeId} {fault : Fault}
    (h : (s.complete n k).1 = .error fault) : (s.complete n k).2 = s := by
  rw [Store.complete] at h ⊢
  repeat' split at h
  all_goals simp_all

theorem fault?_of_complete {k : Kind} {n : NodeId} (h : (s.complete n k).1 = .ok ()) :
    s.fault? k = none := by
  rw [Store.complete] at h
  split at h
  · exact absurd h (by simp)
  · next hfault => exact hfault

theorem Sound.complete {k : Kind} {n : NodeId} (hs : s.Sound)
    (hnew : ∀ slot, k.slot? = some slot → s.AdmitsSlot slot) : (s.complete n k).2.Sound := by
  rcases hok : (s.complete n k).1 with fault | u
  · rwa [complete_of_error hok]
  · obtain ⟨d, hfiled⟩ := complete_filed hok
    have hfault := fault?_of_complete hok
    obtain ⟨hknown, hlabels⟩ := labels_of_fault? hfault
    obtain ⟨hc, hp⟩ := knows_iff.mp hknown
    refine hs.file hfiled ?_ hlabels hnew
    rw [knows_iff, hfiled.pendings]
    exact ⟨fun c hck => Nat.lt_of_lt_of_le (hc c hck) hfiled.size_le, hp⟩

/-- Absent nodes read like those without a form. -/
theorem sameNodes_placeholder (s : Store) : s.SameNodes s.placeholder.2 := by
  have hread : ∀ {β : Type} (f : Option Node → β), f (some ⟨none, none, false⟩) = f none →
      (fun n : NodeId => f s.placeholder.2.nodes[n]?) = fun n => f s.nodes[n]? := by
    intro β f hf
    funext n
    show f (s.nodes.push _)[n]? = _
    rw [Array.getElem?_push]
    split
    · next hn => rw [hf, hn, Array.getElem?_eq_none (Nat.le_refl _)]
    · rfl
  refine ⟨by simp [placeholder], ?_, ?_, ?_, ?_, rfl⟩
  · exact hread (fun o => (o.bind Node.kind).getD (.error .incomplete)) rfl
  · exact hread (fun o => o.bind Node.digest) rfl
  · exact hread (fun o => (o.map Node.interned).getD false) rfl
  · exact hread (fun o => (o.bind Node.kind).isSome) rfl

/-- Changes that bring in no node and no result keep the invariant. -/
theorem Sound.of_samePendings (hs : s.Sound) (h : s.SameNodes t) (htokens : s.tokens ≤ t.tokens)
    (hpendings : t.pendings = s.pendings) : t.Sound := by
  refine hs.of_sameNodes none h htokens (Nat.le_of_eq (congrArg _ hpendings.symm))
    (fun p _ => ?_) (fun q slot hq => ?_) fun slot hslot => absurd hslot (by simp)
  · rw [pendingNumber, hpendings, pendingNumber]
  · rw [result?, pendingStatus, hpendings] at hq
    exact .inl hq

theorem Sound.openPending {l : LoopId} {resolver : Option Resolver} {priority : Priority}
    (hs : s.Sound) : (s.openPending l resolver priority).2.Sound := by
  rw [Store.openPending]
  split
  · exact hs
  split
  · exact hs
  refine hs.of_sameNodes none (sameNodes_of_eq rfl rfl) (Nat.le_refl _) (by simp)
    (fun p hp => ?_) (fun q slot hq => ?_) fun slot hslot => absurd hslot (by simp)
  · have hne : p ≠ s.pendings.size := Nat.ne_of_lt hp
    simp [pendingNumber, Array.getElem?_push, hne]
  · left
    by_cases hqs : q = s.pendings.size
    · simp [result?, pendingStatus, hqs] at hq
    · simpa [result?, pendingStatus, Array.getElem?_push, hqs] using hq

theorem wakeAll_eq : ∀ (ws : List Waiter) (s : Store), ∃ loops, ws.foldl wake s = { s with loops } := by
  intro ws
  induction ws with
  | nil => exact fun s => ⟨s.loops, rfl⟩
  | cons w ws ih =>
    intro s
    obtain ⟨loops, h⟩ := ih (s.wake w)
    exact ⟨loops, h⟩

theorem Sound.setResult {p : PendingId} {slot : Slot} (hs : s.Sound) (hnew : s.AdmitsSlot slot) :
    (s.setResult p slot).2.Sound := by
  rw [Store.setResult]
  split
  · exact hs
  split
  · exact hs
  split
  · exact hs
  obtain ⟨loops, hclose⟩ := wakeAll_eq (s.waiters p) (s.modifyPending p fun c =>
    { c with status := .resolved slot, resolver := none, waiters := [] })
  simp only [close, hclose]
  refine hs.of_sameNodes (some slot) (sameNodes_of_eq rfl rfl) (Nat.le_refl _)
    (by simp [modifyPending]) (fun q hq => ?_) (fun q slot' hq => ?_) fun slot' hslot => ?_
  · simp only [pendingNumber, modifyPending, Array.getElem?_modify]
    split
    · next hpq =>
      subst hpq
      cases s.pendings[p]? <;> rfl
    · rfl
  · simp only [result?, pendingStatus, modifyPending, Array.getElem?_modify] at hq ⊢
    by_cases hpq : p = q
    · subst hpq
      cases hp : s.pendings[p]? with
      | none => simp [hp] at hq
      | some c =>
        simp only [hp, if_true, Option.map_some, Option.getD_some] at hq
        exact .inr hq
    · rw [if_neg hpq] at hq
      exact .inl hq
  · cases hslot
    exact hnew

theorem Sound.change (hs : s.Sound) (c : Change) (hc : s.Admits c) : (c.apply s).Sound := by
  cases c with
  | build k => exact hs.build hc
  | placeholder =>
    exact hs.of_samePendings (sameNodes_placeholder s) (Nat.le_refl _) rfl
  | complete n k => exact hs.complete hc
  | token => exact hs.of_samePendings (sameNodes_of_eq rfl rfl) (Nat.le_succ _) rfl
  | record d => exact hs.of_samePendings (sameNodes_of_eq rfl rfl) (Nat.le_refl _) rfl
  | collect enabled => exact hs.of_samePendings (sameNodes_of_eq rfl rfl) (Nat.le_refl _) rfl
  | discard => exact hs.of_samePendings (sameNodes_of_eq rfl rfl) (Nat.le_refl _) rfl
  | openLoop config => exact hs.of_samePendings (sameNodes_of_eq rfl rfl) (Nat.le_refl _) rfl
  | openPending l resolver priority => exact hs.openPending
  | spawn l d =>
    show (s.spawn l (.merge d)).2.Sound
    rw [spawn]
    split
    · exact hs
    split
    · exact hs
    · exact hs.of_samePendings (sameNodes_of_eq rfl rfl) (Nat.le_refl _) rfl
  | setResult p slot => exact hs.setResult hc

theorem sound_empty : ({} : Store).Sound := by
  have hnodes : ∀ n : NodeId, ({} : Store).nodes[n]? = none := fun n => by simp
  have hkind : ∀ n, ({} : Store).kind n = .error .incomplete := fun n => by rw [kind, hnodes]; rfl
  have hinterned : ∀ n, ({} : Store).isInterned n = false := fun n => by
    rw [isInterned, hnodes]
    rfl
  have hdigest : ∀ n, ({} : Store).digest n = none := fun n => by
    rw [digest, hnodes]
    rfl
  refine ⟨fun n => ?_, fun n => ?_, fun p hp => ?_, fun n _ => ⟨hdigest n, hinterned n⟩,
    fun n d hd => ?_, fun n hn => ?_, fun m n _ hm => ?_⟩
  · rw [hkind]
    rfl
  · rw [hkind]
    trivial
  · rcases hp with ⟨n, hn⟩ | ⟨q, hq⟩
    · rw [hkind] at hn
      exact absurd hn (by simp [Kind.slot?])
    · simp [result?, pendingStatus] at hq
  · rw [hdigest] at hd
    exact absurd hd (by simp)
  · rw [hinterned] at hn
    exact absurd hn (by simp)
  · rw [hinterned] at hm
    exact absurd hm (by simp)

/-- **Every reachable store is sound.** -/
theorem Reachable.sound (h : s.Reachable) : s.Sound := by
  induction h with
  | start => exact sound_empty
  | step c _ hc ih => exact ih.change c hc

end Store

end ValueInference
