/-
Unions of types are canonical.

A union of types keeps which types it is of and nothing else.  Types are ordered, a union lists them
in their order, and what it opens is no union, so opening once is enough, however unions are put
together from unions.

* **`Ty.compare`** is a linear order in the sense of the library: `Std.TransCmp` and
  `Std.LawfulEqCmp`, so types that compare as equal are equal;
* **`Ty.exists_union?`** — well-formed types have a union, which is canonical;
* **`Ty.Grouping`** — unions of unions, with the types that they are of;
* **`Ty.Grouping.unite_union`** — they come to the union of all these types at once;
* **`Ty.unions_canonical`** — the union of some types is known by the types that they stand for.
-/
import ValueInference.Proofs.TypeOrder

namespace ValueInference

namespace Ty

/-! ### The order -/

theorem isLE_compare {a b : Ty} : (compare a b).isLE = true ↔ compare a b = .lt ∨ a = b := by
  rw [Ordering.isLE_iff_eq_lt_or_eq_eq, compare_eq_iff]

instance : Std.TransCmp compare where
  isLE_trans {a b c} hab hbc := by
    rw [isLE_compare] at *
    rcases hab with hab | rfl
    · rcases hbc with hbc | rfl
      · exact .inl (compare_trans a b c hab hbc)
      · exact .inl hab
    · exact hbc

instance : Std.LawfulEqCmp compare where
  eq_of_compare := (compare_eq_iff _ _).mp

/-! ### Unions of well-formed types -/

/-- **Well-formed types have a union**, which is canonical and stands for the same types. -/
theorem exists_union? {ts : List Ty} (hsome : ts ≠ []) (hts : ∀ t ∈ ts, t.WellFormed) :
    ∃ u, union? ts = some u ∧ u.Canonical ∧
      ∀ x, x ∈ u.alternatives ↔ x ∈ ts.flatMap alternatives := by
  obtain ⟨u, hu⟩ : ∃ u, union? ts = some u := by
    obtain ⟨t, ht⟩ := List.exists_mem_of_ne_nil ts hsome
    obtain ⟨x, hx⟩ := List.exists_mem_of_ne_nil _ (hts t ht).alternatives_flat.1
    have hmem : x ∈ sort (ts.flatMap alternatives) :=
      mem_sort.mpr (List.mem_flatMap.mpr ⟨t, ht, hx⟩)
    rw [union?]
    split
    · next hnil => exact absurd (hnil ▸ hmem) List.not_mem_nil
    · exact ⟨_, rfl⟩
    · exact ⟨_, rfl⟩
  obtain ⟨hcanonical, hmem⟩ := (union?_eq_some_iff hts).mp hu
  exact ⟨u, hu, hcanonical, fun x => (hmem x).symm⟩

/-! ### Groupings -/

/-- A type, or the union of what some groupings come to. -/
inductive Grouping where
  | type (t : Ty)
  | union (first : Grouping) (rest : List Grouping)

namespace Grouping

mutual

/-- The types that are put together. -/
def types : Grouping → List Ty
  | .type t => [t]
  | .union first rest => first.types ++ typesOfEach rest

def typesOfEach : List Grouping → List Ty
  | [] => []
  | g :: gs => g.types ++ typesOfEach gs

end

mutual

/-- Puts the types together, inner unions first. -/
def unite : Grouping → Option Ty
  | .type t => some t
  | .union first rest => do
    let t ← first.unite
    let ts ← uniteEach rest
    union? (t :: ts)

def uniteEach : List Grouping → Option (List Ty)
  | [] => some []
  | g :: gs => do
    let t ← g.unite
    let ts ← uniteEach gs
    return t :: ts

end

/-- What some groupings come to: well-formed types that stand for the same types. -/
structure Gives (types us : List Ty) : Prop where
  wellFormed : ∀ u ∈ us, u.WellFormed
  alternatives : ∀ x, x ∈ us.flatMap alternatives ↔ x ∈ types.flatMap alternatives

theorem Gives.cons {t : Ty} {ts ts' us : List Ty} (h : Gives ts [t]) (h' : Gives ts' us) :
    Gives (ts ++ ts') (t :: us) where
  wellFormed := List.forall_mem_cons.mpr ⟨h.wellFormed t List.mem_cons_self, h'.wellFormed⟩
  alternatives x := by
    have ht := h.alternatives x
    rw [List.flatMap_singleton] at ht
    rw [List.flatMap_cons, List.flatMap_append, List.mem_append, List.mem_append, ht,
      h'.alternatives]

/-- The union of what some groupings come to is the union of all their types. -/
theorem Gives.union?_eq {ts us : List Ty} (h : Gives ts us) : union? us = union? ts :=
  union?_congr h.alternatives

/-- The grouping comes to a type, if the types in it are well-formed. -/
def Unites (g : Grouping) : Prop :=
  (∀ t ∈ g.types, t.WellFormed) → ∃ u, g.unite = some u ∧ Gives g.types [u]

/-- The groupings come to types, if the types in them are well-formed. -/
def UnitesEach (gs : List Grouping) : Prop :=
  (∀ t ∈ typesOfEach gs, t.WellFormed) → ∃ us, uniteEach gs = some us ∧ Gives (typesOfEach gs) us

/-- A grouping, and some after it. -/
theorem Unites.both {g : Grouping} {gs : List Grouping} (hg : g.Unites) (hgs : UnitesEach gs)
    (h : ∀ t ∈ g.types ++ typesOfEach gs, t.WellFormed) :
    ∃ t us, g.unite = some t ∧ uniteEach gs = some us ∧
      Gives (g.types ++ typesOfEach gs) (t :: us) := by
  obtain ⟨hfirst, hrest⟩ := List.forall_mem_append.mp h
  obtain ⟨t, ht, hone⟩ := hg hfirst
  obtain ⟨us, hus, heach⟩ := hgs hrest
  exact ⟨t, us, ht, hus, hone.cons heach⟩

mutual

/-- **A grouping comes to a well-formed type** that stands for the same types. -/
theorem unites : ∀ g : Grouping, g.Unites
  | .type t => fun h => ⟨t, rfl, h, fun _ => .rfl⟩
  | .union first rest => fun h => by
    obtain ⟨t, us, ht, hus, hall⟩ := (unites first).both (unitesEach rest) h
    obtain ⟨u, hu, hcanonical, hmem⟩ := exists_union? (List.cons_ne_nil t us) hall.wellFormed
    refine ⟨u, ?_, List.forall_mem_singleton.mpr hcanonical.wellFormed, fun x => ?_⟩
    · rw [unite, ht, hus]
      exact hu
    · rw [List.flatMap_singleton, hmem]
      exact hall.alternatives x

theorem unitesEach : ∀ gs : List Grouping, UnitesEach gs
  | [] => fun _ => ⟨[], rfl, nofun, fun _ => .rfl⟩
  | g :: gs => fun h => by
    obtain ⟨t, us, ht, hus, hall⟩ := (unites g).both (unitesEach gs) h
    refine ⟨t :: us, ?_, hall⟩
    rw [uniteEach, ht, hus]
    rfl

end

/-- **A union of unions is the union of all their types.** -/
theorem unite_union {first : Grouping} {rest : List Grouping}
    (h : ∀ t ∈ (union first rest).types, t.WellFormed) :
    (union first rest).unite = union? (union first rest).types := by
  obtain ⟨t, us, ht, hus, hall⟩ := (unites first).both (unitesEach rest) h
  rw [unite, ht, hus, types, ← hall.union?_eq]
  rfl

end Grouping

/-! ### Canonicity -/

/-- **Unions of types are canonical.**  The order of types is linear.  Well-formed types, one at
least, have a union: a type that is no union, or a union of two members at least of which none is a
union, in their order, and it stands for the types that they stand for.  Two lists have the same
union exactly if they stand for the same types, and unions of unions of the types in a list come to
the union of the list. -/
theorem unions_canonical {ts us : List Ty} (hts : ts ≠ []) (hus : us ≠ [])
    (hwell : ∀ t ∈ ts, t.WellFormed) (hwell' : ∀ u ∈ us, u.WellFormed) :
    Std.TransCmp compare ∧ Std.LawfulEqCmp compare ∧
      ∃ t u, union? ts = some t ∧ union? us = some u ∧ t.Canonical ∧
        (∀ x, x ∈ t.alternatives ↔ x ∈ ts.flatMap alternatives) ∧
        (t = u ↔ ∀ x, x ∈ ts.flatMap alternatives ↔ x ∈ us.flatMap alternatives) ∧
        ∀ first rest, (Grouping.union first rest).types = ts →
          (Grouping.union first rest).unite = some t := by
  obtain ⟨t, ht, hcanonical, hmem⟩ := exists_union? hts hwell
  obtain ⟨u, hu, -, hmem'⟩ := exists_union? hus hwell'
  refine ⟨inferInstance, inferInstance, t, u, ht, hu, hcanonical, hmem, ⟨?_, fun hsame => ?_⟩,
    fun first rest htypes => ?_⟩
  · rintro rfl x
    exact (hmem x).symm.trans (hmem' x)
  · exact Option.some.inj (ht.symm.trans ((union?_congr hsame).trans hu))
  · rw [Grouping.unite_union (htypes ▸ hwell), htypes, ht]

/-- Integers and a union of them, in two orders and groupings. -/
theorem unions_canonical_integers :
    union? [.union [.int 16, .int 64], .int 32, .int 16] =
        some (.union [.int 16, .int 32, .int 64]) ∧
      union? [.int 64, .int 32, .int 16] = some (.union [.int 16, .int 32, .int 64]) ∧
      (Grouping.union (.type (.int 64))
        [.union (.type (.int 32)) [.type (.int 16)]]).unite =
          some (.union [.int 16, .int 32, .int 64]) := by
  obtain ⟨-, -, t, u, ht, hu, -, -, hsame, hgroup⟩ :=
    @unions_canonical [.int 64, .int 32, .int 16] [.union [.int 16, .int 64], .int 32, .int 16]
      (List.cons_ne_nil _ _) (List.cons_ne_nil _ _) (by decide) (by decide)
  obtain rfl := hsame.mpr fun x => by
    simp only [List.flatMap_cons, List.flatMap_nil, alternatives, List.mem_append, List.mem_cons]
    tauto
  have ht' : union? [.int 64, .int 32, .int 16] = some (.union [.int 16, .int 32, .int 64]) := by
    decide +kernel
  obtain rfl := Option.some.inj (ht.symm.trans ht')
  exact ⟨hu, ht, hgroup _ _ rfl⟩

end Ty

end ValueInference
