/-
Constants and the types that may describe them.

The range of an integer type is found with 128-bit numbers.  A width is cut down to 127 first, and
the powers of two up to there are numbers of 128 bits with numbers below zero by as much, so that
the arithmetic never leaves its range.  A cut width is wide enough for every 64-bit integer.

* **`Constant.inRange?_signed`**, **`Constant.inRange?_unsigned`** — the test of a range says what
  the range says in the integers;
* **`Constant.fits_union?`** — what fits a union of types fits one of these;
* **`Constant.fits_typeOf`** — every constant fits its natural type;
* **`Constant.fits_typeOf_and_integer_ranges`** — and integers fit exactly the types whose range
  they are in, with no arithmetic that leaves its own range.
-/
import Mathlib.Algebra.Group.Int.Defs
import Mathlib.Algebra.Group.Nat.Defs
import ValueInference.Constant
import ValueInference.Proofs.TypeOrder

namespace ValueInference

/-! ### Numbers of 128 bits -/

namespace Wide

variable {v : Wide} {k : UInt32}

@[simp] theorem toInt_ofInt64 (n : Int64) : (ofInt64 n).toInt = n.toInt :=
  BitVec.toInt_signExtend_of_le (by decide)

@[simp] theorem toInt_ofUInt64 (n : UInt64) : (ofUInt64 n).toInt = n.toNat := by
  have hlt : n.toNat < 2 ^ 64 := n.toNat_lt
  have hnat : (ofUInt64 n).toNat = n.toNat := by
    rw [ofUInt64, BitVec.toNat_setWidth, UInt64.toNat_toBitVec]
    exact Nat.mod_eq_of_lt (by omega)
  rw [BitVec.toInt_eq_toNat_of_lt (by omega), hnat]

/-- Below the last bit a single bit is a power of two. -/
theorem bit?_eq_some (h : k.toNat < 127) :
    ∃ v, bit? k = some v ∧ v.toInt = 2 ^ k.toNat := by
  have hk : k < 128 := UInt32.lt_iff_toNat_lt.mpr (Nat.lt_succ_of_lt h)
  have hpow : 2 ^ k.toNat < 2 ^ 127 := Nat.pow_lt_pow_right (by decide) h
  have hnat : (1#128 <<< k.toNat).toNat = 2 ^ k.toNat := by
    rw [BitVec.toNat_shiftLeft, Nat.shiftLeft_eq, BitVec.toNat_ofNat, Nat.one_mod, Nat.one_mul]
    exact Nat.mod_eq_of_lt (by omega)
  refine ⟨_, if_pos hk, ?_⟩
  rw [BitVec.toInt_eq_toNat_of_lt (by omega), hnat]
  exact Int.natCast_pow 2 k.toNat

/-- A number that is not below zero has one below zero by as much. -/
theorem negated?_eq_some (h : 0 ≤ v.toInt) : ∃ u, v.negated? = some u ∧ u.toInt = -v.toInt := by
  have hne : v ≠ BitVec.intMin 128 := by
    rintro rfl
    exact absurd h (by decide)
  exact ⟨-v, if_neg hne, BitVec.toInt_neg_of_ne_intMin hne⟩

end Wide

theorem lower?_eq_some {k : UInt32} (h : 0 < k.toNat) :
    ∃ l, lower? k = some l ∧ l.toNat = k.toNat - 1 := by
  have hne : k ≠ 0 := by
    rintro rfl
    exact absurd h (by decide)
  have hle : (1 : UInt32) ≤ k := UInt32.le_iff_toNat_le.mpr h
  exact ⟨k - 1, if_neg hne, UInt32.toNat_sub_of_le k 1 hle⟩

namespace Constant

/-! ### Ranges -/

variable {v : Wide} {bits : UInt8}

theorem toNat_min_bits (bits : UInt8) :
    (min bits 127).toUInt32.toNat = min bits.toNat 127 := by
  rw [UInt8.toNat_toUInt32]
  by_cases h : bits ≤ 127
  · have hle : bits.toNat ≤ 127 := UInt8.le_iff_toNat_le.mp h
    rw [show min bits 127 = bits from if_pos h, Nat.min_eq_left hle]
  · have hlt : 127 < bits.toNat := Nat.lt_of_not_le fun hle => h (UInt8.le_iff_toNat_le.mpr hle)
    rw [show min bits 127 = 127 from if_neg h, Nat.min_eq_right (Nat.le_of_lt hlt)]
    rfl

theorem toNat_pos_of_ne_zero (h : bits ≠ 0) : 0 < bits.toNat :=
  Nat.pos_of_ne_zero fun hz => h (UInt8.toNat_inj.mp hz)

theorem inRange?_zero (v : Wide) (signed : Bool) : inRange? v signed 0 = some false := rfl

theorem two_pow_le_two_pow {m n : Nat} (h : m ≤ n) : (2 : Int) ^ m ≤ 2 ^ n := by
  exact_mod_cast Nat.pow_le_pow_right Nat.two_pos h

/-- For a signed range two bounds are found, one below zero by as much as the other is above. -/
theorem inRange?_halves (hz : bits ≠ 0) :
    ∃ half least : Wide, inRange? v true bits = some (least.sle v && v.slt half) ∧
      half.toInt = 2 ^ (min bits.toNat 127 - 1) ∧ least.toInt = -half.toInt := by
  have hpos := toNat_pos_of_ne_zero hz
  have hmin := toNat_min_bits bits
  obtain ⟨k, hk, hkn⟩ := lower?_eq_some (k := (min bits 127).toUInt32) (by omega)
  obtain ⟨half, hhalf, hhalfi⟩ := Wide.bit?_eq_some (k := k) (by omega)
  have hnonneg : 0 ≤ half.toInt := hhalfi ▸ Int.le_of_lt (Int.pow_pos (by decide))
  obtain ⟨least, hleast, hleasti⟩ := Wide.negated?_eq_some hnonneg
  refine ⟨half, least, by simp [inRange?, hz, hk, hhalf, hleast], ?_, hleasti⟩
  rw [hhalfi, hkn, hmin]

/-- A signed range goes as far below zero as above, for numbers that 127 bits are enough for. -/
theorem inRange?_signed (hlow : -2 ^ 126 ≤ v.toInt) (hhigh : v.toInt < 2 ^ 126) :
    inRange? v true bits =
      some (decide (1 ≤ bits.toNat ∧ -2 ^ (bits.toNat - 1) ≤ v.toInt ∧
        v.toInt < 2 ^ (bits.toNat - 1))) := by
  by_cases hz : bits = 0
  · subst hz
    simp [inRange?_zero]
  have hpos := toNat_pos_of_ne_zero hz
  obtain ⟨half, least, hrun, hhalf, hleast⟩ := inRange?_halves (v := v) hz
  rw [hrun, BitVec.sle_eq_decide, BitVec.slt_eq_decide, hleast, hhalf, ← Bool.decide_and]
  refine congrArg some (decide_eq_decide.mpr ?_)
  -- Cutting the width down makes no difference, since 127 bits are enough for the number.
  rcases Nat.le_total bits.toNat 127 with hcut | hcut
  · rw [Nat.min_eq_left hcut]
    exact (and_iff_right hpos).symm
  · have hle := two_pow_le_two_pow (show 126 ≤ bits.toNat - 1 by omega)
    rw [Nat.min_eq_right hcut]
    omega

/-- An unsigned range starts at zero. -/
theorem inRange?_unsigned :
    inRange? v false bits =
      some (decide (1 ≤ bits.toNat ∧ 0 ≤ v.toInt ∧ v.toInt < 2 ^ bits.toNat)) := by
  by_cases hz : bits = 0
  · subst hz
    simp [inRange?_zero]
  have hpos := toNat_pos_of_ne_zero hz
  have hmin := toNat_min_bits bits
  by_cases hneg : v.slt 0#128 = true
  · have hlt : v.toInt < 0 := BitVec.slt_iff_toInt_lt.mp hneg
    have hrun : inRange? v false bits = some false := by simp [inRange?, hz, hneg]
    rw [hrun, decide_eq_false]
    omega
  have hnonneg : 0 ≤ v.toInt := Int.not_lt.mp fun hlt => hneg (BitVec.slt_iff_toInt_lt.mpr hlt)
  by_cases hcut : (min bits 127).toUInt32 = 127
  · -- These widths have room for every number.
    have hrun : inRange? v false bits = some true := by simp [inRange?, hz, hneg, hcut]
    have hwide : 127 ≤ bits.toNat := by
      rw [hcut] at hmin
      have : (127 : UInt32).toNat = 127 := rfl
      omega
    have hle := two_pow_le_two_pow hwide
    have hlt : v.toInt < 2 ^ 127 := BitVec.toInt_lt
    rw [hrun, decide_eq_true]
    omega
  · have hne : (min bits 127).toUInt32.toNat ≠ 127 := fun h => hcut (UInt32.toNat_inj.mp h)
    obtain ⟨edge, hedge, hedgei⟩ := Wide.bit?_eq_some (k := (min bits 127).toUInt32) (by omega)
    have hrun : inRange? v false bits = some (v.slt edge) := by
      simp [inRange?, hz, hneg, hcut, hedge]
    rw [hrun, BitVec.slt_eq_decide, hedgei, show (min bits 127).toUInt32.toNat = bits.toNat by omega]
    refine congrArg some (decide_eq_decide.mpr ?_)
    exact ((and_iff_right hpos).trans (and_iff_right hnonneg)).symm

/-- The test of a range always comes to an answer: no shift, subtraction or negation on the way
leaves its own range. -/
theorem inRange?_isSome (v : Wide) (signed : Bool) (bits : UInt8) :
    (inRange? v signed bits).isSome = true := by
  cases signed with
  | false => rw [inRange?_unsigned, Option.isSome_some]
  | true =>
    by_cases hz : bits = 0
    · subst hz
      rfl
    obtain ⟨half, least, hrun, -⟩ := inRange?_halves (v := v) hz
    rw [hrun, Option.isSome_some]

theorem inRange_eq_true_iff {signed : Bool} {p : Prop} [Decidable p]
    (h : inRange? v signed bits = some (decide p)) : inRange v signed bits = true ↔ p := by
  rw [inRange, h, Option.getD_some, decide_eq_true_iff]

/-! ### Unions -/

variable {c : Constant} {cs : List Constant} {t u : Ty} {ts : List Ty}

theorem fitsSome_iff : c.fitsSome ts = true ↔ ∃ t ∈ ts, c.fits t = true := by
  induction ts with
  | nil => simp [fitsSome]
  | cons t ts ih => simp [fitsSome, ih]

theorem fits_iff_alternatives : c.fits t = true ↔ ∃ u ∈ t.alternatives, c.fits u = true := by
  cases t
  case union members => rw [fits, fitsSome_iff, Ty.alternatives]
  all_goals simp [Ty.alternatives]

/-- **What fits a union of types fits one of these**, also if some of them are unions. -/
theorem fits_union? (h : Ty.union? ts = some u) :
    c.fits u = true ↔ ∃ t ∈ ts, c.fits t = true := by
  have hopen : (∃ t ∈ ts, c.fits t = true) ↔
      ∃ v ∈ Ty.sort (ts.flatMap Ty.alternatives), c.fits v = true := by
    simp only [Ty.mem_sort, List.mem_flatMap]
    constructor
    · rintro ⟨t, ht, hc⟩
      obtain ⟨v, hv, hc⟩ := fits_iff_alternatives.mp hc
      exact ⟨v, ⟨t, ht, hv⟩, hc⟩
    · rintro ⟨v, ⟨t, ht, hv⟩, hc⟩
      exact ⟨t, ht, fits_iff_alternatives.mpr ⟨v, hv, hc⟩⟩
  rw [hopen]
  simp only [Ty.union?] at h
  split at h
  · exact nomatch h
  · rename_i v hsort
    cases h
    rw [hsort]
    simp
  · cases h
    rw [fits, fitsSome_iff]

/-- Of constants that fit types one by one, each fits some of the types. -/
theorem exists_of_fitsEach (h : fitsEach cs ts = true) (hc : c ∈ cs) :
    ∃ t ∈ ts, c.fits t = true := by
  induction cs generalizing ts with
  | nil => exact absurd hc List.not_mem_nil
  | cons d cs ih =>
    cases ts with
    | nil => exact nomatch h
    | cons t ts =>
      obtain ⟨hd, hcs⟩ := Bool.and_eq_true_iff.mp h
      obtain rfl | hc := List.mem_cons.mp hc
      · exact ⟨t, List.mem_cons_self, hd⟩
      · obtain ⟨u, hu, hfits⟩ := ih hcs hc
        exact ⟨u, List.mem_cons_of_mem t hu, hfits⟩

/-! ### Natural types -/

theorem fits_int_int (n : Int64) (bits : UInt8) :
    (int n).fits (.int bits) = true ↔
      1 ≤ bits.toNat ∧ -2 ^ (bits.toNat - 1) ≤ n.toInt ∧ n.toInt < 2 ^ (bits.toNat - 1) := by
  have hlow := n.le_toInt
  have hhigh := n.toInt_lt
  have hrun := @inRange?_signed (.ofInt64 n) bits
  rw [Wide.toInt_ofInt64] at hrun
  exact inRange_eq_true_iff (hrun (by omega) (by omega))

theorem fits_uint_int (n : UInt64) (bits : UInt8) :
    (uint n).fits (.int bits) = true ↔
      1 ≤ bits.toNat ∧ -2 ^ (bits.toNat - 1) ≤ (n.toNat : Int) ∧
        (n.toNat : Int) < 2 ^ (bits.toNat - 1) := by
  have hhigh := n.toNat_lt
  have hrun := @inRange?_signed (.ofUInt64 n) bits
  rw [Wide.toInt_ofUInt64] at hrun
  exact inRange_eq_true_iff (hrun (by omega) (by omega))

theorem fits_int_uint (n : Int64) (bits : UInt8) :
    (int n).fits (.uint bits) = true ↔
      1 ≤ bits.toNat ∧ 0 ≤ n.toInt ∧ n.toInt < 2 ^ bits.toNat := by
  have hrun := @inRange?_unsigned (.ofInt64 n) bits
  rw [Wide.toInt_ofInt64] at hrun
  exact inRange_eq_true_iff hrun

theorem fits_uint_uint (n : UInt64) (bits : UInt8) :
    (uint n).fits (.uint bits) = true ↔
      1 ≤ bits.toNat ∧ 0 ≤ (n.toNat : Int) ∧ (n.toNat : Int) < 2 ^ bits.toNat := by
  have hrun := @inRange?_unsigned (.ofUInt64 n) bits
  rw [Wide.toInt_ofUInt64] at hrun
  exact inRange_eq_true_iff hrun

mutual

/-- **Every constant fits its natural type.** -/
theorem fits_typeOf : ∀ c : Constant, c.fits c.typeOf = true
  | .int n => by
    have hlow := n.le_toInt
    have hhigh := n.toInt_lt
    exact (fits_int_int n 64).mpr ⟨by decide, hlow, hhigh⟩
  | .uint n => by
    have hhigh := n.toNat_lt
    refine (fits_uint_uint n 64).mpr ⟨by decide, Int.natCast_nonneg _, ?_⟩
    exact_mod_cast hhigh
  | .tuple items => fitsEach_typesOf items
  | .list items => by
    -- An item fits its own type, and so the union of the types of the items.
    refine List.all_eq_true.mpr fun c hc => ?_
    have hitem := exists_of_fitsEach (fitsEach_typesOf items) hc
    cases hunion : Ty.union? (typesOf items) with
    | none =>
      show c.fits .any = true
      rw [fits]
    | some u => exact (fits_union? hunion).mpr hitem
  | .record tag fields => by simp [typeOf, fits]
  | .float _ | .bool _ | .string _ | .nil | .key _ _ | .type _ => rfl

theorem fitsEach_typesOf : ∀ cs : List Constant, fitsEach cs (typesOf cs) = true
  | [] => rfl
  | c :: cs => Bool.and_eq_true_iff.mpr ⟨fits_typeOf c, fitsEach_typesOf cs⟩

end

/-- **Every constant fits its natural type, integers fit exactly the integer types whose range
they are in, and the arithmetic that finds this out never leaves its own range.** -/
theorem fits_typeOf_and_integer_ranges :
    (∀ c : Constant, c.fits c.typeOf = true) ∧
    (∀ (n : Int64) (bits : UInt8),
      ((int n).fits (.int bits) = true ↔
        1 ≤ bits.toNat ∧ -2 ^ (bits.toNat - 1) ≤ n.toInt ∧ n.toInt < 2 ^ (bits.toNat - 1)) ∧
      ((int n).fits (.uint bits) = true ↔
        1 ≤ bits.toNat ∧ 0 ≤ n.toInt ∧ n.toInt < 2 ^ bits.toNat)) ∧
    (∀ (n : UInt64) (bits : UInt8),
      ((uint n).fits (.int bits) = true ↔
        1 ≤ bits.toNat ∧ -2 ^ (bits.toNat - 1) ≤ (n.toNat : Int) ∧
          (n.toNat : Int) < 2 ^ (bits.toNat - 1)) ∧
      ((uint n).fits (.uint bits) = true ↔
        1 ≤ bits.toNat ∧ 0 ≤ (n.toNat : Int) ∧ (n.toNat : Int) < 2 ^ bits.toNat)) ∧
    ∀ (v : Wide) (signed : Bool) (bits : UInt8), (inRange? v signed bits).isSome = true :=
  ⟨fits_typeOf, fun n bits => ⟨fits_int_int n bits, fits_int_uint n bits⟩,
    fun n bits => ⟨fits_uint_int n bits, fits_uint_uint n bits⟩, inRange?_isSome⟩

end Constant

end ValueInference
