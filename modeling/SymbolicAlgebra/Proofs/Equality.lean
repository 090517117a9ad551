import SymbolicAlgebra.Proofs.Failures.Numbers
import SymbolicAlgebra.Proofs.Signs.Double

/-!
# Equality is symmetric

Expressions are compared leaf by leaf, and numbers up to a tolerance as soon as one of them is a
double. None of this depends on which side comes first (`Expr.same_comm`): the differences of two
doubles in either order are opposite, and so have one magnitude, and the larger one of two
magnitudes is one number.
-/

namespace SymbolicAlgebra

open Float.Model Float.Model.UnpackedFloat

/-! ## Doubles -/

namespace Double

variable {a b v : Double}

/-- The magnitude has no sign bit. -/
theorem hasMinus_abs (v : Double) : hasMinus v.abs.toFloat.toModel.unpack = false := by
  by_contra minus
  have packed := signBit_of_hasMinus (Bool.eq_true_of_not_eq_false minus)
  have bit := signBit_of_hasMinus (hasMinus_of_signBit packed)
  have bits : v.abs.bits.toBitVec = v.bits.toBitVec &&& 0x7fffffffffffffff#64 := rfl
  have mask : (0x7fffffffffffffff#64).getLsbD 63 = false := rfl
  rw [bits, BitVec.getLsbD_and, mask, Bool.and_false] at bit
  cases bit

/-- Positive numbers in normal form are ordered by their exponents, and by their mantissas where
these are equal. -/
theorem lt_finite {m n : ℕ} {e k : ℤ} {hm : 0 < m} {hn : 0 < n} :
    (finite .positive m e hm).lt (finite .positive n k hn) = true ↔ e < k ∨ e = k ∧ m < n := by
  show (some ((compare e k).then (compare m n)) == some Ordering.lt) = true ↔ _
  rw [beq_iff_eq, Option.some_inj, Ordering.then_eq_lt, compare_lt_iff_lt, compare_lt_iff_lt,
    compare_eq_iff_eq]

/-- Of two numbers without a minus sign exactly one is below the other, or they are one number. -/
theorem eq_or_lt_eq_not {f g : UnpackedFloat} (hf : hasMinus f = false) (hg : hasMinus g = false)
    (nf : f.isNaN = false) (ng : g.isNaN = false) : f = g ∨ f.lt g = !g.lt f := by
  have positive {s : Sign} (h : (s == .negative) = false) : s = .positive := by
    cases s
    · cases h
    · rfl
  -- neither is negative, so only two finite ones compare by anything but their constructors
  cases f with
  | notANumber => cases nf
  | infinity s =>
    obtain rfl := positive hf
    cases g with
    | notANumber => cases ng
    | infinity t => exact .inl (by rw [positive hg])
    | zero t => exact .inr rfl
    | finite t n k hn => exact .inr rfl
  | zero s =>
    obtain rfl := positive hf
    cases g with
    | notANumber => cases ng
    | infinity t =>
      obtain rfl := positive hg
      exact .inr rfl
    | zero t => exact .inl (by rw [positive hg])
    | finite t n k hn =>
      obtain rfl := positive hg
      exact .inr rfl
  | finite s m e hm =>
    obtain rfl := positive hf
    cases g with
    | notANumber => cases ng
    | infinity t =>
      obtain rfl := positive hg
      exact .inr rfl
    | zero t => exact .inr rfl
    | finite t n k hn =>
      obtain rfl := positive hg
      by_cases same : e = k ∧ m = n
      · obtain ⟨rfl, rfl⟩ := same
        exact .inl rfl
      · refine .inr (Bool.eq_iff_iff.mpr ?_)
        rw [Bool.not_eq_true', Bool.eq_false_iff, ne_eq, lt_finite, lt_finite]
        omega

/-- The bits of a number are not those of an undefined result. -/
theorem isNaNBits_of_number (h : v.isNaN = false) :
    @isNaNBits Format.binary64 v.bits.toBitVec = false := by
  rw [isNaN_eq] at h
  by_contra nan
  obtain ⟨exponent, mantissa⟩ := of_decide_eq_true (Bool.eq_true_of_not_eq_false nan)
  unfold UnpackedFloat.unpack at h
  simp only [exponent, if_pos, if_neg mantissa] at h
  cases h

/-- What a double is read as, when it is a number. -/
theorem unpack_of_number (h : v.isNaN = false) :
    v.toFloat.toModel.unpack = UnpackedFloat.unpack Format.binary64 v.bits.toBitVec := by
  rw [unpack_toFloat, pack_unpack, isNaNBits_of_number h]
  rfl

@[simp] theorem magnitude_abs (v : Double) : v.abs.magnitude = v.magnitude := by
  have mask : BitVec.setWidth 63 0x7fffffffffffffff#64 = BitVec.allOnes 63 := rfl
  have bits : v.abs.bits.toBitVec = v.bits.toBitVec &&& 0x7fffffffffffffff#64 := rfl
  rw [magnitude_eq, magnitude_eq, bits, BitVec.setWidth_and, mask, BitVec.and_allOnes]

@[simp] theorem isNaN_abs (v : Double) : v.abs.isNaN = v.isNaN := by
  unfold isNaN
  rw [magnitude_abs]

/-- A double that is a number is told by the number. -/
theorem eq_of_unpack (ha : a.isNaN = false) (hb : b.isNaN = false)
    (h : a.toFloat.toModel.unpack = b.toFloat.toModel.unpack) : a = b := by
  have packed {v : Double} (hv : v.isNaN = false) :
      UnpackedFloat.pack Format.binary64 v.toFloat.toModel.unpack = v.bits.toBitVec := by
    rw [unpack_of_number hv, pack_unpack, isNaNBits_of_number hv]
    rfl
  have bits : a.bits = b.bits := by rw [← UInt64.toBitVec_inj, ← packed ha, ← packed hb, h]
  exact congrArg Double.mk bits

/-- The larger of two magnitudes is the same from either side. -/
theorem larger_abs_comm (ha : a.isNaN = false) (hb : b.isNaN = false) :
    larger a.abs b.abs = larger b.abs a.abs := by
  rw [← isNaN_abs] at ha hb
  have number {v : Double} (h : v.isNaN = false) : v.toFloat.toModel.unpack.isNaN = false := by
    rw [unpack_of_number h, ← isNaN_eq]
    exact h
  rcases eq_or_lt_eq_not (hasMinus_abs a) (hasMinus_abs b) (number ha) (number hb) with same | lt
  · rw [eq_of_unpack ha hb same]
  · have order : a.abs < b.abs ↔ ¬b.abs < a.abs := by
      rw [lt_iff, lt_iff, lt, Bool.not_eq_true', Bool.not_eq_true]
    unfold larger
    by_cases below : a.abs < b.abs
    · rw [if_pos below, if_neg (order.mp below)]
    · rw [if_neg below, if_pos (not_not.mp (mt order.mpr below))]

/-- The sign turns round twice. -/
theorem neg_neg_unpacked (f : UnpackedFloat) : f.neg.neg = f := by
  cases f with
  | notANumber => rfl
  | infinity s => cases s <;> rfl
  | zero s => cases s <;> rfl
  | finite s m e hm => cases s <;> rfl

/-- A difference below zero rounds to the opposite of the one above, and zero to the same zero. -/
theorem normalize_neg (m e : ℤ) :
    UnpackedFloat.normalize Format.binary64 (-m) e .positive =
        (UnpackedFloat.normalize Format.binary64 m e .positive).neg ∨
      UnpackedFloat.normalize Format.binary64 (-m) e .positive =
        UnpackedFloat.normalize Format.binary64 m e .positive := by
  have below (m : ℤ) (h : m < 0) : UnpackedFloat.normalize Format.binary64 m e .positive =
      (UnpackedFloat.round Format.binary64 .positive (-m).toNat e).neg := by
    unfold UnpackedFloat.normalize
    rw [compare_lt_iff_lt.mpr h]
    exact roundWithAccuracy_neg .positive ..
  have above (m : ℤ) (h : 0 < m) : UnpackedFloat.normalize Format.binary64 m e .positive =
      UnpackedFloat.round Format.binary64 .positive m.toNat e := by
    unfold UnpackedFloat.normalize
    rw [compare_gt_iff_gt.mpr h]
  -- the sign of the integer becomes the sign of the double, and zero keeps its own
  rcases lt_trichotomy m 0 with h | rfl | h
  · rw [below m h, above (-m) (by omega), neg_neg_unpacked]
    exact .inl rfl
  · exact .inr rfl
  · rw [above m h, below (-m) (by omega), neg_neg]
    exact .inl rfl

/-- The differences in either order are opposite, or they are the same zero. -/
theorem sub_comm_unpacked (f g : UnpackedFloat) :
    UnpackedFloat.sub Format.binary64 f g = (UnpackedFloat.sub Format.binary64 g f).neg ∨
      UnpackedFloat.sub Format.binary64 f g = UnpackedFloat.sub Format.binary64 g f := by
  cases f with
  | notANumber => cases g <;> exact .inr rfl
  | infinity s =>
    cases g with
    | notANumber => exact .inr rfl
    | infinity t => cases s <;> cases t <;> exact .inl rfl
    | zero t => cases s <;> exact .inl rfl
    | finite t n k hn => cases s <;> exact .inl rfl
  | zero s =>
    cases g with
    | notANumber => exact .inr rfl
    | infinity t => exact .inl rfl
    | zero t => cases s <;> cases t <;> first | exact .inl rfl | exact .inr rfl
    | finite t n k hn => exact .inl rfl
  | finite s m e hm =>
    cases g with
    | notANumber => exact .inr rfl
    | infinity t => exact .inl rfl
    | zero t => cases s <;> exact .inl rfl
    -- both are brought to the smaller exponent, where the difference of integers changes its sign
    | finite t n k hn =>
      unfold UnpackedFloat.sub
      dsimp only [decreaseExponent]
      rw [min_comm k e, ← neg_sub (t.apply _)]
      exact normalize_neg ..

/-- The magnitude of a difference does not depend on its order. -/
theorem abs_sub_comm (ha : a.isNaN = false) (hb : b.isNaN = false) :
    (a - b).abs = (b - a).abs := by
  have difference {a b : Double} (ha : a.isNaN = false) (hb : b.isNaN = false) :
      a - b = ofFloat (.ofModel (.pack
        (UnpackedFloat.sub Format.binary64 a.toFloat.toModel.unpack b.toFloat.toModel.unpack))) := by
    show lift _ _ _ = _
    unfold lift
    rw [ha, hb]
    rfl
  rw [difference ha hb, difference hb ha]
  rcases sub_comm_unpacked a.toFloat.toModel.unpack b.toFloat.toModel.unpack with opposite | same
  · rw [opposite]
    rcases ofFloat_neg (UnpackedFloat.sub Format.binary64 b.toFloat.toModel.unpack
      a.toFloat.toModel.unpack) with h | ⟨h, h'⟩
    · rw [h, abs_neg]
    · rw [h, h']
  · rw [same]

variable [Tolerance]

/-- Nearness is symmetric. -/
theorem approxEq_comm (a b : Double) : approxEq a b = approxEq b a := by
  have equals : a.equals b = b.equals a := by
    unfold Double.equals
    rw [Bool.and_comm (!a.isNaN), BEq.comm (a := a), Bool.and_comm a.isZero]
  unfold approxEq
  rw [equals, Bool.and_comm a.isFinite]
  split
  · rfl
  · split
    · rfl
    next finite =>
      rw [Bool.not_eq_true', Bool.not_eq_false, Bool.and_eq_true] at finite
      have ha := isNaN_eq_false finite.2
      have hb := isNaN_eq_false finite.1
      rw [abs_sub_comm ha hb, larger_abs_comm ha hb]

end Double

/-! ## Numbers -/

/-- Two calculations that can only fail in one way may be done in either order. -/
theorem Calc.bind_comm {α β γ : Type} {e : Failure} {x : Calc α} {y : Calc β}
    (hx : x.FailsAs (· = e)) (hy : y.FailsAs (· = e)) (f : α → β → Calc γ) :
    (x >>= fun a => y >>= fun b => f a b) = y >>= fun b => x >>= fun a => f a b := by
  cases x with
  | ok a => cases y <;> rfl
  | error e' =>
    cases y with
    | ok b => rfl
    | error e'' =>
      obtain rfl := hx e' rfl
      obtain rfl := hy e'' rfl
      rfl

variable [Tolerance]

/-- Equality of real coefficients is symmetric, whether fractions or doubles are compared. -/
theorem Scalar.same_comm (a b : Scalar) : a.same b = b.same a := by
  have doubles (a b : Scalar) :
      (do return Double.approxEq (← a.toDouble) (← b.toDouble) : Calc Bool) =
        do return Double.approxEq (← b.toDouble) (← a.toDouble) := by
    rw [Calc.bind_comm toDouble_failsAs toDouble_failsAs]
    simp only [Double.approxEq_comm]
  cases a with
  | exact p =>
    cases b with
    | exact q => exact congrArg Except.ok (BEq.comm ..)
    | approx w => exact doubles _ _
  | approx v => cases b <;> exact doubles _ _

theorem Constant.same_comm (c d : Constant) : c.same d = d.same c := by
  cases c <;> cases d <;> simp only [same, Double.approxEq_comm]

/-- Equality of values is symmetric. -/
theorem Value.same_comm (v w : Value) : v.same w = w.same v := by
  have doubles (v w : Value) :
      (do return Double.approxEq (← v.toDouble) (← w.toDouble) : Calc Bool) =
        do return Double.approxEq (← w.toDouble) (← v.toDouble) := by
    rw [Calc.bind_comm toDouble_failsAs toDouble_failsAs]
    simp only [Double.approxEq_comm]
  -- a plain value and a symbolic one are compared as doubles, and so are two different constants
  cases v with
  | plain a =>
    cases w with
    | plain b => exact a.same_comm b
    | symbolic n d => exact doubles _ _
  | symbolic m c =>
    cases w with
    | plain b => exact doubles _ _
    | symbolic n d =>
      unfold same
      dsimp only
      rw [c.same_comm d, m.same_comm n, doubles (symbolic m c)]

theorem Number.same_comm (z w : Number) : z.same w = w.same z := by
  unfold same
  rw [z.re.same_comm, z.im.same_comm]

/-! ## Expressions -/

/-- Equality of leaves is symmetric. -/
theorem Leaf.same_comm (a b : Leaf) : a.same b = b.same a := by
  cases a with
  | number z =>
    cases b with
    | number w => exact z.same_comm w
    | monomial => rfl
  | monomial x m p =>
    cases b with
    | number => rfl
    | monomial y n q =>
      unfold same
      dsimp only
      rw [BEq.comm (a := x), m.same_comm, p.same_comm]

/-- Equality of expressions is symmetric. -/
theorem Expr.same_comm (t u : Expr) : t.same u = u.same t := by
  induction t generalizing u with
  | absent => cases u <;> rfl
  | leaf a =>
    cases u with
    | leaf b => exact a.same_comm b
    | absent => rfl
    | node => rfl
  | node op l r ihl ihr =>
    cases u with
    | node op' l' r' =>
      unfold same
      rw [ihl, ihr]
      by_cases h : op = op'
      · rw [if_pos h, if_pos h.symm]
      · rw [if_neg h, if_neg (Ne.symm h)]
    | absent => rfl
    | leaf => rfl

end SymbolicAlgebra
