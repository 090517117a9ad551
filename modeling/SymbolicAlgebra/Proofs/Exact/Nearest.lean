import SymbolicAlgebra.Proofs.Signs.Double

/-!
# Rounding to the nearest double

`Double.value` is the rational number that a double stands for. This file says what the conversion
of a quotient of integers does, whatever the size of its parts:

* the double is one nearest to the quotient among all finite doubles, and of two that are as near
  it is the one with an even mantissa (`ratio?_isNearest`);
* there is none exactly if the magnitude of the quotient reaches `Double.range`, which lies half a
  unit above the largest finite double (`ratio?_eq_none_iff`).

The quotient is measured in units of its last bit (`lastBit`). Doubles with a last bit at least as
high are integers in this measure, and the mantissa is an integer nearest to the quotient. Doubles
with a lower last bit are smaller than any full mantissa, and so are further off.
-/

namespace SymbolicAlgebra

/-! ## Distances -/

/-- An integer at most one half away is as near as any other. -/
theorem nearest_integer {m : ℤ} {y : ℚ} (near : |m - y| ≤ 1 / 2) (j : ℤ) :
    |m - y| ≤ |j - y| ∧ (j ≠ m → |j - y| = |m - y| → |m - y| = 1 / 2) := by
  by_cases same : j = m
  · subst same
    exact ⟨le_rfl, fun apart => absurd rfl apart⟩
  · have apart : (1 : ℚ) ≤ |(j : ℚ) - m| := by
      exact_mod_cast Int.one_le_abs (sub_ne_zero.mpr same)
    have triangle : |(j : ℚ) - m| ≤ |j - y| + |m - y| := by
      rw [abs_sub_comm (m : ℚ)]
      exact abs_sub_le _ _ _
    exact ⟨by linarith, fun _ tie => by linarith⟩

/-- Opposite numbers are as far apart. -/
theorem distance_neg (a x : ℚ) : |-a - -x| = |a - x| := by
  rw [neg_sub_neg, abs_sub_comm]

/-- A sign does not change the magnitude. -/
theorem abs_signed {x : ℚ} (h : 0 ≤ x) (negative : Bool) : |if negative then -x else x| = x := by
  cases negative
  · exact abs_of_nonneg h
  · exact (abs_neg x).trans (abs_of_nonneg h)

namespace Double

variable {n d m : ℕ} {e : ℤ} {v w : Double} {x y : ℚ}

/-! ## The number that a double stands for -/

/-- The number that a double stands for. Infinities and NaN stand for none, and give zero. -/
def value (v : Double) : ℚ :=
  match v.content with
  | .finite negative m e => if negative then -(m * 2 ^ e) else m * 2 ^ e
  | _ => 0

/-- Mantissa and exponent as the bits hold them: the mantissa is full, or the exponent is the
lowest. -/
structure Canonical (m : ℕ) (e : ℤ) : Prop where
  below : m < 2 ^ 53
  lowest : -1074 ≤ e
  full : e = -1074 ∨ 2 ^ 52 ≤ m

/-- A finite double by its mantissa and exponent. -/
theorem content_of_isFinite (h : v.isFinite = true) :
    ∃ m e, Canonical m e ∧ v.magnitude = encode m e ∧ v.content = .finite v.isNegative m e := by
  unfold isFinite infinityBits at h
  simp only [Nat.pow_eq, decide_eq_true_eq] at h
  unfold content encode
  simp only [Nat.pow_eq]
  rw [if_neg (by omega)]
  by_cases low : v.magnitude / 2 ^ 52 = 0
  · rw [if_pos low]
    exact ⟨_, _, ⟨by omega, by omega, .inl rfl⟩, by omega, rfl⟩
  · rw [if_neg low]
    exact ⟨_, _, ⟨by omega, by omega, .inr (by omega)⟩, by omega, rfl⟩

/-- The bits of a mantissa and an exponent are read back as these. -/
theorem content_signed (negative : Bool) (h : Canonical m e) (fits : encode m e < infinityBits) :
    (signed negative (encode m e)).content = .finite negative m e := by
  have magnitude := magnitude_signed negative fits
  have negative' := isNegative_signed negative fits
  obtain ⟨below, lowest, full⟩ := h
  unfold encode infinityBits at fits
  simp only [Nat.pow_eq] at fits
  by_cases leading : 2 ^ 52 ≤ m
  · exact content_encode negative leading below lowest (by omega)
  · obtain rfl := full.resolve_right leading
    have bits : encode m (-1074) = m := by simp [encode]
    rw [bits] at magnitude negative' ⊢
    unfold content
    simp only [negative', magnitude, Nat.pow_eq]
    rw [if_neg (by omega), if_pos (by omega), Nat.mod_eq_of_lt (by omega)]

/-- The number of the bits that rounding makes. A mantissa may be one too large for its exponent,
and then carries into that. -/
theorem value_signed (negative : Bool) (below : m ≤ 2 ^ 53) (lowest : -1074 ≤ e)
    (full : e = -1074 ∨ 2 ^ 52 ≤ m) (fits : encode m e < infinityBits) :
    (signed negative (encode m e)).value = if negative then -(m * 2 ^ e : ℚ) else m * 2 ^ e := by
  -- the mantissa `2 ^ 53` carries into the next exponent, where it is `2 ^ 52`
  rcases Nat.lt_or_eq_of_le below with below | rfl
  · unfold value
    rw [content_signed negative ⟨below, lowest, full⟩ fits]
  · have carry : encode (2 ^ 53) e = encode (2 ^ 52) (e + 1) := by
      unfold encode
      simp only [Nat.pow_eq]
      omega
    have number : ((2 ^ 53 : ℕ) : ℚ) * 2 ^ e = (2 ^ 52 : ℕ) * 2 ^ (e + 1) := by
      rw [zpow_add_one₀ two_ne_zero]
      push_cast
      ring
    have canonical : Canonical (2 ^ 52) (e + 1) := ⟨by norm_num, by omega, .inr le_rfl⟩
    rw [carry] at fits ⊢
    rw [number]
    unfold value
    rw [content_signed negative canonical fits]

/-- A finite double without a sign, by its bits. -/
theorem value_eq (h : v.isFinite = true) : ∃ m e, Canonical m e ∧ v.magnitude = encode m e ∧
    v.value = if v.isNegative then -(m * 2 ^ e : ℚ) else m * 2 ^ e := by
  obtain ⟨m, e, canonical, bits, content⟩ := content_of_isFinite h
  refine ⟨m, e, canonical, bits, ?_⟩
  unfold value
  rw [content]

@[simp] theorem isFinite_neg (v : Double) : (-v).isFinite = v.isFinite := by
  unfold isFinite
  rw [magnitude_neg]

/-- The opposite stands for the opposite number. -/
@[simp] theorem value_neg (v : Double) : (-v).value = -v.value := by
  unfold value content
  rw [isNegative_neg, magnitude_neg]
  dsimp only
  split_ifs <;> cases v.isNegative <;> simp

/-! ## Rounding to an integer -/

/-- Rounding takes one of the two integers beside a quotient: the nearer one, or the even one. -/
theorem roundQuotient_cases (n d : ℕ) :
    (roundQuotient n d = n / d ∧ 2 * (n % d) < d) ∨
      (roundQuotient n d = n / d + 1 ∧ d < 2 * (n % d)) ∨
        ((roundQuotient n d = n / d ∨ roundQuotient n d = n / d + 1) ∧ 2 * (n % d) = d ∧
          roundQuotient n d % 2 = 0) := by
  unfold roundQuotient
  dsimp only
  split_ifs <;> omega

/-- A rounded quotient is at most one half away, and even if it is just as far. -/
theorem roundQuotient_near (n : ℕ) (hd : 0 < d) :
    |(roundQuotient n d : ℚ) - n / d| ≤ 1 / 2 ∧
      (|(roundQuotient n d : ℚ) - n / d| = 1 / 2 → roundQuotient n d % 2 = 0) := by
  have hdq : (0 : ℚ) < d := by exact_mod_cast hd
  -- the remainder decides, since it is what the quotient has behind its point
  have split : (n : ℚ) / d = (n / d : ℕ) + (n % d : ℕ) / d := by
    have parts : (n : ℚ) = (n / d : ℕ) * d + (n % d : ℕ) := by
      exact_mod_cast (Nat.div_add_mod' n d).symm
    rw [div_eq_iff hdq.ne', add_mul, div_mul_cancel₀ _ hdq.ne']
    exact parts
  have rest : 0 ≤ ((n % d : ℕ) : ℚ) / d ∧ ((n % d : ℕ) : ℚ) / d < 1 :=
    ⟨by positivity, (div_lt_one hdq).mpr (by exact_mod_cast Nat.mod_lt n hd)⟩
  rw [split]
  rcases roundQuotient_cases n d with ⟨whole, low⟩ | ⟨whole, high⟩ | ⟨whole, tie, even⟩
  · have low : ((n % d : ℕ) : ℚ) / d < 1 / 2 := by
      rw [div_lt_div_iff₀ hdq two_pos]
      exact_mod_cast (by omega : n % d * 2 < 1 * d)
    have near : |(roundQuotient n d : ℚ) - ((n / d : ℕ) + (n % d : ℕ) / d)| < 1 / 2 := by
      rw [whole]
      exact abs_lt.mpr ⟨by linarith, by linarith⟩
    exact ⟨near.le, fun tie => absurd tie near.ne⟩
  · have high : 1 / 2 < ((n % d : ℕ) : ℚ) / d := by
      rw [div_lt_div_iff₀ two_pos hdq]
      exact_mod_cast (by omega : 1 * d < n % d * 2)
    have near : |(roundQuotient n d : ℚ) - ((n / d : ℕ) + (n % d : ℕ) / d)| < 1 / 2 := by
      rw [whole, Nat.cast_add_one]
      exact abs_lt.mpr ⟨by linarith, by linarith⟩
    exact ⟨near.le, fun tie => absurd tie near.ne⟩
  · have tie : ((n % d : ℕ) : ℚ) / d = 1 / 2 := by
      rw [div_eq_div_iff hdq.ne' two_ne_zero]
      exact_mod_cast (by omega : n % d * 2 = 1 * d)
    refine ⟨?_, fun _ => even⟩
    rcases whole with whole | whole
    · rw [whole]
      exact abs_le.mpr ⟨by linarith, by linarith⟩
    · rw [whole, Nat.cast_add_one]
      exact abs_le.mpr ⟨by linarith, by linarith⟩

/-! ## The mantissa of a quotient -/

/-- The quotient in units of its last bit, as an integer. -/
def mantissa (n d : ℕ) : ℕ :=
  if 0 ≤ lastBit n d then roundQuotient n (d * Nat.pow 2 (lastBit n d).toNat)
  else roundQuotient (n * Nat.pow 2 (-lastBit n d).toNat) d

/-- The bits of a quotient are those of its mantissa at its last bit. -/
theorem quotientBits_eq (n d : ℕ) : quotientBits n d = encode (mantissa n d) (lastBit n d) := rfl

theorem lastBit_ge (n d : ℕ) : -1074 ≤ lastBit n d := le_max_right _ _

/-- The mantissa is the quotient in units of the last bit, rounded. -/
theorem mantissa_near (n : ℕ) (hd : 0 < d) :
    |(mantissa n d : ℚ) - n / d / 2 ^ lastBit n d| ≤ 1 / 2 ∧
      (|(mantissa n d : ℚ) - n / d / 2 ^ lastBit n d| = 1 / 2 → mantissa n d % 2 = 0) := by
  unfold mantissa
  split
  next h =>
    obtain ⟨k, hk⟩ := Int.eq_ofNat_of_zero_le h
    have near := roundQuotient_near n (d := d * 2 ^ k) (by positivity)
    rw [hk, Int.toNat_natCast, Nat.pow_eq, zpow_natCast, div_div]
    exact_mod_cast near
  next h =>
    obtain ⟨k, hk⟩ : ∃ k : ℕ, lastBit n d = -(k : ℤ) := ⟨(-lastBit n d).toNat, by omega⟩
    have near := roundQuotient_near (n * 2 ^ k) hd
    rw [hk, neg_neg, Int.toNat_natCast, Nat.pow_eq, zpow_neg, zpow_natCast, div_inv_eq_mul,
      div_mul_eq_mul_div]
    exact_mod_cast near

/-- In units of its last bit a quotient has fifty-three digits, or fewer if it is too small. -/
theorem scaled_mem (hn : 0 < n) (hd : 0 < d) :
    (n / d / 2 ^ lastBit n d : ℚ) < 2 ^ 53 ∧
      (lastBit n d ≠ -1074 → (2 ^ 52 : ℚ) ≤ n / d / 2 ^ lastBit n d) := by
  have positive : (0 : ℚ) < n / d := by positivity
  have bit := lastBit_eq hn hd
  have unit : (0 : ℚ) < 2 ^ lastBit n d := by positivity
  constructor
  · rw [div_lt_iff₀ unit, ← zpow_natCast, ← zpow_add₀ two_ne_zero, ← not_le,
      two_zpow_le_iff positive]
    push_cast
    omega
  · intro normal
    rw [le_div_iff₀ unit, ← zpow_natCast, ← zpow_add₀ two_ne_zero, two_zpow_le_iff positive]
    push_cast
    omega

/-- The mantissa of a quotient has all its digits, unless the quotient is among the smallest. -/
theorem mantissa_full (hn : 0 < n) (hd : 0 < d) :
    lastBit n d = -1074 ∨ 2 ^ 52 ≤ mantissa n d := by
  by_cases low : lastBit n d = -1074
  · exact .inl low
  · have least := (scaled_mem hn hd).2 low
    have near := (abs_le.mp (mantissa_near n hd).1).1
    have : (2 ^ 52 : ℚ) < mantissa n d + 1 := by linarith
    exact .inr (Nat.lt_add_one_iff.mp (by exact_mod_cast this))

/-- The number that the bits of a quotient stand for. -/
theorem value_quotientBits (negative : Bool) (hn : 0 < n) (hd : 0 < d)
    (fits : quotientBits n d < infinityBits) : (signed negative (quotientBits n d)).value =
      if negative then -(mantissa n d * 2 ^ lastBit n d : ℚ) else mantissa n d * 2 ^ lastBit n d :=
  value_signed negative (mantissa_le hn hd) (lastBit_ge n d) (mantissa_full hn hd) fits

/-! ## The nearest double -/

/-- The double is nearest to the number among all finite doubles, and the last bit of its mantissa
is zero if another one is as near. -/
structure IsNearest (v : Double) (x : ℚ) : Prop where
  finite : v.isFinite = true
  le : ∀ w : Double, w.isFinite = true → |v.value - x| ≤ |w.value - x|
  even : ∀ w : Double, w.isFinite = true → w.value ≠ v.value →
    |w.value - x| = |v.value - x| → v.magnitude % 2 = 0

/-- The opposite is nearest to the opposite number. -/
theorem IsNearest.neg (h : v.IsNearest x) : (-v).IsNearest (-x) := by
  have opposite (w : Double) : |w.value - -x| = |(-w).value - x| := by
    rw [value_neg, ← distance_neg, neg_neg]
  have finite (w : Double) (hw : w.isFinite = true) : (-w).isFinite = true :=
    (isFinite_neg w).trans hw
  constructor
  · exact finite v h.finite
  · intro w hw
    rw [value_neg, distance_neg, opposite]
    exact h.le (-w) (finite w hw)
  · intro w hw apart tie
    rw [value_neg, distance_neg, opposite] at tie
    rw [magnitude_neg]
    refine h.even (-w) (finite w hw) (fun same => apart ?_) tie
    rw [value_neg, ← same, value_neg, neg_neg]

/-- A number that is a double is its own nearest one. -/
theorem IsNearest.eq_value (h : v.IsNearest x) (finite : w.isFinite = true) (exact : w.value = x) :
    v.value = x := by
  have least := h.le w finite
  rw [exact, sub_self, abs_zero, abs_nonpos_iff, sub_eq_zero] at least
  exact least

/-- Rounding keeps the order. -/
theorem IsNearest.le_of_lt (hv : v.IsNearest x) (hw : w.IsNearest y) (h : x < y) :
    v.value ≤ w.value := by
  by_contra above
  rw [not_le] at above
  -- both numbers would lie on the other double's side of the middle between the two
  have left := sq_le_sq.mpr (hv.le w hw.finite)
  have right := sq_le_sq.mpr (hw.le v hv.finite)
  nlinarith

/-- In units of any bit a double is an integer, or smaller than a full mantissa. -/
theorem grid_or_below (h : w.isFinite = true) (k : ℤ) :
    (∃ j : ℤ, w.value / 2 ^ k = j) ∨ -1074 < k ∧ |w.value / 2 ^ k| < 2 ^ 52 := by
  have unit : (0 : ℚ) < 2 ^ k := zpow_pos two_pos k
  obtain ⟨m, e, canonical, -, value⟩ := value_eq h
  -- a double with a larger exponent is on the grid, one with a smaller exponent below its start
  rcases le_or_gt k e with above | below
  · obtain ⟨i, rfl⟩ := Int.le.dest above
    have scaled : (m * 2 ^ (k + i) : ℚ) = (m * 2 ^ i : ℕ) * 2 ^ k := by
      rw [zpow_add₀ two_ne_zero, zpow_natCast]
      push_cast
      ring
    left
    rw [value, scaled]
    split
    · exact ⟨-(m * 2 ^ i : ℕ), by rw [neg_div, mul_div_cancel_right₀ _ unit.ne']; push_cast; rfl⟩
    · exact ⟨(m * 2 ^ i : ℕ), by rw [mul_div_cancel_right₀ _ unit.ne']; push_cast; rfl⟩
  · refine .inr ⟨canonical.lowest.trans_lt below, ?_⟩
    have mantissa : (m : ℚ) < 2 ^ 53 := by exact_mod_cast canonical.below
    rw [abs_div, abs_of_pos unit, div_lt_iff₀ unit]
    calc |w.value| = m * 2 ^ e := value ▸ abs_signed (by positivity) _
      _ < 2 ^ 53 * 2 ^ e := by gcongr
      _ = 2 ^ 52 * 2 ^ (e + 1) := by
        rw [zpow_add_one₀ two_ne_zero]
        ring
      _ ≤ 2 ^ 52 * 2 ^ k := by
        gcongr
        · norm_num
        · omega

/-- In units of the last bit the mantissa is as near to the quotient as any double, and even if
another one is. -/
theorem mantissa_nearest (hn : 0 < n) (hd : 0 < d) {z : ℚ}
    (grid : (∃ j : ℤ, z = j) ∨ -1074 < lastBit n d ∧ |z| < 2 ^ 52) :
    |(mantissa n d : ℚ) - n / d / 2 ^ lastBit n d| ≤ |z - n / d / 2 ^ lastBit n d| ∧
      (z ≠ mantissa n d →
        |z - n / d / 2 ^ lastBit n d| = |(mantissa n d : ℚ) - n / d / 2 ^ lastBit n d| →
          mantissa n d % 2 = 0) := by
  obtain ⟨near, tie⟩ := mantissa_near n hd
  have least := (scaled_mem hn hd).2
  generalize (n / d / 2 ^ lastBit n d : ℚ) = y at near tie least ⊢
  -- on the grid the rounded integer is nearest; below it the least full mantissa is nearer still
  rcases grid with ⟨j, rfl⟩ | ⟨normal, small⟩
  · obtain ⟨le, half⟩ := nearest_integer (m := mantissa n d) (by exact_mod_cast near) j
    refine ⟨by exact_mod_cast le, fun apart same => tie ?_⟩
    exact_mod_cast half (by exact_mod_cast apart) (by exact_mod_cast same)
  · -- the least full mantissa lies between, and is an integer
    have full : (2 ^ 52 : ℚ) ≤ y := least normal.ne'
    obtain ⟨le, -⟩ := nearest_integer (m := mantissa n d) (by exact_mod_cast near) (2 ^ 52)
    have further : |(2 ^ 52 : ℚ) - y| < |z - y| := by
      rw [abs_lt] at small
      rw [abs_of_nonpos (by linarith), abs_of_neg (by linarith)]
      linarith
    push_cast at le
    exact ⟨le.trans further.le, fun _ same => absurd same (le.trans_lt further).ne'⟩

/-- The bits of a positive quotient are those of a nearest double. -/
theorem quotientBits_isNearest (hn : 0 < n) (hd : 0 < d) (fits : quotientBits n d < infinityBits) :
    (signed false (quotientBits n d)).IsNearest (n / d) := by
  have unit : (0 : ℚ) < 2 ^ lastBit n d := zpow_pos two_pos _
  have value := value_quotientBits false hn hd fits
  rw [if_neg Bool.false_ne_true] at value
  -- both distances are measured in units of the last bit
  have distance (z : ℚ) : |z * 2 ^ lastBit n d - n / d| =
      |z - n / d / 2 ^ lastBit n d| * 2 ^ lastBit n d := by
    rw [← abs_of_pos unit, ← abs_mul, abs_of_pos unit, sub_mul, div_mul_cancel₀ _ unit.ne']
  have scaled (w : Double) : w.value = w.value / 2 ^ lastBit n d * 2 ^ lastBit n d :=
    (div_mul_cancel₀ _ unit.ne').symm
  refine ⟨isFinite_signed _ fits, fun w hw => ?_, fun w hw apart same => ?_⟩
  · obtain ⟨le, -⟩ := mantissa_nearest hn hd (grid_or_below hw _)
    rw [value, distance, scaled w, distance]
    exact mul_le_mul_of_nonneg_right le unit.le
  · obtain ⟨-, even⟩ := mantissa_nearest hn hd (grid_or_below hw _)
    rw [value, distance, scaled w, distance, mul_left_inj' unit.ne'] at same
    have even := even (fun equal => apart (by rw [value, scaled w, equal])) same
    rw [magnitude_signed _ fits, quotientBits_eq, encode, Nat.pow_eq]
    omega

/-! ## The range of doubles -/

/-- Where the range of doubles ends: half a unit above the largest finite one. -/
def range : ℚ := 2 ^ 1024 - 2 ^ 970

/-- The range ends in the middle between the largest double and what would be the next one. -/
theorem range_eq : range = (2 ^ 53 - 1 / 2) * 2 ^ (971 : ℤ) := by
  have high : (2 : ℚ) ^ 1024 = 2 ^ 53 * 2 ^ 971 := by rw [← pow_add]
  have low : (2 : ℚ) ^ 971 = 2 ^ 970 * 2 := pow_succ 2 970
  have unit : (2 : ℚ) ^ (971 : ℤ) = 2 ^ 971 := zpow_natCast 2 971
  rw [range, high, unit, low]
  generalize (2 : ℚ) ^ 970 = u
  ring

theorem range_pos : 0 < range := by
  rw [range_eq]
  exact mul_pos (by norm_num) (zpow_pos two_pos _)

/-- The mantissa does not carry into the exponent below the middle of its last step. In the middle
it does, since the even one of two mantissas is taken. -/
theorem mantissa_lt_iff (n : ℕ) (hd : 0 < d) :
    mantissa n d < 2 ^ 53 ↔ (n / d / 2 ^ lastBit n d : ℚ) < 2 ^ 53 - 1 / 2 := by
  obtain ⟨near, tie⟩ := mantissa_near n hd
  generalize (n / d / 2 ^ lastBit n d : ℚ) = y at near tie ⊢
  obtain ⟨low, high⟩ := abs_le.mp near
  constructor
  · intro fits
    have most : (mantissa n d : ℚ) ≤ 2 ^ 53 - 1 := by
      exact_mod_cast (by omega : (mantissa n d : ℤ) ≤ 2 ^ 53 - 1)
    refine lt_of_le_of_ne (by linarith) fun half => ?_
    have below : (mantissa n d : ℚ) = 2 ^ 53 - 1 := by linarith
    have even := tie (by rw [below, half]; norm_num [abs_of_neg])
    have odd : (mantissa n d : ℤ) = 2 ^ 53 - 1 := by exact_mod_cast below
    omega
  · intro small
    have below : (mantissa n d : ℚ) < 2 ^ 53 := by linarith
    exact_mod_cast below

/-- A positive quotient has a finite double exactly below the end of the range. -/
theorem quotientBits_lt_iff (hn : 0 < n) (hd : 0 < d) :
    quotientBits n d < infinityBits ↔ (n / d : ℚ) < range := by
  obtain ⟨below, least⟩ := scaled_mem hn hd
  have full := mantissa_full hn hd
  have most : mantissa n d ≤ 2 ^ 53 := mantissa_le hn hd
  have carry := mantissa_lt_iff n hd
  have positive (k : ℤ) : (0 : ℚ) < 2 ^ k := zpow_pos two_pos k
  have double {j k : ℤ} (h : j < k) : (2 : ℚ) ^ j * 2 ≤ 2 ^ k := by
    rw [← zpow_add_one₀ two_ne_zero]
    exact zpow_le_zpow_right₀ one_le_two h
  have last_pos := positive 971
  rw [quotientBits_eq, encode, infinityBits, Nat.pow_eq, range_eq]
  -- only with the highest last bit it matters how the mantissa is rounded
  rcases lt_trichotomy (lastBit n d) 971 with low | last | high
  · have unit := double low
    generalize (2 : ℚ) ^ (971 : ℤ) = top at unit last_pos ⊢
    rw [div_lt_iff₀ (positive _)] at below
    exact iff_of_true (by omega) (by linarith [positive (lastBit n d)])
  · rw [last] at carry ⊢
    rw [← div_lt_iff₀ last_pos, ← carry]
    omega
  · have unit := double high
    have least := least (by omega)
    generalize (2 : ℚ) ^ (971 : ℤ) = top at unit last_pos ⊢
    rw [le_div_iff₀ (positive _)] at least
    exact iff_of_false (by omega) (not_lt.mpr (by linarith))

/-! ## Quotients of integers -/

/-- The other sign makes the opposite double. -/
theorem quotient?_true (n d : ℕ) : quotient? true n d = (quotient? false n d).map (-·) := by
  have zero : (0 : ℕ) < infinityBits := by decide
  unfold quotient?
  dsimp only
  split
  · exact congrArg some (signed_not false zero)
  · split
    next fits => exact congrArg some (signed_not false fits)
    next => rfl

theorem value_zero : (signed false 0).value = 0 := by decide +kernel

/-- The double zero stands for this number. -/
theorem zero_spec : (0 : Double).isFinite = true ∧ (0 : Double).value = 0 := ⟨rfl, value_zero⟩

/-- The double one stands for this number, which is an integer. -/
theorem one_spec : (1 : Double).isFinite = true ∧ (1 : Double).value = 1 ∧
    (1 : Double).isZero = false ∧ (1 : Double).isIntegral = true ∧ (1 : Double).toInt = 1 :=
  ⟨rfl, by decide +kernel, rfl, rfl, rfl⟩

/-- The double zero is nearest to zero. -/
theorem zero_isNearest : (signed false 0).IsNearest 0 := by
  refine ⟨rfl, fun w _ => ?_, fun w _ apart tie => absurd ?_ apart⟩
  · rw [value_zero, sub_zero, abs_zero]
    exact abs_nonneg _
  · rw [value_zero, sub_zero, sub_zero, abs_zero, abs_eq_zero] at tie
    rw [tie, value_zero]

/-- The double of a quotient is nearest to it. -/
theorem quotient?_isNearest {n d : ℕ} (hd : 0 < d) (h : quotient? false n d = some v) :
    v.IsNearest (n / d) := by
  unfold quotient? at h
  by_cases zero : n = 0
  · rw [if_pos zero] at h
    rw [zero, Nat.cast_zero, zero_div, ← Option.some_inj.mp h]
    exact zero_isNearest
  · rw [if_neg zero] at h
    dsimp only at h
    split at h
    next fits =>
      rw [← Option.some_inj.mp h]
      exact quotientBits_isNearest (Nat.pos_of_ne_zero zero) hd fits
    next => cases h

/-- A quotient of integers by the magnitudes of its parts. -/
theorem natAbs_div_natAbs (n d : ℤ) : ((n.natAbs : ℚ) / d.natAbs) = |(n / d : ℚ)| := by
  rw [Nat.cast_natAbs, Nat.cast_natAbs, abs_div, Int.cast_abs, Int.cast_abs]

/-- The sign of a quotient of integers is that of its double. -/
theorem div_of_sign (n d : ℤ) : (n / d : ℚ) =
    if (n < 0) != (d < 0) then -((n.natAbs : ℚ) / d.natAbs)
    else (n.natAbs : ℚ) / d.natAbs := by
  have part {k : ℤ} : ((k.natAbs : ℕ) : ℚ) = if k < 0 then -(k : ℚ) else k := by
    rw [Nat.cast_natAbs]
    split
    next h => rw [abs_of_neg h, Int.cast_neg]
    next h => rw [abs_of_nonneg (not_lt.mp h)]
  rw [part, part]
  by_cases hn : n < 0 <;> by_cases hd : d < 0 <;> simp [hn, hd, neg_div, div_neg]

/-- What the doubles of quotients of natural numbers have, and opposite doubles too, those of
quotients of integers have. -/
theorem ratio?_of_quotient? {P : Double → ℚ → Prop} (neg : ∀ v x, P v x → P (-v) (-x))
    (natural : ∀ {n d : ℕ} {v : Double}, 0 < d → quotient? false n d = some v → P v (n / d))
    {n d : ℤ} (hd : d ≠ 0) (h : ratio? n d = some v) : P v (n / d) := by
  have positive : 0 < d.natAbs := Int.natAbs_pos.mpr hd
  unfold ratio? at h
  rw [div_of_sign n d]
  split
  next opposite =>
    rw [opposite, quotient?_true] at h
    obtain ⟨w, found, rfl⟩ := Option.map_eq_some_iff.mp h
    exact neg _ _ (natural positive found)
  next same =>
    rw [Bool.not_eq_true] at same
    rw [same] at h
    exact natural positive h

/-- **The double of a quotient of integers is a nearest one**, and of two that are as near the one
with an even mantissa. -/
theorem ratio?_isNearest {n d : ℤ} (hd : d ≠ 0) (h : ratio? n d = some v) :
    v.IsNearest (n / d) :=
  ratio?_of_quotient? (fun _ _ => IsNearest.neg) quotient?_isNearest hd h

/-- **A quotient of integers has no double exactly if it is out of range.** -/
theorem ratio?_eq_none_iff {n d : ℤ} (hd : d ≠ 0) :
    ratio? n d = none ↔ range ≤ |(n / d : ℚ)| := by
  have positive : 0 < d.natAbs := Int.natAbs_pos.mpr hd
  rw [← natAbs_div_natAbs]
  unfold ratio? quotient?
  by_cases zero : n.natAbs = 0
  · rw [if_pos zero, zero, Nat.cast_zero, zero_div]
    exact iff_of_false nofun (not_le.mpr range_pos)
  · rw [if_neg zero, ← not_lt, ← quotientBits_lt_iff (Nat.pos_of_ne_zero zero) positive]
    dsimp only
    split
    next fits => exact iff_of_false nofun (not_not.mpr fits)
    next wide => exact iff_of_true rfl wide

/-- The double of a quotient is off by a small part of it, unless it is among the smallest. -/
theorem quotient?_error {n d : ℕ} (hd : 0 < d) (h : quotient? false n d = some v)
    (normal : n ≠ 0 → 2 ^ (-1022 : ℤ) ≤ (n / d : ℚ)) :
    |v.value - n / d| * 2 ^ 53 ≤ |(n / d : ℚ)| := by
  by_cases zero : n = 0
  · -- nothing is rounded at all
    have exact : v.value = n / d :=
      (quotient?_isNearest hd h).eq_value zero_isNearest.finite (by
        rw [value_zero, zero, Nat.cast_zero, zero_div])
    rw [exact, sub_self, abs_zero, zero_mul]
    exact abs_nonneg _
  · have hn := Nat.pos_of_ne_zero zero
    have positive : (0 : ℚ) < n / d := by positivity
    have unit : (0 : ℚ) < 2 ^ lastBit n d := zpow_pos two_pos _
    -- a quotient that is normal has 52 bits in front of the last one
    have leading : (2 : ℚ) ^ lastBit n d * 2 ^ 52 ≤ n / d := by
      have bit := lastBit_eq hn hd
      have log := (two_zpow_le_iff positive).mp (normal zero)
      rw [← zpow_natCast, ← zpow_add₀ two_ne_zero, two_zpow_le_iff positive]
      push_cast
      omega
    unfold quotient? at h
    rw [if_neg zero] at h
    dsimp only at h
    split at h
    next fits =>
      obtain rfl := Option.some_inj.mp h
      have number : (n / d : ℚ) = n / d / 2 ^ lastBit n d * 2 ^ lastBit n d :=
        (div_mul_cancel₀ _ unit.ne').symm
      have near := mul_le_mul_of_nonneg_right (mantissa_near n hd).1 unit.le
      rw [value_quotientBits false hn hd fits, if_neg Bool.false_ne_true, abs_of_pos positive]
      rw [← abs_of_pos unit, ← abs_mul, abs_of_pos unit, sub_mul, ← number] at near
      linarith
    next => cases h

/-- Rounding moves a number that is not too small by a small part of it. -/
theorem ratio?_error {n d : ℤ} (hd : d ≠ 0) (h : ratio? n d = some v)
    (normal : n ≠ 0 → 2 ^ (-1022 : ℤ) ≤ |(n / d : ℚ)|) :
    |v.value - n / d| * 2 ^ 53 ≤ |(n / d : ℚ)| := by
  have hdq : (d : ℚ) ≠ 0 := Int.cast_ne_zero.mpr hd
  have normal' : (n / d : ℚ) ≠ 0 → 2 ^ (-1022 : ℤ) ≤ |(n / d : ℚ)| := fun nonzero =>
    normal fun zero => nonzero (by rw [zero, Int.cast_zero, zero_div])
  refine ratio?_of_quotient? (P := fun v x => (x ≠ 0 → 2 ^ (-1022 : ℤ) ≤ |x|) →
    |v.value - x| * 2 ^ 53 ≤ |x|) (fun v x error normal => ?_) (fun hd found normal => ?_) hd h
    normal'
  · have magnitude : |-x| = |x| := by
      rw [← sub_zero (-x), ← neg_zero, distance_neg, sub_zero]
    rw [magnitude] at normal
    rw [value_neg, distance_neg, magnitude]
    exact error fun nonzero => normal (neg_ne_zero.mpr nonzero)
  · refine quotient?_error hd found fun nonzero => ?_
    have := normal (div_ne_zero (Nat.cast_ne_zero.mpr nonzero) (Nat.cast_ne_zero.mpr hd.ne'))
    rwa [abs_of_nonneg (by positivity)] at this

/-! ## Integers -/

/-- A mantissa with its exponent as a quotient of natural numbers. -/
theorem scale_div (m : ℕ) (e : ℤ) :
    0 < (scale m e).2 ∧ ((scale m e).1 / (scale m e).2 : ℚ) = m * 2 ^ e := by
  unfold scale
  split
  next h =>
    obtain ⟨k, rfl⟩ := Int.eq_ofNat_of_zero_le h
    refine ⟨one_pos, ?_⟩
    rw [Int.toNat_natCast, Nat.pow_eq, zpow_natCast]
    push_cast
    exact div_one _
  next h =>
    obtain ⟨k, rfl⟩ : ∃ k : ℕ, e = -k := ⟨(-e).toNat, by omega⟩
    rw [neg_neg, Int.toNat_natCast, Nat.pow_eq, zpow_neg, zpow_natCast]
    refine ⟨by positivity, ?_⟩
    push_cast
    exact div_eq_mul_inv _ _

/-- Rounding to an integer moves a double by at most a half. -/
theorem roundEven_near (h : v.isFinite = true) : |(v.roundEven : ℚ) - v.value| ≤ 1 / 2 := by
  obtain ⟨m, e, -, -, content⟩ := content_of_isFinite h
  obtain ⟨positive, quotient⟩ := scale_div m e
  have near := (roundQuotient_near (scale m e).1 positive).1
  rw [quotient] at near
  unfold roundEven value
  rw [content]
  dsimp only
  cases v.isNegative
  · exact near
  · rw [if_pos rfl, if_pos rfl, Int.cast_neg, distance_neg]
    exact near

/-- What counts as an integer stands for one. -/
theorem value_of_isIntegral (h : v.isIntegral = true) : ∃ k : ℤ, v.value = k := by
  unfold isIntegral at h
  unfold value
  cases content : v.content with
  | finite negative m e =>
    rw [content] at h
    obtain ⟨positive, quotient⟩ := scale_div m e
    have multiple : (scale m e).1 % (scale m e).2 = 0 := beq_iff_eq.mp h
    have whole : (m * 2 ^ e : ℚ) = ((scale m e).1 / (scale m e).2 : ℕ) := by
      rw [← quotient, Nat.cast_div (Nat.dvd_of_mod_eq_zero multiple)
        (Nat.cast_ne_zero.mpr positive.ne')]
    dsimp only
    -- the scaled fraction has no remainder, so it is the integer it stands for
    rw [whole]
    cases negative
    · exact ⟨((scale m e).1 / (scale m e).2 : ℕ), by push_cast; rfl⟩
    · exact ⟨-((scale m e).1 / (scale m e).2 : ℕ), by push_cast; rfl⟩
  | nan negative =>
    rw [content] at h
    cases h
  | infinite negative =>
    rw [content] at h
    cases h

/-- What passes the test for zero stands for zero. -/
theorem value_of_isZero (h : v.isZero = true) : v.value = 0 := by
  have magnitude : v.magnitude = 0 := by simpa [isZero] using h
  unfold value content
  rw [magnitude]
  cases v.isNegative <;> simp

/-- What is equal to one stands for one. -/
theorem value_of_equals_one (h : v.equals 1 = true) : v.value = 1 := by
  obtain ⟨-, one, nonzero, -⟩ := one_spec
  unfold equals at h
  rw [nonzero, Bool.and_false, Bool.or_false, Bool.and_eq_true, beq_iff_eq] at h
  rw [h.2, one]

/-- The double of a narrow integer stands for it. -/
theorem value_ofInt {k : ℤ} (hk : k.natAbs < 2 ^ 53) :
    (ofInt k).isFinite = true ∧ (ofInt k).value = k := by
  -- zero has no leading bit to be shifted to
  by_cases zero : k = 0
  · subst zero
    refine ⟨rfl, ?_⟩
    rw [Int.cast_zero]
    exact value_zero
  · have positive : 0 < k.natAbs := Int.natAbs_pos.mpr zero
    have top : k.natAbs.log2 ≤ 52 := by
      have := (Nat.log2_lt positive.ne').mpr hk
      omega
    obtain ⟨leading, below⟩ := shifted_mem positive top
    obtain ⟨fits, double⟩ := ratio?_eq_signed zero one_ne_zero
      (narrow_lt one_ne_zero (hk.le.trans (Nat.pow_le_pow_right (by norm_num) (by norm_num))))
    rw [Int.natAbs_one, quotientBits_nat positive top] at fits double
    have value := value_signed (decide (k < 0) != decide ((1 : ℤ) < 0)) below.le (by omega)
      (.inr leading) fits
    have shifted : ((k.natAbs * 2 ^ (52 - k.natAbs.log2) : ℕ) : ℚ) *
        2 ^ (-((52 - k.natAbs.log2 : ℕ) : ℤ)) = k.natAbs := by
      rw [zpow_neg, zpow_natCast]
      push_cast
      exact mul_inv_cancel_right₀ (by positivity) _
    rw [shifted, Nat.cast_natAbs] at value
    unfold ofInt
    rw [double]
    refine ⟨isFinite_signed _ fits, value.trans ?_⟩
    rcases lt_or_gt_of_ne zero with negative | positive
    · simp [negative, abs_of_neg]
    · simp [positive.le, abs_of_pos, positive]

end Double

end SymbolicAlgebra
