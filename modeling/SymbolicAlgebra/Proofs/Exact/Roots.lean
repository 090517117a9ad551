import SymbolicAlgebra.Proofs.Exact.Order

/-!
# Roots in doubles

The exact root of an integer is guessed in doubles (`DoubleRoot`), and a candidate counts only if
its power is the integer. So a root that is found is one, however bad the guess is
(`Fraction.exactRoot?_sound`). If the guesses are off by at most a half (`DoubleRoot.Accurate`),
every root is found, since the integers beside the guess are tried as well
(`Fraction.exactRoot?_of_pow`).

A square root that is not exact stays symbolic. Its base and its exponent are doubles, which the
machine must not take for one and for an integer: no narrow fraction but one has the double one
(`Fraction.value_ne_one`), and the double of half an odd number is no integer
(`Fraction.value_half_odd`).
-/

namespace SymbolicAlgebra

/-- The double roots of narrow integers are off by at most a half. -/
def DoubleRoot.Accurate [DoubleRoot] : Prop :=
  ∀ n k : ℤ, 2 ≤ n → n ≤ 2 ^ 53 → 2 ≤ k → k ≤ 2 ^ 53 →
    (DoubleRoot.root n k).isFinite = true ∧
      |((DoubleRoot.root n k).value : ℝ) - (n : ℝ) ^ (1 / k : ℝ)| ≤ 1 / 2

/-- The integer nearest to the root, as a double. -/
@[reducible] noncomputable def DoubleRoot.rounded : DoubleRoot :=
  ⟨fun n k => Double.ofInt (round ((n : ℝ) ^ (1 / k : ℝ)))⟩

/-- The nearest doubles of roots are accurate enough. -/
theorem DoubleRoot.rounded_accurate : @Accurate rounded := by
  intro n k hn hn' hk _
  have positive : (1 : ℝ) ≤ n := by exact_mod_cast (by omega : 1 ≤ n)
  have bound : (n : ℝ) ≤ 2 ^ 53 := by exact_mod_cast hn'
  have two : (2 : ℝ) ≤ k := by exact_mod_cast hk
  have root_nonneg : 0 ≤ (n : ℝ) ^ (1 / k : ℝ) := Real.rpow_nonneg (by linarith) _
  -- no root is larger than the square root
  have small : (n : ℝ) ^ (1 / k : ℝ) ≤ 2 ^ 27 := by
    calc (n : ℝ) ^ (1 / k : ℝ) ≤ (n : ℝ) ^ (1 / 2 : ℝ) := by gcongr
      _ = √n := (Real.sqrt_eq_rpow _).symm
      _ ≤ 2 ^ 27 := Real.sqrt_le_iff.mpr ⟨by norm_num, by linarith⟩
  have near := abs_sub_round ((n : ℝ) ^ (1 / k : ℝ))
  have width : (round ((n : ℝ) ^ (1 / k : ℝ))).natAbs < 2 ^ 53 := by
    have bounds := abs_le.mp near
    have low : (-1 : ℝ) < round ((n : ℝ) ^ (1 / k : ℝ)) := by linarith
    have high : (round ((n : ℝ) ^ (1 / k : ℝ)) : ℝ) < 2 ^ 28 := by linarith
    have low : -1 < round ((n : ℝ) ^ (1 / k : ℝ)) := by exact_mod_cast low
    have high : round ((n : ℝ) ^ (1 / k : ℝ)) < 2 ^ 28 := by exact_mod_cast high
    omega
  obtain ⟨finite, value⟩ := Double.value_ofInt width
  refine ⟨finite, ?_⟩
  show |((Double.ofInt (round ((n : ℝ) ^ (1 / k : ℝ)))).value : ℝ) - _| ≤ 1 / 2
  rw [value, Rat.cast_intCast, abs_sub_comm]
  exact near

/-! ## Roots of integers -/

namespace Fraction

variable [DoubleRoot] {n k : ℤ}

/-- A root that is found is one, whatever the guess was. -/
theorem exactRoot?_sound (hn : 0 ≤ n) (hk : 0 < k) :
    ∃ o, exactRoot? n k = .ok o ∧ ∀ c, o = some c → 0 ≤ c ∧ c ^ k.toNat = n := by
  unfold exactRoot?
  split
  next small =>
    refine ⟨_, rfl, ?_⟩
    rintro c ⟨rfl⟩
    obtain rfl | rfl : n = 0 ∨ n = 1 := by omega
    · exact ⟨le_rfl, zero_pow (by omega)⟩
    · exact ⟨zero_le_one, one_pow _⟩
  split
  · exact ⟨_, rfl, nofun⟩
  split
  next => omega
  split
  · exact ⟨_, rfl, nofun⟩
  · refine ⟨_, rfl, fun c found => ?_⟩
    have := List.find?_some found
    rw [Bool.and_eq_true, decide_eq_true_iff, beq_iff_eq] at this
    exact ⟨by omega, this.2⟩

/-- The nearest integer to an accurate guess is at most one off. -/
theorem roundEven_root_near (accurate : DoubleRoot.Accurate) {x : ℕ} (power : x ^ k.toNat = n)
    (hk : 2 ≤ k) (hk' : k ≤ 2 ^ 53) (hn : 2 ≤ n) (hn' : n ≤ 2 ^ 53) :
    |Double.roundEven (DoubleRoot.root n k) - (x : ℤ)| ≤ 1 := by
  obtain ⟨finite, near⟩ := accurate n k hn hn' hk hk'
  have root : (n : ℝ) ^ (1 / k : ℝ) = x := by
    have order : (k : ℝ) = k.toNat := by
      rw [← Int.cast_natCast, Int.toNat_of_nonneg (by omega)]
    rw [order, one_div, ← power, Int.cast_pow, Int.cast_natCast]
    exact Real.pow_rpow_inv_natCast (Nat.cast_nonneg x) (by omega)
  have guess : |(DoubleRoot.root n k).value - x| ≤ 1 / 2 := by
    rw [root, ← Rat.cast_natCast, ← Rat.cast_sub, ← Rat.cast_abs] at near
    have half : ((1 / 2 : ℚ) : ℝ) = 1 / 2 := by norm_num
    rw [← half] at near
    exact Rat.cast_le.mp near
  have rounded := Double.roundEven_near finite
  have triangle := abs_sub_le (Double.roundEven (DoubleRoot.root n k) : ℚ)
    (DoubleRoot.root n k).value x
  have : |(Double.roundEven (DoubleRoot.root n k) : ℚ) - x| ≤ 1 := by linarith
  exact_mod_cast this

/-- **With accurate guesses every root of a narrow integer is found.** -/
theorem exactRoot?_of_pow (accurate : DoubleRoot.Accurate) {x : ℕ} (power : x ^ k.toNat = n)
    (hk : 2 ≤ k) (hk' : k ≤ 2 ^ 53) (hn : 0 < n) (hn' : n ≤ 2 ^ 53) :
    exactRoot? n k = .ok (some (x : ℤ)) := by
  unfold exactRoot?
  rcases lt_or_ge n 2 with small | large
  · obtain rfl : n = 1 := by omega
    have one : (x : ℤ) = 1 :=
      (pow_eq_one_iff_of_nonneg (Int.natCast_nonneg x) (by omega)).mp power
    rw [if_pos small, one]
    rfl
  -- a root from two on bounds the order by the width of `n`, so no guard of the search applies
  have two : (2 : ℤ) ≤ x := by
    by_contra below
    obtain h | h : (x : ℤ) = 0 ∨ (x : ℤ) = 1 := by omega
    · rw [h, zero_pow (by omega)] at power
      omega
    · rw [h, one_pow] at power
      omega
  have order : k.toNat ≤ 53 := by
    have : (2 : ℤ) ^ k.toNat ≤ 2 ^ 53 := by
      calc (2 : ℤ) ^ k.toNat ≤ x ^ k.toNat := pow_le_pow_left₀ two_pos.le two _
        _ ≤ 2 ^ 53 := power ▸ hn'
    exact (pow_le_pow_iff_right₀ one_lt_two).mp this
  have bits : bitLength n < rootLimit := by
    have log : n.natAbs.log2 < 54 := (Nat.log2_lt (by omega)).mpr (by omega)
    unfold bitLength rootLimit
    split <;> omega
  rw [if_neg (not_lt.mpr large), if_neg (not_le.mpr bits), if_neg (by omega),
    if_neg (by unfold rootLimit; omega)]
  dsimp only
  have near := roundEven_root_near accurate power hk hk' large hn'
  generalize Double.roundEven (DoubleRoot.root n k) = r at near ⊢
  -- among the candidates only the root itself has the right power
  have unique (c : ℤ) : (decide (2 ≤ c) && Int.pow c k.toNat == n) = true ↔ c = x := by
    rw [Bool.and_eq_true, decide_eq_true_iff, beq_iff_eq, Int.pow_eq, ← power]
    constructor
    · rintro ⟨above, same⟩
      exact (pow_left_inj₀ (by omega) (by omega) (by omega)).mp same
    · rintro rfl
      exact ⟨two, rfl⟩
  have listed : (x : ℤ) ∈ [r - 1, r, r + 1] := by
    rw [abs_le] at near
    simp only [List.mem_cons, List.not_mem_nil, or_false]
    omega
  obtain ⟨c, found⟩ : ∃ c, [r - 1, r, r + 1].find? (fun c => 2 ≤ c && Int.pow c k.toNat == n) =
      some c :=
    Option.isSome_iff_exists.mp (List.find?_isSome.mpr ⟨(x : ℤ), listed, (unique x).mpr rfl⟩)
  have holds := List.find?_some found
  rw [found, (unique c).mp holds]
  rfl

/-- Zero and one are their own roots. -/
theorem exactRoot?_of_lt_two (h : n < 2) : exactRoot? n k = .ok (some n) := if_pos h

end Fraction

/-! ## Doubles of bases and exponents -/

namespace Fraction

variable {f g : Fraction} {v : Double}

/-- No narrow fraction but one has the double one. -/
theorem value_ne_one (hf : f.isNarrow = true) (num : 0 < f.num) (den : 0 < f.den)
    (h : f.toDouble = .ok v) (other : f.toRat ≠ 1) : v.value ≠ 1 := by
  intro one
  have nearest := toDouble_isNearest h
  -- the doubles next to one
  have above := nearest.le ⟨0x3ff0000000000001⟩ (by decide +kernel)
  have below := nearest.le ⟨0x3fefffffffffffff⟩ (by decide +kernel)
  have next : (⟨0x3ff0000000000001⟩ : Double).value = 1 + 1 / 2 ^ 52 := by decide +kernel
  have last : (⟨0x3fefffffffffffff⟩ : Double).value = 1 - 1 / 2 ^ 53 := by decide +kernel
  rw [one, next] at above
  rw [one, last] at below
  obtain ⟨hn, hd⟩ := (isNarrow_iff f).mp hf
  have positive : (0 : ℚ) < f.den := Int.cast_pos.mpr den
  have apart : f.num ≠ f.den := fun same => other (by
    unfold toRat
    rw [same, div_self f.den_cast_ne_zero])
  have parts : f.toRat * f.den = f.num := div_mul_cancel₀ _ f.den_cast_ne_zero
  -- unequal narrow parts put the fraction nearer to one of the neighbours than to one
  rcases lt_or_gt_of_ne apart with smaller | larger
  · have gap : (f.num : ℚ) + 1 ≤ f.den := by exact_mod_cast smaller
    have narrow : (f.den : ℚ) ≤ 2 ^ 53 := by exact_mod_cast (by omega : f.den ≤ 2 ^ 53)
    rw [← parts] at gap
    have less : f.toRat < 1 := by
      by_contra more
      nlinarith
    rw [abs_of_pos (sub_pos.mpr less), le_abs] at below
    rcases below with below | below
    · linarith
    · nlinarith
  · have gap : (f.den : ℚ) + 1 ≤ f.num := by exact_mod_cast larger
    have narrow : (f.den : ℚ) < 2 ^ 53 := by exact_mod_cast (by omega : f.den < 2 ^ 53)
    rw [← parts] at gap
    have more : 1 < f.toRat := by
      by_contra less
      nlinarith
    rw [abs_of_neg (sub_neg.mpr more), le_abs] at above
    rcases above with above | above
    · nlinarith
    · linarith

/-- The double of a narrow fraction is one for one only. -/
theorem value_ofRat_ne_one {r : ℚ} (hr : 0 < r) (narrow : Narrow r)
    (h : (ofRat r).toDouble = .ok v) (other : r ≠ 1) : v.value ≠ 1 :=
  value_ne_one ((isNarrow_ofRat r).mpr narrow) (Rat.num_pos.mpr hr)
    (Int.natCast_pos.mpr r.den_pos) h ((toRat_ofRat r).trans_ne other)

/-- Half of an odd number is no integer, also for its double. -/
theorem value_half_odd (hg : g.isNarrow = true) (odd : Odd g.num) (half : g.den = 2)
    (h : g.toDouble = .ok v) (k : ℤ) : v.value ≠ k := by
  intro integer
  have error := toDouble_error hg h
  have number : g.toRat = g.num / 2 := by
    unfold toRat
    rw [half]
    rfl
  obtain ⟨hn, -⟩ := (isNarrow_iff g).mp hg
  obtain ⟨m, hm⟩ := odd
  have narrow : |(g.num : ℚ)| < 2 ^ 53 := by
    rw [← Int.cast_abs, Int.abs_eq_natAbs]
    exact_mod_cast (by omega : g.num.natAbs < 2 ^ 53)
  have apart : 1 ≤ |(2 * k - g.num : ℚ)| := by
    have : 1 ≤ |2 * k - g.num| := Int.one_le_abs (by omega)
    exact_mod_cast this
  have distance : (k : ℚ) - g.num / 2 = (2 * k - g.num) / 2 := by ring
  rw [integer, number, distance, abs_div, abs_div, abs_two] at error
  linarith

end Fraction

end SymbolicAlgebra
