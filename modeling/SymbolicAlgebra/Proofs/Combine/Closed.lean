import SymbolicAlgebra.Proofs.Failures.Leaves

/-!
# Conditions that leaf algebra keeps

A condition on leaves is *closed* if all numbers meet it, and negating leaves and making one leaf of
two keep it (`Leaf.Closed`). What combining does with leaves is no more than that.

Most such conditions are *inherited* (`Leaf.Inherited`): a leaf that is made is a number, or a
monomial of the variable of one it is made of. That no variables are made is one of them
(`Leaf.closed_names`).
-/

namespace SymbolicAlgebra

/-- A condition on leaves that all numbers meet and that leaf algebra keeps. -/
structure Leaf.Closed [Tolerance] [Exactness] (A : Leaf → Prop) : Prop where
  number (z : Number) : A (.number z)
  neg {a : Leaf} : A a → Returns a.neg A
  combine {op : Binary} {a b : Leaf} : A a → A b →
    Returns (Leaf.combine? op a b) fun o => ∀ c, o = some c → A c

namespace Leaf

variable [Tolerance] {A : Leaf → Prop} {a b : Leaf}

/-- A condition that does not depend on the coefficient of a monomial, and that a monomial of
the same variable meets too, unless it turns out to be a number. -/
structure Inherited (A : Leaf → Prop) : Prop where
  number (z : Number) : A (.number z)
  mult {x : String} {m n : Number} {p : Value} : A (.monomial x m p) → A (.monomial x n p)
  ofMonomial {x : String} {m n : Number} {p q : Value} : A (.monomial x m p) →
    Returns (ofMonomial x n q) A

/-- A monomial of the same variable inherits what is asked of a leaf. -/
theorem Inherited.some_ofMonomial (hA : Inherited A) {x : String} {m n : Number} {p q : Value}
    (ha : A (.monomial x m p)) :
    Returns (some <$> Leaf.ofMonomial x n q) fun o => ∀ c, o = some c → A c :=
  Returns.map ((hA.ofMonomial ha).mono fun _ h _ hc => Option.some_inj.mp hc ▸ h)

/-- A sum of monomials has their power. -/
theorem sum?_returns (hA : Inherited A) (op : Number → Number → Calc Number) (ha : A a) :
    Returns (sum? op a b) fun o => ∀ c, o = some c → A c := by
  unfold sum?
  split
  next x m p y n q =>
    refine Returns.ask (Returns.after fun mult => Returns.ask (Returns.pure ?_) (Returns.pure ?_))
      Returns.none
    · rintro c ⟨rfl⟩
      exact hA.number _
    · rintro c ⟨rfl⟩
      exact hA.mult ha
  next => exact Returns.none

variable [Exactness]

/-- The one leaf of a product inherits it from a factor. -/
theorem product?_returns (hA : Inherited A) (ha : A a) (hb : A b) :
    Returns (product? a b) fun o => ∀ c, o = some c → A c := by
  unfold product?
  split
  · exact Returns.after fun _ => hA.some_ofMonomial hb
  · exact Returns.after fun _ => hA.some_ofMonomial ha
  · split
    · exact Returns.after fun _ => Returns.after fun _ => hA.some_ofMonomial ha
    · exact Returns.none
  · exact Returns.none

/-- The one leaf of a quotient inherits it from the dividend. -/
theorem quotient?_returns (hA : Inherited A) (ha : A a) :
    Returns (quotient? a b) fun o => ∀ c, o = some c → A c := by
  unfold quotient?
  split
  · exact Returns.ask Returns.none (Returns.after fun _ => hA.some_ofMonomial ha)
  · split
    · exact Returns.after fun _ => Returns.after fun _ => hA.some_ofMonomial ha
    · exact Returns.none
  · exact Returns.none

/-- The one leaf of a power inherits it from the base. -/
theorem power?_returns (hA : Inherited A) (ha : A a) :
    Returns (power? a b) fun o => ∀ c, o = some c → A c := by
  unfold power?
  split
  · refine Returns.ask (Returns.after fun _ => Returns.after fun _ => ?_) Returns.none
    exact hA.some_ofMonomial ha
  · exact Returns.none

/-- Leaf algebra makes numbers, and monomials of the variables it is given. -/
theorem Inherited.closed (hA : Inherited A) : Closed A where
  number := hA.number
  neg {a} ha := by
    cases a with
    | number => exact Returns.map fun _ _ => hA.number _
    | monomial => exact Returns.after fun _ => Returns.pure (hA.mult ha)
  combine {op a b} ha hb := by
    have numbers : ∀ x : Calc Number, Returns (some <$> Leaf.number <$> x)
        fun o => ∀ c, o = some c → A c := by
      refine fun x => Returns.map (Returns.map fun _ _ c hc => ?_)
      obtain rfl := Option.some_inj.mp hc
      exact hA.number _
    unfold combine?
    split
    · unfold combineNumbers?
      split
      · exact numbers _
      · exact numbers _
      · exact numbers _
      · exact numbers _
      · exact numbers _
      · exact Returns.none
    · split
      · exact sum?_returns hA _ ha
      · exact sum?_returns hA _ ha
      · exact product?_returns hA ha hb
      · exact quotient?_returns hA ha
      · exact power?_returns hA ha
      · exact Returns.none

/-- Leaf algebra makes no new variables. -/
theorem closed_names (N : String → Prop) : Closed fun a => ∀ x ∈ a.names, N x := by
  refine Inherited.closed ⟨fun _ => nofun, id, fun {x m n p q} ha => ?_⟩
  exact Returns.ask (Returns.pure nofun) (Returns.ask (Returns.pure nofun) (Returns.pure ha))

/-- No condition at all. -/
theorem closed_true : Closed fun _ => True where
  number _ := True.intro
  neg _ := Returns.trivial _
  combine _ _ := fun _ _ _ _ => True.intro

/-- A leaf joins into a leaf of a sum or product. -/
theorem Closed.mergeInto? (hA : Closed A) {level : Level} {inverted : Bool} (ha : A a) (hb : A b) :
    Ends (mergeInto? level inverted a b) Failure.IsNumeric fun o => ∀ c, o = some c → A c := by
  refine ⟨mergeInto?_failsAs, ?_⟩
  unfold Leaf.mergeInto?
  split
  · exact hA.combine ha hb
  · exact hA.combine ha hb
  · exact hA.combine ha hb
  · refine .ask .none ?_
    split
    · exact .none
    · exact hA.combine ha hb

end Leaf

end SymbolicAlgebra
