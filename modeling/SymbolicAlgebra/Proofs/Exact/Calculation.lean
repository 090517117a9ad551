import Mathlib
import SymbolicAlgebra.Scalar

/-!
# Calculations that stay exact

A calculation depends on whether it has to stay exact (`Exactness`): the strict run of it
fails with `Failure.inexact` where the free run goes on with a double. No handler catches
that failure, so a strict run that ends in any other way has met no such place, and the free
run has done the same.

`Exactly x P` is the judgement that all results about exact arithmetic are stated in: the
strict run of `x` is refused, or both runs succeed with one result, and `P` holds of it. So
it says that the calculation succeeds and not only what it returns; `Exactly.result` reads
it for the free run, given that the strict one is not refused (`StaysExact`).

`Returns x P` is the weaker judgement for facts about every result, exact or not, and `Ends x P Q`
tells beside the results in which ways the calculation fails.
-/

namespace SymbolicAlgebra

variable {α β : Type}

theorem Calc.both_eq_ok {x y : Calc Bool} {a b : Bool} (hx : x = .ok a) (hy : y = .ok b) :
    Calc.both x y = .ok (a && b) := by
  subst hx hy
  cases a <;> rfl

/-- Two questions asked one after the other. -/
theorem Calc.both_answer {x y : Calc Bool} {P Q : Prop} (hx : ∃ c, x = .ok c ∧ (c = true → P))
    (hy : ∃ c, y = .ok c ∧ (c = true → Q)) :
    ∃ c, Calc.both x y = .ok c ∧ (c = true → P ∧ Q) := by
  obtain ⟨c, hx, hP⟩ := hx
  obtain ⟨d, hy, hQ⟩ := hy
  refine ⟨c && d, Calc.both_eq_ok hx hy, fun both => ?_⟩
  rw [Bool.and_eq_true] at both
  exact ⟨hP both.1, hQ both.2⟩

/-! ## Every result -/

/-- Every result of a calculation has a property. -/
def Returns (x : Calc α) (P : α → Prop) : Prop := ∀ a, x = .ok a → P a

instance {x : Calc α} {P : α → Prop} [DecidablePred P] : Decidable (Returns x P) :=
  match x with
  | .ok a => decidable_of_iff (P a) ⟨fun h _ hb => Except.ok.inj hb ▸ h, fun h => h a rfl⟩
  | .error _ => .isTrue nofun

namespace Returns

variable {x : Calc α} {P Q : α → Prop} {R : β → Prop}

theorem trivial (x : Calc α) : Returns x fun _ => True := fun _ _ => True.intro

theorem pure {a : α} (h : P a) : Returns (pure a : Calc α) P := by
  intro b hb
  cases hb
  exact h

theorem throw (f : Failure) : Returns (throw f : Calc α) P := by
  intro b hb
  cases hb

/-- No result at all. -/
theorem none : Returns (Pure.pure .none) fun o => ∀ a, o = some a → P a := by
  rintro o ⟨rfl⟩ a ⟨⟩

theorem mono (h : Returns x P) (hPQ : ∀ a, P a → Q a) : Returns x Q :=
  fun a ha => hPQ a (h a ha)

theorem and (hP : Returns x P) (hQ : Returns x Q) : Returns x fun a => P a ∧ Q a :=
  fun a ha => ⟨hP a ha, hQ a ha⟩

/-- Two parts one after the other: the second needs to be known only for results of the first. -/
theorem bind {f : α → Calc β} (hx : Returns x P) (hf : ∀ a, P a → Returns (f a) R) :
    Returns (x >>= f) R := by
  intro b hb
  obtain ⟨a, ha, hb⟩ := Calc.bind_eq_ok.mp hb
  exact hf a (hx a ha) b hb

/-- A first part of which nothing needs to be known. -/
theorem after {f : α → Calc β} (hf : ∀ a, Returns (f a) R) : Returns (x >>= f) R :=
  bind (trivial x) fun a _ => hf a

/-- A question that either answer of may be given. -/
theorem ask {c : Calc Bool} {y : Calc α} (hx : Returns x P) (hy : Returns y P) :
    Returns (c >>= fun b => if b = true then x else y) P :=
  after fun b => by cases b <;> assumption

/-- A question that has been answered. -/
theorem answered {c : Calc Bool} {y : Calc α} (hx : c = .ok true → Returns x P)
    (hy : c = .ok false → Returns y P) : Returns (c >>= fun b => if b = true then x else y) P :=
  bind (P := (c = .ok ·)) (fun _ => id) fun b hb => by
    cases b with
    | true => exact hx hb
    | false => exact hy hb

/-- A result that is made of another. -/
theorem map {f : α → β} (hx : Returns x fun a => R (f a)) : Returns (f <$> x) R := by
  intro b hb
  cases x with
  | error e => cases hb
  | ok a =>
    cases hb
    exact hx a rfl

/-- What depends on whether something was found. -/
theorem option {f : Option α → Calc β} (none : Returns (f .none) R)
    (some : ∀ a, Returns (f (.some a)) R) (o : Option α) : Returns (f o) R := by
  cases o with
  | none => exact none
  | some a => exact some a

/-- A list of results, one for each of the elements. -/
theorem mapM {f : α → Calc β} (hf : ∀ a, Returns (f a) R) (as : List α) :
    Returns (as.mapM f) fun bs => ∀ b ∈ bs, R b := by
  induction as with
  | nil => exact .pure nofun
  | cons a as ih =>
    rw [List.mapM_cons]
    exact .bind (hf a) fun _ h => .bind ih fun _ hs => .pure (List.forall_mem_cons.mpr ⟨h, hs⟩)

end Returns

/-! ## Failures after a result -/

namespace Calc.FailsAs

variable {x : Calc α} {P : Failure → Prop}

/-- A second part that is known to follow a result of the first. -/
theorem bind_ok {f : α → Calc β} (hx : x.FailsAs P) (hf : ∀ a, x = .ok a → (f a).FailsAs P) :
    Calc.FailsAs P (x >>= f) := by
  cases x with
  | error e =>
    intro e' h
    cases h
    exact hx e rfl
  | ok a => exact hf a rfl

/-- A question that has been answered. -/
theorem answered {c : Calc Bool} {y : Calc α} (hc : c.FailsAs P) (hx : c = .ok true → x.FailsAs P)
    (hy : c = .ok false → y.FailsAs P) :
    Calc.FailsAs P (c >>= fun b => if b = true then x else y) :=
  hc.bind_ok fun b hb => by
    cases b with
    | true => exact hx hb
    | false => exact hy hb

end Calc.FailsAs

/-! ## Every end -/

/-- The calculation fails only in ways that have a property, and every result of it has another
one. -/
structure Ends (x : Calc α) (P : Failure → Prop) (Q : α → Prop) : Prop where
  fails : x.FailsAs P
  returns : Returns x Q

namespace Ends

variable {x y : Calc α} {P P' : Failure → Prop} {Q Q' : α → Prop} {R : β → Prop}

theorem of_failsAs (h : x.FailsAs P) : Ends x P fun _ => True := ⟨h, Returns.trivial x⟩

theorem of_returns (h : Returns x Q) : Ends x (fun _ => True) Q := ⟨fun _ _ => True.intro, h⟩

theorem pure {a : α} (h : Q a) : Ends (pure a : Calc α) P Q := ⟨.pure a, .pure h⟩

theorem throw {f : Failure} (h : P f) : Ends (throw f : Calc α) P Q := ⟨.throw h, .throw f⟩

theorem of_ok {a : α} (h : x = .ok a) (ha : Q a) : Ends x P Q := h ▸ pure ha

theorem of_error {f : Failure} (h : x = .error f) (hf : P f) : Ends x P Q := h ▸ throw hf

/-- No result at all. -/
theorem none : Ends (Pure.pure .none) P fun o => ∀ a, o = some a → Q a := ⟨.pure _, .none⟩

theorem mono (h : Ends x P Q) (hP : ∀ f, P f → P' f) (hQ : ∀ a, Q a → Q' a) : Ends x P' Q' :=
  ⟨h.fails.mono hP, h.returns.mono hQ⟩

/-- Two parts one after the other: either may fail, and the second needs to be known only for
results of the first. -/
theorem bind {f : α → Calc β} (hx : Ends x P Q) (hf : ∀ a, Q a → Ends (f a) P R) :
    Ends (x >>= f) P R := by
  refine ⟨fun e he => ?_, Returns.bind hx.returns fun a ha => (hf a ha).returns⟩
  cases x with
  | error e' =>
    cases he
    exact hx.fails e rfl
  | ok a => exact (hf a (hx.returns a rfl)).fails e he

theorem known (h : Ends x P Q) : Ends x P fun a => x = .ok a ∧ Q a :=
  ⟨h.fails, fun a ha => ⟨ha, h.returns a ha⟩⟩

/-- A first part of which only the failures are known. -/
theorem after {f : α → Calc β} (hx : x.FailsAs P) (hf : ∀ a, Ends (f a) P R) :
    Ends (x >>= f) P R :=
  (of_failsAs hx).bind fun a _ => hf a

/-- A question that either answer of may be given. -/
theorem ask {c : Calc Bool} (hc : c.FailsAs P) (hx : Ends x P Q) (hy : Ends y P Q) :
    Ends (c >>= fun b => if b = true then x else y) P Q :=
  after hc fun b => by cases b <;> assumption

/-- A question that has been answered. -/
theorem answered {c : Calc Bool} (hc : c.FailsAs P) (hx : c = .ok true → Ends x P Q)
    (hy : c = .ok false → Ends y P Q) :
    Ends (c >>= fun b => if b = true then x else y) P Q :=
  ⟨hc.answered (fun yes => (hx yes).fails) fun no => (hy no).fails,
    .answered (fun yes => (hx yes).returns) fun no => (hy no).returns⟩

theorem map {f : α → β} (hx : Ends x P fun a => R (f a)) : Ends (f <$> x) P R :=
  ⟨hx.fails.map, hx.returns.map⟩

end Ends

/-! ## Exact results -/

/-- The calculation is refused where it has to stay exact, or it has one result whether it
has to or not, and the result has a property. -/
def Exactly (x : Exactness → Calc α) (P : α → Prop) : Prop :=
  x .strict = .error .inexact ∨ ∃ a, x .strict = .ok a ∧ x .free = .ok a ∧ P a

/-- No double takes the place of an exact result in the calculation. -/
def StaysExact (x : Exactness → Calc α) : Prop := x .strict ≠ .error .inexact

namespace Exactly

variable {x y : Exactness → Calc α} {P Q : α → Prop} {R : β → Prop}

/-- The free run of a calculation that stays exact has the result. -/
theorem result (h : Exactly x P) (hx : StaysExact x) : ∃ a, x .free = .ok a ∧ P a := by
  rcases h with refused | ⟨a, -, free, ha⟩
  · exact absurd refused hx
  · exact ⟨a, free, ha⟩

/-- A calculation that has one result in any case. -/
theorem of_forall {a : α} (h : ∀ e, x e = .ok a) (ha : P a) : Exactly x P :=
  .inr ⟨a, h .strict, h .free, ha⟩

/-- A calculation that does not depend on whether it has to stay exact, and has a result. -/
theorem of_eq {x : Calc α} {a : α} (h : x = .ok a) (ha : P a) : Exactly (fun _ => x) P :=
  of_forall (fun _ => h) ha

theorem pure {a : α} (ha : P a) : Exactly (fun _ => Pure.pure a) P := of_eq rfl ha

/-- No result at all. -/
theorem none : Exactly (fun _ => Pure.pure .none) fun o => ∀ a, o = some a → P a :=
  pure (by rintro a ⟨⟩)

theorem mono (h : Exactly x P) (hPQ : ∀ a, P a → Q a) : Exactly x Q := by
  rcases h with refused | ⟨a, strict, free, ha⟩
  · exact .inl refused
  · exact .inr ⟨a, strict, free, hPQ a ha⟩

/-- What every result of the free run has can be added. -/
theorem keep (h : Exactly x P) (hQ : Returns (x .free) Q) : Exactly x fun a => P a ∧ Q a := by
  rcases h with refused | ⟨a, strict, free, ha⟩
  · exact .inl refused
  · exact .inr ⟨a, strict, free, ha, hQ a free⟩

/-- Two parts one after the other are refused if one of them is. Else the first has one result in
both runs, and the second is run on it. -/
theorem bind {f : Exactness → α → Calc β} (hx : Exactly x P)
    (hf : ∀ a, P a → Exactly (fun e => f e a) R) : Exactly (fun e => x e >>= f e) R := by
  rcases hx with refused | ⟨a, strict, free, ha⟩
  · refine .inl ?_
    show x .strict >>= f .strict = .error .inexact
    rw [refused]
    rfl
  · rcases hf a ha with refused | ⟨b, strict', free', hb⟩
    · refine .inl ?_
      show x .strict >>= f .strict = .error .inexact
      rw [strict]
      exact refused
    · refine .inr ⟨b, ?_, ?_, hb⟩
      · show x .strict >>= f .strict = .ok b
        rw [strict]
        exact strict'
      · show x .free >>= f .free = .ok b
        rw [free]
        exact free'

/-- A handler of failures that lets a refusal through. -/
theorem handle {k : Exactness → Calc α → Calc β} (hx : Exactly x P)
    (refusal : k .strict (.error .inexact) = .error .inexact)
    (hf : ∀ a, P a → Exactly (fun e => k e (.ok a)) R) :
    Exactly (fun e => k e (x e)) R := by
  rcases hx with refused | ⟨a, strict, free, ha⟩
  · refine .inl ?_
    show k .strict (x .strict) = .error .inexact
    rw [refused]
    exact refusal
  · rcases hf a ha with refused | ⟨b, strict', free', hb⟩
    · refine .inl ?_
      show k .strict (x .strict) = .error .inexact
      rw [strict]
      exact refused
    · refine .inr ⟨b, ?_, ?_, hb⟩
      · show k .strict (x .strict) = .ok b
        rw [strict]
        exact strict'
      · show k .free (x .free) = .ok b
        rw [free]
        exact free'

/-- A result that is made of another. -/
theorem map {f : α → β} (hx : Exactly x fun a => R (f a)) : Exactly (fun e => f <$> x e) R := by
  rcases hx with refused | ⟨a, strict, free, ha⟩
  · refine .inl ?_
    show f <$> x .strict = .error .inexact
    rw [refused]
    rfl
  · refine .inr ⟨f a, ?_, ?_, ha⟩
    · show f <$> x .strict = .ok (f a)
      rw [strict]
      rfl
    · show f <$> x .free = .ok (f a)
      rw [free]
      rfl

/-- A calculation of which only a part that determines the result is known. -/
theorem of_map {f : α → β} (hf : Function.Injective f) (h : Exactly (fun e => f <$> x e) R) :
    Exactly x fun a => R (f a) := by
  have value : ∀ {e : Exactness} {b : β}, f <$> x e = .ok b → ∃ a, x e = .ok a ∧ f a = b := by
    intro e b hb
    cases hx : x e with
    | error => cases hx ▸ hb
    | ok a => exact ⟨a, rfl, by cases hx ▸ hb; rfl⟩
  rcases h with refused | ⟨b, strict, free, hb⟩
  · refine .inl ?_
    change f <$> x .strict = .error .inexact at refused
    cases hx : x .strict with
    | error =>
      rw [hx] at refused
      cases refused
      rfl
    | ok =>
      rw [hx] at refused
      cases refused
  · obtain ⟨a, ha, rfl⟩ := value strict
    obtain ⟨a', ha', same⟩ := value free
    exact .inr ⟨a, ha, hf same ▸ ha', hb⟩

/-- What holds of the result in every case holds of it in all of them. -/
theorem all {ι : Type} [Nonempty ι] {P : ι → α → Prop} (h : ∀ i, Exactly x (P i)) :
    Exactly x fun a => ∀ i, P i a := by
  obtain ⟨i₀⟩ := ‹Nonempty ι›
  rcases h i₀ with refused | ⟨a, strict, free, -⟩
  · exact .inl refused
  · refine .inr ⟨a, strict, free, fun i => ?_⟩
    rcases h i with refused | ⟨b, strict', -, hb⟩
    · cases strict.symm.trans refused
    · cases strict.symm.trans strict'
      exact hb

/-- A case distinction is made the same way in both runs. -/
theorem ite {c : Prop} [Decidable c] (hx : c → Exactly x P) (hy : ¬c → Exactly y P) :
    Exactly (fun e => if c then x e else y e) P := by
  by_cases h : c
  · simpa only [if_pos h] using hx h
  · simpa only [if_neg h] using hy h

/-- A question with an answer, where yes has a consequence. -/
theorem ask {c : Calc Bool} {S : Prop} (h : ∃ b, c = .ok b ∧ (b = true → S))
    (hx : S → Exactly x P) (hy : Exactly y P) :
    Exactly (fun e => c >>= fun b => if b = true then x e else y e) P := by
  obtain ⟨b, hc, hb⟩ := h
  refine bind (of_eq hc rfl) fun b' hb' => ?_
  subst hb'
  exact ite (fun yes => hx (hb yes)) fun _ => hy

/-- A question with the right answer. -/
theorem settled {c : Calc Bool} {S : Prop} (h : ∃ b, c = .ok b ∧ (b = true ↔ S))
    (hx : S → Exactly x P) (hy : ¬S → Exactly y P) :
    Exactly (fun e => c >>= fun b => if b = true then x e else y e) P := by
  obtain ⟨b, hc, hb⟩ := h
  refine bind (of_eq hc rfl) fun b' hb' => ?_
  subst hb'
  exact ite (fun yes => hx (hb.mp yes)) fun no => hy (mt hb.mpr no)

theorem decided {c : Calc Bool} {S : Prop} [Decidable S] (h : c = .ok (decide S))
    (hx : S → Exactly x P) (hy : ¬S → Exactly y P) :
    Exactly (fun e => c >>= fun b => if b = true then x e else y e) P :=
  settled ⟨_, h, decide_eq_true_iff⟩ hx hy

/-- A double in the place of an exact result is refused. -/
theorem approximate (v : Exactness → Calc Double) {P : Scalar → Prop} :
    Exactly (fun e => @Scalar.approximate e (v e)) P :=
  .inl rfl

end Exactly

end SymbolicAlgebra
