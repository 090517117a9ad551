import SymbolicAlgebra.Proofs.Parse.Grammar

/-!
# The two stacks as a derivation with a gap

While the parser reads, its stacks hold the part of a derivation that the tokens so far
determine. Where an operand is awaited, the derivation has a gap at its end (`Open`): each
operator on the stack has its own token, and a binary one its left operand. Behind an operand
the gap is filled (`Full`), by a phrase of a category that the operator on top of the stack
takes (`Takes`).

Reducing an operator turns the filled gap into a larger phrase that fills the gap below
(`full_reduce`). An operator is put on the stack when those that bind at least as tightly are
reduced, and then what is left takes what the new one will make (`full_reduceBefore`). So every
step keeps the invariant (`step_reached`), and a tree that the parser returns is what the
builder makes of a phrase that the grammar derives from the tokens, once the open parentheses
are closed (`derives_of_parseTokens`).
-/

namespace SymbolicAlgebra

namespace Category

/-- Whether a phrase of the first category is one of the second as it stands. -/
def fits : Category → Category → Bool
  | _, equation => true
  | c, sum => c != equation
  | c, product => c != equation && c != sum
  | c, unary => c != equation && c != sum && c != product
  | c, signed => c == signed
  | c, power => c == power || c == powerBase || c == atom
  | c, powerBase => c == powerBase || c == atom
  | c, atom => c == atom

theorem fits_trans {c d e : Category} (hcd : c.fits d = true) (hde : d.fits e = true) :
    c.fits e = true := by
  cases d <;> cases e <;> first | exact absurd hde (by decide) | (cases c <;> simp_all [fits])

end Category

/-- A phrase of the one category is one of the other. -/
theorem Derives.fits {c d : Category} {ts : List Token} {p : Phrase} (h : Derives c ts p)
    (hcd : c.fits d = true) : Derives d ts p := by
  have sum : Derives .sum ts p → Derives .equation ts p := .within .sum
  have product : Derives .product ts p → Derives .sum ts p := .within .product
  have unary : Derives .unary ts p → Derives .product ts p := .within .unary
  have signed : Derives .signed ts p → Derives .unary ts p := .within .signed
  have power : Derives .power ts p → Derives .unary ts p := .within .power
  have powerBase : Derives .powerBase ts p → Derives .power ts p := .within .powerBase
  have atom : Derives .atom ts p → Derives .powerBase ts p := .within .atom
  cases c <;> cases d <;> first | exact absurd hcd (by decide) | simp_all

namespace Parser

variable {α : Type} {b : Builder α} {c d : Category} {ops ops' : List Pending}
  {old new : Pending} {nodes nodes' : List α} {implicit : Bool} {t : Token}
  {ts us : List Token} {p : Phrase} {v : α}

namespace Pending

/-- The category of the operand in front of an operator that stands behind one. -/
def leftCategory : Pending → Category
  | binary op => op.leftCategory
  | _ => .powerBase

/-- The category of what an operator makes that stands behind an operand. -/
def category : Pending → Category
  | binary op => op.category
  | _ => .powerBase

/-- Whether what the operator makes stands for a phrase of the category. -/
def Makes (c : Category) : Pending → Prop
  | negation => Category.signed.fits c = true
  | binary op => op.category.fits c = true
  | _ => True

end Pending

/-- What the operator on top of the stack takes for its operand. -/
def Takes : List Pending → Category → Bool
  | .negation :: _, c => c.fits .unary
  | .binary op :: _, c => c.fits op.rightCategory
  | .function _ :: _, c => c == .signed || c == .atom
  | _, _ => true

/-- Every operator takes an operand with a sign. -/
@[simp] theorem takes_signed : Takes ops .signed = true := by
  cases ops with
  | nil => rfl
  | cons op ops =>
    cases op with
    | binary op => cases op <;> rfl
    | _ => rfl

/-- Every operator takes an atom. -/
@[simp] theorem takes_atom : Takes ops .atom = true := by
  cases ops with
  | nil => rfl
  | cons op ops =>
    cases op with
    | binary op => cases op <;> rfl
    | _ => rfl

/-- A phrase of the tokens may stand in a gap; behind a product without its sign the first of
them is no negation. -/
def Begins (implicit : Bool) (ts : List Token) : Prop :=
  ∃ t us, ts = t :: us ∧ (implicit = true → t.kind ≠ .negation)

theorem Begins.append (h : Begins implicit ts) : Begins implicit (ts ++ us) := by
  obtain ⟨t, rest, rfl, first⟩ := h
  exact ⟨t, rest ++ us, rfl, first⟩

/-- The tokens and the stacks are those of a derivation with a gap at its end. The flag tells
whether the gap is behind a product without its sign. -/
inductive Open (b : Builder α) : Bool → List Pending → List α → List Token → Prop
  | nil : Open b false [] [] []
  | opening {implicit : Bool} {ops : List Pending} {nodes : List α} {ts : List Token} {t : Token}
    (below : Open b implicit ops nodes ts) (start : t.kind = .op .opening) :
    Open b false (.opening :: ops) nodes (ts ++ [t])
  | negation {ops : List Pending} {nodes : List α} {ts : List Token} {t : Token}
    (below : Open b false ops nodes ts) (sign : t.kind = .negation) :
    Open b false (.negation :: ops) nodes (ts ++ [t])
  | function {implicit : Bool} {f : Func} {ops : List Pending} {nodes : List α} {ts : List Token}
    {t : Token} (below : Open b implicit ops nodes ts) (name : t.kind = .op (.function f)) :
    Open b false (.function f :: ops) nodes (ts ++ [t])
  | binary {implicit : Bool} {op : Binary} {ops : List Pending} {nodes : List α}
    {ts us : List Token} {t : Token} {p : Phrase} {v : α} (below : Open b implicit ops nodes ts)
    (left : Derives op.leftCategory us p) (value : p.build b = .ok v) (begins : Begins implicit us)
    (takes : Takes ops op.category = true) (sign : t.kind = .op (.binary op)) :
    Open b false (.binary op :: ops) (v :: nodes) (ts ++ us ++ [t])
  | multiply {implicit : Bool} {ops : List Pending} {nodes : List α} {ts us : List Token}
    {p : Phrase} {v : α} (below : Open b implicit ops nodes ts) (left : Derives .product us p)
    (value : p.build b = .ok v) (begins : Begins implicit us)
    (takes : Takes ops .product = true) :
    Open b true (.binary .mul :: ops) (v :: nodes) (ts ++ us)

/-- The gap is filled by a phrase that stands for one of the category. The factorial waits on
the stack with its operand complete, until the next operator is put there. -/
inductive Full (b : Builder α) (d : Category) : List Pending → List α → List Token → Prop
  | operand {implicit : Bool} {c : Category} {ops : List Pending} {nodes : List α}
    {ts us : List Token} {p : Phrase} {v : α} (below : Open b implicit ops nodes ts)
    (derives : Derives c us p) (value : p.build b = .ok v) (begins : Begins implicit us)
    (takes : Takes ops c = true) (fits : c.fits d = true) : Full b d ops (v :: nodes) (ts ++ us)
  | factorial {implicit : Bool} {ops : List Pending} {nodes : List α} {ts us : List Token}
    {t : Token} {p : Phrase} {v : α} (below : Open b implicit ops nodes ts)
    (derives : Derives .powerBase us p) (value : p.build b = .ok v) (begins : Begins implicit us)
    (takes : Takes ops .powerBase = true) (fits : Category.powerBase.fits d = true)
    (sign : t.kind = .op .factorial) :
    Full b d (.factorial :: ops) (v :: nodes) (ts ++ us ++ [t])

/-- A gap that is filled for one category is filled for a looser one. -/
theorem Full.mono (h : Full b c ops nodes ts) (hcd : c.fits d = true) : Full b d ops nodes ts := by
  cases h with
  | operand below derives value begins takes fits =>
    exact .operand below derives value begins takes (Category.fits_trans fits hcd)
  | factorial below derives value begins takes fits sign =>
    exact .factorial below derives value begins takes (Category.fits_trans fits hcd) sign

/-! ## Reducing -/

/-- What a reduced operator makes fills the gap below it. -/
theorem full_reduce (h : Full b d (old :: ops) nodes ts) (makes : old.Makes d)
    (inner : old ≠ .opening) (reduced : reduce b old nodes = .ok nodes') :
    Full b d ops nodes' ts := by
  cases h with
  | @operand implicit c _ nodes ts us p v below derives value begins takes fits =>
    cases below with
    | opening => exact absurd rfl inner
    | @negation _ _ ts t below sign =>
      obtain ⟨w, made, ⟨⟩⟩ := Calc.bind_eq_ok.mp reduced
      have build : (Phrase.negate p).build b = .ok w :=
        Calc.bind_eq_ok.mpr ⟨v, value, made⟩
      rw [List.append_assoc]
      exact .operand below (.negate sign (derives.fits takes)) build
        ⟨t, us, rfl, fun h => absurd h Bool.false_ne_true⟩ takes_signed makes
    | @function implicit f _ _ ts t below name =>
      obtain ⟨w, made, ⟨⟩⟩ := Calc.bind_eq_ok.mp reduced
      have build : (Phrase.apply f p).build b = .ok w :=
        Calc.bind_eq_ok.mpr ⟨v, value, made⟩
      have start : Begins implicit (t :: us) := ⟨t, us, rfl, fun _ => by simp [name]⟩
      have argument : c = .signed ∨ c = .atom := by simpa [Takes] using takes
      rw [List.append_assoc]
      rcases argument with rfl | rfl
      · exact .operand below (.applySigned name derives) build start takes_signed fits
      · exact .operand below (.apply name derives) build start takes_atom fits
    | @binary implicit op _ _ ts us' t q w below left value' begins' takes' sign =>
      obtain ⟨x, made, ⟨⟩⟩ := Calc.bind_eq_ok.mp reduced
      have build : (Phrase.combine op q p).build b = .ok x := by
        refine Calc.bind_eq_ok.mpr ⟨w, value', ?_⟩
        exact Calc.bind_eq_ok.mpr ⟨v, value, made⟩
      have tokens : ts ++ us' ++ [t] ++ us = ts ++ (us' ++ t :: us) := by simp
      rw [tokens]
      exact .operand below (.combine sign left (derives.fits takes)) build begins'.append takes'
        makes
    | @multiply implicit _ _ ts us' q w below left value' begins' takes' =>
      obtain ⟨x, made, ⟨⟩⟩ := Calc.bind_eq_ok.mp reduced
      have build : (Phrase.combine .mul q p).build b = .ok x := by
        refine Calc.bind_eq_ok.mpr ⟨w, value', ?_⟩
        exact Calc.bind_eq_ok.mpr ⟨v, value, made⟩
      -- the product sign that is not written is in front of the operand
      obtain ⟨t, us, rfl, start⟩ := begins
      rw [List.append_assoc]
      exact .operand below (.multiply (start rfl) left (derives.fits takes)) build begins'.append
        takes' makes
  | @factorial implicit _ nodes ts us t p v below derives value begins takes fits sign =>
    obtain ⟨w, made, ⟨⟩⟩ := Calc.bind_eq_ok.mp reduced
    have build : (Phrase.factorial p).build b = .ok w :=
      Calc.bind_eq_ok.mpr ⟨v, value, made⟩
    rw [List.append_assoc]
    exact .operand below (.factorial sign derives) build begins.append takes fits

/-- What is reduced before an operator can stand in front of it. -/
theorem makes_of_yields (follows : new.Follows) (h : yields new old = true) :
    old.Makes new.leftCategory := by
  cases new with
  | binary new =>
    cases old with
    | binary old => cases new <;> cases old <;> first | rfl | exact absurd h (by decide)
    | negation => cases new <;> first | rfl | exact absurd h (by decide)
    | _ => exact True.intro
  | factorial =>
    cases old with
    | binary old => cases old <;> exact absurd h (by decide)
    | negation => exact absurd h (by decide)
    | _ => exact True.intro
  | _ => exact absurd follows id

/-- What binds tightly yields to everything that follows an operand. -/
theorem yields_of_tight (follows : new.Follows) (tight : 4 ≤ old.prec) :
    yields new old = true := by
  cases new with
  | binary new =>
    cases old with
    | binary old => cases old <;> exact absurd tight (by decide)
    | function => cases new <;> rfl
    | factorial => cases new <;> rfl
    | _ => exact absurd tight (by decide)
  | factorial =>
    cases old with
    | binary old => cases old <;> exact absurd tight (by decide)
    | function => rfl
    | factorial => rfl
    | _ => exact absurd tight (by decide)
  | _ => exact absurd follows id

/-- What is not reduced before an operator takes what that will make. -/
theorem takes_of_yields (follows : new.Follows) (h : yields new old = false) :
    Takes (old :: ops) new.category = true := by
  have loose : ¬4 ≤ old.prec := fun tight => by
    rw [yields_of_tight follows tight] at h
    exact absurd h (by decide)
  -- operators of one precedence differ in their side, so the table is gone through
  cases new with
  | binary new =>
    cases old with
    | binary old => cases new <;> cases old <;> first | rfl | exact absurd h (by decide)
    | negation => cases new <;> first | rfl | exact absurd h (by decide)
    | function => exact absurd (show (4 : Int) ≤ 5 by decide) loose
    | _ => rfl
  | factorial =>
    cases old with
    | binary old => cases old <;> rfl
    | function => exact absurd (show (4 : Int) ≤ 5 by decide) loose
    | _ => rfl
  | _ => exact absurd follows id

/-- When an operator is put on the stack, its left operand fills the gap, and what is below
takes what the operator will make. -/
theorem full_reduceBefore (follows : new.Follows) (h : Full b new.leftCategory ops nodes ts)
    (reduced : reduceBefore b new ops nodes = .ok (ops', nodes')) :
    Full b new.leftCategory ops' nodes' ts ∧ Takes ops' new.category = true ∧
      .factorial ∉ ops'.head? := by
  -- each reduction leaves a full stack with one operator less
  induction ops generalizing nodes with
  | nil =>
    obtain ⟨⟩ := reduced
    exact ⟨h, rfl, by simp⟩
  | cons old ops ih =>
    rw [reduceBefore] at reduced
    cases stays : yields new old with
    | true =>
      rw [if_pos stays] at reduced
      obtain ⟨nodes₁, first, rest⟩ := Calc.bind_eq_ok.mp reduced
      have inner : old ≠ .opening := by
        rintro rfl
        exact absurd stays (by cases new <;> simp [yields])
      exact ih (full_reduce h (makes_of_yields follows stays) inner first) rest
    | false =>
      rw [if_neg (by simp [stays])] at reduced
      obtain ⟨⟩ := reduced
      refine ⟨h, takes_of_yields follows stays, ?_⟩
      rintro ⟨⟩
      have tight : 4 ≤ Pending.factorial.prec := Int.le_refl 4
      rw [yields_of_tight follows tight] at stays
      exact absurd stays (by decide)

/-- An operator behind an operand opens a new gap; a factorial none. -/
theorem full_push {s s' : State α} (follows : new.Follows)
    (h : Full b .powerBase s.ops s.nodes ts) (pushed : push b new s = .ok s') :
    ∃ implicit ops nodes ts' us p v, s' = ⟨v :: nodes, new :: ops, s.ended⟩ ∧ ts = ts' ++ us ∧
      Open b implicit ops nodes ts' ∧ Derives new.leftCategory us p ∧ p.build b = .ok v ∧
      Begins implicit us ∧ Takes ops new.category = true := by
  have left : Category.powerBase.fits new.leftCategory = true := by
    cases new with
    | binary op => cases op <;> rfl
    | _ => rfl
  obtain ⟨⟨ops, nodes⟩, reduced, ⟨⟩⟩ := Calc.bind_eq_ok.mp pushed
  obtain ⟨full, takes, top⟩ := full_reduceBefore follows (h.mono left) reduced
  cases full with
  | operand below derives value begins _ fits =>
    exact ⟨_, _, _, _, _, _, _, rfl, rfl, below, derives.fits fits, value, begins, takes⟩
  | factorial => exact absurd rfl top

/-- A closing parenthesis makes one operand of what the group holds. -/
theorem full_closeGroup (h : Full b .equation ops nodes ts)
    (closed : closeGroup b ops nodes = .ok (ops', nodes')) (stop : t.kind = .op .closing) :
    Full b .powerBase ops' nodes' (ts ++ [t]) := by
  induction ops generalizing nodes with
  | nil => cases closed
  | cons old ops ih =>
    by_cases group : old = .opening
    · subst group
      obtain ⟨⟩ := closed
      cases h with
      | @operand _ _ _ _ _ us p v below derives value _ _ fits =>
        -- on top of the stack, the parenthesis is what the gap is behind
        cases below with
        | @opening implicit _ _ ts t₀ below start =>
          have begins : Begins implicit (t₀ :: us ++ [t]) :=
            ⟨t₀, us ++ [t], rfl, fun _ => by simp [start]⟩
          have tokens : ts ++ [t₀] ++ us ++ [t] = ts ++ (t₀ :: us ++ [t]) := by simp
          rw [tokens]
          exact .operand below (.group start (derives.fits fits) stop) value begins takes_atom rfl
    · have makes : old.Makes .equation := by
        cases old <;> first | exact rfl | exact True.intro
      rw [closeGroup] at closed
      · obtain ⟨nodes₁, first, rest⟩ := Calc.bind_eq_ok.mp closed
        exact ih (full_reduce h makes group first) rest
      · exact group

/-- At the end, the groups that are still open are closed as closing parentheses would. -/
theorem derives_of_finish (h : Full b .equation ops nodes ts)
    (finished : finish b ops nodes = .ok nodes') (stop : t.kind = .op .closing) :
    ∃ p v, nodes' = [v] ∧ p.build b = .ok v ∧
      Derives .equation (ts ++ List.replicate (ops.count .opening) t) p := by
  -- a closing parenthesis is missing for each opening one that is left on the stack
  induction ops generalizing nodes ts with
  | nil =>
    obtain ⟨⟩ := finished
    cases h with
    | @operand _ _ _ _ _ us p v below derives value _ _ fits =>
      cases below
      refine ⟨p, v, rfl, value, ?_⟩
      rw [List.count_nil, List.replicate_zero, List.append_nil, List.nil_append]
      exact derives.fits fits
  | cons old ops ih =>
    by_cases group : old = .opening
    · subst group
      have closed := full_closeGroup h rfl stop
      rw [List.count_cons_self, List.replicate_succ, ← List.singleton_append, ← List.append_assoc]
      exact ih (closed.mono rfl) finished
    · have makes : old.Makes .equation := by
        cases old <;> first | exact rfl | exact True.intro
      rw [finish] at finished
      · obtain ⟨nodes₁, first, rest⟩ := Calc.bind_eq_ok.mp finished
        rw [List.count_cons_of_ne group]
        exact ih (full_reduce h makes group first) rest
      · exact group

/-! ## Steps -/

/-- The stacks between two tokens. -/
inductive Reached (b : Builder α) : State α → List Token → Prop
  | awaiting {ops : List Pending} {nodes : List α} {ts : List Token}
    (gap : Open b false ops nodes ts) : Reached b ⟨nodes, ops, false⟩ ts
  | ended {ops : List Pending} {nodes : List α} {ts : List Token}
    (full : Full b .powerBase ops nodes ts) : Reached b ⟨nodes, ops, true⟩ ts

variable {s s' : State α}

/-- In front of an operand there is a gap, behind a product sign that is not written if need be. -/
theorem open_implicitProduct (h : Reached b s ts) (run : implicitProduct b s = .ok s') :
    ∃ implicit, Open b implicit s'.ops s'.nodes ts := by
  cases h with
  | awaiting gap =>
    obtain ⟨⟩ := run
    exact ⟨false, gap⟩
  | ended full =>
    obtain ⟨implicit, ops, nodes, ts, us, p, v, rfl, rfl, below, left, value, begins, takes⟩ :=
      full_push (show (Pending.binary .mul).Follows from True.intro) full run
    exact ⟨true, .multiply below left value begins takes⟩

/-- An operand fills the gap. -/
theorem reached_operand (h : Reached b s ts) (run : operand b v s = .ok s')
    (derives : Derives .atom [t] p) (value : p.build b = .ok v) (start : t.kind ≠ .negation) :
    Reached b s' (ts ++ [t]) := by
  obtain ⟨s₁, product, ⟨⟩⟩ := Calc.bind_eq_ok.mp run
  obtain ⟨implicit, gap⟩ := open_implicitProduct h product
  exact .ended (.operand gap derives value ⟨t, [], rfl, fun _ => start⟩ takes_atom rfl)

/-- A token that needs an operand in front of it has one. -/
theorem ended_of_ok {ended : Bool} {x : Calc (State α)} {e : Failure}
    (run : (if !ended then throw e else x) = .ok s') : ended = true ∧ x = .ok s' := by
  cases ended with
  | false => cases run
  | true => exact ⟨rfl, run⟩

/-- Every token keeps the invariant, except a negation behind an operand. -/
theorem step_reached (h : Reached b s ts) (run : step b s t = .ok s')
    (sign : t.kind = .negation → s.ended = false) : Reached b s' (ts ++ [t]) := by
  have filled : s.ended = true → Full b .powerBase s.ops s.nodes ts := by
    intro ended
    cases h with
    | awaiting => cases ended
    | ended full => exact full
  -- each kind of token, with what it asks of the stacks before it
  unfold step at run
  split at run
  next z kind => exact reached_operand h run (.number kind) rfl (by simp [kind])
  next kind => exact reached_operand h run (.letter kind) rfl (by simp [kind])
  next c kind => exact reached_operand h run (.constant kind) rfl (by simp [kind])
  next kind =>
    obtain ⟨⟩ := run
    cases h with
    | awaiting gap => exact .awaiting (.negation gap kind)
    | ended => cases sign kind
  next kind =>
    obtain ⟨s₁, product, ⟨⟩⟩ := Calc.bind_eq_ok.mp run
    obtain ⟨implicit, gap⟩ := open_implicitProduct h product
    exact .awaiting (.opening gap kind)
  next f kind =>
    obtain ⟨s₁, product, ⟨⟩⟩ := Calc.bind_eq_ok.mp run
    obtain ⟨implicit, gap⟩ := open_implicitProduct h product
    exact .awaiting (.function gap kind)
  next kind =>
    obtain ⟨complete, run⟩ := ended_of_ok run
    obtain ⟨⟨ops, nodes⟩, closed, ⟨⟩⟩ := Calc.bind_eq_ok.mp run
    exact .ended (full_closeGroup ((filled complete).mono rfl) closed kind)
  next kind =>
    obtain ⟨complete, run⟩ := ended_of_ok run
    obtain ⟨s₁, pushed, ⟨⟩⟩ := Calc.bind_eq_ok.mp run
    obtain ⟨_, _, _, _, _, _, _, rfl, rfl, below, left, value, begins, takes⟩ :=
      full_push (show Pending.factorial.Follows from True.intro) (filled complete) pushed
    exact .ended (.factorial below left value begins takes rfl kind)
  next op kind =>
    obtain ⟨complete, run⟩ := ended_of_ok run
    obtain ⟨s₁, pushed, ⟨⟩⟩ := Calc.bind_eq_ok.mp run
    obtain ⟨_, _, _, _, _, _, _, rfl, rfl, below, left, value, begins, takes⟩ :=
      full_push (show (Pending.binary op).Follows from True.intro) (filled complete) pushed
    exact .awaiting (.binary below left value begins takes kind)

/-- After a token an operand is complete if the token ends one. -/
theorem step_ended (run : step b s t = .ok s') : s'.ended = t.endsTerm := by
  have bound : ∀ {β : Type} {x : Calc β} {f : β → State α} {e : Bool}, (∀ y, (f y).ended = e) →
      (do return f (← x)) = Except.ok s' → s'.ended = e := by
    intro β x f e ended run
    obtain ⟨y, -, ⟨⟩⟩ := Calc.bind_eq_ok.mp run
    exact ended y
  unfold step at run
  unfold Token.endsTerm
  split at run
  next kind => rw [kind]; exact bound (fun _ => rfl) run
  next kind => rw [kind]; exact bound (fun _ => rfl) run
  next kind => rw [kind]; exact bound (fun _ => rfl) run
  next kind =>
    obtain ⟨⟩ := run
    rw [kind]
    rfl
  next kind => rw [kind]; exact bound (fun _ => rfl) run
  next kind => rw [kind]; exact bound (fun _ => rfl) run
  next kind => rw [kind]; exact bound (fun _ => rfl) (ended_of_ok run).2
  next kind => rw [kind]; exact bound (fun _ => rfl) (ended_of_ok run).2
  next kind => rw [kind]; exact bound (fun _ => rfl) (ended_of_ok run).2

end Parser

end SymbolicAlgebra
