import DiscreteMath.Proofs.SetAlgebra.Instructions
import DiscreteMath.Proofs.SetAlgebra.Term

/-!
# Which tokens have a postfix order

The stack remembers how many parentheses are open, and nothing else can go wrong: tokens have a
postfix order exactly if their parentheses are balanced. Where operands and operations stand does
not matter for that. From what writes a term comes the order of the term.

## Main definitions

* `Settles` — the tokens close their own parentheses and a number of others.
-/

namespace DiscreteMath.SetAlgebra

/-- After so many open parentheses the tokens close all of them, and none too early. -/
structure Settles (depth : Nat) (found : List Token) : Prop where
  even : found.count .closing = found.count .opening + depth
  nonneg : ∀ front, front <+: found → front.count .closing ≤ front.count .opening + depth

section Settles

variable {depth : Nat} {token : Token} {rest : List Token}

theorem settles_nil : Settles depth [] ↔ depth = 0 := by
  constructor
  · rintro ⟨even, -⟩
    simpa using even.symm
  · rintro rfl
    exact ⟨rfl, fun front part => by simp [List.prefix_nil.mp part]⟩

/-- The fronts of a longer list are the empty one and those of the rest, each one token longer. -/
theorem settles_cons : Settles depth (token :: rest) ↔
    (token :: rest).count .closing = (token :: rest).count .opening + depth ∧
      ∀ front, front <+: rest →
        (token :: front).count .closing ≤ (token :: front).count .opening + depth := by
  constructor
  · rintro ⟨even, nonneg⟩
    exact ⟨even, fun front part => nonneg _ (List.prefix_cons_inj token |>.mpr part)⟩
  · rintro ⟨even, nonneg⟩
    refine ⟨even, fun front part => ?_⟩
    rcases List.prefix_cons_iff.mp part with rfl | ⟨inner, rfl, inside⟩
    · simp
    · exact nonneg inner inside

theorem settles_iff : Settles depth rest ↔ rest.count .closing = rest.count .opening + depth ∧
    ∀ front, front <+: rest → front.count .closing ≤ front.count .opening + depth :=
  ⟨fun h => ⟨h.even, h.nonneg⟩, fun h => ⟨h.1, h.2⟩⟩

theorem settles_opening : Settles depth (.opening :: rest) ↔ Settles (depth + 1) rest := by
  rw [settles_cons, settles_iff]
  simp only [List.count_cons, beq_self_eq_true, if_true, reduceCtorEq, beq_iff_eq, if_false]
  exact and_congr (by omega) (forall₂_congr fun front _ => by omega)

theorem settles_closing : Settles (depth + 1) (.closing :: rest) ↔ Settles depth rest := by
  rw [settles_cons, settles_iff]
  simp only [List.count_cons, beq_self_eq_true, if_true, reduceCtorEq, beq_iff_eq, if_false]
  exact and_congr (by omega) (forall₂_congr fun front _ => by omega)

theorem not_settles_closing : ¬ Settles 0 (.closing :: rest) := fun h => by
  simpa using h.nonneg [.closing] (List.prefix_append [_] rest)

theorem settles_other (noOpening : token ≠ .opening) (noClosing : token ≠ .closing) :
    Settles depth (token :: rest) ↔ Settles depth rest := by
  rw [settles_cons, settles_iff]
  simp only [List.count_cons_of_ne noOpening, List.count_cons_of_ne noClosing]

end Settles

namespace Waiting

@[simp] theorem count_pending (pending : List Operation) :
    (pending.map operation).count parenthesis = 0 := by
  simp [List.count_eq_zero]

theorem isSome_finish? (stack : List Waiting) :
    (finish? stack).isSome = true ↔ stack.count parenthesis = 0 := by
  induction stack with
  | nil => simp [finish?]
  | cons top below ih => cases top <;> simp [finish?, ih]

theorem close?_eq_none {stack : List Waiting} :
    close? stack = none ↔ stack.count parenthesis = 0 := by
  induction stack with
  | nil => simp [close?]
  | cons top below ih => cases top <;> simp [close?, ih]

end Waiting

/-- With what waits on the stack there is a postfix order if the tokens that follow close exactly
the parentheses that are open. -/
theorem isSome_postfixFrom? (stack : List Waiting) (found : List Token) :
    (postfixFrom? stack found).isSome = true ↔ Settles (stack.count .parenthesis) found := by
  fun_induction postfixFrom? stack found with
  | case1 stack => rw [Waiting.isSome_finish?, settles_nil]
  | case2 stack letter rest ih =>
    rw [Option.isSome_map, ih, settles_other (by simp) (by simp)]
  | case3 stack rest ih => simpa [settles_opening] using ih
  | case4 stack rest released left closed ih =>
    obtain ⟨pending, -, rfl⟩ := Waiting.exists_of_close? closed
    simp [ih, settles_closing]
  | case5 stack rest unclosed =>
    rw [Waiting.close?_eq_none.mp unclosed]
    exact iff_of_false (by simp) not_settles_closing
  | case6 stack rest ih => rw [Option.isSome_map, ih, settles_other (by simp) (by simp)]
  | case7 stack op rest proper released left freed ih =>
    obtain ⟨pending, -, rfl⟩ := Waiting.exists_of_release freed
    rw [Option.isSome_map, ih, settles_other (by simp) (by simp)]
    simp
  | case8 stack text rest ih | case9 stack rest ih => rw [ih, settles_other (by simp) (by simp)]

theorem toPostfix_eq (found : List Token) :
    (∃ instructions, toPostfix found = .ok instructions ∧ Settles 0 found) ∨
      toPostfix found = .error (.malformedExpression .unbalancedParentheses) ∧
        ¬ Settles 0 found := by
  have exact := isSome_postfixFrom? [] found
  unfold toPostfix
  cases ordered : postfixFrom? [] found with
  | none => exact .inr ⟨rfl, by simpa [ordered] using exact⟩
  | some instructions => exact .inl ⟨instructions, rfl, by simpa [ordered] using exact⟩

/-- The order fails with one error, and exactly if somewhere more parentheses have been closed than
opened or in the end not as many. From every text of a term, with the parentheses that the binding
strengths ask for and any others, comes the postfix order of the term. -/
theorem toPostfix_spec :
    (∀ found, ((∃ e, toPostfix found = .error e) ↔
        (∃ front, front <+: found ∧ front.count .opening < front.count .closing) ∨
          found.count .opening ≠ found.count .closing) ∧
      ∀ e, toPostfix found = .error e → e = .malformedExpression .unbalancedParentheses) ∧
    ∀ t found, Term.Written 1 t found → toPostfix found = .ok t.instructions := by
  refine ⟨fun found => ?_, fun t found written => toPostfix_written written⟩
  rcases toPostfix_eq found with ⟨instructions, ordered, even, nonneg⟩ | ⟨failed, unsettled⟩
  · refine ⟨iff_of_false (by simp [ordered]) ?_, by simp [ordered]⟩
    rintro (⟨front, part, early⟩ | differs)
    · have := nonneg front part
      omega
    · omega
  · refine ⟨iff_of_true ⟨_, failed⟩ ?_, fun e same => Except.error.inj (same.symm.trans failed)⟩
    refine Classical.byContradiction fun balanced => unsettled ?_
    simp only [not_or, not_exists, not_and, Nat.not_lt, ne_eq, Classical.not_not] at balanced
    exact ⟨balanced.2.symm, balanced.1⟩

/-- Every level but the loosest ends where a looser one goes on, and a parenthesis too many is
found. -/
theorem toPostfix_spec_levels :
    toPostfix (tokens "A ∪ B ∩ Cᶜ ⊆ (D - E)ᶜ Δ F".toList) = .ok [.push "A", .push "B", .push "C",
        .apply .complement, .apply .intersection, .apply .union, .push "D", .push "E",
        .apply .difference, .apply .complement, .push "F", .apply .symmetricDifference,
        .apply .subset] ∧
      ∃ e, toPostfix (tokens "A ∪ B)".toList) = .error e := by
  have read : tokens "A ∪ B ∩ Cᶜ ⊆ (D - E)ᶜ Δ F".toList =
      ([.name "A"] ++ .operation .union ::
          ([.name "B"] ++ .operation .intersection :: ([.name "C"] ++ [.operation .complement]))) ++
        .operation .subset ::
          ((.opening :: ([.name "D"] ++ .operation .difference :: [.name "E"]) ++ [.closing] ++
              [.operation .complement]) ++ .operation .symmetricDifference :: [.name "F"]) := by
    decide +kernel
  have unbalanced : tokens "A ∪ B)".toList =
      [.name "A", .operation .union, .name "B", .closing] := by decide +kernel
  constructor
  · rw [read]
    refine (toPostfix_spec.2 (.binary .subset (by decide)
      (.binary .union (by decide) (.name "A")
        (.binary .intersection (by decide) (.name "B") (.complement (.name "C"))))
      (.binary .symmetricDifference (by decide)
        (.complement (.binary .difference (by decide) (.name "D") (.name "E")))
        (.name "F"))) _ ?_).trans rfl
    refine .binary .subset _ (by decide) (.binary .union _ (by decide) (.name _ _) ?_)
      (.binary .symmetricDifference _ (by decide) ?_ (.name _ _))
    · exact .binary .intersection _ (by decide) (.name _ _) (.complement (by decide) (.name _ _))
    · refine .complement (by decide) (.parentheses _ ?_)
      exact .binary .difference _ (by decide) (.name _ _) (.name _ _)
  · rw [unbalanced]
    exact (toPostfix_spec.1 _).1.mpr (.inr (by decide))

end DiscreteMath.SetAlgebra
