import DiscreteMath.SetAlgebra.Postfix

/-!
# What instructions are made of

Bringing tokens into postfix order invents nothing: what leaves the stack has waited there, and
every instruction comes from a token.

## Main definitions

* `Instruction.token`, `Waiting.token` — the token that an instruction comes from, or that waits.
-/

namespace DiscreteMath.SetAlgebra

def Instruction.token : Instruction → Token
  | push name => .name name
  | apply op => .operation op

namespace Waiting

def token : Waiting → Token
  | operation op => .operation op
  | parenthesis => .opening

variable {op : Operation} {stack left : List Waiting} {released : List Instruction}

theorem exists_of_release (h : release op stack = (released, left)) :
    ∃ pending : List Operation, released = pending.map .apply ∧
      stack = pending.map .operation ++ left := by
  induction stack generalizing released left with
  | nil =>
    cases h
    exact ⟨[], rfl, rfl⟩
  | cons top below ih =>
    cases top with
    | parenthesis =>
      cases h
      exact ⟨[], rfl, rfl⟩
    | operation top =>
      simp only [release] at h
      split at h
      · cases h
        obtain ⟨pending, order, split⟩ := ih rfl
        exact ⟨top :: pending, by simp [order], by simp [← split]⟩
      · cases h
        exact ⟨[], rfl, rfl⟩

theorem exists_of_close? (h : close? stack = some (released, left)) :
    ∃ pending : List Operation, released = pending.map .apply ∧
      stack = pending.map .operation ++ .parenthesis :: left := by
  induction stack generalizing released with
  | nil => cases h
  | cons top below ih =>
    cases top with
    | parenthesis =>
      cases h
      exact ⟨[], rfl, rfl⟩
    | operation top =>
      obtain ⟨⟨inner, rest⟩, closed, same⟩ := Option.map_eq_some_iff.mp h
      cases same
      obtain ⟨pending, order, split⟩ := ih closed
      exact ⟨top :: pending, by simp [order], by simp [← split]⟩

theorem exists_of_finish? (h : finish? stack = some released) :
    ∃ pending : List Operation, released = pending.map .apply ∧
      stack = pending.map .operation := by
  induction stack generalizing released with
  | nil =>
    cases h
    exact ⟨[], rfl, rfl⟩
  | cons top below ih =>
    cases top with
    | parenthesis => cases h
    | operation top =>
      obtain ⟨inner, finished, same⟩ := Option.map_eq_some_iff.mp h
      cases same
      obtain ⟨pending, order, split⟩ := ih finished
      exact ⟨top :: pending, by simp [order], by simp [← split]⟩

end Waiting

/-- Every instruction comes from a token, or from one that waits already. -/
theorem token_mem_of_postfixFrom? {stack : List Waiting} {found : List Token}
    {instructions : List Instruction} (h : postfixFrom? stack found = some instructions) :
    ∀ i ∈ instructions, i.token ∈ stack.map Waiting.token ∨ i.token ∈ found := by
  fun_induction postfixFrom? stack found generalizing instructions with
  | case1 stack =>
    obtain ⟨pending, rfl, rfl⟩ := Waiting.exists_of_finish? h
    simp [Instruction.token, Waiting.token]
  | case2 stack letter rest ih =>
    obtain ⟨others, found, rfl⟩ := Option.map_eq_some_iff.mp h
    have := ih found
    grind [Instruction.token]
  | case3 stack rest ih =>
    have := ih h
    grind [Waiting.token]
  | case4 stack rest released left closed ih =>
    obtain ⟨others, found, rfl⟩ := Option.map_eq_some_iff.mp h
    obtain ⟨pending, rfl, rfl⟩ := Waiting.exists_of_close? closed
    have := ih found
    grind [Waiting.token, Instruction.token]
  | case5 => cases h
  | case6 stack rest ih =>
    obtain ⟨others, found, rfl⟩ := Option.map_eq_some_iff.mp h
    have := ih found
    grind [Instruction.token]
  | case7 stack op rest other released left freed ih =>
    obtain ⟨others, found, rfl⟩ := Option.map_eq_some_iff.mp h
    obtain ⟨pending, rfl, rfl⟩ := Waiting.exists_of_release freed
    have := ih found
    grind [Waiting.token, Instruction.token]
  | case8 stack text rest ih | case9 stack rest ih =>
    have := ih h
    grind

/-- Every instruction of an expression comes from one of its tokens. -/
theorem token_mem_of_toPostfix {found : List Token} {instructions : List Instruction}
    (h : toPostfix found = .ok instructions) : ∀ i ∈ instructions, i.token ∈ found := by
  unfold toPostfix at h
  split at h
  next ordered =>
    cases h
    simpa using token_mem_of_postfixFrom? ordered
  next => cases h

end DiscreteMath.SetAlgebra
