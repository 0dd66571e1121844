import DiscreteMath.Proofs.Text.Pieces
import DiscreteMath.SetAlgebra.Run

/-!
# What a registry holds

Storing a set under a name changes what the registry holds under that name and nothing else; the
temporary sets can be taken out without touching the others.
-/

namespace DiscreteMath.SetAlgebra

namespace Named

variable (entries : Named α) (name other : String)

@[simp] theorem get?_nil : get? ([] : Named α) name = none := rfl

@[simp] theorem get?_cons (value : α) :
    get? ((other, value) :: entries) name =
      if name = other then some value else get? entries name := by
  by_cases h : name = other
  · simp [get?, h]
  · have differs : (name == other) = false := beq_false_of_ne h
    simp [get?, List.lookup_cons, differs, h]

theorem mem_of_get? {entries : Named α} {name : String} {value : α}
    (found : entries.get? name = some value) : (name, value) ∈ entries := by
  induction entries with
  | nil => cases found
  | cons entry rest ih =>
    obtain ⟨head, kept⟩ := entry
    rw [get?_cons] at found
    split at found
    next same =>
      cases found
      rw [same]
      exact List.mem_cons_self
    next => exact List.mem_cons_of_mem _ (ih found)

theorem get?_put (value : α) :
    (entries.put name value).get? other =
      if other = name then some value else entries.get? other := by
  induction entries with
  | nil => simp [put]
  | cons entry rest ih =>
    obtain ⟨head, kept⟩ := entry
    by_cases first : head = name
    · by_cases same : other = name <;> simp [put, first, same]
    · by_cases same : other = head
      · simp [put, first, same]
      · simp [put, first, same, ih]

theorem get?_filter (p : String → Bool) :
    get? (entries.filter (p ·.1)) name = if p name then entries.get? name else none := by
  induction entries with
  | nil => simp
  | cons entry rest ih =>
    obtain ⟨head, kept⟩ := entry
    by_cases accepted : p head
    · by_cases same : name = head
      · simp [same, accepted]
      · simp [accepted, same, ih]
    · by_cases same : name = head
      · subst same
        simp [accepted, ih]
      · simp [accepted, same, ih]

theorem get?_erase :
    (entries.erase name).get? other = if other = name then none else entries.get? other := by
  have := get?_filter entries other (· ≠ name)
  by_cases same : other = name <;> simpa [erase, same] using this

end Named

namespace Registry

variable (registry : Registry) (name other : String)

theorem get?_insert (set : StoredSet) :
    (registry.insert name set).get? other =
      if other = name then some set else registry.get? other := by
  cases set with
  | finite elements =>
    by_cases same : other = name <;> simp [insert, get?, Named.get?_put, Named.get?_erase, same]
  | symbolic set =>
    by_cases same : other = name <;> simp [insert, get?, Named.get?_put, Named.get?_erase, same]

theorem contains_insert (set : StoredSet) :
    (registry.insert name set).contains other = (other == name || registry.contains other) := by
  by_cases same : other = name <;> simp [contains, get?_insert, same]

theorem get?_withoutTemporaries :
    registry.withoutTemporaries.get? name =
      if isTemporary name then none else registry.get? name := by
  simp only [withoutTemporaries, get?, Named.get?_filter _ _ (!isTemporary ·)]
  cases isTemporary name <;> simp

end Registry

/-! ### Temporary names -/

@[simp] theorem isTemporary_temporaryName (n : Nat) : isTemporary (temporaryName n) = true := by
  simp [isTemporary, temporaryName, List.isPrefixOf_iff_prefix]

theorem temporaryName_injective {m n : Nat} (h : temporaryName m = temporaryName n) : m = n := by
  have digits : Nat.toDigits 10 m = Nat.toDigits 10 n := by
    simpa [temporaryName, Nat.repr] using congrArg String.toList h
  simpa using congrArg (Nat.ofDigitChars 10 · 0) digits

/-- A single letter is no temporary name. -/
@[simp] theorem isTemporary_singleton (c : Char) : isTemporary (String.singleton c) = false := by
  simp [isTemporary, temporaryMark, List.isPrefixOf]

@[simp] theorem isTemporary_universeName : isTemporary universeName = false := by
  decide

theorem universeName_ne_temporaryName (n : Nat) : universeName ≠ temporaryName n := by
  intro same
  have plain := isTemporary_universeName
  rw [same, isTemporary_temporaryName] at plain
  cases plain

/-- A name in an expression is no temporary name. -/
theorem isTemporary_of_mem_tokens {text : List Char} {name : String}
    (member : .name name ∈ tokens text) : isTemporary name = false := by
  simp only [tokens, cut, List.mem_filterMap, List.mem_map] at member
  obtain ⟨_, ⟨⟨piece, place⟩, found, rfl⟩, named⟩ := member
  cases piece with
  | stray c => cases named
  | token token =>
    obtain ⟨-, c, following, -, -, -, more, started⟩ := Text.exists_of_mem_pieces found
    obtain rfl : token = .name name := by
      cases token <;> simp_all [Token.ofPiece?]
    unfold Token.start? at started
    split at started
    · simp only [Option.some.injEq, Prod.mk.injEq, Token.name.injEq] at started
      rw [← started.1]
      exact isTemporary_singleton c
    · split at started
      · simp at started
      · split at started <;> simp at started

end DiscreteMath.SetAlgebra
