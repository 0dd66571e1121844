import DiscreteMath.Proofs.SetAlgebra.Additions
import DiscreteMath.Proofs.SetAlgebra.Explaining
import DiscreteMath.Proofs.SetAlgebra.Grammar
import DiscreteMath.Proofs.SetAlgebra.Membership

/-!
# Representations denote their sets

The representation of a symbolic set is an expression again: it is put together from the labels of
the operands, and a label is a name or stands in parentheses. Reading it gives a set with the same
elements.

## Main definitions

* `Term.Prints` — a text writes a term, and no part of it is ignored.
* `Registry.Denotes` — a text is an expression to which the same elements belong as to a set.
* `Operand.Readable` — a symbolic set under a label that denotes it.
* `Workspace.Yields` — the evaluation of a text gives a set.
-/

namespace DiscreteMath.SetAlgebra

open Text

/-! ### Texts of terms -/

/-- No part of the text is ignored as a word. -/
def Wordless (text : String) : Prop := text.toList.any Token.isWordCharacter = false

theorem wordless_append {a b : String} (left : Wordless a) (right : Wordless b) :
    Wordless (a ++ b) := by
  unfold Wordless at left right ⊢
  rw [String.toList_append, List.any_append, left, right, Bool.false_or]

theorem alone_of_not_isWordCharacter {c : Char} (other : Token.isWordCharacter c = false) :
    Alone Token.start? c := by
  refine ⟨(Token.start? c []).map Prod.fst, fun following => ?_⟩
  unfold Token.start?
  by_cases upper : c.isUpper = true
  · simp only [upper, if_true, Option.map_some]
  · simp only [upper, other, Bool.false_eq_true, if_false]
    split <;> rfl

/-- Only a word goes on in the text that follows. -/
theorem tokens_append {a : String} (wordless : Wordless a) (b : String) :
    tokens (a ++ b).toList = tokens a.toList ++ tokens b.toList := by
  unfold tokens cut
  rw [String.toList_append, values_pieces_append fun c member => alone_of_not_isWordCharacter
      (eq_false_of_ne_true (List.any_eq_false.mp wordless c member)),
    List.filterMap_append]

namespace Term

/-- The text writes the term at the level, and no part of it is ignored. -/
structure Prints (level : Nat) (t : Term) (text : String) : Prop where
  wordless : Wordless text
  written : t.Written level (tokens text.toList)

namespace Prints

variable {level : Nat} {t l r : Term} {a b : String}

theorem loosen {level' : Nat} (prints : t.Prints level' a) (le : level ≤ level') :
    t.Prints level a :=
  ⟨prints.wordless, prints.written.loosen le⟩

theorem enclosed (level : Nat) (prints : t.Prints 1 a) : t.Prints level ("(" ++ a ++ ")") := by
  have opening : Wordless "(" := by cbv
  have closing : Wordless ")" := by cbv
  have first : tokens "(".toList = [.opening] := by cbv
  have last : tokens ")".toList = [.closing] := by cbv
  have before := wordless_append opening prints.wordless
  refine ⟨wordless_append before closing, ?_⟩
  rw [tokens_append before, tokens_append opening, first, last]
  exact .parentheses level prints.written

theorem complement (le : level ≤ Operation.complement.precedence)
    (prints : t.Prints Operation.complement.precedence a) :
    (Term.complement t).Prints level (a ++ Operation.complement.symbol) := by
  have sign : Wordless Operation.complement.symbol := by cbv
  have last : tokens Operation.complement.symbol.toList = [.operation .complement] := by cbv
  refine ⟨wordless_append prints.wordless sign, ?_⟩
  rw [tokens_append prints.wordless, last]
  exact .complement le prints.written

theorem binary {op : Operation} (proper : op ≠ .complement) (le : level ≤ op.precedence)
    (left : l.Prints op.precedence a) (right : r.Prints (op.precedence + 1) b) :
    (Term.binary op proper l r).Prints level (a ++ " " ++ op.symbol ++ " " ++ b) := by
  have blank : Wordless " " := by cbv
  have nothing : tokens " ".toList = [] := by cbv
  have sign : Wordless op.symbol := by cases op <;> cbv
  have between : tokens op.symbol.toList = [.operation op] := by cases op <;> cbv
  have first := wordless_append left.wordless blank
  have second := wordless_append first sign
  have third := wordless_append second blank
  refine ⟨wordless_append third right.wordless, ?_⟩
  rw [tokens_append third, tokens_append second, tokens_append first,
    tokens_append left.wordless, nothing, between, List.append_nil, List.append_nil,
    List.append_assoc]
  exact .binary (joins_precedence proper) proper le left.written right.written

/-- The names of the predefined sets are single letters. -/
theorem of_mem_predefinedNames {letter : String} (member : letter ∈ predefinedNames)
    (level : Nat) : (Term.name letter).Prints level letter := by
  have single : predefinedNames.all fun letter => !letter.toList.any Token.isWordCharacter &&
      tokens letter.toList == [.name letter] := by
    simp only [predefinedNames, predefined, List.map_cons, List.map_nil]
    cbv
  obtain ⟨wordless, read⟩ := Bool.and_eq_true_iff.mp (List.all_eq_true.mp single letter member)
  refine ⟨Bool.not_eq_true' _ |>.mp wordless, ?_⟩
  rw [beq_iff_eq.mp read]
  exact .name level letter

end Prints

end Term

/-! ### Texts that denote sets -/

namespace Registry

variable {registry : Registry} {level : Nat} {a b : String} {x y set : StoredSet}

/-- The text is an expression over registered sets to which the same elements belong as to the
set. -/
def Denotes (registry : Registry) (level : Nat) (text : String) (set : StoredSet) : Prop :=
  ∃ t : Term, t.Prints level text ∧ t.isSet = true ∧
    (∀ name ∈ t.names, registry.contains name = true) ∧
    ∀ z, set.contains z = t.holds fun name => (registry.get? name).any (·.contains z)

theorem denotes_name {letter : String} (prints : (Term.name letter).Prints level letter)
    (found : registry.get? letter = some set) : registry.Denotes level letter set := by
  refine ⟨.name letter, prints, rfl, ?_, fun z => ?_⟩
  · simp [Term.names, contains, found]
  · simp [Term.holds, found]

theorem Denotes.enclosed {s : SymbolicSet}
    (denotes : registry.Denotes 1 s.representation (.symbolic s)) :
    registry.Denotes level (StoredSet.symbolic s).enclosed (.symbolic s) := by
  obtain ⟨t, prints, rest⟩ := denotes
  exact ⟨t, prints.enclosed level, rest⟩

/-- Operands that stand by themselves can be written with any operation. The second operand of a
complement is the universe. -/
theorem Denotes.written {op : Operation} (sets : op ≠ .subset)
    (left : registry.Denotes Operation.complement.precedence a x)
    (right : registry.Denotes Operation.complement.precedence b y)
    (whole : op = .complement → registry.get? universeName = some y)
    (member : ∀ z, set.contains z = op.connective (x.contains z) (y.contains z)) :
    registry.Denotes 1 (op.written a b) set := by
  obtain ⟨t, prints, isSet, named, holds⟩ := left
  obtain ⟨u, prints', isSet', named', holds'⟩ := right
  unfold Operation.written
  split
  next same =>
    subst same
    refine ⟨.complement t, prints.complement (by decide), isSet, named, fun z => ?_⟩
    simp only [member, holds, Term.holds, whole rfl, Option.any_some]
  next proper =>
    have tighter := Operation.precedence_lt_complement proper
    refine ⟨.binary op proper t u, ?_, ?_, fun name found => ?_, fun z => ?_⟩
    · exact .binary proper op.precedence_pos (prints.loosen (by omega)) (prints'.loosen tighter)
    · simp [Term.isSet, sets, isSet, isSet']
    · exact (List.mem_append.mp found).elim (named name) (named' name)
    · simp only [member, holds, holds', Term.holds]

end Registry

/-! ### Representations of values -/

structure Operand.Readable (registry : Registry) (x : Operand) : Prop where
  symbolic : ∃ s, x.set = .symbolic s
  regular : x.set.Regular
  denotes : registry.Denotes Operation.complement.precedence x.label x.set

/-- An operation with its sign between blanks. -/
theorem Operation.written_of_sign {op : Operation} (proper : op ≠ .complement) {sign : String}
    (between : sign = " " ++ op.symbol ++ " ") (a b : String) :
    a ++ sign ++ b = op.written a b := by
  rw [written, if_neg proper, between]
  simp only [String.append_assoc]

/-- The value of an operation on symbolic sets is represented by the labels of the operands, or it
is the universe. -/
theorem Symbolic.representation_combine {op : Operation} {a b : Operand} {x y : SymbolicSet}
    (left : a.set = .symbolic x) (right : b.set = .symbolic y)
    (whole : op = .complement → b.isUniversal = true) {set : StoredSet}
    (value : combine op a b = .set set) :
    ∃ s, set = .symbolic s ∧
      (s.representation = op.written a.label b.label ∨ op = .union ∧ s = everything) := by
  cases op with
  | union =>
    cases value
    refine ⟨_, rfl, ?_⟩
    unfold union
    split
    · exact .inr ⟨rfl, rfl⟩
    · exact .inl (Operation.written_of_sign (by decide) (by rfl) _ _)
  | intersection =>
    cases value
    unfold intersection
    rw [left, right]
    exact ⟨_, rfl, .inl (Operation.written_of_sign (by decide) (by rfl) _ _)⟩
  | difference =>
    cases value
    unfold difference
    rw [left]
    exact ⟨_, rfl, .inl (Operation.written_of_sign (by decide) (by rfl) _ _)⟩
  | symmetricDifference =>
    cases value
    exact ⟨_, rfl, .inl (Operation.written_of_sign (by decide) (by rfl) _ _)⟩
  | complement =>
    cases value
    unfold complement
    rw [if_pos (whole rfl)]
    exact ⟨_, rfl, .inl rfl⟩
  | subset => cases value

namespace Registry

theorem contains_standard {name : String} :
    standard.contains name = true ↔ name ∈ predefinedNames := by
  rw [← not_iff_not, Bool.not_eq_true, contains_eq_false]
  exact ⟨And.right, fun absent => ⟨List.not_mem_nil, absent⟩⟩

theorem ordinary_standard : standard.Ordinary where
  reliable name set found := .inl ⟨name, predefined_standard name set found⟩
  whole := rfl

/-- The predefined sets are symbolic and have their names as labels. -/
theorem readable_standard {name : String} {set : StoredSet}
    (found : standard.get? name = some set) : Operand.Readable standard ⟨name, set⟩ where
  symbolic := by
    rw [standard_eq] at found
    obtain ⟨s, -, rfl⟩ := Option.map_eq_some_iff.mp found
    exact ⟨s, rfl⟩
  regular := ordinary_standard.regular.sets name set found
  denotes := by
    refine denotes_name (.of_mem_predefinedNames (contains_standard.mp ?_) _) found
    simp [contains, found]

theorem isUniversal_standard {whole : StoredSet} (found : standard.get? universeName = some whole)
    (label : String) : Operand.isUniversal ⟨label, whole⟩ = true := by
  cases found
  dsimp only [Operand.isUniversal]
  decide

end Registry

/-- An operation on readable operands gives a symbolic set, and its representation denotes it. -/
theorem Operand.Readable.combine {op : Operation} (sets : op ≠ .subset) {a b : Operand}
    (left : a.Readable .standard) (right : b.Readable .standard)
    (whole : op = .complement → Registry.standard.get? universeName = some b.set) :
    ∃ s, SetAlgebra.combine op a b = .set (.symbolic s) ∧
      Registry.standard.Denotes 1 s.representation (.symbolic s) ∧
      Operand.Readable .standard ⟨(StoredSet.symbolic s).enclosed, .symbolic s⟩ := by
  obtain ⟨x, hx⟩ := left.symbolic
  obtain ⟨y, hy⟩ := right.symbolic
  obtain ⟨set, value, regular, member⟩ := combine_spec sets left.regular right.regular
  have symbolic : SetAlgebra.combine op a b = Symbolic.combine op a b := by
    simp only [SetAlgebra.combine, hx]
  obtain ⟨s, rfl, shown⟩ := Symbolic.representation_combine hx hy
    (fun same => Registry.isUniversal_standard (whole same) b.label) (symbolic.symm.trans value)
  have denotes : Registry.standard.Denotes 1 s.representation (.symbolic s) := by
    rcases shown with composed | ⟨-, rfl⟩
    · rw [composed]
      exact left.denotes.written sets right.denotes whole member
    -- Everything belongs to the predefined universe too, and that is registered under `U`.
    · have prints : (Term.name universeName).Prints 1 universeName :=
        .of_mem_predefinedNames (Registry.contains_standard.mp rfl) 1
      exact Registry.denotes_name prints rfl
  exact ⟨s, value, denotes, ⟨s, rfl⟩, regular, denotes.enclosed⟩

/-- The set of a term is readable, and if it is the value of an operation its representation denotes
it. -/
theorem Term.readable_operand? {t : Term} (isSet : t.isSet = true)
    (named : ∀ name ∈ t.names, Registry.standard.contains name = true) :
    ∃ x, t.operand? .standard = some x ∧ x.Readable .standard ∧
      ((∀ letter, t ≠ .name letter) → ∃ s, x.set = .symbolic s ∧
        Registry.standard.Denotes 1 s.representation (.symbolic s)) := by
  induction t with
  | name letter =>
    obtain ⟨set, found⟩ := Option.isSome_iff_exists.mp (named letter (by simp [names]))
    exact ⟨⟨letter, set⟩, by simp [operand?, found], Registry.readable_standard found,
      fun composite => absurd rfl (composite letter)⟩
  | complement t ih =>
    obtain ⟨x, value, left, -⟩ := ih isSet named
    obtain ⟨whole, found⟩ := Option.isSome_iff_exists.mp Registry.ordinary_standard.whole
    have proper : Operation.complement ≠ .subset := by decide
    obtain ⟨s, combined, denotes, readable⟩ :=
      left.combine proper (Registry.readable_standard found) fun _ => found
    refine ⟨_, ?_, readable, fun _ => ⟨s, rfl, denotes⟩⟩
    simp [operand?, value, found, combined, Value.operand?]
  | binary op proper l r ihLeft ihRight =>
    simp only [Term.isSet, Bool.and_eq_true, bne_iff_ne] at isSet
    obtain ⟨⟨sets, isSetLeft⟩, isSetRight⟩ := isSet
    obtain ⟨x, value, left, -⟩ :=
      ihLeft isSetLeft fun name found => named name (List.mem_append_left _ found)
    obtain ⟨y, value', right, -⟩ :=
      ihRight isSetRight fun name found => named name (List.mem_append_right _ found)
    obtain ⟨s, combined, denotes, readable⟩ :=
      left.combine sets right fun same => absurd same proper
    refine ⟨_, ?_, readable, fun _ => ⟨s, rfl, denotes⟩⟩
    simp [operand?, value, value', combined, Value.operand?]

/-! ### Evaluations -/

theorem Finished.Gives.of_matches {f g : Finished} {set : StoredSet} (matching : f.Matches g)
    (gives : f.Gives set) : g.Gives set := by
  rcases matching with rfl | ⟨⟨e, failed⟩, -⟩
  · exact gives
  · obtain ⟨top, stack, found, result⟩ := gives
    cases failed.symm.trans result

namespace Workspace

variable {w : Workspace} {text : String} {t : Term}

/-- The evaluation of the text ends with the set as the only operand and as the answer. -/
def Yields (w : Workspace) (text : String) (set : StoredSet) : Prop :=
  ((Run.start w).evaluateInfix apply text).Gives set ∧
    ∃ steps, (w.evaluate text).result = .ok ⟨.ofSet set, steps, none⟩

/-- The evaluation of a text that writes a term gives the set of the term, in both modes. -/
theorem yields_term {x : Operand} (sound : w.Sound) (written : t.Written 1 (tokens text.toList))
    (value : t.operand? w.registry = some x) : w.Yields text x.set := by
  have plain : ((Run.start (w.setExplains false)).evaluateInfix applyAnew text).Gives x.set :=
    Run.gives_term rfl written value
  have registered : w.Registered text := fun name member =>
    Run.contains_of_operand? value name ((written.mem_names name).mp member)
  have anew : ((Run.start w).evaluateInfix applyAnew text).Gives x.set := by
    cases explains : w.explains with
    | false => rwa [← show w.setExplains false = w by rw [← explains]; rfl]
    | true =>
      rw [← show w.setExplains true = w by rw [← explains]; rfl]
      exact plain.of_matches (modes_match registered)
  have gives : ((Run.start w).evaluateInfix apply text).Gives x.set :=
    anew.of_bare (Run.evaluateInfix_bare (r := Run.start w) rfl sound text).1
  obtain ⟨top, stack, found, result⟩ := gives
  obtain ⟨steps, -, answered⟩ := evaluateBy_of_ok result
  exact ⟨⟨top, stack, found, result⟩, steps, answered⟩

/-- If all names are registered and `U` is, an evaluation adds no set. -/
theorem registry_evaluate (registered : w.Registered text)
    (whole : w.registry.contains universeName = true) :
    (w.evaluate text).workspace.registry = w.registry.withoutTemporaries := by
  obtain ⟨added, same, -, all⟩ := (keeps_grown w text).evaluateInfix (.refl w text)
  have none : added = [] := by
    refine List.eq_nil_iff_forall_not_mem.mpr fun (name, elements) member => ?_
    cases all _ member with
    | missing _ named absent => simp [registered _ named] at absent
    | whole _ _ _ absent => simp [whole] at absent
  rw [evaluate, evaluateBy_workspace, registry_dropTemporaries, same, none, List.append_nil]

/-- In a session with the predefined sets, the evaluation of any text of a term with at least one
operation and no inclusion gives a symbolic set. Evaluating its representation next gives a symbolic
set again, whose rule answers alike for every element. -/
theorem representation_denotes {start : Registry} (reached : (ofRegistry start).Reaches w)
    (standard : w.registry = .standard) (written : t.Written 1 (tokens text.toList))
    (isSet : t.isSet = true) (composite : ∀ letter, t ≠ .name letter)
    (named : ∀ name ∈ t.names, name ∈ predefinedNames) :
    ∃ set, w.Yields text (.symbolic set) ∧
      ∃ again, (w.evaluate text).workspace.Yields set.representation (.symbolic again) ∧
        ∀ x, again.rule x = set.rule x := by
  have sound : w.Sound := sound_of_reaches reached (sound_of_memo_nil rfl)
  obtain ⟨x, value, readable, represented⟩ :=
    t.readable_operand? isSet fun name member => Registry.contains_standard.mpr (named name member)
  obtain ⟨set, same, u, prints, isSet', named', holds⟩ := represented composite
  have yields : w.Yields text (.symbolic set) :=
    same ▸ yields_term sound written (standard ▸ value)
  -- All sets that are needed are there, so the registry stays as it is.
  have left : (w.evaluate text).workspace.registry = .standard := by
    rw [registry_evaluate (fun name member => ?_) (standard ▸ rfl), standard]
    · exact Registry.withoutTemporaries_eq_self (by decide)
    · rw [standard, Registry.contains_standard]
      exact named name ((written.mem_names name).mp member)
  have sound' : (w.evaluate text).workspace.Sound := (evaluateBy_bare rfl sound text).2.2.2
  obtain ⟨y, value', readable', -⟩ := u.readable_operand? isSet' named'
  obtain ⟨again, same'⟩ := readable'.symbolic
  refine ⟨set, yields, again, same' ▸ yields_term sound' prints.written (left ▸ value'),
    fun z => ?_⟩
  obtain ⟨y', value'', -, holds'⟩ :=
    u.operand?_spec Registry.ordinary_standard.regular isSet' named'
  cases value'.symm.trans value''
  have regular := readable.regular
  have regular' := readable'.regular
  rw [same] at regular
  rw [same'] at regular' holds'
  calc again.rule z = some ((StoredSet.symbolic again).contains z) := regular'.test_eq z
    _ = some ((StoredSet.symbolic set).contains z) := by rw [holds', holds]
    _ = set.rule z := (regular.test_eq z).symm

/-- The representation is `((N ∪ Z)ᶜ) - P`. -/
theorem representation_denotes_difference :
    ∃ set, standard.Yields "(N ∪ Z)ᶜ - P" (.symbolic set) ∧
      ∃ again, (standard.evaluate "(N ∪ Z)ᶜ - P").workspace.Yields set.representation
          (.symbolic again) ∧
        ∀ x, again.rule x = set.rule x := by
  have read : tokens "(N ∪ Z)ᶜ - P".toList =
      Token.opening :: ([Token.name "N"] ++ Token.operation .union :: [Token.name "Z"]) ++
        [Token.closing] ++ [Token.operation .complement] ++
          Token.operation .difference :: [Token.name "P"] := by cbv
  have written : (Term.binary .difference (by decide)
      (.complement (.binary .union (by decide) (.name "N") (.name "Z"))) (.name "P")).Written 1
        (tokens "(N ∪ Z)ᶜ - P".toList) := by
    rw [read]
    refine .binary .difference _ (by decide) (.complement (by decide) (.parentheses _ ?_))
      (.name _ _)
    exact .binary .union _ (by decide) (.name _ _) (.name _ _)
  have reached : (ofRegistry .standard).Reaches standard := ⟨[], rfl⟩
  refine representation_denotes reached rfl written rfl (by simp) ?_
  intro name member
  exact Registry.contains_standard.mp (by revert name; decide)

end Workspace

end DiscreteMath.SetAlgebra
