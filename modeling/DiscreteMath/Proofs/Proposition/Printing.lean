import DiscreteMath.Proofs.Proposition.Tabulation

/-!
# Reading what is printed

The canonical text of a formula is read as the same formula at other places, wherever the text
stands. So a formula and its canonical text have the same value and the same variables.

## Main definitions

* `Formula.bare` — the formula without its places.
* `IsName` — a text that can be the name of a variable.
* `Prints` — the characters are read, wherever they stand, as the formula.
-/

namespace DiscreteMath

def Text.ReadError.bare : Text.ReadError → Text.ReadError
  | unexpected found _ => unexpected found 0
  | unexpectedEnd _ => unexpectedEnd 0
  | unclosed _ => unclosed 0
  | unknownName name _ => unknownName name 0

namespace Proposition

open Text

def Formula.bare (t : Formula) : Formula := t.move fun _ => 0

namespace Formula

theorem names_eq_of_bare {s t : Formula} (alike : s.bare = t.bare) : s.names = t.names := by
  simpa [bare] using congrArg names alike

theorem evaluate_bare (v : String → Option Bool) (t : Formula) :
    t.bare.evaluate v = (t.evaluate v).mapError ReadError.bare := by
  induction t with
  | atom name p => cases bound : v name <;> simp [bare, move, evaluate, bound] <;> rfl
  | negation body p ih =>
    change (do let value ← body.bare.evaluate v; return !value) = _
    rw [ih, evaluate]
    cases body.evaluate v <;> rfl
  | binary l c r p ihLeft ihRight =>
    change (do let a ← l.bare.evaluate v; let b ← r.bare.evaluate v; return c.apply a b) = _
    rw [ihLeft, ihRight, evaluate]
    cases l.evaluate v <;> cases r.evaluate v <;> rfl

end Formula

def IsName (name : String) : Prop := name ≠ "" ∧ ∀ c ∈ name.toList, isLetter c = true

theorem Reads.isName {p : Nat} {text : List Char} {found : List (Placed Token)}
    (reads : Reads p text found) : ∀ name ∈ found.filterMap (·.value.name?), IsName name := by
  induction reads using Reads.induction with
  | nil p => simp
  | skip p c rest found _ _ ih => exact ih
  | spelled p token spelling rest found spells _ _ ih =>
    cases spells with
    | name some letters =>
      refine List.forall_mem_cons.mpr ⟨⟨fun empty => some ?_, by simpa using letters⟩, ih⟩
      simpa using congrArg String.toList empty
    | sign listed =>
      rw [List.filterMap_cons, (signs_spec _ listed).1]
      exact ih

/-- The variables of a formula that has been read are names. -/
theorem isName_of_read {text : List Char} {t : Formula} (read : Formula.read text = .ok t) :
    ∀ name ∈ t.names, IsName name := by
  obtain ⟨found, lexed, derives⟩ := read_eq_ok_iff.mp read
  rw [← derives.names_eq]
  exact (tokens_eq_ok_iff.mp lexed).isName

/-- The characters are read, wherever they stand, as the formula at some places. -/
def Prints (level : Option Connective) (t : Formula) (text : List Char) : Prop :=
  ∀ p, ∃ u found, u.bare = t.bare ∧ Derives level u found ∧ ∀ rest others,
    (∀ c ∈ rest.head?, isLetter c = false) → Reads (p + text.length) rest others →
    Reads p (text ++ rest) (found ++ others)

theorem Reads.sign {p : Nat} {c : Char} {token : Token} {rest : List Char}
    {others : List (Placed Token)} (listed : (token, [c]) ∈ signs)
    (reads : Reads (p + 1) rest others) : Reads p (c :: rest) (⟨token, p⟩ :: others) :=
  of_spells (.sign listed) (fun named => absurd (signs_spec _ listed).1 named) reads

theorem Reads.connective (c : Connective) {p : Nat} {rest : List Char}
    {others : List (Placed Token)} (reads : Reads (p + 3) rest others) :
    Reads p (' ' :: (c.symbol.toList ++ ' ' :: rest)) (⟨.connective c, p + 1⟩ :: others) := by
  have space : Reads (p + 2) (' ' :: rest) others := .skip rfl reads
  refine .skip rfl ?_
  cases c <;> exact Reads.sign (by decide) space

namespace Prints

variable {s t : Formula} {text more : List Char}

theorem loosen (prints : Prints none t text) (level : Option Connective) :
    Prints level t text := by
  intro p
  obtain ⟨u, found, alike, derives, reads⟩ := prints p
  exact ⟨u, found, alike, derives.loosen level (Nat.zero_le _), reads⟩

theorem atom {name : String} (isName : IsName name) (q : Nat) :
    Prints none (.atom name q) name.toList := by
  intro p
  have some : name.toList ≠ [] := by simpa using isName.1
  have spells : Spells (.name name) name.toList := by
    simpa using Spells.name some isName.2
  exact ⟨.atom name p, _, rfl, .name name p, fun rest others apart reads =>
    Reads.of_spells spells (fun _ => apart) reads⟩

theorem negation (prints : Prints none t text) (q : Nat) :
    Prints none (.negation t q) ('¬' :: text) := by
  intro p
  obtain ⟨u, found, alike, derives, reads⟩ := prints (p + 1)
  refine ⟨.negation u p, _, congrArg (Formula.negation · 0) alike, .negation p derives,
    fun rest others apart later => Reads.sign (by decide) (reads rest others apart ?_)⟩
  rwa [List.length_cons, Nat.add_comm text.length, ← Nat.add_assoc] at later

theorem parentheses (prints : Prints (some .or) t text) :
    Prints none t ('(' :: (text ++ [')'])) := by
  intro p
  obtain ⟨u, found, alike, derives, reads⟩ := prints (p + 1)
  refine ⟨u, _, alike, .parentheses p (p + 1 + text.length) derives,
    fun rest others apart later => ?_⟩
  have place : p + ('(' :: (text ++ [')'])).length = p + 1 + text.length + 1 := by
    simp only [List.length_cons, List.length_append, List.length_nil]
    omega
  rw [place] at later
  have closing : Reads (p + 1 + text.length) (')' :: rest) (⟨.closing, _⟩ :: others) :=
    .sign (by decide) later
  have inner := reads _ _ (by simp; decide) closing
  have opening : Reads p ('(' :: _) (⟨.opening, p⟩ :: _) := .sign (by decide) inner
  simpa using opening

theorem binary (c : Connective) (first : Prints none s text) (second : Prints none t more)
    (q : Nat) :
    Prints (some .or) (.binary s c t q) (text ++ ' ' :: (c.symbol.toList ++ ' ' :: more)) := by
  intro p
  obtain ⟨l, found, alike, left, reads⟩ := first p
  obtain ⟨r, found', alike', right, reads'⟩ := second (p + text.length + 3)
  refine ⟨.binary l c r (p + text.length + 1),
    found ++ ⟨.connective c, p + text.length + 1⟩ :: found', ?_, ?_,
    fun rest others apart later => ?_⟩
  · change Formula.binary l.bare c r.bare 0 = .binary s.bare c t.bare 0
    rw [alike, alike']
  · by_cases implies : c = .implies
    · subst implies
      exact (Derives.right _ (left.loosen _ (Nat.zero_le _))
        (right.loosen _ (Nat.zero_le _))).loosen _ (by decide)
    · exact (Derives.left implies _ (left.loosen _ (Nat.zero_le _))
        (right.loosen _ (Nat.zero_le _))).loosen _ (Connective.rank_le c)
  · have place : p + (text ++ ' ' :: (c.symbol.toList ++ ' ' :: more)).length =
        p + text.length + 3 + more.length := by
      have length : c.symbol.toList.length = 1 := by cases c <;> decide
      simp only [List.length_append, List.length_cons, length]
      omega
    rw [place] at later
    have middle := Reads.connective c (reads' rest others apart later)
    have whole := reads _ _ (by simp; decide) middle
    simpa using whole

end Prints

/-- The canonical text of a formula. -/
theorem prints_text {t : Formula} (isName : ∀ name ∈ t.names, IsName name) :
    Prints none t t.text.toList := by
  induction t with
  | atom name p => exact .atom (isName name (by simp [Formula.names])) p
  | negation body p ih =>
    have inner := ih isName
    cases body with
    | binary l c r q =>
      have whole := (inner.loosen (some .or)).parentheses.negation p
      simpa [Formula.text] using whole
    | atom | negation =>
      have whole := inner.negation p
      simpa [Formula.text] using whole
  | binary l c r p ihLeft ihRight =>
    have left := ihLeft fun name member => isName name (List.mem_append_left _ member)
    have right := ihRight fun name member => isName name (List.mem_append_right _ member)
    have whole := (left.binary c right p).parentheses
    simpa [Formula.text] using whole

theorem Prints.exists_read {t : Formula} {text : List Char} (prints : Prints none t text) :
    ∃ u, Formula.read text = .ok u ∧ u.bare = t.bare := by
  obtain ⟨u, found, alike, derives, reads⟩ := prints 1
  have whole := reads [] [] nofun (.nil _)
  rw [List.append_nil, List.append_nil] at whole
  have lexed := tokens_eq_ok_iff.mpr whole
  exact ⟨u, read_eq_ok_iff.mpr ⟨found, lexed, derives.loosen _ (Nat.zero_le _)⟩, alike⟩

/-! ### Formulas and their texts -/

/-- Two texts with the same variables have them in the same order. -/
theorem variableNames_eq {text more : List Char}
    (same : ∀ name, name ∈ variableNames text ↔ name ∈ variableNames more) :
    variableNames text = variableNames more := by
  have perm := (List.perm_ext_iff_of_nodup (nodup_variableNames text)
    (nodup_variableNames more)).mpr same
  exact perm.eq_of_pairwise (fun a b _ _ lt gt => absurd lt (String.lt_asymm gt))
    (pairwise_variableNames text) (pairwise_variableNames more)

/-- The canonical text of a formula is read as the formula, up to places. For a formula that has
been read, it has the same value under every valuation, or lacks the same variable, and it has the
same variables as the text that has been read. -/
theorem read_canonical :
    (∀ t : Formula, (∀ name ∈ t.names, IsName name) →
      ∃ u, Formula.read t.text.toList = .ok u ∧ u.bare = t.bare) ∧
    ∀ text t, Formula.read text = .ok t →
      ∃ u, Formula.read t.text.toList = .ok u ∧ u.bare = t.bare ∧
        (∀ v, (u.evaluate v).mapError ReadError.bare = (t.evaluate v).mapError ReadError.bare) ∧
        variableNames t.text.toList = variableNames text := by
  refine ⟨fun t isName => (prints_text isName).exists_read, fun text t read => ?_⟩
  obtain ⟨u, again, alike⟩ := (prints_text (isName_of_read read)).exists_read
  refine ⟨u, again, alike, fun v => ?_, variableNames_eq fun name => ?_⟩
  · rw [← Formula.evaluate_bare, ← Formula.evaluate_bare, alike]
  · rw [mem_variableNames again, mem_variableNames read, Formula.names_eq_of_bare alike]

/-- A negated implication keeps both pairs of parentheses. -/
theorem read_canonical_negation :
    let t : Formula :=
      .negation (.binary (.atom "p" 3) .implies (.negation (.atom "q" 9) 8) 5) 1
    t.text = "¬((p → ¬q))" ∧
      (∃ u, Formula.read t.text.toList = .ok u ∧ u.bare = t.bare) ∧
      ∃ u, Formula.read t.text.toList = .ok u ∧ u.bare = t.bare ∧
        (∀ v, (u.evaluate v).mapError ReadError.bare = (t.evaluate v).mapError ReadError.bare) ∧
        variableNames t.text.toList = variableNames "!(p -> ~q)".toList := by
  intro t
  have read : Formula.read "!(p -> ~q)".toList = .ok t := by cbv
  exact ⟨by decide, read_canonical.1 t (isName_of_read read), read_canonical.2 _ t read⟩

end Proposition

end DiscreteMath
