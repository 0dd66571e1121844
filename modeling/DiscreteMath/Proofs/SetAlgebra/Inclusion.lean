import DiscreteMath.Proofs.SetAlgebra.Kind

/-!
# When a decided inclusion is right

An inclusion is decided element by element where a side is enumerated, by the universe, or by the
table of labels. The first is always right. The table knows the predefined sets, but it is asked
about every value whose definition begins like theirs, so there it may be wrong; and the universe is
compared with a value that holds everything without showing it.

## Main definitions

* `Verdict.Sound` — a verdict that says nothing wrong.
* `Kind.Mistaken` — the cases in which the verdict says something wrong.
-/

namespace DiscreteMath.SetAlgebra

/-- What the verdict says of an inclusion is so: every number of the first side is on the second, or
some element is not. -/
def Verdict.Sound (verdict : Verdict) (p q : Element → Bool) : Prop :=
  (verdict = .yes → ∀ n, p (.number n) = true → q (.number n) = true) ∧
    (verdict = .no → ∃ x, p x = true ∧ q x = false)

/-- The verdict on two sides of these kinds is wrong: the universe shows on the first side only, but
everything is on the second; or the table of labels says what is not so. -/
def Kind.Mistaken (p q : Element → Bool) : Kind → Kind → Prop
  | .everything, .led _ | .everything, .composed => ∀ x, q x = true
  | .led a, .led b =>
    match knownSubset? a b with
    | some true => ∃ n, p (.number n) = true ∧ q (.number n) = false
    | some false => ∀ x, p x = true → q x = true
    | none => False
  | _, _ => False

/-! ### Verdicts -/

section Verdicts

variable {p q : Element → Bool}

theorem sound_unknown : Verdict.unknown.Sound p q := ⟨nofun, nofun⟩

theorem sound_yes_iff :
    Verdict.yes.Sound p q ↔ ∀ n, p (.number n) = true → q (.number n) = true :=
  ⟨fun h => h.1 rfl, fun h => ⟨fun _ => h, nofun⟩⟩

theorem sound_no_iff : Verdict.no.Sound p q ↔ ∃ x, p x = true ∧ q x = false :=
  ⟨fun h => h.2 rfl, fun h => ⟨nofun, fun _ => h⟩⟩

/-- A verdict by a test that decides the inclusion. -/
theorem sound_ofBool {test : Bool} (exact : test = true ↔ ∀ x, p x = true → q x = true) :
    (Verdict.ofBool test).Sound p q := by
  cases test with
  | true => exact sound_yes_iff.mpr fun n => exact.mp rfl (.number n)
  | false =>
    refine sound_no_iff.mpr ?_
    have fails : ¬ ∀ x, p x = true → q x = true := fun all => by simpa using exact.mpr all
    simpa using fails

/-- A verdict from the table of labels. -/
theorem sound_known_iff (known : Option Bool) (p q : Element → Bool) :
    (known.elim Verdict.unknown .ofBool).Sound p q ↔
      ¬ match known with
        | some true => ∃ n, p (.number n) = true ∧ q (.number n) = false
        | some false => ∀ x, p x = true → q x = true
        | none => False := by
  match known with
  | none => exact iff_of_true sound_unknown id
  | some true => simpa [Verdict.ofBool] using sound_yes_iff
  | some false => simpa [Verdict.ofBool] using sound_no_iff

end Verdicts

/-- A list holds no text that is long enough. -/
theorem exists_length_bound (elements : List Element) :
    ∃ n, ∀ content : String, n ≤ content.length → holds elements (.text content) = false := by
  induction elements with
  | nil => exact ⟨0, fun _ _ => rfl⟩
  | cons y rest ih =>
    obtain ⟨n, bound⟩ := ih
    have first : ∃ m, ∀ content : String, m ≤ content.length → (y == .text content) = false := by
      cases y with
      | text s =>
        refine ⟨s.length + 1, fun content long => ?_⟩
        have differs : s ≠ content := by
          rintro rfl
          omega
        simpa [BEq.beq, Element.same] using differs
      | number | reference | collection => exact ⟨0, fun _ _ => by simp [BEq.beq, Element.same]⟩
    obtain ⟨m, first⟩ := first
    refine ⟨max m n, fun content long => ?_⟩
    rw [holds_cons, first content (by omega), bound content (by omega), Bool.or_self]

theorem exists_not_holds (elements : List Element) : ∃ x, holds elements x = false := by
  obtain ⟨n, bound⟩ := exists_length_bound elements
  refine ⟨_, bound (String.ofList (List.replicate n 'a')) ?_⟩
  simp

theorem isEmpty_without (x y : List Element) :
    (without x y).isEmpty = true ↔ ∀ z, holds x z = true → holds y z = true := by
  constructor
  · intro none z member
    have outside := holds_without x y z
    rw [List.isEmpty_iff.mp none, member, holds_nil] at outside
    simpa using outside.symm
  · intro all
    rw [List.isEmpty_iff, without, List.filter_eq_nil_iff]
    intro z member
    simp [all z (holds_of_mem member)]

theorem all_contains {set : StoredSet} (h : set.Regular) (elements : List Element) :
    elements.all set.contains = true ↔ ∀ z, holds elements z = true → set.contains z = true := by
  rw [List.all_eq_true]
  constructor
  · intro all z member
    obtain ⟨y, listed, same⟩ := List.any_eq_true.mp member
    rw [← h.respects y z same]
    exact all y listed
  · exact fun all z member => all z (holds_of_mem member)

/-- The labels of the table are single letters, and none of them opens a collection. -/
theorem letter_of_listed {l : String}
    (listed : (chain.contains l || (branches.lookup l).isSome) = true) :
    ∃ c, l = String.singleton c ∧ c ≠ '(' ∧ c ≠ '\x7b' := by
  have member : l ∈ chain ++ branches.map Prod.fst := by
    rw [List.mem_append]
    rcases Bool.or_eq_true _ _ |>.mp listed with inner | outer
    · exact .inl (by simpa using inner)
    · obtain ⟨above, found⟩ := Option.isSome_iff_exists.mp outer
      exact .inr (List.mem_map.mpr ⟨_, Named.mem_of_get? found, rfl⟩)
  have letters : ∀ l ∈ chain ++ branches.map Prod.fst,
      l ∈ ['ℕ', 'ℤ', 'ℚ', 'ℝ', 'ℂ', 'U', 'E', 'O', 'P'].map String.singleton := by
    decide
  obtain ⟨c, symbol, rfl⟩ := List.mem_map.mp (letters l member)
  refine ⟨c, rfl, ?_, ?_⟩
  · rintro rfl
    simp at symbol
  · rintro rfl
    simp at symbol

/-- The table does not know the label of a composed definition. -/
theorem knownSubset?_of_composite {definition : String} (h : Composite definition.toList)
    (other : String) :
    knownSubset? (label definition) other = none ∧
      knownSubset? other (label definition) = none := by
  have unlisted : (chain.contains (label definition) ||
      (branches.lookup (label definition)).isSome) = false := by
    refine eq_false_of_ne_true fun listed => ?_
    obtain ⟨c, letter, noParenthesis, noBrace⟩ := letter_of_listed listed
    rcases h.label letter with rfl | rfl
    · exact noParenthesis rfl
    · exact noBrace rfl
  constructor
  · simp only [knownSubset?, unlisted, Bool.not_false, Bool.true_or, if_true]
  · simp only [knownSubset?, unlisted, Bool.not_false, Bool.or_true, if_true]

namespace Symbolic

variable {k l : Kind} {a b : Operand}

theorem included_of_isUniversal (h : b.isUniversal = true) : included a b = .yes := if_pos h

theorem included_of_universal_left (hb : ¬ b.isUniversal = true) (ha : a.isUniversal = true) :
    included a b = .no := by
  rw [included, if_neg hb, if_pos ha]

theorem included_of_finite (hb : ¬ b.isUniversal = true) {elements : List Element}
    (listed : a.set = .finite elements) :
    included a b = .ofBool (elements.all b.set.contains) := by
  have ha : ¬ a.isUniversal = true := by simp [Operand.isUniversal, listed]
  rw [included, if_neg hb, if_neg ha]
  simp only [listed]

theorem included_of_symbolic (hb : ¬ b.isUniversal = true) (ha : ¬ a.isUniversal = true)
    {x y : SymbolicSet} (left : a.set = .symbolic x) (right : b.set = .symbolic y) :
    included a b = (knownSubset? x.label y.label).elim .unknown .ofBool := by
  rw [included, if_neg hb, if_neg ha]
  simp only [left, right]
  cases knownSubset? x.label y.label <;> rfl

theorem included_eq_unknown {x : SymbolicSet} (hb : ¬ b.isUniversal = true)
    (ha : ¬ a.isUniversal = true) (left : a.set = .symbolic x)
    (other : ∀ y, b.set = .symbolic y → knownSubset? x.label y.label = none) :
    included a b = .unknown := by
  cases right : b.set with
  | finite elements =>
    rw [included, if_neg hb, if_neg ha]
    simp only [left, right]
  | symbolic y => rw [included_of_symbolic hb ha left right, other y right, Option.elim_none]

/-- The verdict on two symbolic sides, neither of which shows to be everything. -/
theorem included_symbolic_sound_iff {x y : SymbolicSet} (left : a.set = .symbolic x)
    (right : b.set = .symbolic y) (hk : k.Fits (.symbolic x)) (hl : l.Fits (.symbolic y))
    (ha : ¬ a.isUniversal = true) (hb : ¬ b.isUniversal = true) (p q : Element → Bool) :
    (included a b).Sound p q ↔ ¬ Kind.Mistaken p q k l := by
  cases hk with
  | everything named =>
    refine absurd ?_ ha
    simp only [Operand.isUniversal, left, SymbolicSet.isUniversal, SymbolicSet.label, named]
    decide
  | composed named =>
    have unknown : included a b = .unknown :=
      included_eq_unknown hb ha left fun _ _ => (knownSubset?_of_composite named _).1
    rw [unknown]
    exact iff_of_true sound_unknown id
  | led visible other text =>
    cases hl with
    | everything named =>
      refine absurd ?_ hb
      simp only [Operand.isUniversal, right, SymbolicSet.isUniversal, SymbolicSet.label, named]
      decide
    | composed named =>
      have none : knownSubset? x.label y.label = none := (knownSubset?_of_composite named _).2
      rw [included_of_symbolic hb ha left right, none]
      exact iff_of_true sound_unknown id
    | led visible' other' text' =>
      rw [included_of_symbolic hb ha left right, SymbolicSet.label, SymbolicSet.label,
        label_of_symbol visible text, label_of_symbol visible' text']
      exact sound_known_iff _ p q

/-- The verdict on two sides that are not both enumerated is right unless the kinds mislead it. -/
theorem included_sound_iff (ha : k.Fits a.set) (hb : l.Fits b.set) (ra : a.set.Regular)
    (rb : b.set.Regular) :
    (included a b).Sound a.set.contains b.set.contains ↔
      ¬ Kind.Mistaken a.set.contains b.set.contains k l := by
  by_cases right : b.isUniversal = true
  · have all := Operand.contains_of_isUniversal rb right
    obtain rfl := hb.isUniversal_iff.mp right
    rw [included_of_isUniversal right, sound_yes_iff]
    refine iff_of_true (fun n _ => all (.number n)) ?_
    cases k <;> exact id
  by_cases left : a.isUniversal = true
  · have all := Operand.contains_of_isUniversal ra left
    obtain rfl := ha.isUniversal_iff.mp left
    have missing : Verdict.no.Sound a.set.contains b.set.contains ↔
        ¬ ∀ x, b.set.contains x = true := by simp [sound_no_iff, all]
    rw [included_of_universal_left right left, missing]
    have other : l ≠ .everything := mt hb.isUniversal_iff.mpr right
    match l with
    | .everything => exact absurd rfl other
    | .led _ | .composed => exact Iff.rfl
    | .enumerated =>
      obtain ⟨elements, listed⟩ := Kind.exists_of_fits_enumerated hb
      obtain ⟨x, outside⟩ := exists_not_holds elements
      refine iff_of_true (fun every => ?_) id
      have inside := every x
      rw [listed, StoredSet.contains_finite, outside] at inside
      cases inside
  cases first : a.set with
  | finite elements =>
    obtain rfl := (Kind.fits_finite k elements).mp (first ▸ ha)
    rw [included_of_finite right first]
    refine iff_of_true (sound_ofBool ?_) id
    simpa only [StoredSet.contains_finite] using all_contains rb elements
  | symbolic x =>
    cases second : b.set with
    | finite elements =>
      obtain rfl := (Kind.fits_finite l elements).mp (second ▸ hb)
      rw [included_eq_unknown right left first (by simp [second])]
      refine iff_of_true sound_unknown ?_
      cases k <;> exact id
    | symbolic y =>
      exact included_symbolic_sound_iff first second (first ▸ ha) (second ▸ hb) left right _ _

end Symbolic

/-- An inclusion of sets of two kinds is answered by a verdict that is right unless the kinds
mislead it. -/
theorem combine_subset {k l : Kind} {a b : Operand} (ha : k.Fits a.set) (hb : l.Fits b.set)
    (ra : a.set.Regular) (rb : b.set.Regular) :
    ∃ verdict, combine .subset a b = .relation a.label b.label verdict ∧
      (verdict.Sound a.set.contains b.set.contains ↔
        ¬ Kind.Mistaken a.set.contains b.set.contains k l) := by
  rcases Kind.combine_eq .subset ha hb with ⟨rfl, rfl, -⟩ | ⟨-, value⟩
  · obtain ⟨x, left⟩ := Kind.exists_of_fits_enumerated ha
    obtain ⟨y, right⟩ := Kind.exists_of_fits_enumerated hb
    refine ⟨.ofBool (without x y).isEmpty, ?_, iff_of_true (sound_ofBool ?_) id⟩
    · simp only [combine, left, right]
      rfl
    · simpa only [left, right, StoredSet.contains_finite] using isEmpty_without x y
  · exact ⟨_, value, Symbolic.included_sound_iff ha hb ra rb⟩

namespace Workspace

def belongs (w : Workspace) (t : Term) (x : Element) : Bool :=
  t.holds fun name => w.isMember x name matches .ok true

theorem belongs_eq (w : Workspace) (t : Term) (x : Element) :
    w.belongs t x = t.holds fun name => (w.registry.get? name).any (·.contains x) :=
  congrArg (t.holds ·) (funext (w.isMember_eq x))

/-- Over predefined and enumerated sets, an inclusion is answered by a relation, and the verdict of
it says nothing wrong unless the first sets of the two sides mislead it. -/
theorem inclusion_sound_iff {start : Registry} {w : Workspace}
    (reached : (ofRegistry start).Reaches w) (quiet : w.explains = false)
    (whole : w.registry.contains universeName = true) (predefined : w.registry.Predefined)
    {text : String} {l r : Term}
    (written : (Term.binary .subset (by decide) l r).Written 1 (tokens text.toList))
    (left : l.isSet = true) (right : r.isSet = true)
    (registered : ∀ name ∈ l.names ++ r.names, w.registry.contains name = true) :
    ∃ subset superset verdict,
      (w.evaluate text).result = .ok ⟨.relation subset superset verdict, [], none⟩ ∧
      (verdict.Sound (w.belongs l) (w.belongs r) ↔
        ¬ Kind.Mistaken (w.belongs l) (w.belongs r) (l.kind w.registry) (r.kind w.registry)) := by
  have sound := sound_of_reaches reached (sound_of_memo_nil rfl)
  have regular : w.registry.Regular :=
    ⟨whole, fun name set found => by
      cases set with
      | finite elements => trivial
      | symbolic set => exact regular_predefined _ (predefined name set found)⟩
  obtain ⟨x, value, hx, member⟩ :=
    l.operand?_spec regular left fun name found => registered name (by simp [found])
  obtain ⟨y, value', hy, member'⟩ :=
    r.operand?_spec regular right fun name found => registered name (by simp [found])
  obtain ⟨verdict, combined, exact⟩ :=
    combine_subset (Term.fits_kind predefined value) (Term.fits_kind predefined value') hx hy
  have result := evaluate_inclusion sound quiet written value value' combined
  refine ⟨x.label, y.label, verdict, result, ?_⟩
  have same : w.belongs l = x.set.contains :=
    funext fun z => (w.belongs_eq l z).trans (member z).symm
  have same' : w.belongs r = y.set.contains :=
    funext fun z => (w.belongs_eq r z).trans (member' z).symm
  rw [same, same']
  exact exact

/-- The label `ℕ` of the composed definition `ℕ = {0, 1, 2, 3, ...} ∪ ℝ = (-∞, ∞)` misleads, and
`-1` shows it. -/
theorem inclusion_of_union_unsound :
    ∃ subset superset verdict, (standard.evaluate "N ∪ R ⊆ N").result =
        .ok ⟨.relation subset superset verdict, [], none⟩ ∧
      ¬ verdict.Sound
        (standard.belongs (.binary .union (by decide) (.name "N") (.name "R")))
        (standard.belongs (.name "N")) := by
  have read : tokens "N ∪ R ⊆ N".toList =
      ([.name "N"] ++ .operation .union :: [.name "R"]) ++ .operation .subset :: [.name "N"] := by
    cbv
  have written : (Term.binary .subset (by decide)
      (.binary .union (by decide) (.name "N") (.name "R")) (.name "N")).Written
      1 (tokens "N ∪ R ⊆ N".toList) := by
    rw [read]
    exact .binary .subset _ (by decide)
      (.binary .union _ (by decide) (.name _ _) (.name _ _)) (.name _ _)
  have reached : (ofRegistry .standard).Reaches standard := ⟨[], rfl⟩
  obtain ⟨subset, superset, verdict, result, sound⟩ :=
    inclusion_sound_iff reached rfl (by decide) Registry.predefined_standard written rfl rfl
      (by decide)
  have first : Term.kind standard.registry
      (.binary .union (by decide) (.name "N") (.name "R")) = .led "ℕ" := by decide
  have second : Term.kind standard.registry (.name "N") = .led "ℕ" := by decide
  refine ⟨subset, superset, verdict, result, fun right => sound.mp right ?_⟩
  rw [first, second]
  exact ⟨Float.ofBits 0xBFF0000000000000, by decide, by decide⟩

end Workspace

end DiscreteMath.SetAlgebra
