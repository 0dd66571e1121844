import DiscreteMath.Proofs.Number.Primality
import DiscreteMath.Proofs.SetAlgebra.Inclusion

/-!
# The hierarchy of the sets of numbers

The table of known inclusions is compared with the rules of the predefined sets. What it affirms
holds of every element, as long as no text is taken from the rationals to the real or complex
numbers; and where it denies an inclusion there is an element to show it, but for one pair: as all
real numbers are floats, each of them is rational.

## Main definitions

* `Datum.isText` — the datum is a text.
* `Unwritten` — no text is taken from the rationals to the real or complex numbers.
* `integerNames` — the sets that hold integers alone.
-/

namespace DiscreteMath.SetAlgebra

def Datum.isText : Datum → Bool
  | text _ => true
  | _ => false

/-- The element is no text, be it a fraction, where rationals are to be real or complex numbers. -/
def Unwritten (subset superset : String) (x : Element) : Prop :=
  subset = "Q" → superset = "R" ∨ superset = "C" → x.datum.isText = false

def integerNames : List String := ["N", "Z", "E", "O", "P"]

variable {name other : String} {set superset : SymbolicSet} {x : Element}

/-! ### The rules of the predefined sets -/

theorem Datum.isFinite_of_integer? {x : Datum} {n : Int} (whole : x.integer? = some n) :
    x.isFinite = true := by
  cases x with
  | number value =>
    simp only [integer?, Number.toInteger?] at whole
    split at whole
    · cases whole
    next finite => simpa [isFinite] using finite
  | text content => cases whole
  | collection members => cases whole

theorem Datum.isText_of_isFinite {x : Datum} (finite : x.isFinite = true) : x.isText = false := by
  cases x <;> first | rfl | cases finite

/-- The integer that a datum is has a word: it is within the exact bound. -/
theorem Datum.exists_word_of_integer? {x : Datum} {n : Int} (whole : x.integer? = some n) :
    ∃ word, Number.Word.ofInt? n = some word := by
  suffices bounded : n.natAbs ≤ Number.exactBound by
    rw [Number.exactBound] at bounded
    have least := Int64.toInt_minValue
    have greatest := Int64.toInt_maxValue
    exact Number.Word.exists_ofInt? (by omega) (by omega)
  cases x with
  | number value =>
    simp only [integer?, Number.toInteger?] at whole
    split at whole
    · cases whole
    · obtain ⟨signless, found, rfl⟩ := Option.map_eq_some_iff.mp whole
      obtain ⟨magnitude, kept, same⟩ := Option.bind_eq_some_iff.mp found
      cases same
      have bounded := of_decide_eq_true (Option.filter_eq_some_iff.mp kept).2
      split
      · rwa [Int.natAbs_neg, Int.natAbs_natCast]
      · rwa [Int.natAbs_natCast]
  | text content => cases whole
  | collection members => cases whole

/-- A predefined set is known by its name. -/
theorem get?_predefined (member : (name, set) ∈ predefined) :
    Named.get? predefined name = some set := by
  have distinct : (predefined.map Prod.fst).Nodup := by decide
  obtain ⟨found, value⟩ : ∃ found, Named.get? predefined name = some found := by
    refine Option.ne_none_iff_exists'.mp fun absent => ?_
    exact Named.get?_eq_none.mp absent (List.mem_map_of_mem member)
  have same := List.inj_on_of_nodup_map distinct (Named.mem_of_get? value) member rfl
  rw [value, (Prod.mk.inj same).2]

/-- A predefined set asks of an element what the table says of its name. -/
theorem rule_predefined (asks : Datum → Bool) (member : (name, set) ∈ predefined)
    (listed : (Named.get? predefined name).map SymbolicSet.rule =
      some fun x => some (asks x.datum)) (x : Element) : set.rule x = some (asks x.datum) := by
  rw [get?_predefined member] at listed
  exact congrFun (Option.some.inj listed) x

/-- A set of integers asks something of an integer. -/
theorem rule_integral (member : (name, set) ∈ predefined) (named : name ∈ integerNames) :
    ∃ p : Int → Bool, ∀ x, set.rule x = some (x.datum.integer?.any p) := by
  simp only [integerNames, List.mem_cons, List.not_mem_nil, or_false] at named
  rcases named with rfl | rfl | rfl | rfl | rfl <;> cases get?_predefined member <;>
    exact ⟨_, fun _ => rfl⟩

/-- Of what is no text the larger sets of numbers ask whether it is finite. -/
theorem rule_numeric (member : (name, set) ∈ predefined) (named : name ∈ ["Q", "R", "C"])
    (number : x.datum.isText = false) : set.rule x = some x.datum.isFinite := by
  simp only [List.mem_cons, List.not_mem_nil, or_false] at named
  cases shape : x.datum with
  | text content =>
    rw [shape] at number
    cases number
  | number value | collection members =>
    rcases named with rfl | rfl | rfl <;> cases get?_predefined member <;>
      simp only [SymbolicSet.ofRule, shape]

/-- The members of the set of primes are the prime numbers. -/
theorem rule_primes_iff (member : ("P", set) ∈ predefined) (x : Element) :
    set.rule x = some true ↔ ∃ p : Nat, p.Prime ∧ x.datum.integer? = some (p : Int) := by
  rw [rule_predefined (·.integer?.any Number.isPrime) member rfl, Option.some.injEq,
    Option.any_eq_true]
  constructor
  · rintro ⟨n, whole, prime⟩
    have prime := (Number.isPrime_iff.mp prime).2
    have least := prime.two_le
    have natural : (n.toNat : Int) = n := Int.toNat_of_nonneg (by omega)
    exact ⟨n.toNat, prime, natural ▸ whole⟩
  · rintro ⟨p, prime, whole⟩
    exact ⟨p, whole, Number.isPrime_iff.mpr ⟨Datum.exists_word_of_integer? whole, prime⟩⟩

/-- A member of a set of integers is an integer. -/
theorem exists_integer (member : (name, set) ∈ predefined) (named : name ∈ integerNames)
    (inside : set.rule x = some true) : ∃ n, x.datum.integer? = some n := by
  obtain ⟨p, rule⟩ := rule_integral member named
  rw [rule, Option.some.injEq, Option.any_eq_true] at inside
  obtain ⟨n, whole, -⟩ := inside
  exact ⟨n, whole⟩

/-- A member of a set of numbers is a finite number, if it is no text. -/
theorem isFinite_of_rule (member : (name, set) ∈ predefined)
    (named : name ∈ integerNames ∨ name = "Q" ∨ name = "R")
    (number : name = "Q" → x.datum.isText = false) (inside : set.rule x = some true) :
    x.datum.isFinite = true := by
  rcases named with integral | rfl | rfl
  · obtain ⟨n, whole⟩ := exists_integer member integral inside
    exact Datum.isFinite_of_integer? whole
  · rw [rule_numeric member (by simp) (number rfl)] at inside
    exact Option.some.inj inside
  · rw [rule_predefined Datum.isFinite member rfl] at inside
    exact Option.some.inj inside

/-! ### The table -/

/-- What the table affirms of different sets: everything is in the universe, the sets of numbers
are among the larger ones, integers are integers, and primes are natural numbers. -/
theorem known_cases : ∀ S ∈ predefined, ∀ T ∈ predefined,
    knownSubset? S.2.label T.2.label = some true → S.1 ≠ T.1 →
      T.1 = "U" ∨
      (S.1 ∈ integerNames ∨ S.1 = "Q" ∨ S.1 = "R") ∧ T.1 ∈ ["Q", "R", "C"] ∨
      S.1 ∈ integerNames ∧ T.1 = "Z" ∨
      S.1 = "P" ∧ T.1 = "N" := by
  decide +kernel

/-- What the table denies is shown by a sample of the smaller set, or by an empty collection. -/
theorem denied_cases : ∀ S ∈ predefined, ∀ T ∈ predefined,
    knownSubset? S.2.label T.2.label = some false → ¬ (S.1 = "R" ∧ T.1 = "Q") →
      ∃ x ∈ .collection [] :: S.2.samples, S.2.rule x = some true ∧ T.2.rule x = some false := by
  decide +kernel

/-- What the table affirms holds of every element. -/
theorem rule_of_known (member : (name, set) ∈ predefined)
    (member' : (other, superset) ∈ predefined)
    (known : knownSubset? set.label superset.label = some true)
    (apart : Unwritten name other x) (inside : set.rule x = some true) :
    superset.rule x = some true := by
  by_cases same : name = other
  · subst same
    cases (get?_predefined member).symm.trans (get?_predefined member')
    exact inside
  rcases known_cases _ member _ member' known same with
    rfl | ⟨small, large⟩ | ⟨integral, rfl⟩ | ⟨rfl, rfl⟩
  · exact rule_predefined (fun _ => true) member' rfl x
  · have finite : x.datum.isFinite = true := by
      refine isFinite_of_rule member small (fun rational => apart rational ?_) inside
      simp only [List.mem_cons, List.not_mem_nil, or_false] at large
      exact large.resolve_left fun rational' => same (rational.trans rational'.symm)
    rw [rule_numeric member' large (Datum.isText_of_isFinite finite), finite]
  · obtain ⟨n, whole⟩ := exists_integer member integral inside
    rw [rule_predefined (·.integer?.any fun _ => true) member' rfl, whole]
    rfl
  · obtain ⟨p, -, whole⟩ := (rule_primes_iff member x).mp inside
    rw [rule_predefined (·.integer?.any (0 ≤ ·)) member' rfl, whole]
    simp only [Option.any_some, Int.natCast_nonneg, decide_true]

/-- All real numbers are floats, and so they are rational. -/
theorem rational_of_real (member : ("R", set) ∈ predefined)
    (member' : ("Q", superset) ∈ predefined) (inside : set.rule x = some true) :
    superset.rule x = some true := by
  have finite := isFinite_of_rule member (.inr (.inr rfl)) nofun inside
  rw [rule_numeric member' (by simp) (Datum.isText_of_isFinite finite), finite]

/-! ### Inclusions by way of the table -/

theorem ofBool_eq_yes {b : Bool} : Verdict.ofBool b = .yes ↔ b = true := by
  cases b <;> decide

/-- An inclusion of an enumerated set and one of the table together give a third. -/
theorem included_of_known (member : (name, set) ∈ predefined)
    (member' : (other, superset) ∈ predefined) {elements : List Element}
    (apart : ∀ x ∈ elements, Unwritten name other x) {a b c : String}
    (inside : Symbolic.included ⟨a, .finite elements⟩ ⟨b, .symbolic set⟩ = .yes)
    (larger : Symbolic.included ⟨b, .symbolic set⟩ ⟨c, .symbolic superset⟩ = .yes) :
    Symbolic.included ⟨a, .finite elements⟩ ⟨c, .symbolic superset⟩ = .yes := by
  by_cases everything : Operand.isUniversal ⟨c, .symbolic superset⟩ = true
  · exact Symbolic.included_of_isUniversal everything
  by_cases whole : Operand.isUniversal ⟨b, .symbolic set⟩ = true
  · rw [Symbolic.included_of_universal_left everything whole] at larger
    cases larger
  have known : knownSubset? set.label superset.label = some true := by
    rw [Symbolic.included_of_symbolic everything whole rfl rfl] at larger
    cases told : knownSubset? set.label superset.label with
    | none =>
      rw [told] at larger
      cases larger
    | some affirmed =>
      rw [told, Option.elim_some, ofBool_eq_yes] at larger
      rw [larger]
  rw [Symbolic.included_of_finite whole rfl, ofBool_eq_yes, List.all_eq_true] at inside
  rw [Symbolic.included_of_finite everything rfl, ofBool_eq_yes, List.all_eq_true]
  intro x listed
  have held : set.rule x = some true := by
    simpa [StoredSet.contains, StoredSet.test] using inside x listed
  have held := rule_of_known member member' known (apart x listed) held
  simpa [StoredSet.contains, StoredSet.test] using held

/-- The table of known inclusions agrees with the rules of the predefined sets. What it affirms of
two of them holds of every element that is not a text taken from the rationals to the real or
complex numbers, and so an enumerated set of such elements that is included in the first is included
in the second. What it denies is shown by an element, except that every real number is rational. -/
theorem knownSubset?_spec (member : (name, set) ∈ predefined)
    (member' : (other, superset) ∈ predefined) :
    (knownSubset? set.label superset.label = some true → ∀ x, Unwritten name other x →
        set.rule x = some true → superset.rule x = some true) ∧
      (knownSubset? set.label superset.label = some false → ¬ (name = "R" ∧ other = "Q") →
        ∃ x, set.rule x = some true ∧ superset.rule x = some false) ∧
      (name = "R" → other = "Q" → knownSubset? set.label superset.label = some false ∧
        ∀ x, set.rule x = some true → superset.rule x = some true) ∧
      ∀ elements a b c, (∀ x ∈ elements, Unwritten name other x) →
        Symbolic.included ⟨a, .finite elements⟩ ⟨b, .symbolic set⟩ = .yes →
        Symbolic.included ⟨b, .symbolic set⟩ ⟨c, .symbolic superset⟩ = .yes →
        Symbolic.included ⟨a, .finite elements⟩ ⟨c, .symbolic superset⟩ = .yes := by
  refine ⟨fun known x apart inside => rule_of_known member member' known apart inside,
    fun denied proper => ?_, ?_, fun elements a b c apart inside larger =>
      included_of_known member member' apart inside larger⟩
  · obtain ⟨x, -, inside, outside⟩ := denied_cases _ member _ member' denied proper
    exact ⟨x, inside, outside⟩
  · rintro rfl rfl
    refine ⟨?_, fun x inside => rational_of_real member member' inside⟩
    cases get?_predefined member
    cases get?_predefined member'
    decide

/-- Even integers are real numbers, but not all real numbers are even. -/
theorem knownSubset?_spec_even :
    ∃ even real, ("E", even) ∈ predefined ∧ ("R", real) ∈ predefined ∧
      Symbolic.included ⟨"A", .finite [.number 2, .number (-4)]⟩ ⟨"R", .symbolic real⟩ = .yes ∧
      ∃ x, real.rule x = some true ∧ even.rule x = some false := by
  have even := Named.mem_of_get? (show Named.get? predefined "E" = some _ from rfl)
  have real := Named.mem_of_get? (show Named.get? predefined "R" = some _ from rfl)
  refine ⟨_, _, even, real, ?_, ?_⟩
  · exact (knownSubset?_spec even real).2.2.2 _ "A" "E" "R" (fun _ _ => by simp [Unwritten])
      (by decide +kernel) (by decide)
  · exact (knownSubset?_spec real even).2.1 (by decide) (by decide)

/-- A fraction written as a text is rational, and the table affirms that the rationals are real
numbers, but no text is one. The table denies that real numbers are rational, but all of them
are. -/
theorem knownSubset?_of_fraction :
    ∃ rational real, ("Q", rational) ∈ predefined ∧ ("R", real) ∈ predefined ∧
      (knownSubset? rational.label real.label = some true ∧
        rational.rule (.text "1/2") = some true ∧ real.rule (.text "1/2") = some false) ∧
      (Symbolic.included ⟨"A", .finite [.text "1/2"]⟩ ⟨"Q", .symbolic rational⟩ = .yes ∧
        Symbolic.included ⟨"Q", .symbolic rational⟩ ⟨"R", .symbolic real⟩ = .yes ∧
        Symbolic.included ⟨"A", .finite [.text "1/2"]⟩ ⟨"R", .symbolic real⟩ = .no) ∧
      knownSubset? real.label rational.label = some false ∧
        ∀ x, real.rule x = some true → rational.rule x = some true := by
  have rational := Named.mem_of_get? (show Named.get? predefined "Q" = some _ from rfl)
  have real := Named.mem_of_get? (show Named.get? predefined "R" = some _ from rfl)
  refine ⟨_, _, rational, real, by decide +kernel, by decide +kernel, by decide, fun x => ?_⟩
  exact rational_of_real real rational

end DiscreteMath.SetAlgebra
