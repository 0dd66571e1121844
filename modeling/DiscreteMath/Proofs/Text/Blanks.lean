import DiscreteMath.Text.Characters

/-!
# Texts and their blanks

A trimmed text begins and ends with the characters that a text without its blanks begins and ends
with. What holds of the characters in the runs of a text holds of all characters that make up runs.
-/

namespace DiscreteMath.Text

theorem isBlank_of_isDigit {c : Char} (digit : c.isDigit = true) : isBlank c = false := by
  simp only [Char.isDigit, Bool.and_eq_true, decide_eq_true_eq, ge_iff_le,
    UInt32.le_iff_toNat_le] at digit
  change 48 ≤ c.toNat ∧ c.toNat ≤ 57 at digit
  simp only [isBlank, Bool.or_eq_false_iff, Bool.and_eq_false_iff, decide_eq_false_iff_not,
    beq_eq_false_iff_ne]
  omega

theorem trim_eq (text : List Char) : trim text = trimEnd (text.dropWhile isBlank) := rfl

theorem trimEnd_cons (c : Char) (rest : List Char) :
    trimEnd (c :: rest) = if trimEnd rest = [] ∧ isBlank c then [] else c :: trimEnd rest := by
  simp only [trimEnd, List.reverse_cons, List.dropWhile_append, List.isEmpty_iff,
    List.reverse_eq_nil_iff]
  split
  next none => cases blank : isBlank c <;> simp [none, blank]
  next some => simp [some]

theorem head?_trim (text : List Char) : (trim text).head? = (text.dropWhile isBlank).head? := by
  rw [trim_eq]
  cases rest : text.dropWhile isBlank with
  | nil => rfl
  | cons c more =>
    have visible : isBlank c = false := by
      have := List.head?_dropWhile_not isBlank text
      simpa [rest] using this
    simp [trimEnd_cons, visible]

theorem compact_dropWhile (text : List Char) :
    compact (text.dropWhile isBlank) = compact text := by
  induction text with
  | nil => rfl
  | cons c rest ih => cases blank : isBlank c <;> simp_all [compact]

theorem compact_trim (text : List Char) : compact (trim text) = compact text := by
  rw [trim, compact, List.filter_reverse, ← compact, compact_dropWhile, compact,
    List.filter_reverse, List.reverse_reverse, ← compact, compact_dropWhile]

theorem head?_compact (text : List Char) :
    (compact text).head? = (text.dropWhile isBlank).head? := by
  induction text with
  | nil => rfl
  | cons c rest ih => cases blank : isBlank c <;> simp_all [compact]

theorem getLast?_trim (text : List Char) : (trim text).getLast? = (compact text).getLast? :=
  calc (trim text).getLast?
      = ((text.dropWhile isBlank).reverse.dropWhile isBlank).head? := by
        rw [trim, List.getLast?_reverse]
    _ = (compact (text.dropWhile isBlank).reverse).head? := (head?_compact _).symm
    _ = (compact (text.dropWhile isBlank)).reverse.head? := by
        rw [compact, compact, List.filter_reverse]
    _ = (compact text).getLast? := by rw [List.head?_reverse, compact_dropWhile]

theorem trim_eq_nil_iff {text : List Char} : trim text = [] ↔ compact text = [] := by
  rw [← List.head?_eq_none_iff, head?_trim, ← head?_compact, List.head?_eq_none_iff]

/-- A text is trimmed if no blank is at its ends. -/
theorem trim_of_ends {text : List Char} (first : ∀ c ∈ text.head?, isBlank c = false)
    (last : ∀ c ∈ text.getLast?, isBlank c = false) : trim text = text := by
  have kept (front : List Char) (h : ∀ c ∈ front.head?, isBlank c = false) :
      front.dropWhile isBlank = front := by
    cases front with
    | nil => rfl
    | cons c rest => exact List.dropWhile_cons_of_neg (by simp [h c rfl])
  rw [trim, kept text first, kept text.reverse (by rwa [List.head?_reverse]), List.reverse_reverse]

theorem trim_trim (text : List Char) : trim (trim text) = trim text := by
  have visible : ∀ c ∈ compact text, isBlank c = false := by simp [compact]
  refine trim_of_ends (fun c first => visible c ?_) (fun c last => visible c ?_)
  · rw [head?_trim, ← head?_compact] at first
    exact List.mem_of_mem_head? first
  · rw [getLast?_trim] at last
    exact List.mem_of_mem_getLast? last

theorem forall_runs {p q : Char → Bool} {text : List Char} :
    (∀ word ∈ runs p text, ∀ c ∈ word, q c = true) ↔ ∀ c ∈ text, p c = true → q c = true := by
  fun_induction runs p text with
  | case1 => simp
  | case2 c rest accepted ih =>
    have split : rest.takeWhile p ++ rest.dropWhile p = rest := List.takeWhile_append_dropWhile
    have run : ∀ d ∈ rest.takeWhile p, p d = true := List.all_eq_true.mp List.all_takeWhile
    grind
  | case3 c rest refused ih => grind

end DiscreteMath.Text
