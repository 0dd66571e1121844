import DiscreteMath.Proofs.Number.Sign
import DiscreteMath.Proofs.Result
import DiscreteMath.Proofs.SetAlgebra.Hashing
import DiscreteMath.Proofs.SetAlgebra.Repetition
import DiscreteMath.Proofs.Text.Blanks
import DiscreteMath.SetAlgebra.Literal

/-!
# Elements written and read

An element without references that has been read from a text is read again from what is shown of it,
and it may stand anywhere in a longer list: it is not divided there, since it has no commas outside
of braces and its braces are balanced.

## Main definitions

* `undivided` — a text is a single item of any list that it stands in.
* `Element.Legible` — what the elements are like that are read from texts.
-/

namespace DiscreteMath.SetAlgebra

open Text

/-! ### Items -/

/-- There are no commas outside of braces, and every brace has a partner, where `depth` braces are
open at the start. -/
def undivided : (depth : Nat) → List Char → Bool
  | depth, [] => depth == 0
  | depth, c :: rest =>
    if c = '{' then undivided (depth + 1) rest
    else if c = '}' then
      match depth with
      | 0 => false
      | outer + 1 => undivided outer rest
    else if c = ',' && depth = 0 then false
    else undivided depth rest

theorem undivided_cons {c : Char} {depth : Nat} (noOpen : c ≠ '{') (noClose : c ≠ '}')
    (noComma : ¬(c = ',' && depth = 0) = true) (rest : List Char) :
    undivided depth (c :: rest) = undivided depth rest := by
  rw [undivided.eq_def]
  simp only [noOpen, noClose, noComma, if_false, Bool.false_eq_true]

theorem undivided_plain {text : List Char} (plain : ∀ c ∈ text, c ≠ '{' ∧ c ≠ '}' ∧ c ≠ ',') :
    undivided 0 text = true := by
  induction text with
  | nil => rfl
  | cons c rest ih =>
    obtain ⟨⟨noOpen, noClose, noComma⟩, others⟩ := List.forall_mem_cons.mp plain
    rw [undivided_cons noOpen noClose (by simp [noComma]), ih others]

/-- Blanks do not divide a text. -/
theorem undivided_compact (depth : Nat) (text : List Char) :
    undivided depth (compact text) = undivided depth text := by
  have visible {c : Char} (brace : isBlank c = false) (rest : List Char) :
      compact (c :: rest) = c :: compact rest := by simp [compact, brace]
  fun_induction undivided depth text with
  | case1 => rfl
  | case2 depth rest ih => simp [visible (show isBlank '{' = false by decide), undivided, ih]
  | case3 rest => simp [visible (show isBlank '}' = false by decide), undivided]
  | case4 rest outer _ ih => simp [visible (show isBlank '}' = false by decide), undivided, ih]
  | case5 depth c rest noOpen noClose comma =>
    obtain ⟨rfl, rfl⟩ : c = ',' ∧ depth = 0 := by simpa using comma
    simp [visible (show isBlank ',' = false by decide), undivided]
  | case6 depth c rest noOpen noClose noComma ih =>
    cases blank : isBlank c with
    | false =>
      rw [visible blank, undivided_cons noOpen noClose noComma, ih]
    | true =>
      have left : compact (c :: rest) = compact rest := by simp [compact, blank]
      rw [left, ih]

theorem undivided_trim (depth : Nat) (text : List Char) :
    undivided depth (trim text) = undivided depth text := by
  rw [← undivided_compact, compact_trim, undivided_compact]

/-- What is in braces is not divided. -/
theorem undivided_braces {inner : List Char} (h : balanced 0 inner = true) :
    undivided 0 ('{' :: inner ++ ['}']) = true := by
  have closed (depth : Nat) (text : List Char) (h : balanced depth text = true) :
      undivided (depth + 1) (text ++ ['}']) = true := by
    fun_induction balanced depth text <;> simp_all [undivided]
  simpa [undivided] using closed 0 inner h

theorem isSome_splitItems (depth : Nat) (text : List Char) :
    (splitItems depth text).isSome = balanced depth text := by
  fun_induction splitItems depth text <;> simp_all [balanced]

/-- An undivided text goes to the first item. -/
theorem splitItems_append {depth : Nat} {item : List Char} (h : undivided depth item = true)
    (more : Nat) (rest : List Char) : splitItems (depth + more) (item ++ rest) =
      (splitItems more rest).map fun items => item.foldr extendFirst items := by
  fun_induction undivided depth item with
  | case1 => simp_all
  | case2 depth item ih =>
    simp [splitItems, Nat.add_right_comm depth more 1, ih h, Function.comp_def]
  | case3 => cases h
  | case4 item outer _ ih =>
    simp [splitItems, Nat.add_right_comm outer 1 more, ih h, Function.comp_def]
  | case5 => cases h
  | case6 depth c item noOpen noClose noComma ih =>
    have inside : ¬(c = ',' && depth + more = 0) = true := by grind
    rw [List.cons_append, splitItems.eq_def]
    simp only [noOpen, noClose, inside, if_false, ih h, Option.map_map]
    rfl

/-- The items of a text are undivided. -/
theorem undivided_of_splitItems {depth : Nat} {text : List Char} {items : List (List Char)}
    (h : splitItems depth text = some items) : ∃ first others, items = first :: others ∧
      undivided depth first = true ∧ ∀ item ∈ others, undivided 0 item = true := by
  fun_induction splitItems depth text generalizing items with
  | case1 =>
    cases h
    exact ⟨[], [], rfl, rfl, nofun⟩
  | case2 => cases h
  | case3 depth rest ih =>
    obtain ⟨_, split, rfl⟩ := Option.map_eq_some_iff.mp h
    obtain ⟨first, others, rfl, whole, rest⟩ := ih split
    exact ⟨_, others, rfl, by simpa [undivided] using whole, rest⟩
  | case4 => cases h
  | case5 rest outer _ ih =>
    obtain ⟨_, split, rfl⟩ := Option.map_eq_some_iff.mp h
    obtain ⟨first, others, rfl, whole, rest⟩ := ih split
    exact ⟨_, others, rfl, by simpa [undivided] using whole, rest⟩
  | case6 depth c rest _ _ comma ih =>
    obtain ⟨_, split, rfl⟩ := Option.map_eq_some_iff.mp h
    obtain ⟨first, others, rfl, whole, rest⟩ := ih split
    obtain ⟨-, rfl⟩ : c = ',' ∧ depth = 0 := by simpa using comma
    exact ⟨[], _, rfl, rfl, List.forall_mem_cons.mpr ⟨whole, rest⟩⟩
  | case7 depth c rest noOpen noClose noComma ih =>
    obtain ⟨_, split, rfl⟩ := Option.map_eq_some_iff.mp h
    obtain ⟨first, others, rfl, whole, rest⟩ := ih split
    exact ⟨_, others, rfl, (undivided_cons noOpen noClose noComma _).trans whole, rest⟩

theorem insideBraces?_braces {inner : List Char} (h : balanced 0 inner = true) :
    insideBraces? ('{' :: inner ++ ['}']) = some inner := by
  simp [insideBraces?, h]

theorem trim_braces (inner : List Char) :
    trim ('{' :: inner ++ ['}']) = '{' :: inner ++ ['}'] := by
  have last : ('{' :: inner ++ ['}']).getLast? = some '}' := List.getLast?_concat
  refine trim_of_ends ?_ ?_
  · rintro c ⟨⟩
    rfl
  · rw [last]
    rintro c ⟨⟩
    rfl

theorem foldr_extendFirst (item : List Char) (items : List (List Char)) :
    item.foldr extendFirst ([] :: items) = item :: items := by
  induction item with
  | nil => rfl
  | cons c rest ih => rw [List.foldr_cons, ih, extendFirst]

/-- Texts that are listed are the items of the list, but for the blanks in between. -/
theorem splitItems_join {first : String} {others : List String}
    (whole : ∀ text ∈ first :: others, undivided 0 text.toList = true) :
    splitItems 0 (join ", " (first :: others)).toList =
      some (first.toList :: others.map fun text => ' ' :: text.toList) := by
  induction others generalizing first with
  | nil =>
    have alone := splitItems_append (whole first List.mem_cons_self) 0 []
    rw [Nat.add_zero, List.append_nil, splitItems, if_pos rfl, Option.map_some,
      foldr_extendFirst] at alone
    exact alone
  | cons second others ih =>
    obtain ⟨here, later⟩ := List.forall_mem_cons.mp whole
    have listed : (join ", " (first :: second :: others)).toList =
        first.toList ++ ',' :: ' ' :: (join ", " (second :: others)).toList := by
      simp [join]
    have next : splitItems 0 (',' :: ' ' :: (join ", " (second :: others)).toList) =
        some ([] :: (second :: others).map fun text => ' ' :: text.toList) := by
      simp [splitItems, ih later, extendFirst]
    rw [listed, ← Nat.add_zero 0, splitItems_append here, next, Option.map_some,
      foldr_extendFirst]

namespace Element

/-! ### Reading -/

theorem ofItem_eq (item : List Char) : ofItem item =
    if (trim item).head? = some '{' || (trim item).getLast? = some '}' then
      match insideBraces? (trim item) with
      | none => .error (.invalidElements (.unbalancedBraces (String.ofList (trim item))))
      | some inner => (ofItems inner).map fun members => .collection (distinct members)
    else ofAtom (trim item) := by
  rw [ofItem]
  split
  · split
    next absent => rw [Option.attach_eq_none_iff.mp absent]
    next inner inside found =>
      simp only [inside]
      cases ofItems inner <;> rfl
  · rfl

theorem ofItems_eq (text : List Char) : ofItems text =
    match splitItems 0 text with
    | none => .error (.invalidElements (.unbalancedBraces (String.ofList text)))
    | some items => readItems items := by
  rw [ofItems]
  split
  next absent => rw [Option.attach_eq_none_iff.mp absent]
  next items split found =>
    have kept : (items.attach.filter fun item => !(trim item.val).isEmpty).map Subtype.val =
        items.filter fun item => !(trim item).isEmpty := by
      rw [← Function.comp_def (fun item => !(trim item).isEmpty), ← List.filter_map,
        List.attach_map_subtype_val]
    simp only [split, readItems, ← kept, List.mapM_map]
    rfl

theorem ofItem_congr {item item' : List Char} (same : trim item = trim item') :
    ofItem item = ofItem item' := by
  rw [ofItem_eq, ofItem_eq, same]

/-- The elements of a list of texts are those of the texts. -/
theorem ofItems_join {texts : List String}
    (items : ∀ text ∈ texts, undivided 0 text.toList = true ∧ trim text.toList ≠ []) :
    ofItems (join ", " texts).toList = texts.mapM fun text => ofItem text.toList := by
  cases texts with
  | nil =>
    rw [ofItems_eq]
    simp [join, splitItems, readItems, trim]
  | cons first others =>
    have blank (text : List Char) : trim (' ' :: text) = trim text := rfl
    obtain ⟨⟨-, here⟩, later⟩ := List.forall_mem_cons.mp items
    have kept : (first.toList :: others.map fun text => ' ' :: text.toList).filter
        (fun item => !(trim item).isEmpty) =
          first.toList :: others.map fun text => ' ' :: text.toList := by
      simpa [here, blank] using fun text member => (later text member).2
    have read : (ofItem ∘ fun text : String => ' ' :: text.toList) =
        fun text => ofItem text.toList :=
      funext fun text => ofItem_congr (blank _)
    rw [ofItems_eq, splitItems_join fun text member => (items text member).1]
    simp only [readItems, kept, List.mapM_cons, List.mapM_map, read]

/-! ### What is read -/

mutual

def refers : Element → Bool
  | number _ | text _ => false
  | reference _ => true
  | collection members => anyRefers members

def anyRefers : List Element → Bool
  | [] => false
  | x :: rest => refers x || anyRefers rest

end

theorem anyRefers_eq (elements : List Element) : anyRefers elements = elements.any refers := by
  induction elements with
  | nil => rfl
  | cons x rest ih => rw [anyRefers, ih, List.any_cons]

theorem allShown_eq (elements : List Element) : allShown elements = elements.map shown := by
  induction elements with
  | nil => rfl
  | cons x rest ih => rw [allShown, ih, List.map_cons]

/-- What an element is like that is read from a text and does not refer. -/
inductive Legible : Element → Prop
  | number {value : Float} : value.isFinite = true → Legible (number value)
  | text {content : List Char} : trim content = content → content ≠ [] →
      undivided 0 content = true → content.head? ≠ some '{' → content.getLast? ≠ some '}' →
      ofAtom content = .ok (text (String.ofList content)) → Legible (text (String.ofList content))
  | collection {members : List Element} : (∀ x ∈ members, Legible x) → Unrepeated members →
      Legible (collection members)

theorem legible_of_ofAtom {content : List Char} {x : Element} (trimmed : trim content = content)
    (nonempty : content ≠ []) (whole : undivided 0 content = true)
    (first : content.head? ≠ some '{') (last : content.getLast? ≠ some '}')
    (read : ofAtom content = .ok x)
    (direct : x.refers = false) : Legible x := by
  have again := read
  unfold ofAtom at read
  split at read
  · split at read <;> cases read
    cases direct
  · split at read
    next value finite =>
      cases read
      exact .number (Option.filter_eq_some_iff.mp finite).2
    next =>
      cases read
      exact .text trimmed nonempty whole first last again

theorem legible_of_ofItem {item : List Char} {x : Element}
    (members : ∀ inner elements, inner.length < item.length → ofItems inner = .ok elements →
      ∀ x ∈ elements, x.refers = false → Legible x)
    (whole : undivided 0 item = true) (nonempty : trim item ≠ []) (read : ofItem item = .ok x)
    (direct : x.refers = false) : Legible x := by
  rw [ofItem_eq] at read
  split at read
  · split at read
    next => cases read
    next inner inside =>
      obtain ⟨elements, found, rfl⟩ := map_eq_ok read
      have shorter := (length_insideBraces inside).trans_le (length_trim_le item)
      rw [refers, anyRefers_eq, List.any_eq_false] at direct
      refine .collection (fun y kept => ?_) (unrepeated_distinct elements)
      exact members inner elements shorter found y ((distinct_sublist elements).subset kept)
        (eq_false_of_ne_true (direct y kept))
  next plain =>
    simp only [Bool.or_eq_true, decide_eq_true_eq, not_or] at plain
    refine legible_of_ofAtom (trim_trim item) nonempty ?_ plain.1 plain.2 read direct
    rwa [undivided_trim]

/-- What is read from a text and does not refer is legible. -/
theorem legible_of_ofItems {text : List Char} {elements : List Element}
    (read : ofItems text = .ok elements) : ∀ x ∈ elements, x.refers = false → Legible x := by
  induction size : text.length using Nat.strong_induction_on generalizing text elements with
  | _ n ih =>
    rw [ofItems_eq] at read
    split at read
    next => cases read
    next items split =>
      intro x member direct
      obtain ⟨item, kept, found⟩ := exists_of_forall₂ (forall₂_of_mapM read) member
      obtain ⟨listed, nonempty⟩ := List.mem_filter.mp kept
      have short := length_of_mem_splitItems split item listed
      obtain ⟨first, others, rfl, whole, rest⟩ := undivided_of_splitItems split
      have items : ∀ item ∈ first :: others, undivided 0 item = true :=
        List.forall_mem_cons.mpr ⟨whole, rest⟩
      refine legible_of_ofItem (fun inner elements shorter read => ?_) (items item listed)
        (by simpa using nonempty) found direct
      exact ih inner.length (by omega) read rfl

/-! ### What is shown -/

/-- What is shown of an element is an item with content from which an equal element is read that is
shown alike. -/
structure ReadsBack (x : Element) : Prop where
  undivided : undivided 0 x.shown.toList = true
  nonempty : trim x.shown.toList ≠ []
  read : ∃ y, ofItem x.shown.toList = .ok y ∧ (y == x) = true ∧ y.shown = x.shown

theorem readsBack_number {value : Float} (finite : value.isFinite = true) :
    ReadsBack (number value) := by
  have content := Number.plain_ne_empty finite
  have characters : ∀ c ∈ (Number.plain value).toList,
      isBlank c = false ∧ c ≠ '@' ∧ c ≠ '{' ∧ c ≠ '}' ∧ c ≠ ',' := by
    intro c member
    rcases Number.mem_plain finite member with digit | rfl | rfl
    · refine ⟨isBlank_of_isDigit digit, ?_, ?_, ?_, ?_⟩ <;> rintro rfl <;> cases digit
    · decide
    · decide
  have trimmed : trim (Number.plain value).toList = (Number.plain value).toList :=
    trim_of_ends (fun c first => (characters c (List.mem_of_mem_head? first)).1)
      fun c last => (characters c (List.mem_of_mem_getLast? last)).1
  obtain ⟨y, read, same, alike⟩ := Number.number?_plain finite
  have finite' : y.isFinite = true := by
    rcases same with rfl | ⟨rfl, -⟩
    · exact finite
    · rfl
  have equal : sameNumber y value = true := by
    rcases same with rfl | ⟨rfl, zero⟩
    · exact (sameNumber_iff _ _).mpr (.inl rfl)
    · exact (sameNumber_iff _ _).mpr (.inr ⟨⟨_, rfl⟩, zero⟩)
  refine ⟨undivided_plain fun c member => (characters c member).2.2, ?_, number y, ?_, equal, alike⟩
  · exact trimmed.symm ▸ content
  · have plain : ¬((Number.plain value).toList.head? = some '{' ||
        (Number.plain value).toList.getLast? = some '}') = true := by
      simp only [Bool.or_eq_true, decide_eq_true_eq, not_or]
      exact ⟨fun first => (characters _ (List.mem_of_mem_head? first)).2.2.1 rfl,
        fun last => (characters _ (List.mem_of_mem_getLast? last)).2.2.2.1 rfl⟩
    rw [shown, ofItem_eq, trimmed, if_neg plain, ofAtom.eq_def]
    split
    next rest same => exact absurd rfl (characters '@' (same ▸ List.mem_cons_self)).2.1
    next => rw [read, Option.filter_some_pos finite']

/-- The elements of a list are read from what is shown of it. -/
theorem readsBack_list {elements : List Element} (all : ∀ x ∈ elements, ReadsBack x) :
    ∃ ys, ofItems (join ", " (allShown elements)).toList = .ok ys ∧
      List.Forall₂ (fun x y => (y == x) = true ∧ y.shown = x.shown) elements ys := by
  rw [allShown_eq, ofItems_join, List.mapM_map]
  · exact exists_mapM fun x member => (all x member).read
  · intro text shown
    obtain ⟨x, member, rfl⟩ := List.mem_map.mp shown
    exact ⟨(all x member).undivided, (all x member).nonempty⟩

theorem toList_literal (elements : List Element) : (literal elements).toList =
    '{' :: (join ", " (allShown elements)).toList ++ ['}'] := by
  simp [literal, shown]

theorem balanced_of_ofItems {text : List Char} {elements : List Element}
    (read : ofItems text = .ok elements) : balanced 0 text = true := by
  rw [ofItems_eq] at read
  split at read
  next => cases read
  next items split =>
    rw [← isSome_splitItems, split]
    rfl

/-- Lists of elements that are shown alike, one by one, are shown alike. -/
theorem literal_congr {xs ys : List Element}
    (alike : List.Forall₂ (fun x y => (y == x) = true ∧ y.shown = x.shown) xs ys) :
    literal ys = literal xs := by
  have members : ys.map shown = xs.map shown := by
    induction alike with
    | nil => rfl
    | cons first _ ih => rw [List.map_cons, List.map_cons, first.2, ih]
  simp only [literal, shown, allShown_eq, members]

/-- Elements that equal members of a list without repetitions do not repeat either. -/
theorem unrepeated_of_forall₂ {xs ys : List Element}
    (alike : List.Forall₂ (fun x y => (y == x) = true) xs ys) (unrepeated : Unrepeated xs) :
    Unrepeated ys := by
  induction alike with
  | nil => exact .nil
  | @cons x y xs ys first others ih =>
    obtain ⟨apart, later⟩ := List.pairwise_cons.mp unrepeated
    refine .cons (fun z member => ?_) (ih later)
    obtain ⟨w, inside, same⟩ := exists_of_forall₂ others member
    calc (y == z) = (y == w) := beq_congr same y
      _ = (w == y) := same_comm y w
      _ = (w == x) := beq_congr first w
      _ = (x == w) := same_comm w x
      _ = false := apart w inside

theorem Legible.readsBack {x : Element} (legible : Legible x) : ReadsBack x := by
  induction legible with
  | number finite => exact readsBack_number finite
  | @text content trimmed nonempty whole first last read =>
    refine ⟨?_, ?_, .text (String.ofList content), ?_, Element.same_refl _, rfl⟩
    · simpa [shown] using whole
    · simpa [shown, trimmed] using nonempty
    · rw [shown, String.toList_ofList, ofItem_eq, trimmed, if_neg (by simp [first, last]), read]
  | @collection members _ unrepeated ih =>
    obtain ⟨ys, read, alike⟩ := readsBack_list ih
    have inside := balanced_of_ofItems read
    have same := alike.imp fun _ _ => And.left
    have apart := unrepeated_of_forall₂ same unrepeated
    have written := toList_literal members
    refine ⟨?_, ?_, .collection ys, ?_, ?_, literal_congr alike⟩
    · exact written ▸ undivided_braces inside
    · rw [← literal, written, trim_braces]
      exact List.cons_ne_nil _ _
    · rw [← literal, written, ofItem_eq, trim_braces, insideBraces?_braces inside,
        if_pos (by simp)]
      simp only [read, Except.map, apart.distinct_eq]
    · exact (collection_beq_iff _ _).mpr ⟨members, .refl _, same.flip⟩

end Element

/-- What is shown of elements that have been read from a text, without references, is read as equal
elements in the same order, which are shown alike. -/
theorem readElements_literal {text : List Char} {elements : List Element}
    (read : readElements text = .ok elements) (direct : ∀ x ∈ elements, x.refers = false) :
    ∃ again, readElements (literal elements).toList = .ok again ∧
      List.Forall₂ (fun x y => (y == x) = true) elements again ∧
      literal again = literal elements := by
  have legible x member := Element.legible_of_ofItems read x member (direct x member)
  obtain ⟨again, read, alike⟩ :=
    Element.readsBack_list fun x member => (legible x member).readsBack
  refine ⟨again, ?_, alike.imp fun _ _ => And.left, Element.literal_congr alike⟩
  rw [readElements, Element.toList_literal, trim_braces,
    insideBraces?_braces (Element.balanced_of_ofItems read)]
  exact read

/-- The braces and the comma in the text `f{1,2}g` do not divide it, and the sign of the zero is not
shown. -/
theorem readElements_literal_nested :
    let elements : List Element :=
      [.number (-0), .collection [.text "b", .text "a"], .text "f{1,2}g", .text "b"]
    readElements "-0, {b, a, b}, f{1,2}g, b".toList = .ok elements ∧
      ∃ again, readElements "{0, {b, a}, f{1,2}g, b}".toList = .ok again ∧
        List.Forall₂ (fun x y => (y == x) = true) elements again := by
  intro elements
  have split : splitItems 0 "-0, {b, a, b}, f{1,2}g, b".toList =
      some ["-0".toList, " {b, a, b}".toList, " f{1,2}g".toList, " b".toList] := by cbv
  have first : Element.ofItem "-0".toList = .ok (.number (-0)) := by
    rw [Element.ofItem_eq]
    rfl
  have others : readItems [" {b, a, b}".toList, " f{1,2}g".toList, " b".toList] =
      .ok [.collection [.text "b", .text "a"], .text "f{1,2}g", .text "b"] := by cbv
  have read : readElements "-0, {b, a, b}, f{1,2}g, b".toList = .ok elements := by
    change Element.ofItems "-0, {b, a, b}, f{1,2}g, b".toList = _
    rw [Element.ofItems_eq, split]
    change ("-0".toList :: _).mapM Element.ofItem = _
    rw [readItems] at others
    rw [List.mapM_cons, first, others]
    rfl
  obtain ⟨again, reread, same, -⟩ :=
    readElements_literal read (by simp [elements, Element.refers, Element.anyRefers])
  have shown : literal elements = "{0, {b, a}, f{1,2}g, b}" := rfl
  exact ⟨read, again, shown ▸ reread, same⟩

end DiscreteMath.SetAlgebra
