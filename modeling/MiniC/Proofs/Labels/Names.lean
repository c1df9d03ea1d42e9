import MiniC.Proofs.Semantics.Flow
import MiniC.Proofs.Token.Names

/-!
# Names of labels

An assembler knows a label by its name alone. The names of the symbols of a program are words,
those of its strings start with `.L.`, and the spots of a function start with `.L`, the name of the
function and a dot. A word has no dot, so the name of the function can be read off and no two of
these labels have the same name (`Label.text_injective`). What is known of the labels of a text
then holds of the names in it.
-/

namespace MiniC

open List

theorem Lexer.dot_notMem {name : String} (word : isName name = true) : '.' ∉ name.toList := by
  intro mem
  have dot := all_eq_true.mp (Bool.and_eq_true_iff.mp word).2 _ mem
  exact absurd dot (by decide)

theorem dot_split {xs xs' ys ys' : List Char} (h : '.' ∉ xs) (h' : '.' ∉ xs')
    (same : xs ++ '.' :: ys = xs' ++ '.' :: ys') : xs = xs' ∧ ys = ys' := by
  have stops : ∀ {zs ws : List Char}, '.' ∉ zs → (zs ++ '.' :: ws).takeWhile (· != '.') = zs := by
    intro zs ws none
    rw [takeWhile_append_of_pos fun c mem => ?_, takeWhile_cons_of_neg (by simp), append_nil]
    exact bne_iff_ne.mpr fun dot => none (dot ▸ mem)
  have first : xs = xs' := by rw [← stops h, same, stops h']
  subst first
  exact ⟨rfl, (List.cons.inj (append_cancel_left same)).2⟩

namespace Asm

/-! ## Spots -/

theorem head_isDigit {n : Nat} {c : Char} {cs : List Char} (h : Nat.toDigits 10 n = c :: cs) :
    c.isDigit = true :=
  Nat.isDigit_of_mem_toDigits (by decide) (by decide) (h ▸ mem_cons_self)

theorem toDigits_injective {n m : Nat} (h : Nat.toDigits 10 n = Nat.toDigits 10 m) : n = m := by
  have value := congrArg (fun digits => Nat.ofDigitChars 10 digits 0) h
  simpa only [Nat.ofDigitChars_ten_toDigits] using value

theorem Spot.text_injective : Function.Injective Spot.text := by
  intro a b same
  have chars := congrArg String.toList same
  -- the first letters tell two kinds of spots apart, and a number has no letter
  cases a <;> cases b <;> simp [text, toString] at chars
  all_goals first
    | rfl
    | exact congrArg _ (toDigits_injective chars)
    | exact absurd (head_isDigit chars) (by decide)
    | exact absurd (head_isDigit chars.symm) (by decide)

/-! ## Labels -/

namespace Label

def Proper : Label → Prop
  | .symbol name => Lexer.isName name = true ∨ ∃ index, name = stringLabel index
  | .inner function _ => Lexer.isName function = true

theorem toList_text_inner (function : String) (spot : Spot) :
    (inner function spot).text.toList =
      '.' :: 'L' :: (function.toList ++ '.' :: spot.text.toList) := by
  simp [text, toString]

theorem toList_stringLabel (index : Nat) :
    (stringLabel index).toList = '.' :: 'L' :: '.' :: 's' :: 't' :: 'r' :: '.' :: Nat.toDigits 10 index := by
  simp [stringLabel, toString]

theorem stringLabel_injective : Function.Injective stringLabel := by
  intro n m same
  have chars := congrArg String.toList same
  simp only [toList_stringLabel, List.cons.injEq, true_and] at chars
  exact toDigits_injective chars

theorem stringLabel_not_isName (index : Nat) : Lexer.isName (stringLabel index) = false := by
  refine Bool.eq_false_iff.mpr fun word => Lexer.dot_notMem word ?_
  rw [toList_stringLabel]
  exact mem_cons_self

theorem text_inner_ne {function : String} {spot : Spot} {name : String}
    (word : Lexer.isName function = true) (proper : (symbol name).Proper) :
    (inner function spot).text ≠ name := by
  rintro rfl
  rcases proper with named | ⟨index, same⟩
  · refine Lexer.dot_notMem named ?_
    rw [toList_text_inner]
    exact mem_cons_self
  · have chars := congrArg String.toList same
    rw [toList_text_inner, toList_stringLabel] at chars
    simp only [List.cons.injEq, true_and] at chars
    -- a string has nothing between the letter and the next dot
    have none := (@dot_split function.toList [] _ _ (Lexer.dot_notMem word) not_mem_nil chars).1
    rw [Lexer.isName, none] at word
    cases word

/-- Different labels are written differently. -/
theorem text_injective {a b : Label} (ha : a.Proper) (hb : b.Proper) (same : a.text = b.text) :
    a = b := by
  cases a with
  | symbol name =>
    cases b with
    | symbol name' => exact congrArg symbol same
    | inner function spot => exact absurd same.symm (text_inner_ne hb ha)
  | inner function spot =>
    cases b with
    | symbol name => exact absurd same (text_inner_ne ha hb)
    | inner function' spot' =>
      have chars := congrArg String.toList same
      simp only [toList_text_inner, List.cons.injEq, true_and] at chars
      obtain ⟨named, placed⟩ := dot_split (Lexer.dot_notMem ha) (Lexer.dot_notMem hb) chars
      cases String.toList_inj.mp named
      cases Spot.text_injective (String.toList_inj.mp placed)
      rfl

end Label

/-! ## Texts -/

def marked (lines : List Line) : List Label := lines.flatMap Line.marks

def targets (lines : List Line) : List Label := lines.flatMap Line.jumps

def names (lines : List Line) : List String := (marked lines).map Label.text

@[simp] theorem marked_nil : marked [] = [] := rfl

@[simp] theorem marked_append (first rest : List Line) :
    marked (first ++ rest) = marked first ++ marked rest := flatMap_append

@[simp] theorem names_append (first rest : List Line) :
    names (first ++ rest) = names first ++ names rest := by
  rw [names, marked_append, map_append, names, names]

theorem count_marked (lines : List Line) (label : Label) :
    (marked lines).count label = lines.count (.label label) := by
  induction lines with
  | nil => rfl
  | cons line rest ih =>
    rw [marked, flatMap_cons, count_append, count_cons, ← ih, Nat.add_comm]
    congr 1
    cases line with
    | label l => simp [Line.marks, count_singleton]
    | code | directive => simp [Line.marks]

theorem count_names {lines : List Line} {label : Label} (proper : ∀ l ∈ marked lines, l.Proper)
    (own : label.Proper) : (names lines).count label.text = lines.count (.label label) := by
  rw [← count_marked, names, List.count, countP_map, List.count]
  refine countP_congr fun l mem => ?_
  simp only [Function.comp_apply, beq_iff_eq]
  exact ⟨Label.text_injective (proper l mem) own, congrArg Label.text⟩

end Asm

end MiniC
