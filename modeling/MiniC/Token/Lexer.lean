import MiniC.Token

/-!
# Reading tokens

A text is read from left to right: the blanks and comments before a token are
skipped, then the longest lexeme is taken. The first error ends the reading.

`lexeme_append` and `lexeme_text_ne_nil` say that a lexeme is a non-empty part
of the text, cut off at its front; this is why reading ends.
-/

namespace MiniC

/-- Why a text cannot be read as tokens. -/
inductive LexicalError where
  | badChar (c : Char)
  | unterminatedString
  | unterminatedChar
  | unterminatedComment
  | badEscape (c : Char)
  | emptyChar
  | intOverflow
deriving DecidableEq

namespace LexicalError

def message : LexicalError → String
  | badChar c => s!"Bad character {Text.quoteChar c} in input stream"
  | unterminatedString => "Unterminated string literal"
  | unterminatedChar => "Unterminated character literal"
  | unterminatedComment => "Unterminated comment"
  | badEscape c => "Unknown escape sequence '\\" ++ String.ofList [c] ++ "'"
  | emptyChar => "Empty character literal"
  | intOverflow => "Integer literal overflow, valid range is [0, 9223372036854775807]"

end LexicalError

namespace Lexer

def isWordChar (c : Char) : Bool := c.isAlphanum || c == '_'

/-- The blanks between tokens. The vertical tab is not one of them. -/
def isBlank (c : Char) : Bool :=
  c == ' ' || c == '\t' || c == '\n' || c == '\x0c' || c == '\r'

/-- Line feeds and carriage returns: a token after one starts a line. -/
def isLineEnd (c : Char) : Bool := c == '\n' || c == '\r'

/-! ## Lexemes -/

/-- A token cut off the front of a text: what it is, how it was written, and
what follows it. -/
structure Lexeme where
  kind : TokenKind
  text : List Char
  rest : List Char

def maxLiteral : Nat := 9223372036854775807

/-- The value of decimal digits, the first being the most significant. -/
def digitsValue (digits : List Char) : Nat :=
  digits.foldl (fun n c => 10 * n + (c.toNat - '0'.toNat)) 0

/-- The part of a text that a suffix of an integer literal takes: one `l` or `L`. -/
def lengthSuffix : List Char → List Char × List Char
  | c :: rest => if c == 'l' || c == 'L' then ([c], rest) else ([], c :: rest)
  | [] => ([], [])

/-- A decimal literal with an optional length suffix, which has no effect. It
must not run into a word. -/
def number (cs : List Char) : Except LexicalError Lexeme :=
  let digits := cs.takeWhile Char.isDigit
  let (suffix, rest) := lengthSuffix (cs.dropWhile Char.isDigit)
  let value := digitsValue digits
  if maxLiteral < value then .error .intOverflow
  else match rest.head? with
    | some c =>
      if isWordChar c then .error (.badChar c)
      else .ok ⟨.int (Int64.ofNat value), digits ++ suffix, rest⟩
    | none => .ok ⟨.int (Int64.ofNat value), digits ++ suffix, rest⟩

def unescape? : Char → Option Char
  | 'a' => some '\x07'
  | 'b' => some '\x08'
  | 'f' => some '\x0c'
  | 'n' => some '\n'
  | 'r' => some '\r'
  | 't' => some '\t'
  | 'v' => some '\x0b'
  | '\\' => some '\\'
  | '\'' => some '\''
  | '"' => some '"'
  | '0' => some '\x00'
  | _ => none

/-- The first byte of the UTF-8 form of `c`, as the character of that number.
A bad escape is reported by this byte. -/
def leadingByte (c : Char) : Char :=
  match String.utf8EncodeChar c with
  | byte :: _ => Char.ofNat byte.toNat
  | [] => c

/-- The inside of a string literal: its characters, how they were written up to
and with the closing quote, and what follows. -/
def stringBody : List Char → Except LexicalError (List Char × List Char × List Char)
  | [] => .error .unterminatedString
  | '"' :: rest => .ok ([], ['"'], rest)
  | ['\\'] => .error .unterminatedString
  | '\\' :: c :: rest =>
    match unescape? c with
    | none => .error (.badEscape (leadingByte c))
    | some d => do
      let (content, text, after) ← stringBody rest
      return (d :: content, '\\' :: c :: text, after)
  | c :: rest =>
    if isLineEnd c then .error .unterminatedString
    else do
      let (content, text, after) ← stringBody rest
      return (c :: content, c :: text, after)

def string (cs : List Char) : Except LexicalError Lexeme := do
  let (content, text, rest) ← stringBody cs
  return ⟨.str (String.ofList content), '"' :: text, rest⟩

def charValue (c : Char) : Int64 := Int64.ofNat c.toNat

/-- A character literal, after its opening apostrophe. It holds one byte, so a
character outside ASCII is not closed where it should be. -/
def character : List Char → Except LexicalError Lexeme
  | [] => .error .unterminatedChar
  | '\'' :: _ => .error .emptyChar
  | ['\\'] => .error .unterminatedChar
  | '\\' :: c :: rest =>
    match unescape? c, rest with
    | none, _ => .error (.badEscape (leadingByte c))
    | some d, '\'' :: after => .ok ⟨.int (charValue d), ['\'', '\\', c, '\''], after⟩
    | some _, _ => .error .unterminatedChar
  | c :: '\'' :: rest =>
    if isLineEnd c || c.utf8Size != 1 then .error .unterminatedChar
    else .ok ⟨.int (charValue c), ['\'', c, '\''], rest⟩
  | _ => .error .unterminatedChar

def word (cs : List Char) : Lexeme :=
  let text := cs.takeWhile isWordChar
  let name := String.ofList text
  let kind := match Keyword.ofString? name with
    | some keyword => .keyword keyword
    | none => .id name
  ⟨kind, text, cs.dropWhile isWordChar⟩

/-- The longest punctuator at the front of a text that starts with `c`. -/
def punctuator (c : Char) (cs : List Char) : Except LexicalError Lexeme :=
  match Punct.all.find? fun mark => mark.spelling.toList.isPrefixOf (c :: cs) with
  | some mark =>
    .ok ⟨.punct mark, mark.spelling.toList, (c :: cs).drop mark.spelling.toList.length⟩
  | none => .error (.badChar c)

/-- The lexeme at the front of the text `c :: cs`; its first character decides
its class. -/
def lexeme (c : Char) (cs : List Char) : Except LexicalError Lexeme :=
  if c.isDigit then number (c :: cs)
  else if c == '"' then string cs
  else if c == '\'' then character cs
  else if c.isAlpha || c == '_' then .ok (word (c :: cs))
  else punctuator c cs

theorem lengthSuffix_append (cs : List Char) :
    (lengthSuffix cs).1 ++ (lengthSuffix cs).2 = cs := by
  fun_cases lengthSuffix cs <;> rfl

theorem number_append {cs : List Char} {l : Lexeme} (h : number cs = .ok l) :
    l.text ++ l.rest = cs := by
  have whole : cs.takeWhile Char.isDigit ++ (lengthSuffix (cs.dropWhile Char.isDigit)).1 ++
      (lengthSuffix (cs.dropWhile Char.isDigit)).2 = cs := by
    rw [List.append_assoc, lengthSuffix_append, List.takeWhile_append_dropWhile]
  simp only [number] at h
  split at h
  · cases h
  · split at h
    · split at h <;> cases h
      exact whole
    · cases h
      exact whole

theorem stringBody_append {cs content text rest : List Char}
    (h : stringBody cs = .ok (content, text, rest)) : text ++ rest = cs := by
  fun_induction stringBody cs generalizing content text rest with
  | case1 => cases h
  | case2 tail => cases h; rfl
  | case3 => cases h
  | case4 => cases h
  | case5 c tail _ _ ih =>
    simp only [bind, Except.bind, pure, Except.pure] at h
    split at h
    · cases h
    · next found heq =>
      cases h
      simp [ih heq]
  | case6 => cases h
  | case7 c tail _ _ _ _ ih =>
    simp only [bind, Except.bind, pure, Except.pure] at h
    split at h
    · cases h
    · next found heq =>
      cases h
      simp [ih heq]

theorem string_append {cs : List Char} {l : Lexeme} (h : string cs = .ok l) :
    l.text ++ l.rest = '"' :: cs := by
  simp only [string, bind, Except.bind, pure, Except.pure] at h
  split at h
  · cases h
  · next heq =>
    cases h
    simp [stringBody_append heq]

theorem character_append {cs : List Char} {l : Lexeme} (h : character cs = .ok l) :
    l.text ++ l.rest = '\'' :: cs := by
  unfold character at h
  split at h
  · cases h
  · cases h
  · cases h
  · split at h
    · cases h
    · cases h; rfl
    · cases h
  · split at h
    · cases h
    · cases h; rfl
  · cases h

theorem word_append (cs : List Char) : (word cs).text ++ (word cs).rest = cs :=
  List.takeWhile_append_dropWhile

theorem punctuator_append {c : Char} {cs : List Char} {l : Lexeme}
    (h : punctuator c cs = .ok l) : l.text ++ l.rest = c :: cs := by
  simp only [punctuator] at h
  split at h
  · next mark found =>
    cases h
    have starts := List.find?_some found
    obtain ⟨tail, htail⟩ := List.isPrefixOf_iff_prefix.mp starts
    simp [← htail]
  · cases h

/-- A lexeme is the front of the text it was cut off. -/
theorem lexeme_append {c : Char} {cs : List Char} {l : Lexeme} (h : lexeme c cs = .ok l) :
    l.text ++ l.rest = c :: cs := by
  simp only [lexeme] at h
  split at h
  · exact number_append h
  · split at h
    · next hc => rw [string_append h, beq_iff_eq.mp hc]
    · split at h
      · next hc => rw [character_append h, beq_iff_eq.mp hc]
      · split at h
        · cases h
          exact word_append _
        · exact punctuator_append h

/-- A lexeme is not empty. -/
theorem lexeme_text_ne_nil {c : Char} {cs : List Char} {l : Lexeme}
    (h : lexeme c cs = .ok l) : l.text ≠ [] := by
  simp only [lexeme] at h
  split at h
  · next hc =>
    have digits : (c :: cs).takeWhile Char.isDigit ≠ [] := by simp [hc]
    simp only [number] at h
    split at h
    · cases h
    · split at h
      · split at h <;> cases h
        exact List.append_ne_nil_of_left_ne_nil digits _
      · cases h
        exact List.append_ne_nil_of_left_ne_nil digits _
  · split at h
    · simp only [string, bind, Except.bind, pure, Except.pure] at h
      split at h <;> cases h
      simp
    · split at h
      · unfold character at h
        split at h
        · cases h
        · cases h
        · cases h
        · split at h <;> cases h
          simp
        · split at h <;> cases h
          simp
        · cases h
      · split at h
        · next hc =>
          have : isWordChar c = true := by
            simp only [isWordChar, Char.isAlphanum, Bool.or_eq_true] at hc ⊢
            exact hc.elim (fun h => .inl (.inl h)) .inr
          cases h
          simp [word, this]
        · simp only [punctuator] at h
          split at h
          · next mark _ =>
            cases h
            exact mark.spelling_ne_nil
          · cases h

/-! ## Gaps -/

/-- What the text between two tokens stands in. -/
inductive Gap where
  | blank
  | lineComment
  | blockComment (start : Position)

/-- A place in a text: what is left of it, the position, and whether a token
here would be the first of its line. -/
structure Cursor where
  rest : List Char
  pos : Position
  bol : Bool

/-- Skips blanks and comments. A block comment that does not end is an error at
its start. -/
def skip : Gap → Position → Bool → List Char → Except Position Cursor
  | .blockComment start, _, _, [] => .error start
  | _, pos, bol, [] => .ok ⟨[], pos, bol⟩
  | .blank, pos, bol, '/' :: '/' :: rest => skip .lineComment (pos.afterAll ['/', '/']) bol rest
  | .blank, pos, bol, '/' :: '*' :: rest =>
    skip (.blockComment pos) (pos.afterAll ['/', '*']) bol rest
  | .blank, pos, bol, c :: rest =>
    if isBlank c then skip .blank (pos.after c) (bol || isLineEnd c) rest
    else .ok ⟨c :: rest, pos, bol⟩
  | .lineComment, pos, bol, c :: rest =>
    if c = '\n' then skip .blank (pos.after c) true rest
    else skip .lineComment (pos.after c) bol rest
  | .blockComment _, pos, bol, '*' :: '/' :: rest => skip .blank (pos.afterAll ['*', '/']) bol rest
  | .blockComment start, pos, bol, c :: rest =>
    skip (.blockComment start) (pos.after c) (bol || isLineEnd c) rest

/-- Skipping leaves no more text than there was. -/
theorem skip_length_le {gap : Gap} {pos : Position} {bol : Bool} {cs : List Char}
    {cursor : Cursor} (h : skip gap pos bol cs = .ok cursor) :
    cursor.rest.length ≤ cs.length := by
  fun_induction skip gap pos bol cs with
  | case1 => cases h
  | case2 => cases h; exact Nat.le_refl _
  | case3 _ _ _ ih | case4 _ _ _ ih | case9 _ _ _ _ ih =>
    have := ih h
    simp only [List.length_cons]
    omega
  | case5 _ _ _ _ _ _ _ ih | case7 _ _ _ ih | case8 _ _ _ _ _ ih | case10 _ _ _ _ _ _ ih =>
    have := ih h
    simp only [List.length_cons]
    omega
  | case6 => cases h; exact Nat.le_refl _

/-! ## Reading -/

def column (source : Source) (pos : Position) : Location := ⟨source, pos, pos.advance⟩

/-- The next token and the place after it, or nothing at the end of the text. -/
def next? (source : Source) (cursor : Cursor) :
    Except (Located LexicalError) (Option (Lexed × Cursor)) :=
  match skip .blank cursor.pos cursor.bol cursor.rest with
  | .error start => .error ⟨.unterminatedComment, column source start⟩
  | .ok ⟨[], _, _⟩ => .ok none
  | .ok ⟨c :: cs, pos, bol⟩ =>
    match lexeme c cs with
    | .error error => .error ⟨error, column source pos⟩
    | .ok found =>
      let stop := pos.afterAll found.text
      .ok (some (⟨⟨found.kind, bol⟩, ⟨source, pos, stop⟩⟩, ⟨found.rest, stop, false⟩))

/-- A token takes text away. -/
theorem next?_length_lt {source : Source} {cursor after : Cursor} {token : Lexed}
    (h : next? source cursor = .ok (some (token, after))) :
    after.rest.length < cursor.rest.length := by
  simp only [next?] at h
  split at h
  · cases h
  · cases h
  · next skipped =>
    have le := skip_length_le skipped
    split at h
    · cases h
    · next found heq =>
      cases h
      have whole := congrArg List.length (lexeme_append heq)
      have positive := List.length_pos_iff.mpr (lexeme_text_ne_nil heq)
      simp only [List.length_append, List.length_cons] at whole le ⊢
      omega

/-- The tokens from a place on, and the error that ended them, if one did. -/
def scanFrom (source : Source) (cursor : Cursor) :
    List Lexed × Option (Located LexicalError) :=
  match _found : next? source cursor with
  | .error error => ([], some error)
  | .ok none => ([], none)
  | .ok (some (token, after)) =>
    let (tokens, failure) := scanFrom source after
    (token :: tokens, failure)
termination_by cursor.rest.length
decreasing_by exact next?_length_lt _found

def scan (source : Source) : List Lexed × Option (Located LexicalError) :=
  scanFrom source ⟨source.text.toList, .first, true⟩

def tokenize (source : Source) : Except (Located LexicalError) (List Lexed) :=
  match scan source with
  | (tokens, none) => .ok tokens
  | (_, some error) => .error error

end Lexer

end MiniC
