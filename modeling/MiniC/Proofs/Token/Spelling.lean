import MiniC.Proofs.Token.Partition

/-!
# Tokens written out

The spelling of a token reads as the token again, whatever follows it, as long as that is nothing or
a space: a word and a number end there, and no longer mark goes over a space. A string is written
without escapes, so the bytes that end a string or start an escape must not be in it. From one token
to the next, a list of tokens written with spaces between them reads as the same list
(`tokenize_spellings`).

What a text holds besides is no restriction: a name in it is no keyword, and a number is not
negative.
-/

namespace MiniC

open List

namespace Lexer

def isName (name : String) : Bool :=
  name.toList.head?.any (fun c => c.isAlpha || c == '_') && name.toList.all isWordChar

/-- The bytes that a string literal cannot hold as they are: the quote, the backslash and the ends
of lines. -/
def isSpecial (byte : UInt8) : Bool := byte == 0x22 || byte == 0x5c || byte == 0x0a || byte == 0x0d

end Lexer

namespace TokenKind

/-- A token as a text can have it: a name is a word other than a keyword, and an integer is not
negative. -/
def IsRead : TokenKind → Prop
  | .id name => Lexer.isName name = true ∧ Keyword.ofString? name = none
  | .int value => 0 ≤ value
  | _ => True

/-- Whether the bytes of a string may stand in a literal as they are. -/
def isVerbatim : TokenKind → Bool
  | .str text => text.toByteArray.data.all fun byte => !Lexer.isSpecial byte
  | _ => true

end TokenKind

namespace Lexer

variable {c : Char} {cs t text rest : List Char} {l : Lexeme} {source : Source} {kind : TokenKind}

/-! ## Tokens of a text -/

theorem ofNat_nonneg {n : Nat} (small : n ≤ maxLiteral) : 0 ≤ Int64.ofNat n := by
  rw [Int64.le_iff_toInt_le, Int64.toInt_ofNat_of_lt (Nat.lt_succ_of_le small)]
  exact Int.natCast_nonneg n

theorem isWordChar_of_letter (letter : (c.isAlpha || c == '_') = true) : isWordChar c = true := by
  rw [isWordChar, Char.isAlphanum, Bool.or_right_comm, letter]
  rfl

theorem word_isRead (letter : (c.isAlpha || c == '_') = true) : (word (c :: cs)).kind.IsRead := by
  have first := isWordChar_of_letter letter
  simp only [word]
  split
  · trivial
  next unreserved =>
    refine ⟨?_, unreserved⟩
    rw [isName, String.toList_ofList, takeWhile_cons_of_pos first, List.head?_cons,
      Option.any_some, letter, Bool.true_and, all_cons, first, Bool.true_and, all_takeWhile]

theorem character_isRead (h : character cs = .ok l) : l.kind.IsRead := by
  have small : ∀ c : Char, (TokenKind.int (charValue c)).IsRead := fun c =>
    ofNat_nonneg (Nat.le_trans (Nat.le_of_lt c.val.toNat_lt) (by decide))
  unfold character at h
  split at h
  · cases h
  · cases h
  · cases h
  · split at h
    · cases h
    · cases h
      exact small _
    · cases h
  · split at h
    · cases h
    · cases h
      exact small _
  · cases h

theorem lexeme_isRead (h : lexeme c cs = .ok l) : l.kind.IsRead := by
  unfold lexeme at h
  split at h
  · obtain ⟨fits, kind, -⟩ := number_eq_ok h
    rw [kind]
    exact ofNat_nonneg fits
  · split at h
    · simp only [string, bind, Except.bind, pure, Except.pure] at h
      split at h
      · cases h
      · cases h
        trivial
    · split at h
      · exact character_isRead h
      · split at h
        next letter =>
          cases h
          exact word_isRead letter
        · simp only [punctuator] at h
          split at h
          · cases h
            trivial
          · cases h

theorem scanFrom_isRead {cursor : Cursor} :
    ∀ token ∈ (scanFrom source cursor).1, token.value.kind.IsRead := by
  fun_induction scanFrom source cursor with
  | case1 | case2 => exact forall_mem_nil _
  | case3 cursor token after found rest failure scanned ih =>
    rw [scanned] at ih
    refine forall_mem_cons.mpr ⟨?_, ih⟩
    obtain ⟨_, _, -, ⟨-, none⟩ | ⟨_, _, _, -, lexed, same⟩⟩ := next?_eq_ok found
    · cases none
    · cases same
      exact lexeme_isRead lexed

theorem tokenize_isRead {tokens : List Lexed} (h : tokenize source = .ok tokens) :
    ∀ token ∈ tokens, token.value.kind.IsRead := by
  unfold tokenize at h
  split at h
  next found =>
    cases h
    have each : ∀ token ∈ (scan source).1, token.value.kind.IsRead := scanFrom_isRead
    rw [found] at each
    exact each
  · cases h

/-! ## Spellings -/

/-- What follows a spelling: nothing, or a space. -/
def Spaced (rest : List Char) : Prop := ∀ c ∈ rest.head?, c = ' '

theorem Spaced.span {p : Char → Bool} (h : Spaced rest) (ends : p ' ' = false)
    (inside : ∀ c ∈ text, p c = true) :
    (text ++ rest).takeWhile p = text ∧ (text ++ rest).dropWhile p = rest := by
  rw [takeWhile_append_of_pos inside, dropWhile_append_of_pos inside]
  cases rest with
  | nil => exact ⟨append_nil _, rfl⟩
  | cons d rest =>
    cases h d rfl
    rw [takeWhile_cons_of_neg (Bool.eq_false_iff.mp ends),
      dropWhile_cons_of_neg (Bool.eq_false_iff.mp ends)]
    exact ⟨append_nil _, rfl⟩

/-- A text that is read as a token before anything that does not go on with it. -/
def Spells (text : List Char) (kind : TokenKind) : Prop :=
  ∃ c t, text = c :: t ∧ ∀ rest, Spaced rest →
    Stops (c :: (t ++ rest)) ∧ lexeme c (t ++ rest) = .ok ⟨kind, text, rest⟩

theorem ne_of_class {p : Char → Bool} {d : Char} (inside : p c = true) (outside : p d = false) :
    c ≠ d := by
  rintro rfl
  exact absurd inside (Bool.eq_false_iff.mp outside)

theorem stops_of_class {p : Char → Bool} (inside : p c = true)
    (outside : ([' ', '\t', '\n', '\x0c', '\r', '/'].all fun d => !p d) = true) : Stops (c :: cs) := by
  have other : ∀ d ∈ [' ', '\t', '\n', '\x0c', '\r', '/'], c ≠ d := fun d mem =>
    ne_of_class inside (Bool.not_eq_true' _ ▸ all_eq_true.mp outside d mem)
  rintro d tail same
  cases same
  refine ⟨?_, fun slash => absurd slash (other '/' (by decide))⟩
  simp [isBlank, other ' ', other '\t', other '\n', other '\x0c', other '\r']

theorem letter_not_digit (letter : (c.isAlpha || c == '_') = true) : c.isDigit = false := by
  rw [Bool.or_eq_true, beq_iff_eq] at letter
  rcases letter with letter | rfl
  · rw [← Bool.not_eq_true, Char.isDigit_iff_toNat]
    change (decide (65 ≤ c.val.toNat ∧ c.val.toNat ≤ 90) ||
      decide (97 ≤ c.val.toNat) && decide (c.val.toNat ≤ 122)) = true at letter
    simp only [Bool.or_eq_true, Bool.and_eq_true, decide_eq_true_eq] at letter
    change ¬(48 ≤ c.val.toNat ∧ c.val.toNat ≤ 57)
    omega
  · rfl

theorem lexeme_letter (letter : (c.isAlpha || c == '_') = true) : lexeme c cs = .ok (word (c :: cs)) := by
  have other : ∀ {d : Char}, (d.isAlpha || d == '_') = false → (c == d) = false := fun none =>
    beq_eq_false_iff_ne.mpr (ne_of_class (p := fun c => c.isAlpha || c == '_') letter none)
  rw [lexeme, if_neg (Bool.eq_false_iff.mp (letter_not_digit letter)),
    if_neg (Bool.eq_false_iff.mp (other rfl)), if_neg (Bool.eq_false_iff.mp (other rfl)), if_pos letter]

theorem word_spells {name : String} (named : isName name = true) :
    Spells name.toList ((Keyword.ofString? name).elim (.id name) .keyword) := by
  rw [isName, Bool.and_eq_true] at named
  obtain ⟨first, inside⟩ := named
  cases chars : name.toList with
  | nil =>
    rw [chars] at first
    cases first
  | cons c t =>
    rw [chars, List.head?_cons, Option.any_some] at first
    have letters : ∀ d ∈ c :: t, isWordChar d = true := all_eq_true.mp (chars ▸ inside)
    refine ⟨c, t, rfl, fun rest spaced => ⟨?_, ?_⟩⟩
    · exact stops_of_class (p := fun c => c.isAlpha || c == '_') first (by decide)
    obtain ⟨taken, left⟩ := spaced.span rfl letters
    rw [lexeme_letter first]
    simp only [word, ← cons_append, taken, left]
    rw [← chars, String.ofList_toList]
    cases Keyword.ofString? name <;> rfl

theorem exists_ofNat {value : Int64} (nonneg : 0 ≤ value) :
    ∃ n, n ≤ maxLiteral ∧ Int64.ofNat n = value := by
  refine ⟨value.toNatClampNeg, ?_, Int64.ofNat_toNatClampNeg value nonneg⟩
  have bound := Int64.toInt_le value
  change value.toInt ≤ 9223372036854775807 at bound
  change value.toInt.toNat ≤ 9223372036854775807
  omega

theorem number_digits {n : Nat} (small : n ≤ maxLiteral) (spaced : Spaced rest) :
    number (Nat.toDigits 10 n ++ rest) = .ok ⟨.int (Int64.ofNat n), Nat.toDigits 10 n, rest⟩ := by
  have digits : ∀ c ∈ Nat.toDigits 10 n, c.isDigit = true := fun c =>
    Nat.isDigit_of_mem_toDigits (by decide) (by decide)
  have value : digitsValue (Nat.toDigits 10 n) = n := Nat.ofDigitChars_ten_toDigits
  obtain ⟨taken, left⟩ := spaced.span rfl digits
  have suffix : lengthSuffix rest = ([], rest) ∧ ∀ c ∈ rest.head?, isWordChar c = false := by
    cases rest with
    | nil => exact ⟨rfl, fun _ mem => absurd mem (Option.not_mem_none _)⟩
    | cons d rest =>
      cases spaced d rfl
      exact ⟨rfl, fun c mem => Option.some.inj mem ▸ rfl⟩
  simp only [number, taken, left, value, suffix.1, append_nil, if_neg (Nat.not_lt.mpr small)]
  cases head : rest.head? with
  | none => rfl
  | some d => exact if_neg (Bool.eq_false_iff.mp (suffix.2 d head))

theorem number_spells {value : Int64} (nonneg : 0 ≤ value) :
    Spells (toString value.toInt).toList (.int value) := by
  obtain ⟨n, small, rfl⟩ := exists_ofNat nonneg
  have spelled : (toString (Int64.ofNat n).toInt).toList = Nat.toDigits 10 n := by
    rw [Int64.toInt_ofNat_of_lt (Nat.lt_succ_of_le small)]
    exact Nat.toList_repr
  rw [spelled]
  cases chars : Nat.toDigits 10 n with
  | nil => exact absurd chars Nat.toDigits_ne_nil
  | cons c t =>
    have first : c.isDigit = true :=
      Nat.isDigit_of_mem_toDigits (by decide) (by decide) (chars ▸ mem_cons_self)
    refine ⟨c, t, rfl, fun rest spaced => ⟨stops_of_class first (by decide), ?_⟩⟩
    rw [lexeme, if_pos first, ← cons_append, ← chars]
    exact number_digits small spaced

theorem verbatim_chars {text : String} (verbatim : (TokenKind.str text).isVerbatim = true) :
    ∀ c ∈ text.toList, c ≠ '"' ∧ c ≠ '\\' ∧ isLineEnd c = false := by
  intro c mem
  have bytes : ∀ byte ∈ String.utf8EncodeChar c, isSpecial byte = false := by
    intro byte inside
    have whole : text.toByteArray = _ := Text.toByteArray_of_toList rfl
    rw [TokenKind.isVerbatim, whole, List.utf8Encode, data_toByteArray, all_toArray,
      all_eq_true] at verbatim
    simpa using verbatim byte (mem_flatMap.mpr ⟨c, mem, inside⟩)
  have other : ∀ d byte, byte ∈ String.utf8EncodeChar d → isSpecial byte = true → c ≠ d := by
    rintro d byte inside special rfl
    rw [bytes byte inside] at special
    cases special
  refine ⟨other '"' 0x22 (by decide) rfl, other '\\' 0x5c (by decide) rfl, ?_⟩
  rw [isLineEnd, Bool.or_eq_false_iff]
  exact ⟨beq_eq_false_iff_ne.mpr (other '\n' 0x0a (by decide) rfl),
    beq_eq_false_iff_ne.mpr (other '\r' 0x0d (by decide) rfl)⟩

theorem stringBody_verbatim (rest : List Char) (text : List Char)
    (plain : ∀ c ∈ text, c ≠ '"' ∧ c ≠ '\\' ∧ isLineEnd c = false) :
    stringBody (text ++ '"' :: rest) = .ok (text, text ++ ['"'], rest) := by
  induction text with
  | nil => rfl
  | cons c text ih =>
    obtain ⟨⟨quote, slash, line⟩, others⟩ := forall_mem_cons.mp plain
    rw [cons_append, stringBody]
    · rw [if_neg (Bool.eq_false_iff.mp line), ih others]
      rfl
    · exact quote
    · exact fun same => absurd same slash
    · exact fun _ _ same => absurd same slash

theorem string_spells {text : String} (verbatim : (TokenKind.str text).isVerbatim = true) :
    Spells ('"' :: (text.toList ++ ['"'])) (.str text) := by
  refine ⟨'"', _, rfl, fun rest _ => ⟨stops_of_class (p := (· == '"')) rfl (by decide), ?_⟩⟩
  have body := stringBody_verbatim rest text.toList (verbatim_chars verbatim)
  rw [append_assoc, singleton_append]
  change string _ = _
  rw [string, body]
  simp only [bind, Except.bind, pure, Except.pure, String.ofList_toList]

/-- A mark is not a part of a longer one that goes over a space. -/
theorem isPrefixOf_spaced {mark : List Char} (solid : ' ' ∉ mark) (spaced : Spaced rest) :
    mark.isPrefixOf (text ++ rest) = mark.isPrefixOf text := by
  rw [Bool.eq_iff_iff, isPrefixOf_iff_prefix, isPrefixOf_iff_prefix]
  refine ⟨fun h => ?_, fun h => h.trans (prefix_append _ _)⟩
  rcases prefix_or_prefix_of_prefix h (prefix_append text rest) with shorter | longer
  · exact shorter
  · obtain ⟨more, rfl⟩ := longer
    rw [prefix_append_right_inj] at h
    cases more with
    | nil => exact (append_nil text).symm ▸ prefix_rfl
    | cons d more =>
      obtain ⟨tail, rfl⟩ := h
      cases spaced d rfl
      exact absurd (mem_append_right _ mem_cons_self) solid

theorem punct_head (mark : Punct) : ∃ c t, mark.spelling.toList = c :: t ∧
    (c.isDigit || c == '"' || c == '\'' || (c.isAlpha || c == '_') || isBlank c) = false ∧
    (c = '/' → t.head? ≠ some '/' ∧ t.head? ≠ some '*') := by
  cases mark <;> exact ⟨_, _, rfl, rfl, by decide⟩

theorem punct_solid (mark : Punct) : ' ' ∉ mark.spelling.toList := by
  cases mark <;> decide

/-- Longer marks stand before shorter ones, so a mark is found as itself. -/
theorem find?_spelling (mark : Punct) :
    Punct.all.find? (fun other => other.spelling.toList.isPrefixOf mark.spelling.toList) =
      some mark := by
  have every : ∀ mark ∈ Punct.all, Punct.all.find? (fun other =>
      other.spelling.toList.isPrefixOf mark.spelling.toList) = some mark := by decide +kernel
  exact every mark (by cases mark <;> decide)

theorem punct_spells (mark : Punct) : Spells mark.spelling.toList (.punct mark) := by
  obtain ⟨c, t, spelled, other, slash⟩ := punct_head mark
  simp only [Bool.or_eq_false_iff] at other
  obtain ⟨⟨⟨⟨digit, quote⟩, apostrophe⟩, letter⟩, blank⟩ := other
  refine ⟨c, t, spelled, fun rest spaced => ⟨?_, ?_⟩⟩
  · rintro d tail same
    cases same
    refine ⟨blank, fun same => ?_⟩
    cases t with
    | nil =>
      constructor
      all_goals
        intro next
        exact absurd (spaced _ next) (by decide)
    | cons d t => exact slash same
  · have found : Punct.all.find? (fun other => other.spelling.toList.isPrefixOf (c :: (t ++ rest))) =
        some mark := by
      rw [← cons_append, ← spelled, ← find?_spelling mark]
      congr 1
      funext other
      exact isPrefixOf_spaced (punct_solid other) spaced
    simp only [lexeme, digit, quote, apostrophe, letter, Bool.or_eq_true, punctuator, found]
    rw [← cons_append, ← spelled, drop_left]
    simp_all

theorem keyword_isName (word : Keyword) : isName word.spelling = true := by
  cases word <;> rfl

theorem ofString?_spelling (word : Keyword) : Keyword.ofString? word.spelling = some word := by
  cases word <;> rfl

/-- Every token that a text can have is spelled by a text that is read as it. -/
theorem spelling_spells (known : kind.IsRead) (verbatim : kind.isVerbatim = true) :
    Spells kind.spelling.toList kind := by
  cases kind with
  | id name =>
    have spells := word_spells known.1
    rw [known.2] at spells
    exact spells
  | keyword word =>
    have spells := word_spells (keyword_isName word)
    rw [ofString?_spelling] at spells
    exact spells
  | int value => exact number_spells known
  | str text =>
    rw [TokenKind.spelling, String.toList_append, String.toList_append]
    exact string_spells verbatim
  | punct mark => exact punct_spells mark

/-! ## Lists of tokens -/

theorem next?_spelled (source : Source) (pos : Position) (bol : Bool) (spells : Spells text kind)
    (spaced : Spaced rest) : ∃ token stop, token.value.kind = kind ∧
      next? source ⟨text ++ rest, pos, bol⟩ = .ok (some (token, ⟨rest, stop, false⟩)) := by
  obtain ⟨c, t, rfl, reads⟩ := spells
  obtain ⟨stops, lexed⟩ := reads rest spaced
  simp only [next?, cons_append, skip_stops stops, lexed]
  exact ⟨_, _, rfl, rfl⟩

/-- Tokens written one after the other, each after a space. -/
def spaced (kinds : List TokenKind) : List Char :=
  kinds.flatMap fun kind => ' ' :: kind.spelling.toList

theorem spaced_spaced (kinds : List TokenKind) : Spaced (spaced kinds) := by
  intro c first
  cases kinds with
  | nil => cases first
  | cons kind kinds =>
    cases first
    rfl

theorem toList_intercalate (kind : TokenKind) (kinds : List TokenKind) :
    (" ".intercalate ((kind :: kinds).map (·.spelling))).toList =
      kind.spelling.toList ++ spaced kinds := by
  induction kinds generalizing kind with
  | nil => simp [spaced]
  | cons next kinds ih =>
    rw [map_cons, map_cons, String.intercalate_cons_cons, ← map_cons,
      String.toList_append, String.toList_append, ih next, append_assoc]
    rfl

/-- Lexemes that are kept apart are read one after the other. -/
theorem scanFrom_spelled (kinds : List TokenKind)
    (each : ∀ kind ∈ kinds, Spells kind.spelling.toList kind) :
    ∀ (pos : Position) (bol : Bool), ∃ tokens, scanFrom source ⟨spaced kinds, pos, bol⟩ = (tokens, none) ∧
      tokens.map (·.value.kind) = kinds := by
  induction kinds with
  | nil => exact fun pos bol => ⟨[], scanFrom_nil source pos bol, rfl⟩
  | cons kind kinds ih =>
    intro pos bol
    obtain ⟨here, others⟩ := forall_mem_cons.mp each
    obtain ⟨token, stop, same, found⟩ := next?_spelled source (pos.after ' ') bol here
      (spaced_spaced kinds)
    obtain ⟨tokens, scanned, kinds'⟩ := ih others stop false
    have blank : next? source ⟨spaced (kind :: kinds), pos, bol⟩ =
        .ok (some (token, ⟨spaced kinds, stop, false⟩)) := by
      rw [← found, spaced, flatMap_cons, cons_append]
      simp only [next?, skip_space]
      rfl
    exact ⟨token :: tokens, by rw [scanFrom_some blank, scanned], by rw [map_cons, same, kinds']⟩

/-- **Spelling is faithful.** Take the tokens of an accepted text, whose strings have no quote, no
backslash and no end of a line in their bytes. Their spellings with single spaces between them are
an accepted text again, with the same tokens up to their places. -/
theorem tokenize_spellings {tokens : List Lexed} (accepted : tokenize source = .ok tokens)
    (verbatim : ∀ token ∈ tokens, token.value.kind.isVerbatim = true) (name : String) :
    ∃ again, tokenize ⟨name, " ".intercalate (tokens.map (·.value.kind.spelling))⟩ = .ok again ∧
      again.map (·.value.kind) = tokens.map (·.value.kind) := by
  have each : ∀ kind ∈ tokens.map (·.value.kind), Spells kind.spelling.toList kind := by
    refine forall_mem_map.mpr fun token mem => ?_
    exact spelling_spells (tokenize_isRead accepted token mem) (verbatim token mem)
  have spellings : tokens.map (·.value.kind.spelling) =
      (tokens.map (·.value.kind)).map (·.spelling) := by
    rw [map_map]
    rfl
  rw [spellings]
  generalize tokens.map (·.value.kind) = kinds at each
  cases kinds with
  | nil =>
    refine ⟨[], ?_, rfl⟩
    rw [tokenize, scan, map_nil, String.intercalate_nil, String.toList_empty, scanFrom_nil]
  | cons kind kinds =>
    obtain ⟨here, others⟩ := forall_mem_cons.mp each
    obtain ⟨token, stop, same, found⟩ := next?_spelled
      ⟨name, " ".intercalate ((kind :: kinds).map (·.spelling))⟩ .first true here
      (spaced_spaced kinds)
    obtain ⟨again, scanned, same'⟩ := scanFrom_spelled _ others stop false
    refine ⟨token :: again, ?_, by rw [map_cons, same, same']⟩
    rw [tokenize, scan, toList_intercalate, scanFrom_some found, scanned]

/-- A text whose tokens touch one another, with a comment, a suffix, a character literal, an escape and a
character of two bytes. -/
def touching : Source := ⟨"a.c", "intx=12L+'\\n';/**/x>>=\"é\\t\"-1;"⟩

theorem touching_verbatim : (tokenize touching).toOption.map (fun tokens =>
    (tokens.map (·.value.kind.spelling), tokens.all (·.value.kind.isVerbatim))) =
      some (["intx", "=", "12", "+", "10", ";", "x", ">>=", "\"é\t\"", "-", "1", ";"], true) := by
  decide +kernel

theorem tokenize_spellings_touching : ∃ tokens again, tokenize touching = .ok tokens ∧
    tokenize ⟨"b.c", "intx = 12 + 10 ; x >>= \"é\t\" - 1 ;"⟩ = .ok again ∧
    again.map (·.value.kind) = tokens.map (·.value.kind) := by
  obtain ⟨tokens, found, known⟩ := Option.map_eq_some_iff.mp touching_verbatim
  obtain ⟨spelled, verbatim⟩ := Prod.mk.inj known
  have accepted : tokenize touching = .ok tokens := by
    cases result : tokenize touching with
    | error e => rw [result] at found; cases found
    | ok other => rw [result] at found; cases found; rfl
  obtain ⟨again, read, same⟩ := tokenize_spellings accepted (all_eq_true.mp verbatim) "b.c"
  rw [spelled] at read
  exact ⟨tokens, again, accepted, read, same⟩

end Lexer

end MiniC
