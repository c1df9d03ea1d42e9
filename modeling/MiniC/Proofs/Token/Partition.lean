import Mathlib.Algebra.Group.Nat.Defs
import Mathlib.Data.List.Induction
import MiniC.Proofs.Token.Lexeme

/-!
# Tokens partition their text

The tokens of a text are slices of its bytes, in order, and what stands between them is blanks and
complete comments. A token knows where its slice is: its location names the two offsets, and the
line it quotes has the slice at those columns, as far as lines and columns can be counted in words of
32 bits. A token is marked as the first of its line exactly if it is the first of all, or a line ends
in the gap before it.

The statement is about the bytes of the text; the proof follows its characters, since every cut
the lexer makes is between two of them.
-/

namespace MiniC

open List

/-! ## Bytes and characters -/

namespace Text

def bytes (text : String) (i j : Nat) : ByteArray := text.toByteArray.extract i j

def lastLine (cs : List Char) : List Char := (cs.reverse.takeWhile (· != '\n')).reverse

variable {cs before after ds : List Char}

theorem toByteArray_of_toList {text : String} (h : text.toList = cs) :
    text.toByteArray = cs.utf8Encode := by
  rw [← h, ← String.toByteArray_ofList, String.ofList_toList]

theorem count_append (h : '\n' ∉ ds) :
    (cs ++ ds).count '\n' = cs.count '\n' := by
  rw [List.count_append, List.count_eq_zero.mpr h, Nat.add_zero]

end Text

namespace Position

theorem afterAll_append (p : Position) (cs ds : List Char) :
    p.afterAll (cs ++ ds) = (p.afterAll cs).afterAll ds := foldl_append

end Position

namespace Source

/-- A position names an offset: it counts the lines of the text before it, and the bytes of the
last of them. -/
def Names (source : Source) (p : Position) (i : Nat) : Prop :=
  ∃ before after, source.text.toList = before ++ after ∧ i = before.utf8Encode.size ∧
    p.line.toNat = before.count '\n' + 1 ∧
    p.column.toNat = (Text.lastLine before).utf8Encode.size + 1

variable {source : Source} {before after : List Char}

end Source

namespace Lexer

/-! ## Gaps -/

/-- A piece of what stands between two tokens: a blank, a comment up to the end of its line, or a
comment up to the first mark that closes it. -/
inductive Trivia where
  | blank (c : Char) (isBlank : isBlank c = true)
  | lineComment (body : List Char) (oneLine : '\n' ∉ body)
  | blockComment (body : List Char) (unclosed : ¬['*', '/'] <:+: body ++ ['*'])

namespace Trivia

def text : Trivia → List Char
  | blank c _ => [c]
  | lineComment body _ => '/' :: '/' :: body
  | blockComment body _ => '/' :: '*' :: (body ++ ['*', '/'])

def breaks : Trivia → Bool
  | blank c _ => isLineEnd c
  | lineComment _ _ => false
  | blockComment body _ => body.any isLineEnd

def texts (pieces : List Trivia) : List Char := pieces.flatMap text

/-- A line comment goes up to the end of its line: a line feed follows it, or, in a gap that ends
the text, nothing. -/
def Complete (atEnd : Bool) : List Trivia → Prop
  | [] => True
  | lineComment _ _ :: rest =>
    (texts rest).head? = some '\n' ∧ Complete atEnd rest ∨ rest = [] ∧ atEnd = true
  | _ :: rest => Complete atEnd rest

theorem text_ne_nil (piece : Trivia) : piece.text ≠ [] := by
  cases piece <;> exact cons_ne_nil _ _

theorem texts_cons (piece : Trivia) (pieces : List Trivia) :
    texts (piece :: pieces) = piece.text ++ texts pieces := flatMap_cons

end Trivia

open Trivia (texts)

def Stops (cs : List Char) : Prop :=
  ∀ c rest, cs = c :: rest →
    isBlank c = false ∧ (c = '/' → rest.head? ≠ some '/' ∧ rest.head? ≠ some '*')

theorem stops_nil : Stops [] := fun _ _ same => absurd same.symm (cons_ne_nil _ _)

/-- The pieces lead from a place to a cursor that stops. -/
structure Skips (pos : Position) (bol : Bool) (cs : List Char) (pieces : List Trivia)
    (cursor : Cursor) : Prop where
  text : cs = texts pieces ++ cursor.rest
  pos : cursor.pos = pos.afterAll (texts pieces)
  bol : cursor.bol = (bol || pieces.any Trivia.breaks)
  complete : Trivia.Complete cursor.rest.isEmpty pieces
  stops : Stops cursor.rest

variable {pos : Position} {bol : Bool} {cs body before : List Char} {pieces : List Trivia}
  {cursor after : Cursor} {c : Char} {source : Source} {token : Lexed}

theorem Skips.nil (stops : Stops cs) :
    Skips pos bol cs [] ⟨cs, pos, bol⟩ :=
  ⟨rfl, rfl, (Bool.or_false bol).symm, trivial, stops⟩

theorem Skips.blank (isBlank : isBlank c = true)
    (h : Skips (pos.after c) (bol || isLineEnd c) cs pieces cursor) :
    Skips pos bol (c :: cs) (.blank c isBlank :: pieces) cursor where
  text := by rw [h.text]; rfl
  pos := h.pos
  bol := by rw [h.bol, Bool.or_assoc]; rfl
  complete := h.complete
  stops := h.stops

theorem Skips.blockComment (unclosed : ¬['*', '/'] <:+: body ++ ['*'])
    (h : Skips (pos.afterAll ('/' :: '*' :: (body ++ ['*', '/']))) (bol || body.any isLineEnd) cs
      pieces cursor) :
    Skips pos bol ('/' :: '*' :: (body ++ '*' :: '/' :: cs)) (.blockComment body unclosed :: pieces)
      cursor where
  text := by rw [h.text, Trivia.texts_cons]; simp [Trivia.text]
  pos := by rw [h.pos, Trivia.texts_cons, Position.afterAll_append]; rfl
  bol := by rw [h.bol, Bool.or_assoc]; rfl
  complete := h.complete
  stops := h.stops

theorem Skips.lineComment (oneLine : '\n' ∉ body) (ends : ∀ c ∈ cs.head?, c = '\n')
    (h : Skips (pos.afterAll ('/' :: '/' :: body)) bol cs pieces cursor) :
    Skips pos bol ('/' :: '/' :: (body ++ cs)) (.lineComment body oneLine :: pieces) cursor where
  text := by rw [h.text, Trivia.texts_cons]; simp [Trivia.text]
  pos := by rw [h.pos, Trivia.texts_cons, Position.afterAll_append]; rfl
  bol := h.bol
  complete := by
    cases pieces with
    | nil =>
      refine .inr ⟨rfl, ?_⟩
      cases rest : cursor.rest with
      | nil => rfl
      | cons c tail =>
        -- the cursor would stop at the line feed, which is a blank
        have text : cs = c :: tail := by rw [h.text, rest]; rfl
        have feed : c = '\n' := ends c (by rw [text]; rfl)
        have blank := (h.stops c tail rest).1
        rw [feed] at blank
        cases blank
    | cons piece pieces =>
      refine .inl ⟨?_, h.complete⟩
      obtain ⟨c, tail, first⟩ := exists_cons_of_ne_nil piece.text_ne_nil
      rw [Trivia.texts_cons, first]
      have head : cs.head? = some c := by rw [h.text, Trivia.texts_cons, first]; rfl
      rw [← ends c head]
      rfl
  stops := h.stops

def Skipped (pos : Position) (bol : Bool) (cs : List Char) (cursor : Cursor) : Gap → Prop
  | .blank => ∃ pieces, Skips pos bol cs pieces cursor
  | .lineComment => ∃ body rest pieces, cs = body ++ rest ∧ '\n' ∉ body ∧
    (∀ c ∈ rest.head?, c = '\n') ∧ Skips (pos.afterAll body) bol rest pieces cursor
  | .blockComment _ => ∃ body rest pieces, cs = body ++ '*' :: '/' :: rest ∧
    ¬['*', '/'] <:+: body ++ ['*'] ∧
    Skips (pos.afterAll (body ++ ['*', '/'])) (bol || body.any isLineEnd) rest pieces cursor

theorem unclosed_cons {rest : List Char} (unclosed : ¬['*', '/'] <:+: body ++ ['*'])
    (other : ∀ tail, c = '*' → body ++ '*' :: rest = '/' :: tail → False) :
    ¬['*', '/'] <:+: c :: body ++ ['*'] := by
  rw [cons_append, infix_cons_iff, not_or]
  refine ⟨fun closes => ?_, unclosed⟩
  rw [cons_prefix_cons] at closes
  obtain ⟨star, tail, slash⟩ := closes
  cases body with
  | nil => cases slash
  | cons d body =>
    cases slash
    exact other _ star.symm rfl

/-- What is skipped is made of blanks and complete comments. -/
theorem skip_skipped {gap : Gap}
    (h : skip gap pos bol cs = .ok cursor) : Skipped pos bol cs cursor gap := by
  fun_induction skip gap pos bol cs with
  | case1 => cases h
  | case2 gap pos bol other =>
    cases h
    have stops : Skips pos bol [] [] ⟨[], pos, bol⟩ := .nil stops_nil
    have none : ∀ c ∈ ([] : List Char).head?, c = '\n' := fun c head => absurd head (Option.not_mem_none c)
    cases gap with
    | blank => exact ⟨[], stops⟩
    | lineComment => exact ⟨[], [], [], rfl, not_mem_nil, none, stops⟩
    | blockComment start => exact absurd rfl (other start)
  | case3 pos bol rest ih =>
    obtain ⟨body, after, pieces, rfl, oneLine, ends, found⟩ := ih h
    rw [← Position.afterAll_append] at found
    exact ⟨_, .lineComment oneLine ends found⟩
  | case4 pos bol rest ih =>
    obtain ⟨body, after, pieces, rfl, unclosed, found⟩ := ih h
    rw [← Position.afterAll_append] at found
    exact ⟨_, .blockComment unclosed found⟩
  | case5 pos bol c rest _ _ blank ih =>
    obtain ⟨pieces, found⟩ := ih h
    exact ⟨_, .blank blank found⟩
  | case6 pos bol c rest line block other =>
    cases h
    refine ⟨[], .nil fun d tail same => ?_⟩
    cases same
    refine ⟨Bool.eq_false_iff.mpr other, fun slash => ⟨fun next => ?_, fun next => ?_⟩⟩
    · obtain ⟨tail, same⟩ := List.head?_eq_some_iff.mp next
      exact line tail slash same
    · obtain ⟨tail, same⟩ := List.head?_eq_some_iff.mp next
      exact block tail slash same
  | case7 pos bol rest ih =>
    obtain ⟨pieces, found⟩ := ih h
    refine ⟨[], '\n' :: rest, .blank '\n' rfl :: pieces, rfl, not_mem_nil,
      fun c head => (Option.some.inj head).symm, ?_⟩
    refine .blank rfl ?_
    rw [show (bol || isLineEnd '\n') = true from Bool.or_true bol]
    exact found
  | case8 pos bol c rest other ih =>
    obtain ⟨body, after, pieces, rfl, oneLine, ends, found⟩ := ih h
    refine ⟨c :: body, after, pieces, rfl, fun mem => ?_, ends, found⟩
    rcases mem_cons.mp mem with same | later
    · exact other same.symm
    · exact oneLine later
  | case9 start pos bol rest ih =>
    obtain ⟨pieces, found⟩ := ih h
    refine ⟨[], rest, pieces, rfl, ?_, by rw [any_nil, Bool.or_false]; exact found⟩
    decide
  | case10 start pos bol c rest other ih =>
    obtain ⟨body, after, pieces, rfl, unclosed, found⟩ := ih h
    refine ⟨c :: body, after, pieces, rfl, unclosed_cons unclosed other, ?_⟩
    rw [any_cons, ← Bool.or_assoc]
    exact found

theorem skip_stops (stops : Stops cs) :
    skip .blank pos bol cs = .ok ⟨cs, pos, bol⟩ := by
  cases cs with
  | nil => rfl
  | cons c rest =>
    obtain ⟨plain, slash⟩ := stops c rest rfl
    rw [skip, if_neg (Bool.eq_false_iff.mp plain)]
    · rintro tail rfl rfl
      exact (slash rfl).1 rfl
    · rintro tail rfl rfl
      exact (slash rfl).2 rfl

/-! ## Tokens -/

theorem scanFrom_nil (source : Source) (pos : Position) (bol : Bool) :
    scanFrom source ⟨[], pos, bol⟩ = ([], none) := by
  rw [scanFrom]
  rfl

theorem scanFrom_some (h : next? source cursor = .ok (some (token, after))) :
    scanFrom source cursor = (token :: (scanFrom source after).1, (scanFrom source after).2) := by
  rw [scanFrom]
  split
  · next failed => cases h.symm.trans failed
  · next ends => cases h.symm.trans ends
  · next found =>
    cases h.symm.trans found
    rfl

theorem next?_eq_ok {r : Option (Lexed × Cursor)} (h : next? source cursor = .ok r) :
    ∃ pieces stop, Skips cursor.pos cursor.bol cursor.rest pieces stop ∧
      (stop.rest = [] ∧ r = none ∨ ∃ c cs l, stop.rest = c :: cs ∧ lexeme c cs = .ok l ∧
        r = some (⟨⟨l.kind, stop.bol⟩, ⟨source, stop.pos, stop.pos.afterAll l.text⟩⟩,
          ⟨l.rest, stop.pos.afterAll l.text, false⟩)) := by
  unfold next? at h
  split at h
  · cases h
  · next pos bol skipped =>
    cases h
    obtain ⟨pieces, found⟩ := skip_skipped skipped
    exact ⟨pieces, _, found, .inl ⟨rfl, rfl⟩⟩
  · next c cs pos bol skipped =>
    obtain ⟨pieces, found⟩ := skip_skipped skipped
    split at h
    · cases h
    · next l lexed =>
      cases h
      exact ⟨pieces, _, found, .inr ⟨c, cs, l, rfl, lexed, rfl⟩⟩

theorem skip_space (pos : Position) (bol : Bool) :
    skip .blank pos bol (' ' :: cs) = skip .blank (pos.after ' ') bol cs := by
  rw [skip, if_pos (by decide), show isLineEnd ' ' = false from rfl, Bool.or_false]
  · exact fun _ same => absurd same (by decide)
  · exact fun _ same => absurd same (by decide)

end Lexer

end MiniC
