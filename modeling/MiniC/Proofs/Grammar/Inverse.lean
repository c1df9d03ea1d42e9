import Mathlib.Tactic.IntervalCases
import MiniC.Proofs.Grammar.Takes

/-!
# Reading back what was written

The rules of the grammar read a written expression back up to its places.

A phrase is read by the rule of its own level first. Since no token after it
continues it, every looser rule passes the tree on (`loosen`), and parentheses
lead from the loosest rule back to the tightest. Operators that associate to the
left are read by loops: `Climbs` is the left operand of such a loop, read with
any parts that are still to come.
-/

namespace MiniC

open List

/-! ## How phrases start and end -/

def ParseState.namesType (s : ParseState) : TokenKind → Bool
  | .keyword word => ParseState.isTypeWord word
  | .id name => (s.scope.typedef? name).isSome
  | _ => false

theorem ParseState.startsType_eq (s : ParseState) (ahead : Nat) :
    s.startsType ahead = (s.peekAt? ahead).elim false s.namesType := by
  unfold ParseState.startsType
  cases s.peekAt? ahead with
  | none => rfl
  | some kind => cases kind <;> rfl

theorem Spells.head {s : ParseState} {ty : CType} {kinds : List TokenKind}
    (spells : Spells s ty kinds) :
    ∃ word more, kinds = word :: more ∧ s.namesType word = true := by
  obtain ⟨stars, lengths, named, -⟩ := spells
  cases named with
  | typedef visible => exact ⟨_, _, rfl, by rw [ParseState.namesType, visible]; rfl⟩
  | _ => exact ⟨_, _, rfl, rfl⟩

/-- The tokens that start a phrase of the tightest levels. -/
inductive TokenKind.Operand : TokenKind → Prop
  | int (value : Int64) : Operand (.int value)
  | id (name : String) : Operand (.id name)
  | group : Operand (.punct .openParen)

/-- How a phrase of a level starts: not like a type, and a prefix operator or a
cast only if its level is that of one. -/
inductive Starts (s : ParseState) (level : Nat) : List TokenKind → Prop
  | intro {kind : TokenKind} {more : List TokenKind} (opens : kind ≠ .punct .closeParen)
      (untyped : s.namesType kind = false) (operand : 16 ≤ level → kind.Operand)
      (group : 15 ≤ level → kind = .punct .openParen →
        ∃ inner, more.head? = some inner ∧ s.namesType inner = false) :
      Starts s level (kind :: more)

namespace Starts

variable {s : ParseState} {level limit : Nat} {kinds : List TokenKind}

theorem single {kind : TokenKind} (opens : kind ≠ .punct .closeParen)
    (single : kind ≠ .punct .openParen) (untyped : s.namesType kind = false)
    (operand : 16 ≤ level → kind.Operand) : Starts s level (kind :: kinds) :=
  ⟨opens, untyped, operand, fun _ open_eq => absurd open_eq single⟩

theorem mono (starts : Starts s level kinds) (le : limit ≤ level) : Starts s limit kinds := by
  obtain ⟨opens, untyped, operand, group⟩ := starts
  exact ⟨opens, untyped, fun h => operand (Nat.le_trans h le), fun h => group (Nat.le_trans h le)⟩

theorem append (starts : Starts s level kinds) (more : List TokenKind) :
    Starts s level (kinds ++ more) := by
  obtain ⟨opens, untyped, operand, group⟩ := starts
  refine ⟨opens, untyped, operand, fun h open_eq => ?_⟩
  obtain ⟨inner, head, inner_untyped⟩ := group h open_eq
  exact ⟨inner, by rw [append_eq, List.head?_append, head]; rfl, inner_untyped⟩

theorem ne_nil (starts : Starts s level kinds) : kinds ≠ [] := by
  obtain ⟨⟩ := starts
  exact cons_ne_nil _ _

theorem head_ne (starts : Starts s level kinds) (rest : List TokenKind) :
    (kinds ++ rest).head? ≠ some (.punct .closeParen) := by
  obtain ⟨opens, -, -, -⟩ := starts
  rw [cons_append, List.head?_cons, ne_eq, Option.some.injEq]
  exact opens

theorem parenthesized (starts : Starts s level kinds) :
    Starts s limit (Expr.parenthesized kinds) := by
  obtain @⟨kind, more, -, untyped, -, -⟩ := starts
  exact ⟨by decide, rfl, fun _ => .group, fun _ _ => ⟨kind, rfl, untyped⟩⟩

theorem within (starts : Starts s level kinds) :
    Starts s limit (Expr.within limit level kinds) := by
  unfold Expr.within
  split
  · exact starts.mono ‹_›
  · exact starts.parenthesized

end Starts

/-- The first token of an expression tells it from a type. -/
theorem Expr.starts {s : ParseState} {w : Spelling} :
    (e : Expr) → e.Writable s w → Starts s e.level (e.written w)
  | .num .., _ => .single (by simp) (by simp) rfl fun _ => .int _
  | .str .., writable => writable.elim
  | .var _ index, writable => by
    refine .single (by simp) (by simp) ?_ fun _ => .id _
    rw [ParseState.namesType, Scope.typedef?, writable.2]
    rfl
  | .global .., writable =>
    .single (by simp) (by simp) (by rw [ParseState.namesType, writable.2.2.1]; rfl) fun _ => .id _
  | .call .., writable =>
    .single (by simp) (by simp) (by rw [ParseState.namesType, writable.2.1]; rfl) fun _ => .id _
  | .binary _ _ _ lhs _, writable => (starts lhs writable.2.1).within.append _
  | .assign _ lhs _, writable => by
    have loose : 2 ≤ w.target := Nat.le_of_lt w.conditional_le
    exact ((starts lhs writable.2.1).within.append _).mono loose
  | .comma _ lhs _, writable => (starts lhs writable.2.1).within.append _
  | .cond _ test _ _, writable =>
    ((starts test writable.2.1).within.append _).mono (by simp [level])
  | .unary _ op _, _ => by
    cases op <;> exact .single (by decide) (by decide) rfl (by simp [level])
  | .addr .., _ | .deref .., _ => .single (by decide) (by decide) rfl (by simp [level])
  | .sizeof .., _ => .single (by decide) (by decide) rfl (by simp [level])
  | .member _ base _ _, writable => (starts base writable.2).within.append _
  | .update _ _ target, writable => (starts target writable.2).within.append _
  | .cast .., _ => ⟨by decide, rfl, by simp [level], by simp [level]⟩

def Ends (level : Nat) (rest : List TokenKind) : Prop :=
  rest.head?.elim 0 TokenKind.strength < level

variable {rest : List TokenKind}

theorem Ends.mono {level limit : Nat} (ends : Ends level rest)
    (le : level ≤ limit) : Ends limit rest := Nat.lt_of_lt_of_le ends le

theorem Ends.head_ne {level : Nat} (ends : Ends level rest) {mark : Punct}
    (strong : level ≤ mark.strength) : rest.head? ≠ some (.punct mark) := by
  intro head
  rw [Ends, head] at ends
  exact absurd ends (Nat.not_lt.mpr strong)

theorem Ends.tighten (ends : Ends 15 rest) : Ends 14 rest := by
  have other : ∀ kind : TokenKind, kind.strength ≠ 14 := by
    intro kind
    cases kind with
    | punct mark => cases mark <;> decide
    | _ => simp [TokenKind.strength]
  unfold Ends at *
  rcases head : rest.head? with - | kind
  · exact Nat.zero_lt_succ 13
  · rw [head] at ends
    exact Nat.lt_of_le_of_ne (Nat.le_of_lt_succ ends) (other kind)

/-! ## Levels -/

namespace Grammar

open Parse

def rule (below : Below) : Nat → Parse Expr
  | 1 => expr below
  | 2 => assign below
  | 3 => conditional below
  | 15 => unary below
  | 16 => postfixExpr below
  | 17 => primary below
  | level => binary below (precedence.drop (level - 4))

def Repeated (level : Nat) : Prop := level = 1 ∨ (4 ≤ level ∧ level ≤ 13) ∨ level = 16

instance (level : Nat) : Decidable (Repeated level) :=
  inferInstanceAs (Decidable (_ ∨ _ ∨ _))

def operators (level : Nat) : List Operator := precedence.getD (level - 4) []

def binaryPart (below : Below) (level : Nat) (lhs : Expr) : Parse (Round Expr Expr) :=
  operandPart (operators level) (rule below (level + 1)) lhs

def part (below : Below) : Nat → Expr → Parse (Round Expr Expr)
  | 1 => commaPart below
  | 16 => postfixPart below
  | level => binaryPart below level

theorem part_eq_binaryPart {level : Nat} (le : 4 ≤ level) (lt : level ≤ 13) (below : Below) :
    part below level = binaryPart below level := by
  interval_cases level <;> rfl

theorem rule_eq {level : Nat} (repeated : Repeated level) (below : Below) :
    rule below level = rule below (level + 1) >>= loop below (part below level) := by
  rcases repeated with rfl | ⟨le, lt⟩ | rfl
  · rfl
  · interval_cases level <;> rfl
  · rfl

variable {s : ParseState} {n m level : Nat} {kinds more : List TokenKind}
  {follow : List TokenKind → Prop} {P Q : Expr → Prop}

theorem operator?_takes (op : BinOp) :
    Takes s n [.punct op.mark] follow (operator? (operators op.level))
      (· = some ⟨op.mark, op, false⟩) := by
  apply Takes.peek
  intro rest _
  have found : (operators op.level).find? (·.mark == op.mark) = some ⟨op.mark, op, false⟩ := by
    cases op <;> rfl
  simp only [cons_append, List.head?_cons, found]
  exact advance_takes.andThen fun _ _ => .pure rfl

theorem operator?_refuses (le : 4 ≤ level) (lt : level ≤ 13) :
    Takes s n [] (Ends level) (operator? (operators level)) (· = none) := by
  have strong : ∀ operator ∈ operators level, operator.mark.strength = level := by
    interval_cases level <;> decide
  apply Takes.peek
  intro rest ends
  rw [nil_append]
  rcases head : rest.head? with - | kind
  · exact .pure rfl
  · cases kind with
    | punct mark =>
      have missing : (operators level).find? (·.mark == mark) = none := by
        apply List.find?_eq_none.mpr
        intro operator mem same
        rw [beq_iff_eq] at same
        apply ends.head_ne _ head
        rw [← same, strong operator mem]
      simp only [missing]
      exact .pure rfl
    | _ => exact .pure rfl

theorem part_ends (repeated : Repeated level) (below : Below) (e : Expr) :
    Takes s n [] (Ends level) (part below level e) (· = .done e) := by
  rcases repeated with rfl | ⟨le, lt⟩ | rfl
  · exact .skip (fun rest ends => ends.head_ne (by decide)) (.pure rfl)
  · rw [part_eq_binaryPart le lt]
    apply (operator?_refuses le lt).andThen
    rintro _ rfl
    exact .pure rfl
  · apply Takes.skip (fun rest ends => ends.head_ne (by decide))
    apply Takes.skip (fun rest ends => ends.head_ne (by decide))
    apply Takes.skip (fun rest ends => ends.head_ne (by decide))
    apply Takes.skip (fun rest ends => ends.head_ne (by decide))
    apply Takes.skip (fun rest ends => ends.head_ne (by decide))
    exact .pure rfl

/-- A phrase that may go on: with any more parts, the rule of its level reads it
together with them. -/
def Climbs (s : ParseState) (n level : Nat) (kinds : List TokenKind) (P : Expr → Prop) : Prop :=
  ∀ more follow Q, (∀ m, m ≤ n → ∀ e, P e → Repeats s m more follow (part (.upTo n) level) e Q) →
    (∀ rest, follow rest → Ends (level + 1) (more ++ rest)) →
    Takes s n (kinds ++ more) follow (rule (.upTo n) level) Q

namespace Climbs

theorem ofTakes (repeated : Repeated level)
    (h : Takes s n kinds (Ends (level + 1)) (rule (.upTo n) (level + 1)) P) :
    Climbs s n level kinds P := by
  intro more follow Q goes ends
  rw [rule_eq repeated]
  apply h.bind _ ends
  intro e holds
  exact (goes (n - kinds.length) (Nat.sub_le ..) e holds).loop (Nat.sub_le ..)

theorem snoc {P' : Expr → Prop} (h : Climbs s n level kinds P)
    (step : ∀ m, m ≤ n → ∀ e, P e → Takes s m more (Ends (level + 1)) (part (.upTo n) level e)
      fun round => ∃ e', round = .more e' ∧ P' e')
    (nonempty : more ≠ []) (ends : ∀ rest, Ends (level + 1) (more ++ rest)) :
    Climbs s n level (kinds ++ more) P' := by
  intro more' follow Q goes ends'
  rw [append_assoc]
  apply h
  · intro m le e holds
    apply Repeats.more (step m le e holds) nonempty _ ends'
    intro e' holds'
    exact goes _ (Nat.le_trans (Nat.sub_le ..) le) e' holds'
  · intro rest _
    rw [append_assoc]
    exact ends _

theorem takes (h : Climbs s n level kinds P) (repeated : Repeated level) :
    Takes s n kinds (Ends level) (rule (.upTo n) level) P := by
  have whole := h [] (Ends level) P
  rw [append_nil] at whole
  apply whole
  · intro m _ e holds
    apply Repeats.done
    apply (part_ends repeated _ e).imp
    rintro _ rfl
    exact ⟨e, rfl, holds⟩
  · intro rest ends
    exact ends.mono (Nat.le_succ level)

end Climbs

variable {rest words : List TokenKind} {mark : Punct} {element ty base : CType}
  {node : Note → Expr → Expr}

theorem assignment?_eq_none (ends : Ends 2 rest)
    (head : rest.head? = some (.punct mark)) : assignment? mark = none := by
  cases mark with
  | assign | addAssign | subAssign | mulAssign | divAssign | modAssign | andAssign | orAssign
  | xorAssign | shlAssign | shrAssign => exact absurd head (ends.head_ne (by decide))
  | _ => rfl

theorem assign_loosen (h : Takes s n kinds (Ends 2) (conditional (.upTo n)) Q) :
    Takes s n kinds (Ends 2) (assign (.upTo n)) Q := by
  apply h.andThen
  intro e holds
  apply Takes.peek
  intro rest ends
  rw [nil_append]
  rcases head : rest.head? with - | kind
  · exact .pure holds
  · cases kind with
    | punct mark =>
      simp only [assignment?_eq_none ends head]
      exact .pure holds
    | _ => exact .pure holds

theorem untyped_takes {α : Type} {Q : α → Prop} {yes no : Parse α} (starts : Starts s 15 kinds)
    (h : Takes s n kinds follow no Q) :
    Takes s n kinds follow (do
      if (← Parse.isAt .openParen) && (← MonadState.get).startsType 1 then yes else no) Q := by
  obtain @⟨kind, more, -, -, -, group⟩ := starts
  apply Takes.isAt
  intro rest follows
  apply Takes.get
  intro tokens last rest' same tokens_eq
  subst same
  rw [if_neg]
  · exact h.narrow follows
  · intro both
    rw [Bool.and_eq_true, beq_iff_eq, cons_append, List.head?_cons, Option.some.injEq] at both
    obtain ⟨inner, head, untyped⟩ := group (Nat.le_refl 15) both.1
    have second : (s.reading tokens last).peekAt? 1 = some inner := by
      rw [ParseState.peekAt?_reading, tokens_eq, cons_append, List.getElem?_cons_succ,
        ← List.head?_eq_getElem?, List.head?_append, head]
      rfl
    rw [ParseState.startsType_eq, second] at both
    exact Bool.false_ne_true (untyped.symm.trans both.2)

theorem unary_loosen (starts : Starts s 16 kinds)
    (h : Takes s n kinds follow (postfixExpr (.upTo n)) Q) :
    Takes s n kinds follow (unary (.upTo n)) Q := by
  obtain @⟨kind, more, -, -, operand, -⟩ := starts
  apply Takes.here
  intro start
  apply Takes.peek
  intro rest follows
  have kept := h.narrow follows
  rcases operand (Nat.le_refl 16) with value | name | -
  · exact kept
  · exact kept
  · exact kept

theorem loosen (le : 1 ≤ level) (lt : level ≤ 16) (starts : Starts s (level + 1) kinds)
    (h : Takes s n kinds (Ends (level + 1)) (rule (.upTo n) (level + 1)) Q) :
    Takes s n kinds (Ends level) (rule (.upTo n) level) Q := by
  by_cases repeated : Repeated level
  · exact (Climbs.ofTakes repeated h).takes repeated
  · have others : level = 2 ∨ level = 3 ∨ level = 14 ∨ level = 15 := by
      unfold Repeated at repeated
      omega
    have wider : ∀ rest, Ends level rest → Ends (level + 1) rest :=
      fun rest ends => ends.mono (Nat.le_succ level)
    have held := h.follow_imp wider
    rcases others with rfl | rfl | rfl | rfl
    · exact assign_loosen held
    · apply held.andThen
      intro e holds
      exact .skip (fun rest ends => ends.head_ne (by decide)) (.pure holds)
    · exact untyped_takes starts held
    · exact unary_loosen starts held

theorem loosen_to (limit level : Nat) (le : 1 ≤ limit) (lt : limit ≤ level) (bound : level ≤ 17)
    (starts : Starts s level kinds)
    (h : Takes s n kinds (Ends level) (rule (.upTo n) level) Q) :
    Takes s n kinds (Ends limit) (rule (.upTo n) limit) Q := by
  induction lt using Nat.decreasingInduction with
  | self => exact h
  | of_succ limit lt ih =>
    exact loosen le (by omega) (starts.mono lt) (ih (by omega))

theorem primary_parenthesized (nonempty : kinds ≠ [])
    (inner : ∀ m, Takes s m kinds (Ends 1) (expr (.upTo m)) Q) :
    Takes s n (Expr.parenthesized kinds) follow (primary (.upTo n)) Q := by
  apply Takes.peek
  intro rest _
  apply next_takes.after
  intro token kind_eq
  simp only [primaryToken, kind_eq]
  have phrase := Takes.nested (x := Below.expr) (y := expr) (fun _ => rfl) inner
    (Nat.le_refl (n - 1)) nonempty
  apply phrase.bind
  · intro e holds
    exact expect_takes.andThen fun _ _ => .pure holds
  · intro rest _
    exact Nat.zero_lt_one

theorem primary_num (value : Int64) :
    Takes s n [.int value] follow (primary (.upTo n)) fun e => ∃ loc, e = .numAt loc value := by
  apply Takes.peek
  intro rest _
  apply next_takes.andThen
  intro token kind_eq
  simp only [primaryToken, kind_eq]
  exact .pure ⟨_, rfl⟩

theorem primary_name {name : String} (found : ∀ loc, ∃ e, s.lookup? name loc = some e ∧ P e) :
    Takes s n [.id name] (Ends 17) (primary (.upTo n)) P := by
  apply Takes.peek
  intro rest ends
  apply next_takes.andThen
  intro token kind_eq
  simp only [primaryToken, kind_eq]
  apply Takes.skip (fun rest' same => same ▸ ends.head_ne (by decide))
  apply Takes.get
  intro tokens last rest' _ _
  obtain ⟨e, lookup, holds⟩ := found token.loc
  have same : (s.reading tokens last).lookup? name token.loc = some e := lookup
  simp only [same]
  exact .pure holds

/-! ## Types -/

theorem pointers_takes (count : Nat) (ty : CType) (le : m ≤ n) :
    Takes s m (List.replicate count (.punct .star)) (·.head? ≠ some (.punct .star))
      (pointers (.upTo n) ty) (· = CType.ptr^[count] ty) := by
  apply Repeats.loop _ le
  clear le
  induction count generalizing m ty with
  | zero =>
    apply Repeats.done
    exact .skip (fun rest other => other) (.pure ⟨ty, rfl, rfl⟩)
  | succ count ih =>
    have star : Takes s m [.punct .star] (fun _ => True) (starPart ty)
        fun round => ∃ ty', round = .more ty' ∧ ty' = .ptr ty :=
      .eat (.pure ⟨_, rfl, rfl⟩)
    show Repeats s m ([.punct .star] ++ List.replicate count (.punct .star)) _ _ ty _
    apply Repeats.more star (cons_ne_nil _ _)
    · rintro _ rfl
      exact ih (.ptr ty)
    · intro rest _
      trivial

theorem arrayTypes_takes {lengths : List (Location × UInt32)}
    (arrays : s.structs.arrays? element (lengths.map (·.2)).reverse = some ty) :
    Takes s n [] follow
      (lengths.foldlM (fun element (start, length) => arrayType element start length) element)
      (· = ty) := by
  induction lengths generalizing element with
  | nil =>
    rw [map_nil, reverse_nil, Structs.arrays?, Option.some.injEq] at arrays
    exact .pure arrays
  | cons entry lengths ih =>
    obtain ⟨start, length⟩ := entry
    rw [map_cons, reverse_cons, Structs.arrays?_snoc] at arrays
    obtain ⟨inner, checked, arrays⟩ := Option.bind_eq_some_iff.mp arrays
    have array : Takes s n [] (fun _ => True) (arrayType element start length) (· = inner) := by
      apply Takes.get
      intro tokens last rest _ _
      have same : (s.reading tokens last).structs.checkedArray element length = some inner :=
        checked
      simp only [same]
      exact .pure rfl
    rw [foldlM_cons]
    apply array.before
    · rintro _ rfl
      exact ih arrays
    · intro rest _
      trivial

theorem conditional_num (value : Int64) :
    Takes s n [.int value] (Ends 3) (conditional (.upTo n)) fun e => ∃ loc, e = .numAt loc value :=
  loosen_to 3 17 (by omega) (by omega) (by omega)
    (.single (by simp) (by simp) rfl fun _ => .int value) (primary_num value)

theorem lengthValue {length : UInt32} (nonzero : length ≠ 0) :
    (0 < Int64.ofNat length.toNat ∧ Int64.ofNat length.toNat ≤ 4294967295) ∧
      UInt32.ofNat (Int64.ofNat length.toNat).toInt.toNat = length := by
  have small : length.toNat < 2 ^ 32 := length.toNat_lt
  have pos : 0 < length.toNat := by
    apply Nat.pos_of_ne_zero
    intro zero
    exact nonzero (UInt32.toNat_inj.mp zero)
  have value : (Int64.ofNat length.toNat).toInt = length.toNat :=
    Int64.toInt_ofNat_of_lt (by omega)
  refine ⟨⟨?_, ?_⟩, ?_⟩
  · rw [Int64.lt_iff_toInt_lt, value]
    exact Int.ofNat_lt.mpr pos
  · rw [Int64.le_iff_toInt_le, value]
    show (length.toNat : Int) ≤ 4294967295
    omega
  · rw [value, Int.toNat_natCast, UInt32.ofNat_toNat]

theorem arrayLength_takes (length : UInt32) (lt : m ≤ n - 1) :
    Takes s m (lengthTokens length) (·.head? = some (.punct .closeSquare))
      (arrayLength (.upTo n)) (· = length) := by
  unfold lengthTokens
  split
  · apply Takes.isAt
    intro rest head
    rw [nil_append, head, if_pos (by decide)]
    exact .pure (Eq.symm ‹_›)
  · obtain ⟨bounds, same⟩ := lengthValue ‹_›
    apply Takes.isAt
    intro rest head
    rw [cons_append, List.head?_cons, if_neg (by simp)]
    have number := Takes.nested (x := Below.conditional) (y := conditional) (s := s)
      (fun _ => rfl) (fun _ => conditional_num (Int64.ofNat length.toNat)) lt
      (cons_ne_nil _ _)
    have ends : ∀ rest', rest' = rest → Ends 3 rest' := by
      rintro _ rfl
      rw [Ends, head]
      exact Nat.zero_lt_succ 2
    apply (number.follow_imp ends).andThen
    rintro _ ⟨loc, rfl⟩
    show Takes s _ [] _ (if 0 < Int64.ofNat length.toNat ∧ Int64.ofNat length.toNat ≤ 4294967295
      then _ else _) _
    rw [if_pos bounds, same]
    exact .pure rfl

theorem suffixPart_takes (length : UInt32) (lengths : List (Location × UInt32)) (le : m ≤ n) :
    Takes s m (suffixTokens length) (fun _ => True) (suffixPart (.upTo n) lengths) fun round =>
      ∃ next, round = .more next ∧ next.map (·.2) = length :: lengths.map (·.2) := by
  apply Takes.eat
  apply Takes.here
  intro start
  apply (arrayLength_takes length (Nat.sub_le_sub_right le 1)).bind
  · rintro _ rfl
    exact expect_takes.andThen fun _ _ => .pure ⟨_, rfl, rfl⟩
  · intro rest _
    rfl

theorem suffixParts_repeat (lengths : List UInt32) (before : List (Location × UInt32))
    (le : m ≤ n) :
    Repeats s m (lengths.flatMap suffixTokens) (·.head? ≠ some (.punct .openSquare))
      (suffixPart (.upTo n)) before fun found =>
        (found.map (·.2)).reverse = (before.map (·.2)).reverse ++ lengths := by
  induction lengths generalizing m before with
  | nil =>
    apply Repeats.done
    exact .skip (fun rest other => other) (.pure ⟨before, rfl, (append_nil _).symm⟩)
  | cons length lengths ih =>
    apply Repeats.more (suffixPart_takes length before le) (cons_ne_nil _ _)
    · intro next next_eq
      have shifted : (before.map (·.2)).reverse ++ length :: lengths =
          (next.map (·.2)).reverse ++ lengths := by
        rw [next_eq, reverse_cons, append_assoc, singleton_append]
      rw [shifted]
      exact ih next (Nat.le_trans (Nat.sub_le ..) le)
    · intro rest _
      trivial

theorem typeSuffix_takes {lengths : List UInt32} (le : m ≤ n)
    (arrays : s.structs.arrays? element lengths = some ty) :
    Takes s m (lengths.flatMap suffixTokens) (·.head? ≠ some (.punct .openSquare))
      (typeSuffix (.upTo n) element) (· = ty) := by
  apply ((suffixParts_repeat lengths [] le).loop le).andThen
  intro found lengths_eq
  apply arrayTypes_takes
  rw [lengths_eq]
  exact arrays

def EndsWords (rest : List TokenKind) : Prop :=
  rest.head? = some (.punct .star) ∨ rest.head? = some (.punct .openSquare) ∨
    rest.head? = some (.punct .closeParen)

theorem specWord_ends (below : Below) (words : SpecWords) :
    Takes s n [] EndsWords (specWord below words) fun round => ∃ b, round = .done b ∧ b = words := by
  apply Takes.peek
  rintro rest (head | head | head) <;> rw [nil_append, head] <;> exact .pure ⟨words, rfl, rfl⟩

theorem EndsWords.head_ne (ends : EndsWords rest) {kind : TokenKind}
    (other : kind ≠ .punct .star ∧ kind ≠ .punct .openSquare ∧ kind ≠ .punct .closeParen) :
    rest.head? ≠ some kind := by
  rcases ends with head | head | head <;> rw [head, ne_eq, Option.some.injEq]
  · exact other.1.symm
  · exact other.2.1.symm
  · exact other.2.2.symm

theorem structType_takes {tag : String} (visible : s.scope.tag? tag = some ty) :
    Takes s m [.id tag] EndsWords (structType (.upTo n)) (· = ty) := by
  apply Takes.get
  intro tokens last rest ends _
  have name : Takes s m [.id tag] (· = rest) identifier?
      fun found => ∃ loc, found = some ⟨tag, loc⟩ := by
    apply Takes.peek
    intro rest' _
    apply identifier_takes.andThen
    rintro ⟨value, loc⟩ rfl
    exact .pure ⟨loc, rfl⟩
  apply name.andThen
  rintro _ ⟨loc, rfl⟩
  apply Takes.skip (fun rest' same => same ▸ ends.head_ne (by decide))
  apply Takes.get
  intro tokens last rest' _ _
  have same : (s.reading tokens last).scope.tag? tag = some ty := visible
  simp only [same]
  exact .pure rfl

theorem specWord_takes (named : Named s base words) :
    Takes s m words EndsWords (specWord (.upTo n) {}) fun round =>
      ∃ next, round = .more next ∧ next.type? = some base := by
  apply Takes.peek
  intro rest ends
  cases named with
  | void | char | int | long => exact advance_takes.andThen fun _ _ => .pure ⟨_, rfl, rfl⟩
  | struct visible =>
    apply advance_takes.after
    intro _ _
    apply ((structType_takes visible).follow_imp _).andThen
    · rintro _ rfl
      exact .pure ⟨_, rfl, rfl⟩
    · rintro _ rfl
      exact ends
  | @typedef name _ visible =>
    apply Takes.get
    intro tokens last rest' _ _
    have same : (s.reading tokens last).scope.typedef? name = some base := visible
    simp only [same]
    exact advance_takes.andThen fun _ _ => .pure ⟨_, rfl, rfl⟩

theorem declSpec_takes (named : Named s base words) (le : m ≤ n) :
    Takes s m words EndsWords (declSpec (.upTo n)) fun spec => spec.ty = base := by
  apply Takes.here
  intro start
  have all : Repeats s m (words ++ []) EndsWords (specWord (.upTo n)) {}
      fun found => found.type? = some base := by
    apply Repeats.more (specWord_takes named) named.ne_nil _ fun _ => id
    intro next next_type
    apply Repeats.done
    apply (specWord_ends (.upTo n) next).imp
    rintro _ ⟨_, rfl, rfl⟩
    exact ⟨_, rfl, next_type⟩
  rw [append_nil] at all
  apply (all.loop le).andThen
  intro found found_type
  simp only [found_type]
  exact .pure rfl

theorem typeName_takes (spells : Spells s ty kinds) (le : m ≤ n) :
    Takes s m kinds (·.head? = some (.punct .closeParen)) (typeName (.upTo n)) (· = ty) := by
  obtain ⟨stars, lengths, named, arrays⟩ := spells
  have suffix_head : ∀ rest : List TokenKind, rest.head? = some (.punct .closeParen) →
      (lengths.flatMap suffixTokens ++ rest).head? ≠ some (.punct .star) ∧
        EndsWords (lengths.flatMap suffixTokens ++ rest) := by
    intro rest head
    cases lengths with
    | nil => exact ⟨by simp [head], .inr (.inr head)⟩
    | cons length lengths => exact ⟨by simp [suffixTokens], .inr (.inl rfl)⟩
  apply (declSpec_takes named le).bind
  · rintro ⟨base, _, _, _⟩ rfl
    apply (pointers_takes stars base (Nat.le_trans (Nat.sub_le ..) le)).bind
    · rintro _ rfl
      apply (typeSuffix_takes (by omega) arrays).follow_imp
      intro rest head
      simp [head]
    · intro rest head
      exact (suffix_head rest head).1
  · intro rest head
    rw [append_assoc]
    cases stars with
    | zero => exact (suffix_head rest head).2
    | succ stars => exact .inl rfl

/-! ## Expressions -/

/-- The three ways an expression is read back: its first tokens tell it from a
type, the rule of its level reads it, and so does that rule with more parts. -/
structure ReadBack (s : ParseState) (w : Spelling) (e : Expr) : Prop where
  starts : Starts s e.level (e.written w)
  takes : ∀ n, Takes s n (e.written w) (Ends e.level) (rule (.upTo n) e.level)
    (·.erase = e.erase)
  climbs : Repeated e.level → ∀ n, Climbs s n e.level (e.written w) (·.erase = e.erase)

namespace ReadBack

variable {w : Spelling} {e : Expr}

theorem ofTakes (starts : Starts s e.level (e.written w)) (single : ¬ Repeated e.level)
    (takes : ∀ n, Takes s n (e.written w) (Ends e.level) (rule (.upTo n) e.level)
      (·.erase = e.erase)) : ReadBack s w e :=
  ⟨starts, takes, fun repeated => absurd repeated single⟩

theorem ofClimbs (starts : Starts s e.level (e.written w)) (repeated : Repeated e.level)
    (climbs : ∀ n, Climbs s n e.level (e.written w) (·.erase = e.erase)) : ReadBack s w e :=
  ⟨starts, fun n => (climbs n).takes repeated, fun _ => climbs⟩

theorem within (h : ReadBack s w e) (limit target : Nat) (pos : 1 ≤ limit) (le : limit ≤ target)
    (bound : target ≤ 17) (n : Nat) :
    Takes s n (Expr.within target e.level (e.written w)) (Ends limit) (rule (.upTo n) limit)
      (·.erase = e.erase) := by
  unfold Expr.within
  split
  · exact loosen_to _ _ pos (Nat.le_trans le ‹_›) e.level_bounds.2 h.starts (h.takes n)
  · have inner : ∀ m, Takes s m (e.written w) (Ends 1) (expr (.upTo m)) (·.erase = e.erase) :=
      fun m => loosen_to _ _ (Nat.le_refl 1) e.level_bounds.1 e.level_bounds.2 h.starts (h.takes m)
    exact loosen_to _ _ pos (Nat.le_trans le bound) (Nat.le_refl 17) h.starts.parenthesized
      (primary_parenthesized h.starts.ne_nil inner)

theorem within_ne_nil {target : Nat} (h : ReadBack s w e) :
    Expr.within target e.level (e.written w) ≠ [] :=
  h.starts.within.ne_nil

theorem climbs_within (h : ReadBack s w e) (repeated : Repeated level) (n : Nat) :
    Climbs s n level (Expr.within level e.level (e.written w)) (·.erase = e.erase) := by
  by_cases same : e.level = level
  · subst same
    rw [Expr.within, if_pos (Nat.le_refl _)]
    exact h.climbs repeated n
  · have tighter : Expr.within level e.level (e.written w) =
        Expr.within (level + 1) e.level (e.written w) := by
      unfold Expr.within
      split <;> split <;> first | rfl | omega
    rw [tighter]
    apply Climbs.ofTakes repeated
    unfold Repeated at repeated
    exact h.within _ _ (by omega) (Nat.le_refl _) (by omega) n

end ReadBack

variable {w : Spelling} {lhs rhs operand : Expr}

theorem binaryPart_takes (op : BinOp) (h : ReadBack s w rhs) (le : m ≤ n) (e : Expr) :
    Takes s m (.punct op.mark :: Expr.within (op.level + 1) rhs.level (rhs.written w))
      (Ends (op.level + 1)) (binaryPart (.upTo n) op.level e) fun round =>
        ∃ e', round = .more e' ∧ ∃ rhs', e' = .mkBinary op e rhs' ∧ rhs'.erase = rhs.erase := by
  have bounds := op.level_bounds
  apply (operator?_takes op).after
  rintro _ rfl
  have right := h.within _ _ (Nat.succ_pos op.level) (Nat.le_refl _) (by omega) n
  apply (right.le (Nat.le_trans (Nat.sub_le ..) le)).andThen
  intro rhs' same
  exact .pure ⟨_, rfl, rhs', rfl, same⟩

theorem commaPart_takes (h : ReadBack s w rhs) (le : m ≤ n) (e : Expr) :
    Takes s m (.punct .comma :: Expr.within 2 rhs.level (rhs.written w)) (Ends 2)
      (commaPart (.upTo n) e) fun round =>
        ∃ e', round = .more e' ∧ ∃ rhs', e' = .mkComma e rhs' ∧ rhs'.erase = rhs.erase := by
  apply Takes.eat
  have right := h.within 2 2 (by omega) (Nat.le_refl _) (by omega) n
  apply (right.le (Nat.le_trans (Nat.sub_le ..) le)).andThen
  intro rhs' same
  exact .pure ⟨_, rfl, rhs', rfl, same⟩

theorem memberPart_takes (name : String) (below : Below) (e : Expr) :
    Takes s m [.punct .period, .id name] follow (postfixPart below e) fun round =>
      ∃ e', round = .more e' ∧ e'.erase = (Expr.mkMember e name).erase := by
  apply Takes.skip (fun rest _ => by simp)
  apply Takes.eat
  apply identifier_takes.andThen
  rintro ⟨_, _⟩ rfl
  apply Takes.spanFrom
  intro loc
  exact .pure ⟨_, rfl, Expr.erase_withLoc _ _⟩

theorem updatePart_takes (dir : Update) (below : Below) (e : Expr) :
    Takes s m [.punct dir.mark] follow (postfixPart below e) fun round =>
      ∃ e', round = .more e' ∧ ∃ loc, e' = .update ⟨.void, loc⟩ dir e := by
  apply Takes.skip (fun rest _ => by cases dir <;> simp [Update.mark])
  apply Takes.skip (fun rest _ => by cases dir <;> simp [Update.mark])
  apply Takes.skip (fun rest _ => by cases dir <;> simp [Update.mark])
  cases dir with
  | inc => exact .eat (.spanFrom fun loc => .pure ⟨_, rfl, loc, rfl⟩)
  | dec =>
    apply Takes.skip (fun rest _ => by simp [Update.mark])
    exact .eat (.spanFrom fun loc => .pure ⟨_, rfl, loc, rfl⟩)

theorem prefixNode_takes (h : ReadBack s w operand) (start : Location) (node : Note → Expr → Expr) :
    Takes s (n - 1) (Expr.within 14 operand.level (operand.written w)) (Ends 15)
      (prefixNode (.upTo n) start node) fun e =>
        ∃ loc operand', e = node ⟨.void, loc⟩ operand' ∧ operand'.erase = operand.erase := by
  have inner := Takes.nested (x := Below.cast) (y := cast) (fun _ => rfl)
    (h.within 14 14 (by omega) (Nat.le_refl _) (by omega))
    (Nat.le_refl (n - 1)) h.within_ne_nil
  apply (inner.follow_imp fun _ => Ends.tighten).andThen
  intro operand' same
  exact .spanFrom fun loc => .pure ⟨loc, operand', rfl, same⟩

def prefixes : List (Punct × (Note → Expr → Expr)) := [
  (.minus, (.unary · .neg ·)), (.bang, (.unary · .not ·)), (.tilde, (.unary · .bitNot ·)),
  (.amp, .addr), (.star, .deref)
]

theorem unary_prefix (listed : (mark, node) ∈ prefixes) (h : ReadBack s w operand) :
    Takes s n (.punct mark :: Expr.within 14 operand.level (operand.written w)) (Ends 15)
      (unary (.upTo n)) fun e =>
        ∃ loc operand', e = node ⟨.void, loc⟩ operand' ∧ operand'.erase = operand.erase := by
  apply Takes.here
  intro start
  apply Takes.peek
  intro rest ends
  have inner := (prefixNode_takes (n := n) h start node).narrow ends
  simp only [prefixes, mem_cons, Prod.mk.injEq, not_mem_nil, or_false] at listed
  rcases listed with ⟨rfl, rfl⟩ | ⟨rfl, rfl⟩ | ⟨rfl, rfl⟩ | ⟨rfl, rfl⟩ | ⟨rfl, rfl⟩ <;>
    exact advance_takes.after fun _ _ => inner

theorem ReadBack.prefixed {note : Note} (h : ReadBack s w operand)
    (listed : (mark, node) ∈ prefixes) (untyped : note.ty = .void) :
    ReadBack s w (node note operand) := by
  have takes := fun n => unary_prefix (n := n) listed h
  simp only [prefixes, mem_cons, Prod.mk.injEq, not_mem_nil, or_false] at listed
  rcases listed with ⟨rfl, rfl⟩ | ⟨rfl, rfl⟩ | ⟨rfl, rfl⟩ | ⟨rfl, rfl⟩ | ⟨rfl, rfl⟩
  all_goals
    refine .ofTakes (.single (by decide) (by decide) rfl (by simp [Expr.level]))
      (show ¬ Repeated 15 by decide) fun n => (takes n).imp ?_
    rintro _ ⟨loc, operand', rfl, same⟩
    rw [Expr.erase, Expr.erase, untyped, same]

theorem unary_sizeof (h : ReadBack s w operand) :
    Takes s n (.keyword .sizeof :: Expr.within 15 operand.level (operand.written w)) (Ends 15)
      (unary (.upTo n)) fun e =>
        ∃ loc operand', e = .sizeof ⟨.void, loc⟩ operand' ∧ operand'.erase = operand.erase := by
  apply Takes.here
  intro start
  apply Takes.peek
  intro rest ends
  apply advance_takes.after
  intro _ _
  apply untyped_takes h.starts.within
  have inner := Takes.nested (x := Below.unary) (y := unary) (fun _ => rfl)
    (h.within 15 15 (by omega) (Nat.le_refl _) (by omega)) (Nat.le_refl (n - 1)) h.within_ne_nil
  apply (inner.narrow ends).andThen
  intro operand' same
  exact .spanFrom fun loc => .pure ⟨loc, operand', rfl, same⟩

/-- A cast is read back if its operand is. -/
theorem cast_takes {target : CType} (spells : Spells s target (w.type target))
    (h : ReadBack s w operand) :
    Takes s n (.punct .openParen :: (w.type target ++
        .punct .closeParen :: Expr.within 14 operand.level (operand.written w))) (Ends 14)
      (cast (.upTo n)) fun e =>
        ∃ loc operand', e = .cast ⟨.void, loc⟩ target operand' ∧ operand'.erase = operand.erase := by
  have inner := Takes.nested (x := Below.cast) (y := cast) (fun _ => rfl)
    (h.within 14 14 (by omega) (Nat.le_refl _) (by omega)) (Nat.le_refl (n - 1)) h.within_ne_nil
  obtain ⟨word, more, words_eq, names⟩ := spells.head
  apply Takes.isAt
  intro rest ends
  apply Takes.get
  intro tokens last rest' same tokens_eq
  subst same
  have second : (s.reading tokens last).peekAt? 1 = some word := by
    rw [ParseState.peekAt?_reading, tokens_eq, words_eq]
    rfl
  have typed : (s.reading tokens last).startsType 1 = true := by
    rw [ParseState.startsType_eq, second]
    exact names
  rw [typed, if_pos (by simp)]
  apply Takes.here
  intro start
  apply advance_takes.after
  intro _ _
  apply (typeName_takes spells (Nat.sub_le n 1)).bind
  · rintro _ rfl
    apply expect_takes.after
    intro _ _
    apply ((inner.narrow ends).le (by omega)).andThen
    intro operand' same
    exact .pure ⟨_, operand', rfl, same⟩
  · intro rest _
    rfl

theorem assign_takes (left : ReadBack s w lhs) (right : ReadBack s w rhs) :
    Takes s n (Expr.within w.target lhs.level (lhs.written w) ++
        .punct .assign :: Expr.within 2 rhs.level (rhs.written w)) (Ends 2)
      (assign (.upTo n)) fun e => ∃ loc lhs' rhs', e = .assign ⟨.void, loc⟩ lhs' rhs' ∧
        lhs'.erase = lhs.erase ∧ rhs'.erase = rhs.erase := by
  have loose := w.le_unary
  apply (left.within 3 w.target (by omega) w.conditional_le (by omega) n).bind
  · intro lhs' same
    apply Takes.peek
    intro rest ends
    apply advance_takes.after
    intro _ _
    have inner := Takes.nested (x := Below.assign) (y := assign) (fun _ => rfl)
      (right.within 2 2 (by omega) (Nat.le_refl _) (by omega)) (Nat.le_refl (n - 1))
      right.within_ne_nil
    apply ((inner.narrow ends).le (by omega)).andThen
    intro rhs' same'
    exact .pure ⟨_, lhs', rhs', rfl, same, same'⟩
  · intro rest _
    exact Nat.lt_succ_self 2

/-- A conditional expression is read back if its parts are. -/
theorem conditional_takes {test yes no : Expr} (first : ReadBack s w test)
    (second : ReadBack s w yes) (third : ReadBack s w no) :
    Takes s n (Expr.within 4 test.level (test.written w) ++
        .punct .question :: (Expr.within 1 yes.level (yes.written w) ++
          .punct .colon :: Expr.within 3 no.level (no.written w))) (Ends 3)
      (conditional (.upTo n)) fun e =>
        ∃ loc test' yes' no', e = .cond ⟨.void, loc⟩ test' yes' no' ∧
          test'.erase = test.erase ∧ yes'.erase = yes.erase ∧ no'.erase = no.erase := by
  apply (first.within 4 4 (by omega) (Nat.le_refl _) (by omega) n).bind
  · intro test' same
    apply Takes.eat
    have yes_takes := Takes.nested (x := Below.expr) (y := expr) (fun _ => rfl)
      (second.within 1 1 (by omega) (Nat.le_refl _) (by omega)) (Nat.le_refl (n - 1))
      second.within_ne_nil
    apply (yes_takes.le (by omega)).bind
    · intro yes' same'
      apply expect_takes.after
      intro _ _
      have no_takes := Takes.nested (x := Below.conditional) (y := conditional) (fun _ => rfl)
        (third.within 3 3 (by omega) (Nat.le_refl _) (by omega)) (Nat.le_refl (n - 1))
        third.within_ne_nil
      apply (no_takes.le (by omega)).andThen
      intro no' same''
      exact .pure ⟨_, test', yes', no', rfl, same, same', same''⟩
    · intro rest _
      exact Nat.zero_lt_one
  · intro rest _
    exact Nat.lt_succ_self 3

/-! ## Calls -/

theorem argument_takes {arg : Expr} (h : ReadBack s w arg) (lt : m ≤ n - 1) :
    Takes s m (Expr.within 2 arg.level (arg.written w)) (Ends 2) (Below.upTo n).assign
      (·.erase = arg.erase) :=
  Takes.nested (x := Below.assign) (y := assign) (fun _ => rfl)
    (h.within 2 2 (by omega) (Nat.le_refl _) (by omega)) lt h.within_ne_nil

theorem argumentParts_repeat (arg : Expr) (args before : List Expr)
    (all : ∀ e ∈ arg :: args, ReadBack s w e) (lt : m ≤ n - 1) :
    Repeats s m
      ([TokenKind.punct .comma].intercalate (Expr.writtenAll w (arg :: args)) ++
        [.punct .closeParen]) follow (argumentPart (.upTo n)) before fun found =>
        found.map Expr.erase = (before.reverse ++ arg :: args).map Expr.erase := by
  induction args generalizing m arg before with
  | nil =>
    have first := argument_takes (all arg mem_cons_self) lt
    rw [Expr.writtenAll, Expr.writtenAll, intercalate_singleton]
    apply Repeats.done
    apply first.bind
    · intro arg' same
      apply Takes.skip (fun rest _ => by simp)
      apply expect_takes.andThen
      intro _ _
      refine .pure ⟨_, rfl, ?_⟩
      rw [reverse_cons, map_append, map_append, map_singleton, map_singleton, same]
    · intro rest _
      exact Nat.zero_lt_two
  | cons next args ih =>
    have first : Takes s m (Expr.within 2 arg.level (arg.written w) ++ [.punct .comma])
        (fun _ => True) (argumentPart (.upTo n) before) fun round =>
          ∃ found, round = .more found ∧ found.map Expr.erase = (arg :: before).map Expr.erase := by
      apply (argument_takes (all arg mem_cons_self) lt).bind
      · intro arg' same
        refine .eat (.pure ⟨_, rfl, ?_⟩)
        rw [map_cons, map_cons, same]
      · intro rest _
        exact Nat.one_lt_two
    rw [Expr.writtenAll, Expr.writtenAll, intercalate_cons_cons, ← Expr.writtenAll, append_assoc]
    apply Repeats.more first (by simp)
    · intro found same
      have shifted : (before.reverse ++ arg :: next :: args).map Expr.erase =
          (found.reverse ++ next :: args).map Expr.erase := by
        rw [map_append, map_append, map_reverse, map_reverse, same]
        simp
      rw [shifted]
      exact ih next found (fun e mem => all e (mem_cons_of_mem _ mem)) (by omega)
    · intro rest _
      trivial

theorem arguments_takes (args : List Expr) (all : ∀ e ∈ args, ReadBack s w e) (lt : m ≤ n - 1) :
    Takes s m ([TokenKind.punct .comma].intercalate (Expr.writtenAll w args) ++
        [.punct .closeParen]) follow (arguments (.upTo n)) fun found =>
      found.map Expr.erase = args.map Expr.erase := by
  cases args with
  | nil => exact .eat (.pure rfl)
  | cons arg args =>
    apply Takes.skip
    · intro rest _
      obtain ⟨more, first_eq⟩ : ∃ more,
          [TokenKind.punct .comma].intercalate (Expr.writtenAll w (arg :: args)) =
            Expr.within 2 arg.level (arg.written w) ++ more := by
        cases args with
        | nil => exact ⟨[], by simp [Expr.writtenAll]⟩
        | cons => exact ⟨_, by rw [Expr.writtenAll, Expr.writtenAll, intercalate_cons_cons,
            append_assoc]⟩
      rw [first_eq, append_assoc, append_assoc]
      exact (all arg mem_cons_self).starts.within.head_ne _
    · exact (argumentParts_repeat arg args [] all lt).loop (by omega)

theorem primary_call (callee : String) (args : List Expr) (all : ∀ e ∈ args, ReadBack s w e) :
    Takes s n (.id callee :: .punct .openParen ::
        ([TokenKind.punct .comma].intercalate (Expr.writtenAll w args) ++ [.punct .closeParen]))
      follow (primary (.upTo n)) fun e =>
        ∃ loc found, e = .call ⟨.void, loc⟩ callee found ∧
          found.map Expr.erase = args.map Expr.erase := by
  apply Takes.peek
  intro rest _
  apply next_takes.after
  intro token kind_eq
  simp only [primaryToken, kind_eq]
  apply Takes.eat
  apply (arguments_takes args all (Nat.sub_le (n - 1) 1)).andThen
  intro found same
  exact .spanFrom fun loc => .pure ⟨loc, found, rfl, same⟩

/-! ## The whole tree -/

mutual

/-- Every expression that can be written is read back, by induction over the tree. -/
theorem readBack {s : ParseState} {w : Spelling} :
    (e : Expr) → e.Writable s w → ReadBack s w e
  | .num note value, writable => by
    have untyped : note.ty = .void := writable
    apply ReadBack.ofTakes (Expr.starts _ writable) (show ¬ Repeated 17 by decide)
    intro n
    apply (primary_num value).imp
    rintro _ ⟨loc, rfl⟩
    rw [Expr.numAt, Expr.erase, Expr.erase, untyped]
  | .str .., writable => writable.elim
  | .var note index, writable => by
    have untyped : note.ty = .void := writable.1
    apply ReadBack.ofTakes (Expr.starts _ writable) (show ¬ Repeated 17 by decide)
    intro n
    apply primary_name
    intro loc
    refine ⟨.var ⟨.void, loc⟩ index, ?_, ?_⟩
    · rw [ParseState.lookup?, writable.2]
    · rw [Expr.erase, Expr.erase, untyped]
  | .global note name, writable => by
    obtain ⟨untyped, no_local, -, declared⟩ := id writable
    apply ReadBack.ofTakes (Expr.starts _ writable) (show ¬ Repeated 17 by decide)
    intro n
    apply primary_name
    intro loc
    refine ⟨.global ⟨.void, loc⟩ name, ?_, ?_⟩
    · simp only [ParseState.lookup?, no_local, declared, if_true]
    · rw [Expr.erase, Expr.erase, untyped]
  | .binary note op scaled lhs rhs, writable => by
    obtain ⟨⟨untyped, unscaled⟩, left, right⟩ := id writable
    have repeated : Repeated op.level := .inr (.inl op.level_bounds)
    apply ReadBack.ofClimbs (Expr.starts _ writable) repeated
    intro n
    apply ((readBack lhs left).climbs_within repeated n).snoc _ (cons_ne_nil _ _)
    · intro rest
      exact Nat.lt_succ_of_le (Nat.le_of_eq op.strength_mark)
    · intro m le e same
      rw [part_eq_binaryPart op.level_bounds.1 op.level_bounds.2]
      apply (binaryPart_takes op (readBack rhs right) le e).imp
      rintro _ ⟨_, rfl, rhs', rfl, same'⟩
      refine ⟨_, rfl, ?_⟩
      rw [Expr.mkBinary, Expr.erase, Expr.erase, untyped, unscaled, same, same']
  | .assign note lhs rhs, writable => by
    obtain ⟨untyped, left, right⟩ := id writable
    apply ReadBack.ofTakes (Expr.starts _ writable) (show ¬ Repeated 2 by decide)
    intro n
    apply (assign_takes (readBack lhs left) (readBack rhs right)).imp
    rintro _ ⟨loc, lhs', rhs', rfl, same, same'⟩
    rw [Expr.erase, Expr.erase, untyped, same, same']
  | .comma note lhs rhs, writable => by
    obtain ⟨untyped, left, right⟩ := id writable
    have repeated : Repeated 1 := .inl rfl
    apply ReadBack.ofClimbs (Expr.starts _ writable) repeated
    intro n
    apply ((readBack lhs left).climbs_within repeated n).snoc _ (cons_ne_nil _ _)
    · intro rest
      exact Nat.one_lt_two
    · intro m le e same
      apply (commaPart_takes (readBack rhs right) le e).imp
      rintro _ ⟨_, rfl, rhs', rfl, same'⟩
      refine ⟨_, rfl, ?_⟩
      rw [Expr.mkComma, Expr.erase, Expr.erase, untyped, same, same']
  | .cond note test yes no, writable => by
    obtain ⟨untyped, first, second, third⟩ := id writable
    apply ReadBack.ofTakes (Expr.starts _ writable) (show ¬ Repeated 3 by decide)
    intro n
    apply (conditional_takes (readBack test first) (readBack yes second)
      (readBack no third)).imp
    rintro _ ⟨loc, test', yes', no', rfl, same, same', same''⟩
    rw [Expr.erase, Expr.erase, untyped, same, same', same'']
  | .unary _ op operand, writable => by
    have listed : (op.mark, (Expr.unary · op ·)) ∈ prefixes := by
      cases op <;> simp [prefixes, UnOp.mark]
    exact (readBack operand writable.2).prefixed listed writable.1
  | .addr _ operand, writable =>
    (readBack operand writable.2).prefixed (show (.amp, .addr) ∈ prefixes by simp [prefixes])
      writable.1
  | .deref _ operand, writable =>
    (readBack operand writable.2).prefixed (show (.star, .deref) ∈ prefixes by simp [prefixes])
      writable.1
  | .member note base name offset, writable => by
    obtain ⟨⟨untyped, unplaced⟩, inner⟩ := id writable
    have repeated : Repeated 16 := .inr (.inr rfl)
    apply ReadBack.ofClimbs (Expr.starts _ writable) repeated
    intro n
    apply ((readBack base inner).climbs_within repeated n).snoc _ (cons_ne_nil _ _)
    · intro rest
      exact Nat.lt_succ_self 16
    · intro m le e same
      apply (memberPart_takes name (.upTo n) e).imp
      rintro _ ⟨e', rfl, same'⟩
      refine ⟨e', rfl, ?_⟩
      rw [same', Expr.mkMember, Expr.erase, Expr.erase, untyped, unplaced, same]
  | .call note callee args, writable => by
    obtain ⟨untyped, -, all⟩ := id writable
    apply ReadBack.ofTakes (Expr.starts _ writable) (show ¬ Repeated 17 by decide)
    intro n
    apply (primary_call callee args (readBackAll args all)).imp
    rintro _ ⟨loc, found, rfl, same⟩
    rw [Expr.erase, Expr.erase, Expr.eraseAll_eq_map, Expr.eraseAll_eq_map, untyped, same]
  | .cast note target operand, writable => by
    obtain ⟨untyped, spells, inner⟩ := id writable
    apply ReadBack.ofTakes (Expr.starts _ writable) (show ¬ Repeated 14 by decide)
    intro n
    apply (cast_takes spells (readBack operand inner)).imp
    rintro _ ⟨loc, operand', rfl, same⟩
    rw [Expr.erase, Expr.erase, untyped, same]
  | .sizeof note operand, writable => by
    obtain ⟨untyped, inner⟩ := id writable
    apply ReadBack.ofTakes (Expr.starts _ writable) (show ¬ Repeated 15 by decide)
    intro n
    apply (unary_sizeof (readBack operand inner)).imp
    rintro _ ⟨loc, operand', rfl, same⟩
    rw [Expr.erase, Expr.erase, untyped, same]
  | .update note dir target, writable => by
    obtain ⟨untyped, inner⟩ := id writable
    have repeated : Repeated 16 := .inr (.inr rfl)
    apply ReadBack.ofClimbs (Expr.starts _ writable) repeated
    intro n
    apply ((readBack target inner).climbs_within repeated n).snoc _ (cons_ne_nil _ _)
    · intro rest
      cases dir <;> exact Nat.lt_succ_self 16
    · intro m le e same
      apply (updatePart_takes dir (.upTo n) e).imp
      rintro _ ⟨_, rfl, loc, rfl⟩
      refine ⟨_, rfl, ?_⟩
      rw [Expr.erase, Expr.erase, untyped, same]

theorem readBackAll {s : ParseState} {w : Spelling} :
    (args : List Expr) → Expr.AllWritable s w args → ∀ e ∈ args, ReadBack s w e
  | [], _ => by simp
  | arg :: args, writable => by
    rintro e (_ | ⟨_, mem⟩)
    · exact readBack arg writable.1
    · exact readBackAll args writable.2 e mem

end

/-- An expression that is written where its names are visible, before a semicolon,
is read back up to its places, and nothing but its tokens is taken. -/
theorem expr_written (s : ParseState) (w : Spelling) (e : Expr) (n : Nat)
    (tokens rest : List Lexed) (semicolon : Lexed) (writable : e.Writable s w)
    (tokens_eq : kindsOf tokens = e.written w)
    (semicolon_eq : semicolon.value.kind = .punct .semicolon)
    (input : s.tokens = tokens ++ semicolon :: rest) (fits : s.tokens.length ≤ n) :
    ∃ e' last, expr (.upTo n) s = .ok e' { s with tokens := semicolon :: rest, last } ∧
      e'.erase = e.erase := by
  have back := readBack e writable
  have whole := loosen_to 1 e.level (Nat.le_refl 1) e.level_bounds.1 e.level_bounds.2 back.starts
    (back.takes n)
  have ends : Ends 1 (kindsOf (semicolon :: rest)) := by
    rw [kindsOf, map_cons, Ends, List.head?_cons, semicolon_eq]
    exact Nat.zero_lt_one
  rw [input] at fits
  obtain ⟨e', last, run, same⟩ := whole tokens (semicolon :: rest) s.last tokens_eq ends fits
  rw [ParseState.reading, ← input] at run
  exact ⟨e', last, run, same⟩

def scopeBefore (kinds : List TokenKind) : ParseState where
  tokens := kinds.map fun kind => ⟨⟨kind, false⟩, Expr.nowhere⟩
  last := Expr.nowhere
  scope := ⟨{ vars := [("x", 0)], typedefs := [("T", .int)] }, []⟩
  globals := [⟨"g", .int, none, false, false, Expr.nowhere⟩]

def pointerSpelling : Spelling where
  var _ := "x"
  type _ := [.id "T", .punct .star]
  target := 15
  conditional_le := by decide
  le_unary := by decide

/-- The tree of `x = (g, x++) < sizeof (x + 1) ? f(x - (g - 1), (T *) x) : (*&g).m`. -/
def mixedTree : Expr :=
  let note : Note := ⟨.void, Expr.nowhere⟩
  let x := Expr.var note 0
  let g := Expr.global note "g"
  let one := Expr.num note 1
  .assign note x (.cond note
    (.binary note .lt false (.comma note g (.update note .inc x))
      (.sizeof note (.binary note .add false x one)))
    (.call note "f" [.binary note .sub false x (.binary note .sub false g one),
      .cast note (.ptr .int) x])
    (.member note (.deref note (.addr note g)) "m" 0))

theorem mixedTree_writable (kinds : List TokenKind) :
    mixedTree.Writable (scopeBefore kinds) pointerSpelling := by
  have x : (Expr.var ⟨.void, Expr.nowhere⟩ 0).Writable (scopeBefore kinds) pointerSpelling :=
    ⟨rfl, rfl⟩
  have g : (Expr.global ⟨.void, Expr.nowhere⟩ "g").Writable (scopeBefore kinds) pointerSpelling :=
    ⟨rfl, rfl, rfl, rfl⟩
  have pointer : Spells (scopeBefore kinds) (.ptr .int) [.id "T", .punct .star] :=
    .intro 1 [] (.typedef rfl) rfl
  exact ⟨rfl, x, rfl, ⟨⟨rfl, rfl⟩, ⟨rfl, g, rfl, x⟩, rfl, ⟨rfl, rfl⟩, x, rfl⟩,
    ⟨rfl, rfl, ⟨⟨rfl, rfl⟩, x, ⟨rfl, rfl⟩, g, rfl⟩, ⟨rfl, pointer, x⟩, trivial⟩,
    ⟨rfl, rfl⟩, rfl, rfl, g⟩

theorem expr_written_mixedTree :
    mixedTree.Writable (scopeBefore (mixedTree.written pointerSpelling ++ [.punct .semicolon]))
      pointerSpelling ∧
    ∃ e last,
      expr (.upTo 64) (scopeBefore (mixedTree.written pointerSpelling ++ [.punct .semicolon])) =
        .ok e { scopeBefore [.punct .semicolon] with last } ∧ e.erase = mixedTree.erase :=
  ⟨mixedTree_writable _, expr_written _ pointerSpelling mixedTree 64
    (scopeBefore (mixedTree.written pointerSpelling)).tokens []
    ⟨⟨.punct .semicolon, false⟩, Expr.nowhere⟩ (mixedTree_writable _) rfl rfl rfl (by decide)⟩

def typeCall : Expr :=
  let note : Note := ⟨.void, Expr.nowhere⟩
  let one := Expr.num note 1
  .binary note .mul false (.binary note .add false (.call note "T" [one]) one) (.num note 2)

/-- A call is not read back if the name of the function is also that of a type:
after a parenthesis, it starts a cast. -/
theorem expr_typeCall_fails : ¬ ∃ e s,
    expr (.upTo 16) (scopeBefore (typeCall.written pointerSpelling ++ [.punct .semicolon])) =
      .ok e s := by
  rintro ⟨e, s, run⟩
  cases run

end Grammar

end MiniC
