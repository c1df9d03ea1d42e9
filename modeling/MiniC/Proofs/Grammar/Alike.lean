import MiniC.Proofs.Grammar.Changes

/-!
# Running a rule over two records

`Alike` runs a rule over two records of rules for nested phrases at once: with at most `n` tokens
left the two runs are the same, none of them puts tokens back, and some of their answers cost a
token. One lemma for each way to build a rule carries it through the grammar; a loop is alike if
its rounds are, and if each of them but the last costs a token.
-/

namespace MiniC

def Round.IsMore {α β : Type} : Round α β → Prop
  | .more _ => True
  | .done _ => False

namespace Parse

variable {α β : Type}

/-- In a state two steps do the same and put no tokens back, and an answer of which `P` holds
costs a token. -/
def AlikeAt (s : ParseState) (x y : Parse α) (P : α → Prop) : Prop :=
  x s = y s ∧ ∀ a t, x s = .ok a t →
    t.tokens.length ≤ s.tokens.length ∧ (P a → t.tokens.length < s.tokens.length)

def Alike (n : Nat) (x y : Parse α) (P : α → Prop) : Prop :=
  ∀ s : ParseState, s.tokens.length ≤ n → AlikeAt s x y P

/-- Two steps are alike on at most `n` tokens, of which the first is of a given kind. -/
def AlikeNext (kind : TokenKind) (n : Nat) (x y : Parse α) (P : α → Prop) : Prop :=
  ∀ s : ParseState, s.peekAt? 0 = some kind → s.tokens.length ≤ n → AlikeAt s x y P

/-- Any answer costs a token. -/
abbrev Costs (n : Nat) (x y : Parse α) : Prop := Alike n x y fun _ => True

/-- An answer may be free. -/
abbrev Free (n : Nat) (x y : Parse α) : Prop := Alike n x y fun _ => False

section Alike

variable {n m : Nat} {kind : TokenKind} {x y x' y' : Parse α} {P Q : α → Prop} {R : β → Prop}

variable {s : ParseState} {token : Lexed}

theorem AlikeAt.bind {f g : α → Parse β} (first : AlikeAt s x y P)
    (rest : ∀ a t, t.tokens.length ≤ s.tokens.length → (P a → t.tokens.length < s.tokens.length) →
      AlikeAt t (f a) (g a) fun b => R b ∧ ¬P a) :
    AlikeAt s (x >>= f) (y >>= g) R := by
  obtain ⟨same, costs⟩ := first
  cases run : x s with
  | error e t =>
    rw [AlikeAt, bind_error run, bind_error (same ▸ run)]
    exact ⟨rfl, nofun⟩
  | ok a t =>
    obtain ⟨le, lt⟩ := costs a t run
    obtain ⟨same', costs'⟩ := rest a t le lt
    rw [AlikeAt, bind_ok run, bind_ok (same ▸ run)]
    refine ⟨same', fun b u run' => ?_⟩
    obtain ⟨le', lt'⟩ := costs' b u run'
    refine ⟨Nat.le_trans le' le, fun holds => ?_⟩
    by_cases taken : P a
    · exact Nat.lt_of_le_of_lt le' (lt taken)
    · exact Nat.lt_of_lt_of_le (lt' ⟨holds, taken⟩) le

theorem AlikeAt.weaken (h : AlikeAt s x y P) (weaker : ∀ a, Q a → P a) :
    AlikeAt s x y Q :=
  ⟨h.1, fun a t run => ⟨(h.2 a t run).1, fun holds => (h.2 a t run).2 (weaker a holds)⟩⟩

theorem AlikeAt.peek {f g : Option TokenKind → Parse α} {next : Option TokenKind}
    (same : s.peekAt? 0 = next) (h : AlikeAt s (f next) (g next) P) :
    AlikeAt s (peek? >>= f) (peek? >>= g) P := by
  subst same
  exact h

namespace Alike

theorem weaken (h : Alike n x y P) (weaker : ∀ a, Q a → P a) : Alike n x y Q :=
  fun s le => (h s le).weaken weaker

theorem le (h : Alike n x y P) (le : m ≤ n) : Alike m x y P :=
  fun s le' => h s (Nat.le_trans le' le)

theorem next (h : Alike n x y P) : AlikeNext kind n x y P := fun s _ le => h s le

theorem free (h : Alike n x y P) : Free n x y := h.weaken fun _ => False.elim

theorem of_agree (h : Alike n y y P) (agree : ∀ s : ParseState, s.tokens.length ≤ n → x s = y s) :
    Alike n x y P := by
  intro s few
  rw [AlikeAt, agree s few]
  exact h s few

variable {f g : α → Parse β} {c : Prop} {error : SyntaxError} {loc : Location}

theorem bind (first : Alike n x y P)
    (rest : ∀ a, Alike n (f a) (g a) fun b => R b ∧ ¬P a) : Alike n (x >>= f) (y >>= g) R :=
  fun s le => (first s le).bind fun a t le' _ => rest a t (Nat.le_trans le' le)

theorem andThen (first : Alike n x y P) (rest : ∀ a, Alike n (f a) (g a) R) :
    Alike n (x >>= f) (y >>= g) R :=
  first.bind fun a => (rest a).weaken fun _ holds => holds.1

theorem after (first : Costs n x y)
    (rest : ∀ a, 1 ≤ n → Free (n - 1) (f a) (g a)) : Alike n (x >>= f) (y >>= g) R :=
  fun s le => (first s le).bind fun a t _ lt =>
    (rest a (by have := lt trivial; omega) t (by have := lt trivial; omega)).weaken
      fun _ holds => holds.2 trivial

theorem ite [Decidable c] (yes : Alike n x y P) (no : Alike n x' y' P) :
    Alike n (if c then x else x') (if c then y else y') P := by
  split
  · exact yes
  · exact no

theorem refl (h : ∀ (s : ParseState) a t, x s = .ok a t →
    t.tokens.length ≤ s.tokens.length ∧ (P a → t.tokens.length < s.tokens.length)) :
    Alike n x x P :=
  fun s _ => ⟨rfl, h s⟩

theorem of_same (h : ∀ (s : ParseState) a t, x s = .ok a t → t.tokens = s.tokens) : Free n x x :=
  refl fun s a t run => ⟨Nat.le_of_eq (congrArg List.length (h s a t run)), False.elim⟩

theorem pure {a : α} (free : ¬P a) : Alike n (Pure.pure a) (Pure.pure a) P := by
  refine refl fun s b t run => ?_
  cases run
  exact ⟨Nat.le_refl _, fun holds => absurd holds free⟩

/-- What is made of an answer costs no more. -/
theorem map {f : α → β} (h : Alike n x y P) :
    Free n (x >>= fun a => Pure.pure (f a)) (y >>= fun a => Pure.pure (f a)) :=
  h.andThen fun _ => .pure id

theorem pred (h : Alike n x y P) : Alike (n - 1) x y P := h.le (Nat.sub_le n 1)

theorem fail :
    Alike n (Parse.fail error loc) (Parse.fail error loc) P :=
  fun _ _ => ⟨rfl, nofun⟩

theorem check [Decidable c] {f g : Unit → Parse α} (h : Alike n (f ()) (g ()) P) :
    Alike n (if c then f () else Parse.fail error loc >>= f)
      (if c then g () else Parse.fail error loc >>= g) P :=
  .ite h fun _ _ => ⟨rfl, nofun⟩

theorem get : Free n MonadState.get MonadState.get := by
  refine of_same fun s a t run => ?_
  cases run
  rfl

theorem modifyGet {f : ParseState → α × ParseState} (same : ∀ s, (f s).2.tokens = s.tokens) :
    Free n (MonadStateOf.modifyGet f) (MonadStateOf.modifyGet f) := by
  refine of_same fun s a t run => ?_
  cases run
  exact same s

theorem modified {f : ParseState → ParseState} (same : ∀ s, (f s).tokens = s.tokens) :
    Free n (modify f) (modify f) := modifyGet same

theorem peek {f g : Option TokenKind → Parse α} (ends : Alike n (f none) (g none) P)
    (goesOn : ∀ kind, AlikeNext kind n (f (some kind)) (g (some kind)) P) :
    Alike n (peek? >>= f) (peek? >>= g) P := by
  intro s le
  cases next : s.peekAt? 0 with
  | none => exact .peek next (ends s le)
  | some kind => exact .peek next (goesOn kind s next le)

end Alike

theorem advance_cons {rest : List Lexed} (h : s.tokens = token :: rest) :
    advance s = .ok () { s with tokens := rest, last := token.loc } := by
  obtain ⟨tokens, _, _, _, _, _, _, _, _⟩ := s
  cases h
  rfl

theorem exists_of_peekAt? (h : s.peekAt? 0 = some kind) :
    ∃ token rest, s.tokens = token :: rest ∧ token.value.kind = kind := by
  obtain ⟨token, first, same⟩ := Option.map_eq_some_iff.mp h
  cases tokens : s.tokens with
  | nil =>
    rw [tokens] at first
    cases first
  | cons head rest =>
    rw [tokens] at first
    cases first
    exact ⟨token, rest, rfl, same⟩

theorem Free.afterToken {left : List Lexed} (rest : 1 ≤ n → Free (n - 1) x y)
    (tokens : s.tokens = token :: left) (le : s.tokens.length ≤ n) :
    x { s with tokens := left, last := token.loc } = y { s with tokens := left, last := token.loc } ∧
      ∀ a t, x { s with tokens := left, last := token.loc } = .ok a t →
        t.tokens.length ≤ s.tokens.length ∧ (P a → t.tokens.length < s.tokens.length) := by
  rw [tokens, List.length_cons] at le ⊢
  obtain ⟨same, costs⟩ := rest (by omega) { s with tokens := left, last := token.loc }
    (Nat.le_sub_one_of_lt le)
  refine ⟨same, fun a t run => ?_⟩
  have le' : t.tokens.length ≤ left.length := (costs a t run).1
  exact ⟨by omega, fun _ => by omega⟩

theorem AlikeNext.ite {c : Prop} [Decidable c] (yes : AlikeNext kind n x y P)
    (no : AlikeNext kind n x' y' P) :
    AlikeNext kind n (if c then x else x') (if c then y else y') P := by
  split
  · exact yes
  · exact no

theorem AlikeNext.get {f g : ParseState → Parse α} (rest : ∀ s, AlikeNext kind n (f s) (g s) P) :
    AlikeNext kind n (MonadState.get >>= f) (MonadState.get >>= g) P :=
  fun s next le => rest s s next le

theorem AlikeNext.advance {f g : Unit → Parse α} (rest : 1 ≤ n → Free (n - 1) (f ()) (g ())) :
    AlikeNext kind n (Parse.advance >>= f) (Parse.advance >>= g) P := by
  intro s next le
  obtain ⟨token, left, tokens, -⟩ := exists_of_peekAt? next
  rw [AlikeAt, bind_ok (advance_cons tokens), bind_ok (advance_cons tokens)]
  exact Free.afterToken rest tokens le

end Alike

/-! ## Tokens -/

section Tokens

variable {n : Nat} {P : α → Prop}

theorem stop_alike (error : SyntaxError) : Alike n (stop error) (stop error) P :=
  Alike.get.andThen fun _ => .fail

theorem ofExcept_alike (r : Except (Located SyntaxError) α) : Free n (ofExcept r) (ofExcept r) := by
  cases r with
  | ok a => exact .pure id
  | error e => exact fun _ _ => ⟨rfl, nofun⟩

theorem advance_alike : Free n advance advance := by
  refine .refl fun s a t run => ?_
  cases tokens : s.tokens with
  | nil =>
    obtain ⟨_, _, _, _, _, _, _, _, _⟩ := s
    cases tokens
    cases run
    exact ⟨Nat.le_refl _, False.elim⟩
  | cons token rest =>
    rw [advance_cons tokens] at run
    cases run
    exact ⟨Nat.le_succ _, False.elim⟩

theorem isAt_alike (mark : Punct) : Free n (isAt mark) (isAt mark) :=
  Alike.get.andThen fun _ => .pure id

variable {s : ParseState} {yes yes' no no' : Parse α}

theorem eatKind_cons {kind : TokenKind} {token : Lexed} {rest : List Lexed}
    (tokens : s.tokens = token :: rest) (same : token.value.kind = kind) :
    eatKind kind s = .ok true { s with tokens := rest, last := token.loc } := by
  have next : s.peekAt? 0 = some kind := by rw [ParseState.peekAt?, tokens, ← same]; rfl
  change (if s.peekAt? 0 == some kind then (advance >>= fun _ => pure true) else pure false :
    Parse Bool) s = _
  rw [next, if_pos BEq.rfl, bind_ok (advance_cons tokens)]
  rfl

theorem eatKind_other {kind : TokenKind} (other : s.peekAt? 0 ≠ some kind) :
    eatKind kind s = .ok false s := by
  change (if s.peekAt? 0 == some kind then (advance >>= fun _ => pure true) else pure false :
    Parse Bool) s = _
  rw [if_neg (by simpa using other)]
  rfl

theorem Alike.eatKind {kind : TokenKind} (taken : 1 ≤ n → Free (n - 1) yes yes')
    (refused : Alike n no no' P) :
    Alike n (Parse.eatKind kind >>= fun found => if found = true then yes else no)
      (Parse.eatKind kind >>= fun found => if found = true then yes' else no') P := by
  intro s le
  by_cases next : s.peekAt? 0 = some kind
  · obtain ⟨token, left, tokens, same⟩ := exists_of_peekAt? next
    have eaten := eatKind_cons tokens same
    rw [AlikeAt, bind_ok eaten, bind_ok eaten, if_pos rfl, if_pos rfl]
    exact Free.afterToken taken tokens le
  · rw [AlikeAt, bind_ok (eatKind_other next), bind_ok (eatKind_other next),
      if_neg Bool.false_ne_true, if_neg Bool.false_ne_true]
    exact refused s le

theorem Alike.eat {mark : Punct} (taken : 1 ≤ n → Free (n - 1) yes yes')
    (refused : Alike n no no' P) :
    Alike n (Parse.eat mark >>= fun found => if found = true then yes else no)
      (Parse.eat mark >>= fun found => if found = true then yes' else no') P :=
  Alike.eatKind taken refused

theorem unexpected_alike (expected : String) :
    Alike n (unexpected expected) (unexpected expected) P := by
  refine Alike.get.andThen fun s => ?_
  cases s.tokens with
  | nil => exact stop_alike _
  | cons => exact .fail

theorem expect_alike (mark : Punct) : Costs n (expect mark) (expect mark) :=
  .eat (fun _ => .pure id) (unexpected_alike _)

theorem expectKeyword_alike (word : Keyword) : Costs n (expectKeyword word) (expectKeyword word) :=
  .eatKind (fun _ => .pure id) (unexpected_alike _)

theorem next_alike : Costs n next next := by
  intro s le
  refine ⟨rfl, fun token t run => ?_⟩
  rw [next, get_bind] at run
  cases tokens : s.tokens with
  | nil =>
    rw [tokens] at run
    cases run
  | cons first rest =>
    rw [tokens] at run
    dsimp only at run
    rw [bind_ok (advance_cons tokens)] at run
    cases run
    exact ⟨Nat.le_succ _, fun _ => Nat.lt_succ_self _⟩

theorem identifier_alike : Costs n identifier identifier := by
  refine next_alike.after fun token _ => ?_
  cases token.value.kind with
  | id name => exact .pure id
  | _ => exact .fail

theorem identifier?_alike : Free n identifier? identifier? := by
  refine .peek (.pure id) fun kind => ?_
  cases kind with
  | id name => exact (identifier_alike.andThen fun _ => .pure id).next
  | _ => exact (Alike.pure id).next

theorem here_alike : Free n here here := Alike.get.andThen fun _ => .pure id

theorem spanFrom_alike (start : Location) : Free n (spanFrom start) (spanFrom start) :=
  Alike.get.andThen fun _ => .pure id

theorem inBlock_alike {x y : Parse α} (h : Alike n x y P) : Alike n (inBlock x) (inBlock y) P := by
  intro s le
  obtain ⟨same, costs⟩ := h s.enter le
  refine ⟨?_, fun a t run => ?_⟩
  · change x { s with scope := s.scope.enter } = y { s with scope := s.scope.enter } at same
    rw [inBlock, same]
    rfl
  · obtain ⟨u, ran, rfl⟩ := inBlock_eq_ok run
    exact costs a u ran

theorem iterate_alike {step step' : α → Parse (Round α β)} {stuck stuck' : SyntaxError}
    (round : ∀ a, Alike n (step a) (step' a) Round.IsMore) :
    ∀ {rounds rounds' m : Nat}, m ≤ n → m < rounds → m < rounds' → ∀ a,
      Free m (iterate stuck rounds step a) (iterate stuck' rounds' step' a)
  | 0, _, _, _, lt, _, _ | _, 0, _, _, _, lt, _ => absurd lt (Nat.not_lt_zero _)
  | rounds + 1, rounds' + 1, m, le, lt, lt', a => by
    intro s few
    refine (round a s (Nat.le_trans few le)).bind fun r t _ taken => ?_
    cases r with
    | more a =>
      -- the round took a token, so the rest has one less
      have fewer := taken trivial
      have rest : Free (m - 1) (iterate stuck rounds step a) (iterate stuck' rounds' step' a) :=
        iterate_alike round (by omega) (by omega) (by omega) a
      exact (rest t (by omega)).weaken fun _ holds => holds.1
    | done b => exact (Alike.pure fun holds => holds.1) t (Nat.le_refl _)

end Tokens

end Parse

end MiniC
