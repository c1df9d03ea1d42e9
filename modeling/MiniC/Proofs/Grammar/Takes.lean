import MiniC.Proofs.Grammar.Printing

/-!
# Steps on known tokens

`Takes` says what a parsing step does on tokens of known kinds: it takes exactly
those, changes nothing else in the state, and gives a result of a stated kind.
What comes after them is described too, since a rule that may go on looks at it.

The number of tokens left is bounded, and the bound falls with each token taken.
That is what lets a rule call the rules for nested phrases, which are made for
fewer tokens, and what keeps loops within their rounds.
-/

namespace MiniC

open List

def kindsOf (tokens : List Lexed) : List TokenKind := tokens.map (·.value.kind)

def ParseState.reading (s : ParseState) (tokens : List Lexed) (last : Location) : ParseState :=
  { s with tokens, last }

theorem ParseState.peekAt?_reading (s : ParseState) (tokens : List Lexed) (last : Location)
    (ahead : Nat) : (s.reading tokens last).peekAt? ahead = (kindsOf tokens)[ahead]? :=
  List.getElem?_map.symm

theorem Below.limit_upTo (n : Nat) : (Below.upTo n).limit = n := by
  induction n with
  | zero => rfl
  | succ n ih => exact congrArg (· + 1) ih

namespace Parse

open Grammar

variable {α β : Type} {s : ParseState} {n m : Nat} {kinds first second : List TokenKind}
  {follow follow' : List TokenKind → Prop} {Q Q' : α → Prop}

/-- On at most `n` tokens that start with `kinds` and go on as `follow` says, the
step takes the tokens of those kinds, and its result is as `Q` says. -/
def Takes (s : ParseState) (n : Nat) (kinds : List TokenKind) (follow : List TokenKind → Prop)
    (x : Parse α) (Q : α → Prop) : Prop :=
  ∀ taken rest last, kindsOf taken = kinds → follow (kindsOf rest) → (taken ++ rest).length ≤ n →
    ∃ a last', x (s.reading (taken ++ rest) last) = .ok a (s.reading rest last') ∧ Q a

def Repeats (s : ParseState) (n : Nat) (kinds : List TokenKind)
    (follow : List TokenKind → Prop) (step : α → Parse (Round α β)) (a : α) (Q : β → Prop) :
    Prop :=
  ∀ stuck rounds, n ≤ rounds → Takes s n kinds follow (iterate stuck (rounds + 1) step a) Q

namespace Takes

variable {x : Parse α} {f : α → Parse β}

theorem mono (h : Takes s n kinds follow x Q) (le : m ≤ n)
    (narrower : ∀ rest, follow' rest → follow rest) (weaker : ∀ a, Q a → Q' a) :
    Takes s m kinds follow' x Q' := by
  intro taken rest last kinds_eq follows fits
  obtain ⟨a, last', run, holds⟩ :=
    h taken rest last kinds_eq (narrower _ follows) (Nat.le_trans fits le)
  exact ⟨a, last', run, weaker a holds⟩

theorem le (h : Takes s n kinds follow x Q) (le : m ≤ n) :
    Takes s m kinds follow x Q :=
  h.mono le (fun _ => id) fun _ => id

theorem imp (h : Takes s n kinds follow x Q) (weaker : ∀ a, Q a → Q' a) :
    Takes s n kinds follow x Q' :=
  h.mono (Nat.le_refl n) (fun _ => id) weaker

theorem follow_imp (h : Takes s n kinds follow x Q)
    (narrower : ∀ rest, follow' rest → follow rest) : Takes s n kinds follow' x Q :=
  h.mono (Nat.le_refl n) narrower fun _ => id

theorem narrow (h : Takes s n kinds follow x Q) {rest : List TokenKind}
    (follows : follow rest) : Takes s n kinds (· = rest) x Q :=
  h.follow_imp fun _ same => same ▸ follows

theorem pure {a : α} (h : Q a) : Takes s n [] follow (Pure.pure a) Q := by
  intro taken rest last kinds_eq _ _
  obtain rfl : taken = [] := map_eq_nil_iff.mp kinds_eq
  exact ⟨a, last, rfl, h⟩

/-- Phrases are taken one after the other. -/
theorem bind {Q' : β → Prop} (start : Takes s n first follow x Q)
    (rest : ∀ a, Q a → Takes s (n - first.length) second follow' (f a) Q')
    (follows : ∀ rest, follow' rest → follow (second ++ rest)) :
    Takes s n (first ++ second) follow' (x >>= f) Q' := by
  intro taken after last kinds_eq after_follows fits
  obtain ⟨head, tail, rfl, head_kinds, tail_kinds⟩ := map_eq_append_iff.mp kinds_eq
  have lengths : head.length = first.length := by rw [← head_kinds, length_map]
  rw [append_assoc] at fits ⊢
  have next : follow (kindsOf (tail ++ after)) := by
    rw [kindsOf, map_append, tail_kinds]
    exact follows _ after_follows
  obtain ⟨a, last', run, holds⟩ := start head (tail ++ after) last head_kinds next fits
  have fits' : (tail ++ after).length ≤ n - first.length := by
    rw [length_append] at fits
    omega
  obtain ⟨b, last'', run', holds'⟩ := rest a holds tail after last' tail_kinds after_follows fits'
  refine ⟨b, last'', ?_, holds'⟩
  show EStateM.bind x f _ = _
  rw [EStateM.bind, run]
  exact run'

theorem before {Q' : β → Prop} (start : Takes s n [] follow x Q)
    (rest : ∀ a, Q a → Takes s n kinds follow' (f a) Q')
    (follows : ∀ rest, follow' rest → follow (kinds ++ rest)) :
    Takes s n kinds follow' (x >>= f) Q' :=
  start.bind rest follows

theorem after {kind : TokenKind} {Q' : β → Prop} (start : Takes s n [kind] (fun _ => True) x Q)
    (rest : ∀ a, Q a → Takes s (n - 1) kinds follow (f a) Q') :
    Takes s n (kind :: kinds) follow (x >>= f) Q' :=
  start.bind rest fun _ _ => trivial

theorem andThen {Q' : β → Prop} (start : Takes s n kinds follow x Q)
    (rest : ∀ a, Q a → Takes s (n - kinds.length) [] follow (f a) Q') :
    Takes s n kinds follow (x >>= f) Q' := by
  have whole := start.bind rest fun _ => id
  rwa [append_nil] at whole

theorem get {f : ParseState → Parse α}
    (h : ∀ tokens last rest, follow rest → kindsOf tokens = kinds ++ rest →
      Takes s n kinds (· = rest) (f (s.reading tokens last)) Q) :
    Takes s n kinds follow (MonadState.get >>= f) Q := by
  intro taken rest last kinds_eq follows fits
  have all : kindsOf (taken ++ rest) = kinds ++ kindsOf rest := by
    rw [kindsOf, map_append, ← kinds_eq, kindsOf, kindsOf]
  exact h (taken ++ rest) last (kindsOf rest) follows all taken rest last kinds_eq rfl fits

theorem peek {f : Option TokenKind → Parse α}
    (h : ∀ rest, follow rest → Takes s n kinds (· = rest) (f (kinds ++ rest).head?) Q) :
    Takes s n kinds follow (peek? >>= f) Q := by
  show Takes s n kinds follow
    (MonadState.get >>= fun s : ParseState => f (s.peekAt? 0)) Q
  apply get
  intro tokens last rest follows tokens_eq
  have head : (s.reading tokens last).peekAt? 0 = (kinds ++ rest).head? := by
    rw [ParseState.peekAt?_reading, tokens_eq, List.head?_eq_getElem?]
  rw [head]
  exact h rest follows

theorem of_pos (nonempty : kinds ≠ []) (h : 0 < n → Takes s n kinds follow x Q) :
    Takes s n kinds follow x Q := by
  intro taken rest last kinds_eq follows fits
  apply h _ taken rest last kinds_eq follows fits
  have some : 0 < kinds.length := length_pos_iff.mpr nonempty
  rw [← kinds_eq, kindsOf, length_map] at some
  rw [length_append] at fits
  omega

theorem nested {x y : Below → Parse α} (step : ∀ n, x (.upTo (n + 1)) = y (.upTo n))
    (inner : ∀ n, Takes s n kinds follow (y (.upTo n)) Q) (lt : m ≤ n - 1)
    (nonempty : kinds ≠ []) : Takes s m kinds follow (x (.upTo n)) Q := by
  apply of_pos nonempty
  intro pos
  obtain ⟨n, rfl⟩ : ∃ k, n = k + 1 := ⟨n - 1, by omega⟩
  rw [step]
  exact (inner n).le lt

end Takes

/-! ## Single tokens -/

variable {kind : TokenKind} {f : Location → Parse α} {mark : Punct} {yes no : Parse α}
  {step : α → Parse (Round α β)} {a : α}

theorem advance_takes : Takes s n [kind] follow advance fun _ => True := by
  intro taken rest last kinds_eq _ _
  obtain ⟨token, rfl, -⟩ := map_eq_singleton_iff.mp kinds_eq
  exact ⟨(), token.loc, rfl, trivial⟩

theorem next_takes :
    Takes s n [kind] follow next fun token => token.value.kind = kind := by
  intro taken rest last kinds_eq _ _
  obtain ⟨token, rfl, kind_eq⟩ := map_eq_singleton_iff.mp kinds_eq
  exact ⟨token, token.loc, rfl, kind_eq⟩

theorem identifier_takes {name : String} :
    Takes s n [.id name] follow identifier fun found => found.value = name := by
  apply next_takes.andThen
  intro token kind_eq
  rw [kind_eq]
  exact .pure rfl

theorem Takes.here (h : ∀ loc, Takes s n kinds follow (f loc) Q) :
    Takes s n kinds follow (Parse.here >>= f) Q := by
  intro taken rest last
  exact h (s.reading (taken ++ rest) last).here taken rest last

theorem Takes.spanFrom {start : Location} (h : ∀ loc, Takes s n kinds follow (f loc) Q) :
    Takes s n kinds follow (Parse.spanFrom start >>= f) Q := by
  intro taken rest last
  exact h (start.span last) taken rest last

theorem eatKind_takes : Takes s n [kind] follow (eatKind kind) (· = true) := by
  apply Takes.peek
  intro rest _
  rw [if_pos (by simp)]
  exact advance_takes.andThen fun _ _ => .pure rfl

theorem eatKind_refuses (other : ∀ rest, follow rest → rest.head? ≠ some kind) :
    Takes s n [] follow (eatKind kind) (· = false) := by
  apply Takes.peek
  intro rest follows
  rw [if_neg (by simpa using other rest follows)]
  exact .pure rfl

theorem Takes.eat (h : Takes s (n - 1) kinds follow yes Q) :
    Takes s n (.punct mark :: kinds) follow
      (Parse.eat mark >>= fun found => if found = true then yes else no) Q := by
  apply eatKind_takes.after
  intro found found_eq
  rwa [if_pos found_eq]

theorem Takes.skip (other : ∀ rest, follow rest → (kinds ++ rest).head? ≠ some (.punct mark))
    (h : Takes s n kinds follow no Q) :
    Takes s n kinds follow
      (Parse.eat mark >>= fun found => if found = true then yes else no) Q := by
  have refused := @eatKind_refuses s n
    (fun after => ∃ rest, follow rest ∧ after = kinds ++ rest) (.punct mark) (by
      rintro _ ⟨rest, follows, rfl⟩
      exact other rest follows)
  apply refused.before
  · intro found found_eq
    rwa [found_eq]
  · intro rest follows
    exact ⟨rest, follows, rfl⟩

theorem expect_takes : Takes s n [.punct mark] follow (expect mark) fun _ => True :=
  eatKind_takes.andThen fun found found_eq => by
    subst found_eq
    exact .pure trivial

theorem Takes.isAt {f : Bool → Parse α} (h : ∀ rest, follow rest →
      Takes s n kinds (· = rest) (f ((kinds ++ rest).head? == some (.punct mark))) Q) :
    Takes s n kinds follow (Parse.isAt mark >>= f) Q := by
  show Takes s n kinds follow (peek? >>= fun kind => f (kind == some (.punct mark))) Q
  exact Takes.peek h

/-! ## Loops -/

theorem Repeats.done {Q : β → Prop}
    (h : Takes s n kinds follow (step a) fun round => ∃ b, round = .done b ∧ Q b) :
    Repeats s n kinds follow step a Q := by
  intro stuck rounds _
  apply h.andThen
  rintro _ ⟨b, rfl, holds⟩
  exact .pure holds

theorem Repeats.more {P : α → Prop} {Q : β → Prop}
    (start : Takes s n first follow (step a) fun round => ∃ b, round = .more b ∧ P b)
    (nonempty : first ≠ []) (rest : ∀ b, P b → Repeats s (n - first.length) second follow' step b Q)
    (follows : ∀ rest, follow' rest → follow (second ++ rest)) :
    Repeats s n (first ++ second) follow' step a Q := by
  intro stuck rounds le
  apply Takes.of_pos (append_ne_nil_of_left_ne_nil nonempty second)
  intro pos
  obtain ⟨rounds, rfl⟩ : ∃ k, rounds = k + 1 := ⟨rounds - 1, by omega⟩
  apply start.bind _ follows
  rintro _ ⟨b, rfl, holds⟩
  have taken : 0 < first.length := length_pos_iff.mpr nonempty
  exact rest b holds stuck rounds (by omega)

theorem Repeats.loop {Q : β → Prop} (h : Repeats s m kinds follow step a Q) (le : m ≤ n) :
    Takes s m kinds follow (Grammar.loop (.upTo n) step a) Q := by
  rw [Grammar.loop, Below.limit_upTo]
  exact h _ n le

end Parse

end MiniC
