import MiniC.Proofs.Token.Names
import Mathlib

/-!
# Preprocessed tokens

Preprocessing copies tokens and makes none. Whatever way a token takes to the output, through the
body of a macro, an argument or an inserted file, the loop that looks for directives sees it. So no
`#` at the beginning of a line is left, and without directives there are no macros: what has been
preprocessed once does not change any more.
-/

namespace MiniC.Macro

open List

variable {includes : Includes} {tokens output : List Lexed}

def Includes.Holds (includes : Includes) (token : Lexed) : Prop :=
  ∃ path text file, includes.files (joinPath includes.dir path) = .ok text ∧
    Lexer.tokenize ⟨joinPath includes.dir path, text⟩ = .ok file ∧ token ∈ file

def Plain (tokens : List Lexed) : Prop := ∀ token ∈ tokens, isDirective token.value = false

theorem Includes.all_holds (tokens : List Lexed) :
    includes.All fun token => token ∈ tokens ∨ includes.Holds token := by
  intro loc path file loaded token mem
  unfold load at loaded
  dsimp only at loaded
  cases read : includes.files (joinPath includes.dir path) with
  | error error =>
    rw [read] at loaded
    cases loaded
  | ok text =>
    rw [read] at loaded
    dsimp only at loaded
    cases made : Lexer.tokenize ⟨joinPath includes.dir path, text⟩ with
    | error error =>
      rw [made] at loaded
      cases loaded
    | ok lexed =>
      rw [made] at loaded
      cases loaded
      exact .inr ⟨path, text, file, read, made, mem⟩

/-- No directive comes out. -/
theorem run_plain {levels floor : Nat} {state : State} {input : List Lexed}
    {result : List Lexed × State × { rest : List Lexed // rest.length ≤ floor }}
    (done : run includes levels state floor input = .ok result) : Plain result.1 := by
  fun_induction run includes levels state floor input with
  | case1 | case2 =>
    cases done
    exact forall_mem_nil _
  | case3 | case5 | case7 => cases done
  | case4 levels state floor token rest _ _ next after _ _ ih => exact ih done
  | case6 state floor token rest _ _ path after _ _ levels first second =>
    -- What an inserted file leaves is followed by what the rest of the input leaves.
    obtain ⟨file, _, done⟩ := bind_eq_ok.mp done
    obtain ⟨⟨front, middle, next, le⟩, inserted, done⟩ := bind_eq_ok.mp done
    obtain ⟨⟨back, last, left⟩, followed, done⟩ := bind_eq_ok.mp done
    cases done
    exact forall_mem_append.mpr ⟨first file inserted, second middle next le followed⟩
  | case8 levels state floor token rest _ ordinary _ ih =>
    obtain ⟨⟨back, last, left⟩, followed, done⟩ := bind_eq_ok.mp done
    cases done
    exact forall_mem_cons.mpr ⟨Bool.eq_false_iff.mpr ordinary, ih followed⟩
  | case9 levels state floor token rest _ _ tokens after _ deeper _ _ first second =>
    obtain ⟨⟨front, middle, next, le⟩, expanded, done⟩ := bind_eq_ok.mp done
    obtain ⟨⟨back, last, left⟩, followed, done⟩ := bind_eq_ok.mp done
    cases done
    exact forall_mem_append.mpr ⟨first expanded, second middle next le followed⟩

theorem preprocess_eq_ok :
    preprocess includes tokens = .ok output ↔
      ∃ state left, run includes maxDepth {} 0 tokens = .ok (output, state, left) ∧
        state.conditionals = [] := by
  constructor
  · intro done
    obtain ⟨⟨front, state, left⟩, ran, done⟩ := bind_eq_ok.mp done
    cases closed : state.conditionals with
    | nil =>
      simp only [closed] at done
      cases done
      exact ⟨state, left, ran, closed⟩
    | cons loc outer =>
      simp only [closed] at done
      cases done
  · intro ⟨state, left, ran, closed⟩
    apply bind_eq_ok.mpr
    exact ⟨_, ran, by simp only [closed]; rfl⟩

theorem run_of_plain {levels : Nat} (plain : Plain tokens) :
    run includes levels {} 0 tokens = .ok (tokens, {}, ⟨[], Nat.zero_le _⟩) := by
  induction tokens with
  | nil => rw [run]
  | cons token rest ih =>
    obtain ⟨ordinary, plain⟩ := forall_mem_cons.mp plain
    have itself : expandUse levels [] token rest = .ok none := by
      have unnamed : Env.use? [] token.value = none := by
        cases named : token.value.name? <;> simp [Env.use?, named, Env.lookup?]
      cases levels <;> rw [expandUse, unnamed]
    rw [run]
    simp only [length_cons, ordinary, itself, ih plain]
    rfl

/-- Every token that preprocessing gives was given to it or stands in a file that it can insert,
unchanged; none of them starts a directive; and preprocessing them again, with any files, gives
them back. -/
theorem preprocess_projects (done : preprocess includes tokens = .ok output) :
    (∀ token ∈ output, token ∈ tokens ∨ includes.Holds token) ∧ Plain output ∧
      ∀ others, preprocess others output = .ok output := by
  obtain ⟨state, left, ran, _⟩ := preprocess_eq_ok.mp done
  have plain : Plain output := run_plain ran
  refine ⟨preprocess_all (Includes.all_holds tokens) (fun token mem => .inl mem) done, plain, ?_⟩
  intro others
  exact preprocess_eq_ok.mpr ⟨{}, _, run_of_plain plain, rfl⟩

/-- A call of `F`, defined by `#define F(x) x`, with the line `#define A 1` for its argument, and on
the next line `A`. -/
def lateDefinition : List Lexed :=
  [(.punct .hash, true), (.id "define", false), (.id "F", false), (.punct .openParen, false),
    (.id "x", false), (.punct .closeParen, false), (.id "x", false),
    (.id "F", true), (.punct .openParen, false),
    (.punct .hash, true), (.id "define", false), (.id "A", false), (.int 1, false),
    (.punct .closeParen, true), (.id "A", true)].map fun token => selfToken token.1 token.2

theorem preprocess_lateDefinition :
    preprocess noIncludes lateDefinition = .ok [selfToken (.int 1) false] ∧
      ∀ others, preprocess others [selfToken (.int 1) false] = .ok [selfToken (.int 1) false] := by
  have done : preprocess noIncludes lateDefinition = .ok [selfToken (.int 1) false] := by cbv
  exact ⟨done, (preprocess_projects done).2.2⟩

end MiniC.Macro
