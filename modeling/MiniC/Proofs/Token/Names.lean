import MiniC.Compiler
import MiniC.Proofs.Macro.Rescan
import MiniC.Proofs.Token.Spelling

/-!
# Names are words

The names that reach the parser are words: letters, digits and underscores, not starting with a
digit. Reading a text makes no other names, and carrying out directives and expanding macros makes
no new tokens: what holds of all tokens of a source and of the files it may include holds of all
tokens that preprocessing puts out (`preprocess_all`).
-/

namespace MiniC

open List

/-! ## Reading -/

def TokenKind.IsWord : TokenKind → Prop
  | .id name => Lexer.isName name = true
  | _ => True

namespace Lexer

theorem tokenize_isWord {source : Source} {tokens : List Lexed} (h : tokenize source = .ok tokens) :
    ∀ token ∈ tokens, token.value.kind.IsWord := by
  intro token mem
  have read := tokenize_isRead h token mem
  cases kind : token.value.kind with
  | id name =>
    rw [kind] at read
    exact read.1
  | _ => trivial

end Lexer

/-! ## Preprocessing -/

namespace Macro

variable {P : Lexed → Prop}

def body : Macro → List Lexed
  | .object tokens | .function _ tokens => tokens

def Env.All (P : Lexed → Prop) (env : Env) : Prop := ∀ x ∈ env, ∀ token ∈ x.2.body, P token

variable {env : Env} {name : String} {args : List (List Lexed)} {input after tokens : List Lexed}
  {hash : Location}

theorem Env.All.define {definition : Macro} (h : env.All P)
    (tokens : ∀ token ∈ definition.body, P token) : (env.define name definition).All P :=
  forall_mem_cons.mpr ⟨tokens, h⟩

theorem Env.All.bind {params : List String} : ∀ {env : Env} {args : List (List Lexed)}, env.All P →
    (∀ arg ∈ args, ∀ token ∈ arg, P token) → (env.bind params args).All P := by
  induction params with
  | nil => exact fun h _ => h
  | cons param params ih =>
    intro env args h each
    cases args with
    | nil => exact h
    | cons arg args =>
      obtain ⟨first, rest⟩ := forall_mem_cons.mp each
      exact ih (h.define first) rest

theorem Env.All.use {token : Token} {definition : Macro} (h : env.All P)
    (used : env.use? token = some (name, definition)) : ∀ token ∈ definition.body, P token := by
  simp only [use?, lookup?, do_eq_some, Option.map_eq_some_iff] at used
  obtain ⟨_, -, _, ⟨x, found, rfl⟩, same⟩ := used
  cases same
  exact h x (mem_of_find?_eq_some found)

theorem consFirst_all {token : Lexed} (here : P token)
    (each : ∀ arg ∈ args, ∀ token ∈ arg, P token) : ∀ arg ∈ consFirst token args, ∀ token ∈ arg, P token := by
  cases args with
  | nil => exact forall_mem_singleton.mpr (forall_mem_singleton.mpr here)
  | cons arg args =>
    obtain ⟨first, rest⟩ := forall_mem_cons.mp each
    exact forall_mem_cons.mpr ⟨forall_mem_cons.mpr ⟨here, first⟩, rest⟩

theorem splitArgs_all {nesting : Nat} (h : splitArgs nesting input = some (args, after))
    (each : ∀ token ∈ input, P token) :
    ∀ arg ∈ args, ∀ token ∈ arg, P token := by
  fun_induction splitArgs nesting input generalizing args after with
  | case1 => cases h
  | case2 =>
    cases h
    exact forall_mem_singleton.mpr (forall_mem_nil _)
  | case3 _ _ _ _ _ ih =>
    obtain ⟨⟨args', after'⟩, found, same⟩ := Option.bind_eq_some_iff.mp h
    cases same
    exact forall_mem_cons.mpr ⟨forall_mem_nil _, ih found (forall_mem_cons.mp each).2⟩
  | case4 =>
    rename_i ih
    obtain ⟨⟨args', after'⟩, found, same⟩ := Option.bind_eq_some_iff.mp h
    cases same
    obtain ⟨here, rest⟩ := forall_mem_cons.mp each
    exact consFirst_all here (ih found rest)

def Invocation.All (P : Lexed → Prop) : Invocation → Prop
  | .plain body => ∀ token ∈ body, P token
  | .bound env body => env.All P ∧ ∀ token ∈ body, P token

theorem invoke_all {definition : Macro} {loc : Location} {invocation : Invocation}
    {after : { after : List Lexed // after.length ≤ input.length }} (known : env.All P)
    (tokens : ∀ token ∈ definition.body, P token) (each : ∀ token ∈ input, P token)
    (h : invoke env name definition loc input = .ok (some (invocation, after))) :
    invocation.All P := by
  unfold invoke at h
  split at h
  · cases h
    exact tokens
  · split at h
    · cases h
    · split at h
      · split at h
        · cases h
        next args _ split =>
          have given := splitArgs_all split (forall_mem_cons.mp each).2
          extract_lets args' at h
          have passed : ∀ arg ∈ args', ∀ token ∈ arg, P token := by
            have either : args' = [] ∨ args' = args := ite_eq_or_eq _ _ _
            rcases either with none | same
            · rw [none]
              exact forall_mem_nil _
            · rw [same]
              exact given
          split at h
          · cases h
            exact ⟨known.bind passed, tokens⟩
          · cases h
      · cases h

theorem parameters_all {body : List Lexed} {names : List String}
    (h : parameters hash input = .ok (names, body)) (each : ∀ token ∈ input, P token) :
    ∀ token ∈ body, P token := by
  fun_induction parameters hash input generalizing names body with
  | case1 | case2 | case3 | case6 => cases h
  | case4 =>
    rename_i ih
    simp only [bind_eq_ok] at h
    obtain ⟨⟨names', body'⟩, found, same⟩ := h
    cases same
    exact ih found fun token mem => each token (mem_cons_of_mem _ (mem_cons_of_mem _ mem))
  | case5 =>
    cases h
    exact fun token mem => each token (mem_cons_of_mem _ (mem_cons_of_mem _ mem))

theorem definition_all {made : Macro} (h : definition hash input = .ok made)
    (each : ∀ token ∈ input, P token) :
    ∀ token ∈ made.body, P token := by
  unfold definition at h
  split at h
  · cases h
    exact forall_mem_nil _
  · split at h
    · split at h
      · split at h
        · cases h
          exact fun token mem => each token (mem_cons_of_mem _ (mem_cons_of_mem _ mem))
        · simp only [bind_eq_ok] at h
          obtain ⟨⟨params, body⟩, found, same⟩ := h
          cases same
          exact parameters_all found (forall_mem_cons.mp each).2
      · cases h
    · cases h
      exact each

theorem directive_all {state state' : State} {le : after.length ≤ input.length}
    (known : state.env.All P) (each : ∀ token ∈ input, P token)
    (h : directive state hash input = .ok (.update state' after le)) : state'.env.All P := by
  simp only [directive] at h
  split at h
  · cases h
    exact known
  next word line taken =>
    have whole : ∀ token ∈ line, P token := by
      intro token mem
      have listed : token ∈ takeLine input := taken ▸ mem_cons_of_mem _ mem
      exact each token ((takeWhile_sublist _).subset listed)
    obtain ⟨name, -, h⟩ := bind_eq_ok.mp h
    split at h
    · simp only [bind_eq_ok] at h
      obtain ⟨_, -, made, defined, same⟩ := h
      cases same
      exact known.define (definition_all defined fun token mem => whole token (mem_of_mem_drop mem))
    · simp only [bind_eq_ok] at h
      obtain ⟨_, -, same⟩ := h
      cases same
      exact fun x mem => known x (mem_filter.mp mem).1
    · simp only [bind_eq_ok] at h
      obtain ⟨_, -, same⟩ := h
      cases same
    · simp only [bind_eq_ok] at h
      obtain ⟨_, -, h⟩ := h
      split at h
      · cases h
        exact known
      · split at h
        · cases h
          exact known
        · cases h
    · simp only [bind_eq_ok] at h
      obtain ⟨_, -, h⟩ := h
      split at h
      · cases h
        exact known
      · split at h
        · cases h
          exact known
        · cases h
    · split at h
      · cases h
        exact known
      · cases h
    · cases h

/-- All tokens of a task have a property. -/
structure Task.All (P : Lexed → Prop) (task : Task) : Prop where
  env : task.env.All P
  pending : ∀ x ∈ task.pending, P x.token
  output : ∀ token ∈ task.output, P token

/-- All tokens of a configuration have a property. -/
structure Config.All (P : Lexed → Prop) (c : Config) : Prop where
  task : c.task.All P
  callers : ∀ task ∈ c.callers, task.All P

theorem atDepth_all {depth : Nat} (h : ∀ token ∈ tokens, P token) :
    ∀ x ∈ atDepth depth tokens, P x.token :=
  forall_mem_map.mpr h

theorem lastOf_all {count : Nat} {pending : List Pending} (h : ∀ x ∈ pending, P x.token) :
    ∀ x ∈ lastOf count pending, P x.token :=
  fun x mem => h x (mem_of_mem_drop mem)

variable {includes : Includes} {limit : Option Nat} {c d : Config} {next : Pending}
  {rest : List Pending}

theorem expandStep_all (h : c.All P) (here : P next.token) (waiting : ∀ x ∈ rest, P x.token)
    (step : expandStep limit c next rest = .ok d) : d.All P := by
  have put : (c.put [next.token] rest).All P :=
    ⟨⟨h.task.env, waiting, forall_mem_append.mpr ⟨h.task.output, forall_mem_singleton.mpr here⟩⟩,
      h.callers⟩
  unfold expandStep at step
  split at step
  · cases step
    exact put
  next used =>
    have tokens := h.task.env.use used
    split at step
    · cases step
    · split at step
      · cases step
      · cases step
        exact put
      next made =>
        cases step
        have body := invoke_all h.task.env tokens (forall_mem_map.mpr waiting) made
        exact ⟨⟨h.task.env, forall_mem_append.mpr ⟨atDepth_all body, lastOf_all waiting⟩,
          h.task.output⟩, h.callers⟩
      next made =>
        cases step
        obtain ⟨env, body⟩ := invoke_all h.task.env tokens (forall_mem_map.mpr waiting) made
        exact ⟨⟨env, atDepth_all body, forall_mem_nil _⟩,
          forall_mem_cons.mpr ⟨⟨h.task.env, lastOf_all waiting, h.task.output⟩, h.callers⟩⟩

def Includes.All (P : Lexed → Prop) (includes : Includes) : Prop :=
  ∀ loc path tokens, load includes loc path = .ok tokens → ∀ token ∈ tokens, P token

theorem directiveStep_all (loaded : includes.All P) (h : c.All P) (waiting : ∀ x ∈ rest, P x.token)
    (step : directiveStep includes limit c next rest = .ok d) : d.All P := by
  unfold directiveStep at step
  split at step
  · cases step
  next made =>
    cases step
    have env := directive_all h.task.env (forall_mem_map.mpr waiting) made
    exact ⟨⟨env, lastOf_all waiting, h.task.output⟩, h.callers⟩
  next path after _ _ =>
    split at step
    · cases step
    · split at step
      · cases step
      next tokens read =>
        cases step
        have tokens := loaded _ path tokens read
        exact ⟨⟨h.task.env, forall_mem_append.mpr ⟨atDepth_all tokens, lastOf_all waiting⟩,
          h.task.output⟩, h.callers⟩

/-- What all tokens have in common, they have after a step. -/
theorem step_all (loaded : includes.All P) (h : c.All P)
    (step : step includes limit c = .ok (some d)) : d.All P := by
  have mapped : ∀ {x : Except (Located MacroError) Config}, some <$> x = .ok (some d) → x = .ok d := by
    intro x same
    cases x with
    | error e => cases same
    | ok c => cases same; rfl
  unfold Macro.step at step
  split at step
  · cases step
  next callers =>
    cases step
    obtain ⟨first, others⟩ := forall_mem_cons.mp (callers ▸ h.callers)
    exact ⟨⟨first.env, forall_mem_append.mpr ⟨atDepth_all h.task.output, first.pending⟩,
      first.output⟩, others⟩
  next front none =>
    obtain ⟨here, waiting⟩ := forall_mem_cons.mp (front ▸ h.task.pending)
    split at step
    · exact directiveStep_all loaded h waiting (mapped step)
    · exact expandStep_all h here waiting (mapped step)
  next front some =>
    obtain ⟨here, waiting⟩ := forall_mem_cons.mp (front ▸ h.task.pending)
    exact expandStep_all h here waiting (mapped step)

theorem answerIn_all (loaded : includes.All P) {n : Nat} : ∀ {c : Config},
    c.All P → answerIn includes limit n c = some (.ok tokens) → ∀ token ∈ tokens, P token := by
  induction n with
  | zero => exact fun _ h => nomatch h
  | succ n ih =>
    intro c h halts
    rw [answerIn] at halts
    split at halts
    · cases halts
    · simp only [Config.answer, Option.some.injEq] at halts
      split at halts
      · cases halts
        exact h.task.output
      · cases halts
    next stepped => exact ih (step_all loaded h stepped) halts

theorem preprocess_all {output : List Lexed} (loaded : includes.All P)
    (each : ∀ token ∈ tokens, P token) (h : preprocess includes tokens = .ok output) :
    ∀ token ∈ output, P token := by
  obtain ⟨n, halts⟩ := answerIn_start includes tokens
  rw [h] at halts
  refine answerIn_all loaded ⟨⟨?_, atDepth_all each, forall_mem_nil _⟩, forall_mem_nil _⟩ halts
  exact forall_mem_nil _

end Macro

theorem preprocess_isWord {source : Source} {includes : Macro.Includes} {lexed tokens : List Lexed}
    (read : tokenize source = .ok lexed) (expanded : preprocess includes lexed = .ok tokens) :
    ∀ token ∈ tokens, token.value.kind.IsWord := by
  have words := Lexer.tokenize_isWord (mapError_eq_ok.mp read)
  have loaded : includes.All fun token => token.value.kind.IsWord := by
    intro loc path tokens read
    simp only [Macro.load] at read
    split at read
    · cases read
    · exact Lexer.tokenize_isWord (mapError_eq_ok.mp read)
  exact Macro.preprocess_all loaded words (mapError_eq_ok.mp expanded)

end MiniC
