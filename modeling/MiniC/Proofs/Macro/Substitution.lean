import MiniC.Proofs.Macro.Rescan

/-!
# Expansion is substitution

Tokens are expanded by putting bodies back in front of what waits and looking again, with a depth
on every token. Where no macro takes arguments this comes to substitution by recursion: a name
stands for what the tokens of its body stand for, one level deeper (`standsFor`).

A call adds two things. Its arguments are cut off the input at commas outside of parentheses
(`Listed`), and its body is expanded with the parameters bound to them. If nothing else in the body
and nothing in the arguments is a macro, that replaces the parameters once.
-/

namespace MiniC.Macro

open List

/-! ## Macros without parameters -/

/-- What a token stands for at a depth: itself, or what the tokens of its macro stand for one level
deeper, in order. -/
def standsFor (env : Env) (depth : Nat) (token : Lexed) :
    Except (Located MacroError) (List Lexed) :=
  match env.use? token.value with
  | some (name, .object body) =>
    if maxDepth ≤ depth then .error ⟨.nestingLimit name, token.loc⟩
    else List.flatten <$> body.mapM (standsFor env (depth + 1))
  | _ => .ok [token]
termination_by maxDepth - depth

def substitute (env : Env) (depth : Nat) (tokens : List Lexed) :
    Except (Located MacroError) (List Lexed) :=
  List.flatten <$> tokens.mapM (standsFor env depth)

/-- The macros that some tokens lead to have no parameters. -/
structure Env.Simple (env : Env) (S : Lexed → Prop) : Prop where
  object : ∀ token, S token → ∀ name definition, env.use? token.value = some (name, definition) →
    ∃ body, definition = .object body ∧ ∀ inner ∈ body, S inner

variable {env : Env} {S : Lexed → Prop} {depth : Nat} {token : Lexed} {tokens : List Lexed}

theorem substitute_cons : substitute env depth (token :: tokens) = do
    let first ← standsFor env depth token
    let rest ← substitute env depth tokens
    return first ++ rest := by
  simp only [substitute, mapM_cons, map_eq_pure_bind, bind_assoc, pure_bind, flatten_cons]

theorem substitute_append (first rest : List Lexed) :
    substitute env depth (first ++ rest) = do
      let front ← substitute env depth first
      let back ← substitute env depth rest
      return front ++ back := by
  simp only [substitute, mapM_append, map_eq_pure_bind, bind_assoc, pure_bind, flatten_append]

theorem substitute_eq_ok {f : Lexed → List Lexed}
    (h : ∀ token ∈ tokens, standsFor env depth token = .ok (f token)) :
    substitute env depth tokens = .ok (tokens.flatMap f) := by
  induction tokens with
  | nil => rfl
  | cons token rest ih =>
    obtain ⟨here, later⟩ := forall_mem_cons.mp h
    rw [substitute_cons, here, ih later]
    rfl

theorem standsFor_itself (none : env.use? token.value = none) :
    standsFor env depth token = .ok [token] := by
  rw [standsFor, none]

theorem standsFor_object {name : String} {body : List Lexed} (inside : depth < maxDepth)
    (use : env.use? token.value = some (name, .object body)) :
    standsFor env depth token = substitute env (depth + 1) body := by
  rw [standsFor, use]
  exact if_neg (Nat.not_le.mpr inside)

theorem expandUse_object {levels : Nat} {name : String} {body rest : List Lexed}
    (use : env.use? token.value = some (name, .object body)) :
    expandUse (levels + 1) env token rest =
      .ok (some ⟨body, rest, Nat.le_refl _, levels, Nat.lt_succ_self _⟩) := by
  rw [expandUse, use]
  rfl

/-- Macros without parameters are substituted one use after the other. -/
theorem drain_simple (simple : env.Simple S) {levels depth : Nat} (left : levels = maxDepth - depth)
    {tokens : List Lexed} (all : ∀ token ∈ tokens, S token) (rest : List Lexed) :
    drain levels env rest.length (tokens ++ rest) =
      (fun output => (output, ⟨rest, Nat.le_refl _⟩)) <$> substitute env depth tokens := by
  -- the levels bound how deep bodies are nested, the tokens are worked off one by one
  induction levels using Nat.strongRecOn generalizing depth tokens rest with
  | _ levels lower =>
    induction tokens with
    | nil =>
      cases rest with
      | nil => rw [nil_append, drain]; rfl
      | cons token rest => rw [nil_append, drain, dif_pos (Nat.le_refl _)]; rfl
    | cons token tokens ih =>
      obtain ⟨here, later⟩ := forall_mem_cons.mp all
      have above : rest.length < (token :: (tokens ++ rest)).length := by
        rw [length_cons, length_append]
        omega
      rw [cons_append, drain_eq above, substitute_cons]
      cases use : env.use? token.value with
      | none =>
        rw [expandUse, use, standsFor_itself use]
        change (drain levels env rest.length (tokens ++ rest) >>= _) = _
        rw [ih later]
        cases substitute env depth tokens <;> rfl
      | some use' =>
        obtain ⟨name, definition⟩ := use'
        obtain ⟨body, rfl, inner⟩ := simple.object token here name definition use
        cases levels with
        | zero =>
          rw [expandUse, use, standsFor, use]
          simp only [if_pos (show maxDepth ≤ depth by omega)]
          rfl
        | succ deeper =>
          rw [expandUse_object use, standsFor_object (by omega) use]
          change (drain deeper env (tokens ++ rest).length (body ++ (tokens ++ rest)) >>= _) = _
          have left : deeper = maxDepth - (depth + 1) := by omega
          rw [lower deeper (Nat.lt_succ_self _) left inner]
          cases substitute env (depth + 1) body with
          | error e => rfl
          | ok front =>
            change (drain (deeper + 1) env rest.length (tokens ++ rest) >>= _) = _
            rw [ih later]
            cases substitute env depth tokens <;> rfl

theorem expandAll_simple (simple : env.Simple S) (all : ∀ token ∈ tokens, S token) :
    expandAll (maxDepth - depth) env tokens = substitute env depth tokens := by
  have drained := drain_simple simple (rfl : maxDepth - depth = _) all []
  rw [append_nil] at drained
  rw [expandAll, show 0 = ([] : List Lexed).length from rfl, drained]
  cases substitute env depth tokens <;> rfl

def Env.Objects (env : Env) : Prop :=
  ∀ name definition, env.lookup? name = some definition → ∃ body, definition = .object body

theorem Env.Objects.simple (objects : env.Objects) : env.Simple fun _ => True where
  object := by
    intro token _ name definition use
    obtain ⟨name', -, use⟩ := Option.bind_eq_some_iff.mp use
    obtain ⟨definition', found, same⟩ := Option.bind_eq_some_iff.mp use
    cases same
    obtain ⟨body, rfl⟩ := objects _ _ found
    exact ⟨body, rfl, fun _ _ => trivial⟩

/-- **Expansion without parameters is substitution.** Tokens that are worked off on their own, from
any depth on, become what they stand for; so does the machine, from where it starts on them to
where it gives them back. Expanding tokens in two parts is the same, and the first error counts. -/
theorem expandAll_substitutes (objects : env.Objects) (depth : Nat) (tokens : List Lexed) :
    expandAll (maxDepth - depth) env tokens = substitute env depth tokens ∧
    (∀ includes (c : Config) rest, Arrives includes (some maxDepth) (c.call env tokens depth rest)
      (substitute env depth tokens) fun output d =>
        d = c.withPending (atDepth depth output ++ rest)) ∧
    ∀ first second, expandAll (maxDepth - depth) env (first ++ second) = do
      let front ← expandAll (maxDepth - depth) env first
      let back ← expandAll (maxDepth - depth) env second
      return front ++ back := by
  have same : ∀ tokens, expandAll (maxDepth - depth) env tokens = substitute env depth tokens :=
    fun _ => expandAll_simple objects.simple fun _ _ => trivial
  refine ⟨same tokens, fun includes c rest => ?_, fun first second => ?_⟩
  · rw [← same]
    exact expandAll_arrives (drain_arrives _) rfl env tokens
  · rw [same, same, same, substitute_append]

def circle : Env :=
  [("A", .object [selfToken (.id "B") false, selfToken (.int 1) false]),
    ("B", .object [selfToken (.id "A") false])]

theorem expandAll_substitutes_circle :
    circle.Objects ∧
      expandAll (maxDepth - 7) circle [selfToken (.int 2) true, selfToken (.id "A") false] =
        substitute circle 7 [selfToken (.int 2) true, selfToken (.id "A") false] := by
  have objects : circle.Objects := by
    intro name definition found
    obtain ⟨entry, here, rfl⟩ := Option.map_eq_some_iff.mp found
    have mem := mem_of_find?_eq_some here
    simp only [circle, mem_cons, not_mem_nil, or_false] at mem
    rcases mem with rfl | rfl <;> exact ⟨_, rfl⟩
  exact ⟨objects, (expandAll_substitutes objects 7 _).1⟩

/-! ## Arguments -/

/-- Tokens that close the parentheses they open, with commas inside of these alone unless they are
allowed. -/
inductive Balanced : Bool → List Lexed → Prop
  | nil {commas : Bool} : Balanced commas []
  | cons {commas : Bool} {token : Lexed} {rest : List Lexed}
      (opens : token.value.kind ≠ .punct .openParen)
      (closes : token.value.kind ≠ .punct .closeParen)
      (comma : token.value.kind = .punct .comma → commas = true) (later : Balanced commas rest) :
      Balanced commas (token :: rest)
  | group {commas : Bool} {opening closing : Lexed} {inner rest : List Lexed}
      (opens : opening.value.kind = .punct .openParen) (inside : Balanced true inner)
      (closes : closing.value.kind = .punct .closeParen) (later : Balanced commas rest) :
      Balanced commas (opening :: (inner ++ closing :: rest))

/-- Arguments with commas between them, a closing parenthesis, and the rest of an input. -/
inductive Listed (rest : List Lexed) : List (List Lexed) → List Lexed → Prop
  | last {arg : List Lexed} {closing : Lexed} (balanced : Balanced false arg)
      (closes : closing.value.kind = .punct .closeParen) :
      Listed rest [arg] (arg ++ closing :: rest)
  | more {arg : List Lexed} {comma : Lexed} {args : List (List Lexed)} {input : List Lexed}
      (balanced : Balanced false arg) (separates : comma.value.kind = .punct .comma)
      (later : Listed rest args input) : Listed rest (arg :: args) (arg ++ comma :: input)

def marks (mark : Punct) (tokens : List Lexed) : Nat := tokens.countP (·.value.isPunct mark)

def Unclosed (input : List Lexed) : Prop :=
  ∀ front, front <+: input → marks .closeParen front ≤ marks .openParen front

variable {nesting : Nat} {input rest : List Lexed} {args : List (List Lexed)}

theorem foldr_consFirst (arg first : List Lexed) (args : List (List Lexed)) :
    arg.foldr consFirst (first :: args) = (arg ++ first) :: args := by
  induction arg with
  | nil => rfl
  | cons token arg ih => rw [foldr_cons, ih]; rfl

theorem splitArgs_cons (deeper : Nat)
    (ends : nesting = 0 →
      token.value.isPunct .closeParen = false ∧ token.value.isPunct .comma = false)
    (nested : deeper = if token.value.isPunct .openParen then nesting + 1
      else if token.value.isPunct .closeParen then nesting - 1 else nesting) :
    splitArgs nesting (token :: rest) =
      (splitArgs deeper rest).map fun found => (consFirst token found.1, found.2) := by
  have close : ¬(nesting = 0 ∧ token.value.isPunct .closeParen = true) :=
    fun ⟨zero, closes⟩ => Bool.false_ne_true ((ends zero).1.symm.trans closes)
  have comma : ¬(nesting = 0 ∧ token.value.isPunct .comma = true) :=
    fun ⟨zero, separates⟩ => Bool.false_ne_true ((ends zero).2.symm.trans separates)
  rw [splitArgs, if_neg close, if_neg comma, ← nested]
  cases found : splitArgs deeper rest <;> simp [found]

/-- Balanced tokens stay together in one argument. -/
theorem Balanced.splitArgs {commas : Bool} {arg : List Lexed} (balanced : Balanced commas arg) :
    ∀ {nesting : Nat}, (commas = true → nesting ≠ 0) → ∀ rest : List Lexed,
      Macro.splitArgs nesting (arg ++ rest) =
        (Macro.splitArgs nesting rest).map fun found => (arg.foldr consFirst found.1, found.2) := by
  induction balanced with
  | nil => exact fun _ rest => Option.map_id'.symm
  | @cons commas token tail opens closes comma _ ih =>
    intro nesting inside rest
    rw [cons_append, splitArgs_cons nesting, ih inside, Option.map_map]
    · rfl
    · intro zero
      exact ⟨beq_false_of_ne closes, beq_false_of_ne fun same => inside (comma same) zero⟩
    · simp [Token.isPunct, opens, closes]
  | @group commas opening closing inner tail opens _ closes _ ih ih' =>
    intro nesting inside rest
    rw [cons_append, append_assoc, cons_append, splitArgs_cons (nesting + 1),
      ih fun _ => Nat.succ_ne_zero _, splitArgs_cons nesting, ih' inside]
    · simp only [Option.map_map]
      congr 1
      funext found
      simp [foldr_append]
    · exact fun zero => absurd zero (Nat.succ_ne_zero _)
    · simp [Token.isPunct, closes]
    · simp [Token.isPunct, opens]
    · simp [Token.isPunct, opens]

theorem Listed.splitArgs (listed : Listed rest args input) :
    Macro.splitArgs 0 input = some (args, rest) := by
  induction listed with
  | last balanced closes =>
    rw [balanced.splitArgs nofun, Macro.splitArgs, if_pos ⟨rfl, beq_iff_eq.mpr closes⟩,
      Option.map_some, foldr_consFirst, append_nil]
  | @more arg _ args _ balanced separates _ ih =>
    rw [balanced.splitArgs nofun, Macro.splitArgs, if_neg (by simp [Token.isPunct, separates]),
      if_pos ⟨rfl, beq_iff_eq.mpr separates⟩, ih]
    have whole := foldr_consFirst arg [] args
    rw [append_nil] at whole
    exact congrArg (fun args => some (args, rest)) whole

/-- There are no arguments without the closing parenthesis. -/
theorem splitArgs_unclosed
    (unclosed : ∀ front, front <+: input →
      marks .closeParen front ≤ nesting + marks .openParen front) :
    splitArgs nesting input = none := by
  induction input generalizing nesting with
  | nil => rfl
  | cons token rest ih =>
    have later := fun front (start : front <+: rest) =>
      unclosed (token :: front) ((prefix_cons_inj _).mpr start)
    have here := unclosed [token] ⟨rest, rfl⟩
    simp only [marks, countP_cons, countP_nil] at later here
    have other : token.value.isPunct .openParen = true →
        token.value.isPunct .closeParen = false := by
      intro opens
      rw [Token.isPunct, beq_iff_eq] at opens
      simp [Token.isPunct, opens]
    by_cases ends : nesting = 0 ∧ token.value.isPunct .closeParen = true
    · cases opens : token.value.isPunct .openParen with
      | true => exact absurd ((other opens).symm.trans ends.2) Bool.false_ne_true
      | false => simp [ends, opens] at here
    · by_cases separates : nesting = 0 ∧ token.value.isPunct .comma = true
      · rw [splitArgs, if_neg ends, if_pos separates, ih fun front start => ?_]
        · rfl
        · have bound := later front start
          have mark : token.value.kind = .punct .comma := beq_iff_eq.mp separates.2
          simpa [marks, Token.isPunct, mark, separates.1] using bound
      · rw [splitArgs_cons _ (fun zero => ?_) rfl, ih fun front start => ?_]
        · rfl
        · have bound := later front start
          cases opens : token.value.isPunct .openParen <;>
            cases closes : token.value.isPunct .closeParen <;>
            simp [opens, closes, marks] at bound ends other ⊢ <;> omega
        · exact ⟨Bool.eq_false_iff.mpr fun closes => ends ⟨zero, closes⟩,
            Bool.eq_false_iff.mpr fun comma => separates ⟨zero, comma⟩⟩

/-! ## Calls -/

variable {name : String} {params : List String} {body inner : List Lexed} {opening : Lexed}
  {loc : Location}

/-- The arguments that a call passes: a single empty one is none, where none is expected. -/
def passed (params : List String) (args : List (List Lexed)) : List (List Lexed) :=
  if params = [] ∧ args = [[]] then [] else args

theorem mem_of_mem_passed {arg : List Lexed} (mem : arg ∈ passed params args) : arg ∈ args := by
  unfold passed at mem
  split at mem
  · cases mem
  · exact mem

theorem invoke_unterminated (opens : opening.value.isPunct .openParen = true)
    (split : splitArgs 0 inner = none) :
    invoke env name (.function params body) loc (opening :: inner) =
      .error ⟨.unterminatedCall name, loc⟩ := by
  rw [invoke, if_pos opens]
  split
  · rfl
  · next found => cases split.symm.trans found

theorem invoke_split (opens : opening.value.isPunct .openParen = true)
    (split : splitArgs 0 inner = some (args, rest)) :
    invoke env name (.function params body) loc (opening :: inner) =
      if (passed params args).length = params.length then
        .ok (some (.bound (env.bind params (passed params args)) body,
          ⟨rest, Nat.le_succ_of_le (splitArgs_length_le split)⟩))
      else .error ⟨.argumentCount name params.length (passed params args).length, loc⟩ := by
  rw [invoke, if_pos opens]
  split
  · next missing => cases split.symm.trans missing
  · next found =>
    cases split.symm.trans found
    simp only [passed, List.isEmpty_iff]
    rcases args with _ | ⟨_ | ⟨token, arg⟩, _ | ⟨next, args⟩⟩ <;> simp

/-- The argument that a name is bound to, which is the last one of a name that is repeated. -/
def argument? (params : List String) (args : List (List Lexed)) (name : String) :
    Option (List Lexed) :=
  (params.zip args).reverse.lookup name

def fill (params : List String) (args : List (List Lexed)) (token : Lexed) : List Lexed :=
  (token.value.name?.bind (argument? params args)).getD [token]

theorem Env.lookup?_bind (params : List String) (args : List (List Lexed)) (name : String) :
    (env.bind params args).lookup? name =
      ((argument? params args name).map .object).or (env.lookup? name) := by
  rw [Env.bind, argument?]
  induction params.zip args generalizing env with
  | nil => rfl
  | cons pair pairs ih =>
    obtain ⟨param, arg⟩ := pair
    rw [foldl_cons, ih, reverse_cons, lookup_append]
    cases found : pairs.reverse.lookup name with
    | some arg' => rfl
    | none =>
      by_cases same : param = name
      · simp [Env.lookup?, Env.define, same]
      · simp [Env.lookup?, Env.define, same, lookup_cons, beq_false_of_ne (Ne.symm same)]

theorem argument?_eq_none (free : name ∉ params) : argument? params args name = none := by
  refine lookup_eq_none_iff.mpr fun pair mem => ?_
  have mem := (of_mem_zip (mem_reverse.mp mem)).1
  exact bne_iff_ne.mpr fun same => free (same ▸ mem)

theorem argument?_mem {arg : List Lexed} (found : argument? params args name = some arg) :
    name ∈ params ∧ arg ∈ args := by
  obtain ⟨front, back, split, -⟩ := lookup_eq_some_iff.mp found
  have mem : (name, arg) ∈ (params.zip args).reverse := by
    rw [split]
    exact mem_append_right _ mem_cons_self
  exact of_mem_zip (mem_reverse.mp mem)

theorem exists_argument? (counted : args.length = params.length) (mem : name ∈ params) :
    ∃ arg, argument? params args name = some arg := by
  refine Option.isSome_iff_exists.mp (Option.isSome_iff_ne_none.mpr fun missing => ?_)
  have names : (params.zip args).map (·.1) = params := map_fst_zip (Nat.le_of_eq counted.symm)
  rw [← names] at mem
  obtain ⟨pair, mem, same⟩ := mem_map.mp mem
  exact bne_iff_ne.mp (lookup_eq_none_iff.mp missing pair (mem_reverse.mpr mem)) same.symm

theorem Env.use?_eq_none
    (ignored : ∀ name, token.value.name? = some name → env.lookup? name = none) :
    env.use? token.value = none := by
  unfold Env.use?
  cases named : token.value.name? with
  | none => rfl
  | some name => simp [ignored name named]

theorem Env.use?_eq_some {definition : Macro} (named : token.value.name? = some name)
    (found : env.lookup? name = some definition) :
    env.use? token.value = some (name, definition) := by
  simp [Env.use?, named, found]

/-- Parameters are replaced by their arguments all at once. -/
theorem expandAll_bind (inside : depth < maxDepth) (counted : args.length = params.length)
    (given : ∀ arg ∈ args, ∀ token ∈ arg, ∀ name, token.value.name? = some name →
      env.lookup? name = none ∧ name ∉ params)
    (fixed : ∀ token ∈ body, ∀ name, token.value.name? = some name → name ∉ params →
      env.lookup? name = none) :
    expandAll (maxDepth - depth) (env.bind params args) body =
      .ok (body.flatMap (fill params args)) := by
  have quiet : ∀ arg ∈ args, ∀ token ∈ arg, (env.bind params args).use? token.value = none := by
    intro arg mem token listed
    refine Env.use?_eq_none fun name named => ?_
    obtain ⟨ignored, free⟩ := given arg mem token listed name named
    rw [Env.lookup?_bind, argument?_eq_none free, ignored]
    rfl
  -- a token of the body is a parameter with its argument, or stands for itself
  have cases : ∀ token ∈ body,
      (env.bind params args).use? token.value = none ∧ fill params args token = [token] ∨
      ∃ name arg, arg ∈ args ∧ (env.bind params args).use? token.value = some (name, .object arg) ∧
        fill params args token = arg := by
    intro token mem
    cases named : token.value.name? with
    | none =>
      exact .inl ⟨Env.use?_eq_none fun name same => by simp [named] at same, by simp [fill, named]⟩
    | some name =>
      by_cases param : name ∈ params
      · obtain ⟨arg, found⟩ := exists_argument? counted param
        have bound : (env.bind params args).lookup? name = some (.object arg) := by
          rw [Env.lookup?_bind, found]
          rfl
        exact .inr ⟨name, arg, (argument?_mem found).2, Env.use?_eq_some named bound,
          by simp [fill, named, found]⟩
      · have missing : argument? params args name = none := argument?_eq_none param
        refine .inl ⟨Env.use?_eq_none fun name' same => ?_, by simp [fill, named, missing]⟩
        cases named.symm.trans same
        rw [Env.lookup?_bind, missing, fixed token mem name named param]
        rfl
  have simple : (env.bind params args).Simple fun token =>
      token ∈ body ∨ ∃ arg ∈ args, token ∈ arg := by
    refine ⟨fun token mem name definition use => ?_⟩
    rcases mem with mem | ⟨arg, mem, listed⟩
    · rcases cases token mem with ⟨none, -⟩ | ⟨name', arg, given, use', -⟩
      · cases none.symm.trans use
      · cases use'.symm.trans use
        exact ⟨arg, rfl, fun inner listed => .inr ⟨arg, given, listed⟩⟩
    · cases (quiet arg mem token listed).symm.trans use
  rw [expandAll_simple simple fun _ => .inl]
  refine substitute_eq_ok fun token mem => ?_
  rcases cases token mem with ⟨none, filled⟩ | ⟨name, arg, given, use, filled⟩
  · rw [standsFor_itself none, filled]
  · rw [standsFor_object inside use, filled, substitute_eq_ok fun inner listed =>
      standsFor_itself (quiet arg given inner listed), flatMap_singleton']

theorem expandUse_split {deeper : Nat}
    (use : env.use? token.value = some (name, .function params body))
    (opens : opening.value.isPunct .openParen = true)
    (split : splitArgs 0 inner = some (args, rest)) :
    expandUse (deeper + 1) env token (opening :: inner) =
      if (passed params args).length = params.length then do
        let tokens ← expandAll deeper (env.bind params (passed params args)) body
        return some ⟨tokens, rest, Nat.le_succ_of_le (splitArgs_length_le split), deeper,
          Nat.lt_succ_self _⟩
      else .error ⟨.argumentCount name params.length (passed params args).length, token.loc⟩ := by
  rw [expandUse, use]
  simp only
  rw [invoke_split opens split]
  split <;> rfl

/-- **A call replaces parameters by arguments.** Where a macro with parameters is followed by
arguments in parentheses, exactly these are taken from the input. A wrong number of them is an
error; otherwise, if nothing but the parameters could be expanded, the call becomes its body with
the last argument of each parameter in its place. A call whose parentheses are never closed is an
error. -/
theorem expandUse_call (inside : depth < maxDepth - 1)
    (use : env.use? token.value = some (name, .function params body))
    (opens : opening.value.isPunct .openParen = true) :
    (∀ args rest, Listed rest args inner → splitArgs 0 inner = some (args, rest) ∧
      (∀ result, expandUse (maxDepth - depth) env token (opening :: inner) = .ok result →
        ∃ expansion, result = some expansion ∧ expansion.after = rest) ∧
      ((passed params args).length ≠ params.length →
        expandUse (maxDepth - depth) env token (opening :: inner) =
          .error ⟨.argumentCount name params.length (passed params args).length, token.loc⟩) ∧
      ((passed params args).length = params.length →
        (∀ arg ∈ args, ∀ token ∈ arg, ∀ name, token.value.name? = some name →
          env.lookup? name = none ∧ name ∉ params) →
        (∀ token ∈ body, ∀ name, token.value.name? = some name → name ∉ params →
          env.lookup? name = none) →
        ∃ expansion,
          expandUse (maxDepth - depth) env token (opening :: inner) = .ok (some expansion) ∧
          expansion.tokens = body.flatMap (fill params (passed params args)) ∧
          expansion.after = rest)) ∧
    (Unclosed inner → expandUse (maxDepth - depth) env token (opening :: inner) =
      .error ⟨.unterminatedCall name, token.loc⟩) := by
  obtain ⟨deeper, levels⟩ : ∃ deeper, maxDepth - depth = deeper + 1 :=
    ⟨maxDepth - depth - 1, by omega⟩
  rw [levels]
  refine ⟨fun args rest listed => ?_, fun unclosed => ?_⟩
  · have split := listed.splitArgs
    rw [expandUse_split use opens split]
    refine ⟨split, fun result done => ?_, fun wrong => if_neg wrong, fun counted given fixed => ?_⟩
    · split at done
      · obtain ⟨tokens, -, same⟩ := bind_eq_ok.mp done
        exact ⟨_, (Except.ok.inj same).symm, rfl⟩
      · cases done
    · have expanded := expandAll_bind (show depth + 1 < maxDepth by omega) counted
        (fun arg mem => given arg (mem_of_mem_passed mem)) fixed
      rw [show maxDepth - (depth + 1) = deeper by omega] at expanded
      rw [if_pos counted, expanded]
      exact ⟨_, rfl, rfl, rfl⟩
  · rw [expandUse, use]
    simp only
    rw [invoke_unterminated opens (splitArgs_unclosed (by simpa [Unclosed] using unclosed))]
    rfl

def double : List Lexed :=
  [selfToken (.id "x") false, selfToken (.punct .plus) false, selfToken (.id "x") false]

/-- `F((1, 2), 3);`, of which the second argument counts. -/
theorem expandUse_call_double :
    let mark := fun mark => selfToken (.punct mark) false
    let number := fun value => selfToken (.int value) false
    let env : Env := [("F", .function ["x", "x"] double)]
    env.use? (selfToken (.id "F") true).value = some ("F", .function ["x", "x"] double) ∧
    ∃ expansion, expandUse (maxDepth - 0) env (selfToken (.id "F") true)
        [mark .openParen, mark .openParen, number 1, mark .comma, number 2, mark .closeParen,
          mark .comma, number 3, mark .closeParen, mark .semicolon] = .ok (some expansion) ∧
      expansion.tokens = [number 3, mark .plus, number 3] ∧
      expansion.after = [mark .semicolon] := by
  intro mark number env
  have use : env.use? (selfToken (.id "F") true).value =
      some ("F", .function ["x", "x"] double) := rfl
  have number_cons : ∀ {commas value rest},
      Balanced commas rest → Balanced commas (number value :: rest) :=
    fun later => .cons TokenKind.noConfusion TokenKind.noConfusion TokenKind.noConfusion later
  have pair : Balanced false [mark .openParen, number 1, mark .comma, number 2, mark .closeParen] :=
    .group rfl (number_cons (.cons (by decide) (by decide) (fun _ => rfl) (number_cons .nil)))
      rfl .nil
  have last : Listed [mark .semicolon] [[number 3]] [number 3, mark .closeParen, mark .semicolon] :=
    .last (number_cons .nil) rfl
  have called := (expandUse_call (show 0 < maxDepth - 1 by decide) use
    (show (mark .openParen).value.isPunct .openParen = true from rfl)).1 _ _
    (.more pair (show (mark .comma).value.kind = .punct .comma from rfl) last)
  refine ⟨use, called.2.2.2 rfl ?_ ?_⟩
  · simp [mark, number, selfToken, Token.name?]
  · simp [double, selfToken, Token.name?]

end MiniC.Macro
