import MiniC.Macro.Directive
import MiniC.Proofs.Computations
import Mathlib.Data.List.Basic

/-!
# Looking at expansions again comes to an end

The expansion of macros, step by step, as a machine over tokens that wait to be looked at. Every
token carries its depth: the number of expansions and inclusions it came out of. The body of a
macro, and the text of a file, is put in front of what waits, one deeper than the token it stands
for. The body of a macro with parameters is first worked off as a task of its own, with the
parameters bound, and its output is put back in the same way.

A step never loops, but nothing in the machine says that the steps end: what is put back may name
the macro it came from. The machine may be given a limit on the depth. With the limit of
`preprocess` it halts on every input with the answer of `preprocess`; without one it halts with
the same answer unless that is the failure at the limit. So an expansion or an inclusion that
would go on for ever fails.
-/

namespace MiniC.Macro

open List

/-- A token that waits to be looked at. -/
structure Pending where
  token : Lexed
  depth : Nat

/-- Tokens that are worked off in one environment: those that wait, those that were put out, and
the depth at which the output goes back to the task that asked for it. -/
structure Task where
  env : Env
  pending : List Pending
  output : List Lexed := []
  depth : Nat := 0

/-- The task that is worked off, and the tasks that wait for its output, the innermost first. Only
the outermost task has directives. -/
structure Config where
  conditionals : List Location := []
  task : Task
  callers : List Task := []

def atDepth (depth : Nat) (tokens : List Lexed) : List Pending := tokens.map (⟨·, depth⟩)

def plain (pending : List Pending) : List Lexed := pending.map (·.token)

def lastOf (count : Nat) (pending : List Pending) : List Pending :=
  pending.drop (pending.length - count)

namespace Config

def answer (c : Config) : Except (Located MacroError) (List Lexed) :=
  match c.conditionals with
  | [] => .ok c.task.output
  | loc :: _ => .error ⟨.missingEndif, loc⟩

def withPending (c : Config) (pending : List Pending) : Config :=
  { c with task := { c.task with pending } }

def put (c : Config) (tokens : List Lexed) (rest : List Pending) : Config :=
  { c with task := { c.task with pending := rest, output := c.task.output ++ tokens } }

def state (c : Config) : State := ⟨c.task.env, c.conditionals⟩

def withState (c : Config) (state : State) : Config :=
  { c with conditionals := state.conditionals, task := { c.task with env := state.env } }

def call (c : Config) (env : Env) (body : List Lexed) (depth : Nat) (rest : List Pending) : Config :=
  { c with
    task := { env, pending := atDepth depth body, depth }
    callers := { c.task with pending := rest } :: c.callers }

end Config

section

variable (includes : Includes) (limit : Option Nat)

def isPast (depth : Nat) : Bool := limit.any (· ≤ depth)

/-- A step at a token that is no directive: it is put out, or its macro is put in its place. -/
def expandStep (c : Config) (next : Pending) (rest : List Pending) :
    Except (Located MacroError) Config :=
  match c.task.env.use? next.token.value with
  | none => .ok (c.put [next.token] rest)
  | some (name, definition) =>
    if isPast limit next.depth then .error ⟨.nestingLimit name, next.token.loc⟩
    else
      match invoke c.task.env name definition next.token.loc (plain rest) with
      | .error error => .error error
      | .ok none => .ok (c.put [next.token] rest)
      | .ok (some (.plain body, after)) =>
        .ok (c.withPending (atDepth (next.depth + 1) body ++ lastOf after.val.length rest))
      | .ok (some (.bound env body, after)) =>
        .ok (c.call env body (next.depth + 1) (lastOf after.val.length rest))

def directiveStep (c : Config) (hash : Pending) (rest : List Pending) :
    Except (Located MacroError) Config :=
  match directive c.state hash.token.loc (plain rest) with
  | .error error => .error error
  | .ok (.update state after _) => .ok ((c.withPending (lastOf after.length rest)).withState state)
  | .ok (.insert path after _) =>
    if isPast limit hash.depth then .error ⟨.nestingLimit path, hash.token.loc⟩
    else
      match load includes hash.token.loc path with
      | .error error => .error error
      | .ok tokens =>
        .ok (c.withPending (atDepth (hash.depth + 1) tokens ++ lastOf after.length rest))

def step (c : Config) : Except (Located MacroError) (Option Config) :=
  match c.task.pending, c.callers with
  | [], [] => .ok none
  | [], caller :: callers =>
    let pending := atDepth c.task.depth c.task.output ++ caller.pending
    .ok (some { c with task := { caller with pending }, callers })
  | next :: rest, [] =>
    if isDirective next.token.value then some <$> directiveStep includes limit c next rest
    else some <$> expandStep limit c next rest
  | next :: rest, _ :: _ => some <$> expandStep limit c next rest

def answerIn : Nat → Config → Option (Except (Located MacroError) (List Lexed))
  | 0, _ => none
  | n + 1, c =>
    match step includes limit c with
    | .error error => some (.error error)
    | .ok none => some c.answer
    | .ok (some d) => answerIn n d

end

/-! ## What waits -/

variable {includes : Includes} {limit : Option Nat} {c d : Config} {next : Pending}
  {rest pending : List Pending}

@[simp] theorem plain_append (first rest : List Pending) :
    plain (first ++ rest) = plain first ++ plain rest := map_append

@[simp] theorem plain_atDepth (depth : Nat) (tokens : List Lexed) :
    plain (atDepth depth tokens) = tokens := by
  rw [plain, atDepth, map_map]
  exact map_id _

@[simp] theorem length_plain (pending : List Pending) : (plain pending).length = pending.length :=
  length_map ..

theorem lastOf_suffix (count : Nat) (pending : List Pending) : lastOf count pending <:+ pending :=
  drop_suffix ..

theorem plain_lastOf {after : List Lexed} (h : after <:+ plain pending) :
    plain (lastOf after.length pending) = after := by
  rw [lastOf, plain, map_drop, ← length_plain]
  exact (suffix_iff_eq_drop.mp h).symm

def Level (depth floor : Nat) (pending : List Pending) : Prop :=
  ∀ p ∈ pending.take (pending.length - floor), p.depth = depth

variable {depth floor n levels deeper : Nat} {input : List Lexed} {env : Env} {token : Lexed}

theorem Level.head (h : Level depth floor (next :: rest))
    (above : floor < (next :: rest).length) : next.depth = depth := by
  refine h next ?_
  obtain ⟨n, hn⟩ : ∃ n, (next :: rest).length - floor = n + 1 :=
    ⟨(next :: rest).length - floor - 1, by omega⟩
  rw [hn]
  exact mem_cons_self

theorem Level.suffix (h : Level depth floor pending) (le : rest <:+ pending) :
    Level depth floor rest := by
  obtain ⟨first, rfl⟩ := le
  intro p mem
  by_cases short : rest.length ≤ floor
  · rw [Nat.sub_eq_zero_of_le short] at mem
    cases mem
  · refine h p ?_
    rw [length_append, Nat.add_sub_assoc (Nat.le_of_not_le short), take_length_add_append]
    exact mem_append_right _ mem

theorem level_atDepth (depth : Nat) (tokens : List Lexed) (rest : List Pending) :
    Level depth rest.length (atDepth depth tokens ++ rest) := by
  intro p mem
  rw [length_append, Nat.add_sub_cancel, take_left] at mem
  obtain ⟨token, -, rfl⟩ := mem_map.mp mem
  rfl

/-! ## Rests of the input -/

theorem splitArgs_suffix {nesting : Nat} {after : List Lexed} {args : List (List Lexed)}
    (h : splitArgs nesting input = some (args, after)) : after <:+ input := by
  fun_induction splitArgs nesting input generalizing args after with
  | case1 => cases h
  | case2 =>
    cases h
    exact suffix_cons ..
  | case3 | case4 =>
    rename_i ih
    obtain ⟨⟨args', after'⟩, found, same⟩ := Option.bind_eq_some_iff.mp h
    cases same
    exact (ih found).trans (suffix_cons ..)

theorem invoke_suffix {name : String} {definition : Macro} {loc : Location}
    {invocation : Invocation} {after : { after : List Lexed // after.length ≤ input.length }}
    (h : invoke env name definition loc input = .ok (some (invocation, after))) :
    after.val <:+ input := by
  unfold invoke at h
  split at h
  · cases h
    exact suffix_rfl
  · split at h
    · cases h
    · split at h
      · split at h
        · cases h
        · rename_i split
          extract_lets at h
          split at h
          · cases h
            exact (splitArgs_suffix split).trans (suffix_cons ..)
          · cases h
      · cases h

theorem skipConditional_suffix {after : List Lexed} (h : skipConditional input = some after) :
    after <:+ input := by
  fun_induction skipConditional input with
  | case1 => cases h
  | case2 token rest _ =>
    cases h
    exact (dropWhile_suffix _).trans (suffix_cons ..)
  | case3 token rest _ ih => exact (ih h).trans (suffix_cons ..)

def Effect.after {rest : List Lexed} : Effect rest → List Lexed
  | .update _ after _ | .insert _ after _ => after

/-- What a directive leaves is an end of its input. -/
theorem directive_suffix {state : State} {hash : Location} {effect : Effect input}
    (h : directive state hash input = .ok effect) :
    effect.after <:+ input := by
  have line : dropLine input <:+ input := dropWhile_suffix _
  simp only [directive] at h
  split at h
  · cases h
    exact line
  · obtain ⟨name, -, h⟩ := bind_eq_ok.mp h
    split at h
    · simp only [bind_eq_ok] at h
      obtain ⟨_, -, _, -, same⟩ := h
      cases same
      exact line
    · simp only [bind_eq_ok] at h
      obtain ⟨_, -, same⟩ := h
      cases same
      exact line
    · simp only [bind_eq_ok] at h
      obtain ⟨_, -, same⟩ := h
      cases same
      exact line
    · simp only [bind_eq_ok] at h
      obtain ⟨_, -, h⟩ := h
      split at h
      · cases h
        exact line
      · split at h
        · rename_i skipped
          cases h
          exact (skipConditional_suffix skipped).trans line
        · cases h
    · simp only [bind_eq_ok] at h
      obtain ⟨_, -, h⟩ := h
      split at h
      · cases h
        exact line
      · split at h
        · rename_i skipped
          cases h
          exact (skipConditional_suffix skipped).trans line
        · cases h
    · split at h
      · cases h
        exact line
      · cases h
    · cases h

/-! ## Runs -/

theorem answerIn_of_step (h : step includes limit c = .ok (some d)) :
    answerIn includes limit (n + 1) c = answerIn includes limit n d := by
  rw [answerIn, h]

variable (includes limit) in
def Leads (c d : Config) : Prop :=
  ∃ k, ∀ n, answerIn includes limit (n + k) c = answerIn includes limit n d

theorem Leads.refl (c : Config) : Leads includes limit c c := ⟨0, fun _ => rfl⟩

theorem Leads.trans {e : Config} (first : Leads includes limit c d) (rest : Leads includes limit d e) :
    Leads includes limit c e := by
  obtain ⟨i, first⟩ := first
  obtain ⟨j, rest⟩ := rest
  exact ⟨j + i, fun n => by rw [← Nat.add_assoc, first, rest]⟩

theorem Leads.of_step (h : step includes limit c = .ok (some d)) : Leads includes limit c d :=
  ⟨1, fun _ => answerIn_of_step h⟩

variable (includes limit) in
/-- The machine gets to where the result of a computation says, or fails as it does. -/
def Arrives {α : Type} (c : Config) (result : Except (Located MacroError) α) (Q : α → Config → Prop) :
    Prop :=
  match result with
  | .ok a => ∃ d, Leads includes limit c d ∧ Q a d
  | .error e => ∃ n, answerIn includes limit n c = some (.error e)

namespace Arrives

variable {α β : Type} {Q Q' : α → Config → Prop} {R : β → Config → Prop}
  {result : Except (Located MacroError) α}

theorem here {a : α} (h : Q a c) : Arrives includes limit c (.ok a) Q := ⟨c, .refl c, h⟩

theorem after (first : Leads includes limit c d) (h : Arrives includes limit d result Q) :
    Arrives includes limit c result Q := by
  match result, h with
  | .ok a, ⟨e, rest, ha⟩ => exact ⟨e, first.trans rest, ha⟩
  | .error e, ⟨n, failed⟩ =>
    obtain ⟨k, same⟩ := first
    exact ⟨n + k, (same n).trans failed⟩

theorem of_error {e : Located MacroError} (h : step includes limit c = .error e) :
    Arrives includes limit c (.error e : Except _ α) Q :=
  ⟨1, by rw [answerIn, h]⟩

theorem bind {f : α → Except (Located MacroError) β} (first : Arrives includes limit c result Q)
    (rest : ∀ a d, Q a d → Arrives includes limit d (f a) R) :
    Arrives includes limit c (result >>= f) R := by
  match result, first with
  | .ok a, ⟨d, leads, ha⟩ => exact (rest a d ha).after leads
  | .error e, failed => exact failed

theorem goesOn (h : Arrives includes limit c result Q)
    (rest : ∀ a d, Q a d → ∃ e, Leads includes limit d e ∧ Q' a e) :
    Arrives includes limit c result Q' := by
  match result, h with
  | .ok a, ⟨d, leads, ha⟩ =>
    obtain ⟨e, more, ha⟩ := rest a d ha
    exact ⟨e, leads.trans more, ha⟩
  | .error e, failed => exact failed

theorem map {f : α → β} (h : Arrives includes limit c result fun a d => R (f a) d) :
    Arrives includes limit c (f <$> result) R := by
  match result, h with
  | .ok a, reached => exact reached
  | .error e, failed => exact failed

end Arrives

/-! ## Expansion -/

theorem drain_eq (above : floor < (token :: input).length) :
    drain levels env floor (token :: input) = expandUse levels env token input >>= fun use? =>
      use?.elim
        (do
          let rest ← drain levels env floor input
          return (token :: rest.1, rest.2))
        fun use => do
          let front ← drain use.deeper env use.after.length (use.tokens ++ use.after)
          let rest ← drain levels env floor front.2.val
          return (front.1 ++ rest.1, rest.2) := by
  rw [drain.eq_def, expandUse]
  simp only [dif_neg (Nat.not_le.mpr above)]
  cases env.use? token.value with
  | none => rfl
  | some use =>
    obtain ⟨name, definition⟩ := use
    cases levels with
    | zero => rfl
    | succ levels =>
      simp only
      cases invoke env name definition token.loc input with
      | error e => rfl
      | ok invoked =>
        rcases invoked with _ | ⟨body | ⟨params, body⟩, after⟩
        · rfl
        · rfl
        · simp only [Invocation.tokens, expandAll, bind, Except.bind]
          cases drain levels params 0 body <;> rfl

theorem step_ordinary (front : c.task.pending = next :: rest)
    (ordinary : c.callers = [] → isDirective next.token.value = false) :
    step includes limit c = some <$> expandStep limit c next rest := by
  rw [step, front]
  cases callers : c.callers with
  | nil => simp only [ordinary callers]; rfl
  | cons => rfl

theorem step_return {caller : Task} {callers : List Task} (worked : c.task.pending = [])
    (waiting : c.callers = caller :: callers) :
    step includes limit c = .ok (some { c with
      task := { caller with pending := atDepth c.task.depth c.task.output ++ caller.pending }
      callers }) := by
  rw [step, worked, waiting]

variable (includes) in
/-- With so many levels left, the machine does in a task that others wait for what `drain` does. -/
def Drains (levels : Nat) : Prop :=
  ∀ (floor depth : Nat) (input : List Lexed) (c : Config), c.callers ≠ [] →
    plain c.task.pending = input → Level depth floor c.task.pending → levels = maxDepth - depth →
    Arrives includes (some maxDepth) c (drain levels c.task.env floor input)
      fun result d => ∃ left, left <:+ c.task.pending ∧ plain left = result.2.val ∧
        d = c.put result.1 left

theorem expandAll_arrives (drains : Drains includes levels) (sum : levels = maxDepth - depth)
    (env : Env) (body : List Lexed) :
    Arrives includes (some maxDepth) (c.call env body depth rest) (expandAll levels env body)
      fun tokens d => d = c.withPending (atDepth depth tokens ++ rest) := by
  have level : Level depth 0 (atDepth depth body) := by
    have := level_atDepth depth body []
    rwa [append_nil] at this
  have inner := drains 0 depth body (c.call env body depth rest) (cons_ne_nil _ _)
    (plain_atDepth depth body) level sum
  refine .map (inner.goesOn fun result d reached => ?_)
  obtain ⟨left, -, same, rfl⟩ := reached
  -- a body on its own has no floor, so nothing of it is left
  obtain rfl : left = [] := by
    have short := result.2.property
    rw [← same, length_plain] at short
    exact eq_nil_of_length_eq_zero (Nat.le_zero.mp short)
  exact ⟨_, .of_step (step_return rfl rfl), rfl⟩

theorem expandUse_arrives (lower : ∀ deeper < levels, Drains includes deeper)
    (front : c.task.pending = next :: rest)
    (ordinary : c.callers = [] → isDirective next.token.value = false)
    (depth : levels = maxDepth - next.depth) :
    Arrives includes (some maxDepth) c (expandUse levels c.task.env next.token (plain rest))
      fun use? d => use?.elim (d = c.put [next.token] rest) fun use =>
        use.after <:+ plain rest ∧ use.deeper = maxDepth - (next.depth + 1) ∧
          d = c.withPending (atDepth (next.depth + 1) use.tokens ++ lastOf use.after.length rest) := by
  have stepped : step includes (some maxDepth) c = _ := step_ordinary front ordinary
  rw [expandStep] at stepped
  rw [expandUse]
  cases used : c.task.env.use? next.token.value with
  | none =>
    simp only [used] at stepped ⊢
    exact .after (.of_step stepped) (.here rfl)
  | some use =>
    obtain ⟨name, definition⟩ := use
    simp only [used] at stepped ⊢
    cases levels with
    | zero =>
      have past : isPast (some maxDepth) next.depth := by simp [isPast]; omega
      rw [if_pos past] at stepped
      exact .of_error stepped
    | succ deeper =>
      have levels : deeper = maxDepth - (next.depth + 1) := by omega
      have inside : isPast (some maxDepth) next.depth = false := by simp [isPast]; omega
      rw [inside] at stepped
      simp only [Bool.false_eq_true, if_false] at stepped ⊢
      cases invoked : invoke c.task.env name definition next.token.loc (plain rest) with
      | error e =>
        rw [invoked] at stepped
        exact .of_error stepped
      | ok invocation =>
        rw [invoked] at stepped
        rcases invocation with _ | ⟨body | ⟨env, body⟩, after⟩
        · exact .after (.of_step stepped) (.here rfl)
        · exact .after (.of_step stepped) (.here ⟨invoke_suffix invoked, levels, rfl⟩)
        · refine .after (.of_step stepped) ?_
          change Arrives _ _ _ (expandAll deeper env body >>= _) _
          refine .bind (expandAll_arrives (lower deeper (Nat.lt_succ_self deeper)) levels env body) ?_
          rintro tokens d rfl
          exact .here ⟨invoke_suffix invoked, levels, rfl⟩

theorem length_lastOf {after : List Lexed} (h : after <:+ plain pending) :
    (lastOf after.length pending).length = after.length := by
  rw [← length_plain, plain_lastOf h]

theorem suffix_of_atDepth {tokens after : List Lexed} {left : List Pending}
    (behind : after <:+ plain rest) (h : left <:+ atDepth depth tokens ++ lastOf after.length rest)
    (short : left.length ≤ after.length) : left <:+ rest := by
  refine (suffix_of_suffix_length_le h (suffix_append _ _) ?_).trans (lastOf_suffix _ _)
  rwa [length_lastOf behind]

/-- The machine drains a task as the recursion does, by induction on the levels left. -/
theorem drain_arrives (levels : Nat) : Drains includes levels := by
  induction levels using Nat.strongRecOn with
  | _ levels lower =>
    intro floor depth input c waiting shown
    induction size : input.length using Nat.strongRecOn generalizing c input with
    | _ bound shorter =>
      intro level sum
      obtain ⟨conditionals, ⟨env, pending, output, back⟩, callers⟩ := c
      subst shown
      cases pending with
      | nil =>
        rw [plain, map_nil, drain]
        exact .here ⟨[], suffix_rfl, rfl, by rw [Config.put, append_nil]⟩
      | cons next rest =>
        by_cases above : floor < (next :: rest).length
        · rw [plain, map_cons, drain_eq (by simpa using above)]
          refine .bind (expandUse_arrives lower rfl (fun none => absurd none waiting) ?_) ?_
          · rw [level.head above, sum]
          rintro (_ | use) d reached
          · subst reached
            refine .bind (shorter rest.length ?_ (plain rest) _ waiting rfl (length_plain rest)
              (level.suffix (suffix_cons ..)) sum) ?_
            · simp [← size]
            rintro ⟨tokens, after⟩ d ⟨left, suffix, same, rfl⟩
            refine .here ⟨left, suffix.trans (suffix_cons ..), same, ?_⟩
            simp only [Config.put, append_assoc, singleton_append]
          · obtain ⟨behind, deeper, rfl⟩ := reached
            have inner := level_atDepth (next.depth + 1) use.tokens (lastOf use.after.length rest)
            rw [length_lastOf behind] at inner
            refine .bind (lower use.deeper use.lt _ _ _ _ waiting ?_ inner deeper) ?_
            · rw [Config.withPending, plain_append, plain_atDepth, plain_lastOf behind]
            rintro ⟨front, left⟩ d ⟨between, suffix, same, rfl⟩
            have short : between.length ≤ use.after.length := by
              rw [← length_plain, same]
              exact left.property
            have suffix := (suffix_of_atDepth behind suffix short).trans (suffix_cons next rest)
            have fewer : left.val.length < bound := by
              rw [← size, length_plain]
              have := behind.length_le
              rw [length_plain] at this
              exact Nat.lt_succ_of_le (Nat.le_trans left.property this)
            refine .bind (shorter _ fewer left.val _ waiting same rfl (level.suffix suffix) sum) ?_
            rintro ⟨tokens, after⟩ d ⟨last, suffix', same, rfl⟩
            refine .here ⟨last, suffix'.trans suffix, same, ?_⟩
            simp only [Config.put, Config.withPending, append_assoc]
        · rw [plain, map_cons, drain, dif_pos (by simpa using above)]
          exact .here ⟨next :: rest, suffix_rfl, rfl, by rw [Config.put, append_nil]⟩

/-! ## Directives -/

theorem run_eq {state : State} (above : floor < (token :: input).length)
    (ordinary : isDirective token.value = false) :
    run includes levels state floor (token :: input) =
      expandUse levels state.env token input >>= fun use? =>
        use?.elim
          (do
            let rest ← run includes levels state floor input
            return (token :: rest.1, rest.2))
          fun use => do
            let front ← run includes use.deeper state use.after.length (use.tokens ++ use.after)
            let rest ← run includes levels front.2.1 floor front.2.2.val
            return (front.1 ++ rest.1, rest.2) := by
  rw [run, dif_neg (Nat.not_le.mpr above), ordinary]
  simp only [Bool.false_eq_true, if_false]
  rcases expandUse levels state.env token input with e | _ | use <;> rfl

theorem run_update_eq {state state' : State} {after : List Lexed} {le : after.length ≤ input.length}
    (above : floor < (token :: input).length) (hash : isDirective token.value = true)
    (found : directive state token.loc input = .ok (.update state' after le)) :
    run includes levels state floor (token :: input) = run includes levels state' floor after := by
  rw [run, dif_neg (Nat.not_le.mpr above), if_pos hash, found]

theorem run_insert_eq {state : State} {after : List Lexed} {path : String}
    {le : after.length ≤ input.length} (above : floor < (token :: input).length)
    (hash : isDirective token.value = true)
    (found : directive state token.loc input = .ok (.insert path after le)) :
    run includes (deeper + 1) state floor (token :: input) = (do
      let tokens ← load includes token.loc path
      let front ← run includes deeper state after.length (tokens ++ after)
      let rest ← run includes (deeper + 1) front.2.1 floor front.2.2.val
      return (front.1 ++ rest.1, rest.2)) := by
  rw [run, dif_neg (Nat.not_le.mpr above), if_pos hash, found]

variable (includes) in
/-- With so many levels left, the machine does in the outermost task what `run` does. -/
def Runs (levels : Nat) : Prop :=
  ∀ (floor depth : Nat) (input : List Lexed) (c : Config), c.callers = [] →
    plain c.task.pending = input → Level depth floor c.task.pending → levels = maxDepth - depth →
    Arrives includes (some maxDepth) c (run includes levels c.state floor input)
      fun result d => ∃ left, left <:+ c.task.pending ∧ plain left = result.2.2.val ∧
        d = (c.put result.1 left).withState result.2.1

variable (includes) in
def RunsOn (levels floor : Nat) (pending : List Pending) : Prop :=
  ∀ (input : List Lexed) (c : Config), c.callers = [] → c.task.pending <:+ pending →
    plain c.task.pending = input →
    Arrives includes (some maxDepth) c (run includes levels c.state floor input)
      fun result d => ∃ left, left <:+ c.task.pending ∧ plain left = result.2.2.val ∧
        d = (c.put result.1 left).withState result.2.1

theorem inserted_arrives {tokens after : List Lexed} (inner : Runs includes deeper)
    (sum : deeper = maxDepth - depth) (outermost : c.callers = []) (behind : after <:+ plain rest)
    (again : RunsOn includes levels floor rest) :
    Arrives includes (some maxDepth)
      (c.withPending (atDepth depth tokens ++ lastOf after.length rest))
      (do
        let front ← run includes deeper c.state after.length (tokens ++ after)
        let rest ← run includes levels front.2.1 floor front.2.2.val
        return (front.1 ++ rest.1, rest.2))
      fun result d => ∃ left, left <:+ rest ∧ plain left = result.2.2.val ∧
        d = (c.put result.1 left).withState result.2.1 := by
  have level := level_atDepth depth tokens (lastOf after.length rest)
  rw [length_lastOf behind] at level
  refine .bind (inner _ _ _ _ outermost ?_ level sum) ?_
  · rw [Config.withPending, plain_append, plain_atDepth, plain_lastOf behind]
  rintro ⟨front, state, left⟩ d ⟨between, suffix, same, reached⟩
  have short : between.length ≤ after.length := by
    rw [← length_plain, same]
    exact left.property
  have suffix := suffix_of_atDepth behind suffix short
  subst reached
  refine .bind (again left.val _ outermost suffix same) ?_
  rintro ⟨output, state', left'⟩ d ⟨last, suffix', same, rfl⟩
  refine .here ⟨last, suffix'.trans suffix, same, ?_⟩
  simp only [Config.put, Config.withPending, Config.withState, append_assoc]

theorem directive_arrives (lower : ∀ deeper < levels, Runs includes deeper)
    (front : c.task.pending = next :: rest) (outermost : c.callers = [])
    (hash : isDirective next.token.value = true) (depth : levels = maxDepth - next.depth)
    (above : floor < (next :: rest).length) (again : RunsOn includes levels floor rest) :
    Arrives includes (some maxDepth) c
      (run includes levels c.state floor (next.token :: plain rest))
      fun result d => ∃ left, left <:+ rest ∧ plain left = result.2.2.val ∧
        d = (c.put result.1 left).withState result.2.1 := by
  have stepped : step includes (some maxDepth) c =
      some <$> directiveStep includes (some maxDepth) c next rest := by
    rw [step, front, outermost]
    simp only [hash, if_true]
  rw [directiveStep] at stepped
  have above : floor < (next.token :: plain rest).length := by simpa using above
  cases found : directive c.state next.token.loc (plain rest) with
  | error e =>
    rw [found] at stepped
    rw [run, dif_neg (Nat.not_le.mpr above), if_pos hash, found]
    exact .of_error stepped
  | ok effect =>
    rw [found] at stepped
    have behind := directive_suffix found
    cases effect with
    | update state after _ =>
      rw [run_update_eq above hash found]
      refine .after (.of_step stepped) ?_
      refine (again after ((c.withPending (lastOf after.length rest)).withState state) outermost
        (lastOf_suffix _ _) (plain_lastOf behind)).goesOn ?_
      rintro result d ⟨left, suffix, same, rfl⟩
      exact ⟨_, .refl _, left, suffix.trans (lastOf_suffix _ _), same, rfl⟩
    | insert path after _ =>
      cases levels with
      | zero =>
        have past : isPast (some maxDepth) next.depth := by simp [isPast]; omega
        simp only [past, if_true] at stepped
        rw [run, dif_neg (Nat.not_le.mpr above), if_pos hash, found]
        exact .of_error stepped
      | succ deeper =>
        have sum : deeper = maxDepth - (next.depth + 1) := by omega
        have inside : isPast (some maxDepth) next.depth = false := by simp [isPast]; omega
        simp only [inside, Bool.false_eq_true, if_false] at stepped
        rw [run_insert_eq above hash found]
        cases loaded : load includes next.token.loc path with
        | error e =>
          rw [loaded] at stepped
          exact .of_error stepped
        | ok tokens =>
          rw [loaded] at stepped
          refine .after (.of_step stepped) ?_
          exact inserted_arrives (lower deeper (Nat.lt_succ_self _)) sum outermost behind again

/-- The machine runs as the recursion does, by induction on the levels left. -/
theorem run_arrives (levels : Nat) : Runs includes levels := by
  induction levels using Nat.strongRecOn with
  | _ levels lower =>
    intro floor depth input c outermost shown
    induction size : input.length using Nat.strongRecOn generalizing c input with
    | _ bound shorter =>
      intro level sum
      obtain ⟨conditionals, ⟨env, pending, output, back⟩, callers⟩ := c
      cases outermost
      subst shown
      cases pending with
      | nil =>
        rw [plain, map_nil, run]
        exact .here ⟨[], suffix_rfl, rfl, by rw [Config.put, append_nil]; rfl⟩
      | cons next rest =>
        by_cases above : floor < (next :: rest).length
        · have depth := level.head above
          -- what comes after this token is shorter and is at the same level
          have again : RunsOn includes levels floor rest := by
            intro input d outermost suffix shown
            refine shorter _ ?_ _ d outermost shown rfl
              (level.suffix (suffix.trans (suffix_cons ..))) sum
            rw [← size, ← shown, length_plain, length_plain]
            exact Nat.lt_succ_of_le suffix.length_le
          have known : levels = maxDepth - next.depth := by rw [depth, sum]
          rw [plain, map_cons]
          cases hash : isDirective next.token.value with
          | false =>
            rw [run_eq (by simpa using above) hash]
            refine .bind (expandUse_arrives (fun _ _ => drain_arrives _) rfl (fun _ => hash) known) ?_
            rintro (_ | use) d reached
            · subst reached
              refine .bind (again _ _ rfl suffix_rfl rfl) ?_
              rintro ⟨tokens, state, after⟩ d ⟨left, suffix, same, rfl⟩
              refine .here ⟨left, suffix.trans (suffix_cons ..), same, ?_⟩
              simp only [Config.put, append_assoc, singleton_append]
            · obtain ⟨behind, deeper, rfl⟩ := reached
              refine (inserted_arrives (lower _ use.lt) deeper rfl behind again).goesOn ?_
              rintro result d ⟨left, suffix, same, rfl⟩
              exact ⟨_, .refl _, left, suffix.trans (suffix_cons ..), same, rfl⟩
          | true =>
            refine (directive_arrives lower rfl rfl hash known above again).goesOn ?_
            rintro result d ⟨left, suffix, same, rfl⟩
            exact ⟨_, .refl _, left, suffix.trans (suffix_cons ..), same, rfl⟩
        · rw [plain, map_cons, run, dif_pos (by simpa using above)]
          exact .here ⟨next :: rest, suffix_rfl, rfl, by rw [Config.put, append_nil]; rfl⟩

def start (tokens : List Lexed) : Config := { task := { env := [], pending := atDepth 0 tokens } }

/-- After enough steps the machine answers as `preprocess` does. -/
theorem answerIn_start (includes : Includes) (tokens : List Lexed) :
    ∃ n, answerIn includes (some maxDepth) n (start tokens) = some (preprocess includes tokens) := by
  have level : Level 0 0 (start tokens).task.pending := by
    have := level_atDepth 0 tokens []
    rwa [append_nil] at this
  have runs : Runs includes maxDepth := run_arrives maxDepth
  have arrives := runs 0 0 tokens (start tokens) rfl (plain_atDepth 0 tokens) level rfl
  rw [preprocess]
  change Arrives _ _ _ (run includes maxDepth {} 0 tokens) _ at arrives
  cases result : run includes maxDepth {} 0 tokens with
  | error e =>
    rw [result] at arrives
    exact arrives
  | ok answer =>
    rw [result] at arrives
    obtain ⟨d, ⟨k, same⟩, left, -, shown, rfl⟩ := arrives
    obtain ⟨output, state, rest⟩ := answer
    obtain rfl : left = [] := by
      have short := rest.property
      rw [← shown, length_plain] at short
      exact eq_nil_of_length_eq_zero (Nat.le_zero.mp short)
    refine ⟨1 + k, (same 1).trans ?_⟩
    change some (Config.answer _) = _
    obtain ⟨env, conditionals⟩ := state
    cases conditionals <;> rfl

/-! ## The limit -/

def AtLimit {α : Type} (result : Except (Located MacroError) α) : Prop :=
  ∃ name loc, result = .error ⟨.nestingLimit name, loc⟩

theorem expandStep_unlimited (c : Config) (next : Pending) (rest : List Pending) :
    expandStep none c next rest = expandStep limit c next rest ∨
      AtLimit (expandStep limit c next rest) := by
  unfold expandStep
  cases c.task.env.use? next.token.value with
  | none => exact .inl rfl
  | some use =>
    obtain ⟨name, definition⟩ := use
    cases past : isPast limit next.depth with
    | true => exact .inr ⟨name, next.token.loc, rfl⟩
    | false => exact .inl rfl

theorem directiveStep_unlimited (c : Config) (hash : Pending) (rest : List Pending) :
    directiveStep includes none c hash rest = directiveStep includes limit c hash rest ∨
      AtLimit (directiveStep includes limit c hash rest) := by
  unfold directiveStep
  match directive c.state hash.token.loc (plain rest) with
  | .error e => exact .inl rfl
  | .ok (.update state after _) => exact .inl rfl
  | .ok (.insert path after _) =>
    cases past : isPast limit hash.depth with
    | true => exact .inr ⟨path, hash.token.loc, rfl⟩
    | false => exact .inl rfl

theorem step_unlimited (c : Config) :
    step includes none c = step includes limit c ∨ AtLimit (step includes limit c) := by
  have mapped : ∀ {x y : Except (Located MacroError) Config}, (x = y ∨ AtLimit y) →
      (some <$> x = some <$> y ∨ AtLimit (some <$> y)) := by
    rintro x y (rfl | ⟨name, loc, rfl⟩)
    · exact .inl rfl
    · exact .inr ⟨name, loc, rfl⟩
  unfold step
  split
  · exact .inl rfl
  · exact .inl rfl
  · split
    · exact mapped (directiveStep_unlimited c _ _)
    · exact mapped (expandStep_unlimited c _ _)
  · exact mapped (expandStep_unlimited c _ _)

/-- A limit that is not met makes no difference. -/
theorem answerIn_unlimited {answer : Except (Located MacroError) (List Lexed)}
    (h : answerIn includes limit n c = some answer) (inside : ¬ AtLimit answer) :
    answerIn includes none n c = some answer := by
  induction n generalizing c with
  | zero => cases h
  | succ n ih =>
    rw [answerIn] at h ⊢
    have stepped : step includes none c = step includes limit c ∨ AtLimit (step includes limit c) :=
      step_unlimited c
    rcases stepped with same | ⟨name, loc, failed⟩
    · rw [same]
      cases result : step includes limit c with
      | error e => rw [result] at h; exact h
      | ok d? =>
        rw [result] at h
        cases d? with
        | none => exact h
        | some d => exact ih h
    · rw [failed] at h
      cases h
      exact absurd ⟨name, loc, rfl⟩ inside

/-- **Preprocessing ends.** On every input, and whatever the files hold, the machine halts under
the limit of `preprocess`, with its answer. Without a limit it halts with the same answer unless
that is the failure at the limit; so an input on which it would never halt ends in that failure. -/
theorem preprocess_halts (includes : Includes) (tokens : List Lexed) :
    (∃ n, answerIn includes (some maxDepth) n (start tokens) = some (preprocess includes tokens)) ∧
    ((∃ n, answerIn includes none n (start tokens) = some (preprocess includes tokens)) ∨
      AtLimit (preprocess includes tokens)) ∧
    ((∀ n, answerIn includes none n (start tokens) = none) →
      AtLimit (preprocess includes tokens)) := by
  obtain ⟨n, halts⟩ := answerIn_start includes tokens
  refine ⟨⟨n, halts⟩, ?_, fun endless => ?_⟩
  · by_cases limited : AtLimit (preprocess includes tokens)
    · exact .inr limited
    · exact .inl ⟨n, answerIn_unlimited halts limited⟩
  · by_contra inside
    have := answerIn_unlimited halts inside
    rw [endless n] at this
    cases this

/-! ## An example -/

def selfToken (kind : TokenKind) (bol : Bool) : Lexed := ⟨⟨kind, bol⟩, .atStart ⟨"a.c", ""⟩⟩

def selfReference : List Lexed :=
  [selfToken (.punct .hash) true, selfToken (.id "define") false, selfToken (.id "A") false,
    selfToken (.id "A") false, selfToken (.id "A") true]

def selfMacro : Env := [("A", .object [selfToken (.id "A") false])]

theorem answerIn_selfMacro (n depth : Nat) (bol : Bool) : answerIn includes none n
    { task := { env := selfMacro, pending := [⟨selfToken (.id "A") bol, depth⟩] } } = none := by
  induction n generalizing depth bol with
  | zero => rfl
  | succ n ih => exact ih (depth + 1) false

def noIncludes : Includes := ⟨"include", fun _ => .error .notFound⟩

theorem preprocess_halts_selfReference :
    (∃ n, answerIn noIncludes (some maxDepth) n (start selfReference) =
      some (preprocess noIncludes selfReference)) ∧
    (∀ n, answerIn noIncludes none n (start selfReference) = none) ∧
    AtLimit (preprocess noIncludes selfReference) := by
  have endless : ∀ n, answerIn noIncludes none n (start selfReference) = none := by
    rintro (_ | n)
    · rfl
    · exact answerIn_selfMacro n 0 true
  obtain ⟨halts, -, fails⟩ := preprocess_halts noIncludes selfReference
  exact ⟨halts, endless, fails endless⟩

end MiniC.Macro
