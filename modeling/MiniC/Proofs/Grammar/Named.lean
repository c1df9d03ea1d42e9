import MiniC.Proofs.Globals

/-!
# Names of a program

A function and a global get their names from tokens of the text, so they are names of the kind
the text has. A function gets a body only if no function before it has its name and a body:
`Program.parse_named` says so of a whole program.
-/

namespace MiniC

open List

namespace ParseState

/-- The names in a state are of the kind `P`, and the functions with a body have names of their
own. -/
structure Named (P : String → Prop) (s : ParseState) : Prop where
  tokens : ∀ token ∈ s.tokens, ∀ name, token.value.kind = .id name → P name
  functions : ∀ f ∈ s.functions, P f.name
  globals : ∀ g ∈ s.globals, P g.name
  bodies : ((s.functions.filter (·.body.isSome)).map (·.name)).Nodup

variable {s s' : ParseState} {P : String → Prop}

theorem Change.tokens (h : Change s s') : s'.tokens <:+ s.tokens := by
  cases h with
  | take taken =>
    rw [taken]
    exact suffix_cons _ _
  | intern bytes =>
    unfold ParseState.intern
    split <;> exact suffix_rfl
  | define global _ _ defined =>
    obtain ⟨globals, rfl⟩ := defineGlobal_eq defined
    exact suffix_rfl
  | _ => exact suffix_rfl

theorem Reaches.tokens (h : s.Reaches s') : s'.tokens <:+ s.tokens := by
  induction h with
  | refl => exact suffix_rfl
  | tail _ change ih => exact change.tokens.trans ih
  | block _ _ before inside => exact inside.trans before
  | body _ target _ _ _ before inside =>
    refine inside.trans (List.IsSuffix.trans ?_ before)
    cases target <;> exact suffix_rfl

theorem Named.step (h : s.Named P) (tokens : s'.tokens <:+ s.tokens)
    (functions : s'.functions = s.functions)
    (globals : ∀ g ∈ s'.globals, P g.name) : s'.Named P := by
  refine ⟨fun token mem => h.tokens token (tokens.mem mem), ?_, globals, ?_⟩
  · rw [functions]
    exact h.functions
  · rw [functions]
    exact h.bodies

theorem Named.addFunction {f : Function} (h : s.Named P) (named : P f.name) (alone : f.body.isSome →
      s.functions.any (fun other => other.name == f.name && other.body.isSome) = false) :
    Named P { s with functions := s.functions ++ [f] } := by
  refine ⟨h.tokens, fun g mem => ?_, h.globals, ?_⟩
  · rcases mem_append.mp mem with mem | mem
    · exact h.functions g mem
    · cases mem_singleton.mp mem
      exact named
  · rw [filter_append, map_append]
    cases bodied : f.body.isSome with
    | false => simpa [bodied] using h.bodies
    | true =>
      rw [filter_cons_of_pos (p := fun g : Function => g.body.isSome) bodied, filter_nil]
      refine nodup_append.mpr ⟨h.bodies, nodup_singleton _, fun name mem name' mem' same => ?_⟩
      obtain ⟨other, listed, rfl⟩ := mem_map.mp mem
      obtain ⟨listed, otherBodied⟩ := mem_filter.mp listed
      rw [map_singleton, mem_singleton] at mem'
      have := any_eq_false.mp (alone bodied) other listed
      exact this (Bool.and_eq_true_iff.mpr ⟨beq_iff_eq.mpr (same.trans mem'), otherBodied⟩)

end ParseState

namespace Parse

variable {α β : Type} {P : String → Prop}

def KeepsNames (P : String → Prop) (x : Parse α) (Q : α → Prop) : Prop :=
  ∀ s a s', s.Named P → x s = .ok a s' → s'.Named P ∧ Q a

variable {x : Parse α} {Q : α → Prop} {f : α → Parse β} {R : β → Prop}

theorem KeepsNames.of_builds (h : Builds (.blind .phrase) True x Q) :
    KeepsNames P x fun _ => True := by
  intro s a s' named run
  have reached := h.moves.reaches s
  rw [final_ok run] at reached
  refine ⟨named.step reached.tokens (h.phrase run).functions fun g mem => ?_, trivial⟩
  exact named.globals g ((h.phrase run).globals ▸ mem)

theorem KeepsNames.pure {a : α} (h : Q a) : KeepsNames P (Pure.pure a) Q := by
  intro s b s' named run
  cases run
  exact ⟨named, h⟩

theorem KeepsNames.bind (first : KeepsNames P x Q)
    (rest : ∀ a, Q a → KeepsNames P (f a) R) : KeepsNames P (x >>= f) R := by
  intro s b s' named run
  obtain ⟨a, t, ran, ran'⟩ := bind_ran.mp run
  obtain ⟨named', ha⟩ := first s a t named ran
  exact rest a ha t b s' named' ran'

theorem KeepsNames.andThen (first : KeepsNames P x Q)
    (rest : ∀ a, KeepsNames P (f a) R) : KeepsNames P (x >>= f) R :=
  first.bind fun a _ => rest a

theorem KeepsNames.ite {c : Prop} [Decidable c] {y : Parse α} (yes : KeepsNames P x Q)
    (no : KeepsNames P y Q) : KeepsNames P (if c then x else y) Q := by
  split
  · exact yes
  · exact no

theorem iterate_names {step : α → Parse (Round α β)}
    (round : ∀ a, Q a → KeepsNames P (step a) (Round.Holds Q R)) (stuck : SyntaxError)
    (rounds : Nat) :
    ∀ a, Q a → KeepsNames P (iterate stuck rounds step a) R := by
  induction rounds with
  | zero =>
    intro a _ s b s' _ run
    cases run
  | succ rounds ih =>
    intro a ha
    refine (round a ha).bind fun r hr => ?_
    cases r with
    | more a => exact ih a hr
    | done b => exact .pure hr

theorem identifier_names : KeepsNames P identifier fun name => P name.value := by
  intro s name s' named run
  refine ⟨(KeepsNames.of_builds identifier_builds s name s' named run).1, ?_⟩
  obtain ⟨token, t, taken, run⟩ := bind_ran.mp run
  have mem : token ∈ s.tokens := by
    obtain ⟨_, _, got, taken⟩ := bind_ran.mp taken
    cases got
    cases tokens : s.tokens with
    | nil =>
      rw [tokens] at taken
      cases taken
    | cons token' rest =>
      rw [tokens] at taken
      obtain ⟨_, _, -, same⟩ := bind_ran.mp taken
      cases same
      exact mem_cons_self
  cases kind : token.value.kind with
  | id word =>
    rw [kind] at run
    cases run
    exact named.tokens token mem word kind
  | _ =>
    rw [kind] at run
    cases run

end Parse

namespace Grammar

open Parse

variable {P : String → Prop} {below : Below}

variable (h : below.Builds)
include h

variable {name : Located String}

theorem function_names (spec : DeclSpec) (ret : CType)
    (named : P name.value) : KeepsNames P (function below spec ret name) fun _ => True := by
  intro s u s' start run
  have reached := (function_moves h spec ret name).reaches s
  rw [final_ok run] at reached
  obtain ⟨globals, f, functions, called, alone⟩ := function_added h run
  have added := start.addFunction (called ▸ named) fun bodied => called ▸ alone bodied
  refine ⟨⟨fun token mem => start.tokens token (reached.tokens.mem mem), ?_, ?_, ?_⟩, trivial⟩
  · exact functions ▸ added.functions
  · exact globals ▸ added.globals
  · exact functions ▸ added.bodies

theorem globalVariable_names (spec : DeclSpec) (ty : CType)
    (named : P name.value) : KeepsNames P (globalVariable below spec name ty) fun _ => True := by
  intro s u s' start run
  have reached := (globalVariable_moves h spec name ty).reaches s
  rw [final_ok run] at reached
  rw [globalVariable_eq] at run
  obtain ⟨global, t, declared, run⟩ := bind_ran.mp run
  have same := globalDeclared_keeps h declared
  have defined := addGlobal_eq_ok run
  have functions : s'.functions = t.functions := by
    obtain ⟨globals, rfl⟩ := ParseState.defineGlobal_eq defined
    rfl
  refine ⟨start.step reached.tokens (functions.trans same.functions) fun g mem => ?_, trivial⟩
  rcases ParseState.mem_defineGlobal defined mem with mem | rfl
  · exact start.globals g (same.globals ▸ mem)
  · rw [(globalDeclared_eq_ok declared).1]
    exact named

theorem globalPart_names (spec : DeclSpec) (start : Located String × CType)
    (named : P start.1.value) :
    KeepsNames P (globalPart below spec start) (Round.Holds (fun next => P next.1.value) fun _ => True) := by
  refine (KeepsNames.of_builds ((typeSuffix_builds h _).weaken fun _ =>
    Outlook.blind_checks _ _)).andThen fun ty => ?_
  refine (globalVariable_names h spec ty named).andThen fun _ => ?_
  refine (KeepsNames.of_builds (eat_builds _)).andThen fun _ => .ite ?_ ?_
  · refine (KeepsNames.of_builds ((pointers_builds h _).weaken fun _ =>
      Outlook.blind_checks _ _)).andThen fun ty => ?_
    exact identifier_names.bind fun name named => .pure named
  · exact (KeepsNames.of_builds (expect_builds _)).andThen fun _ => .pure trivial

theorem topLevel_names : KeepsNames P (topLevel below) fun _ => True := by
  refine (KeepsNames.of_builds (declSpec_builds h)).andThen fun spec => .ite ?_ ?_
  · exact .of_builds ((typedefNames_builds h spec.ty).weaken fun _ => Outlook.blind_checks _ _)
  refine (KeepsNames.of_builds (eat_builds _)).andThen fun _ => .ite (.pure trivial) ?_
  refine (KeepsNames.of_builds ((pointers_builds h _).weaken fun _ =>
    Outlook.blind_checks _ _)).andThen fun ty => identifier_names.bind fun name named => ?_
  refine (KeepsNames.of_builds (isAt_builds _)).andThen fun _ => .ite ?_ ?_
  · exact function_names h spec ty named
  · exact iterate_names (globalPart_names h spec) _ _ (name, ty) named

theorem topLevels_names : KeepsNames P (topLevels below) fun _ => True := by
  refine iterate_names (Q := fun _ => True) (fun _ _ => ?_) _ _ () trivial
  refine (KeepsNames.of_builds peek?_builds).andThen fun _ => .ite (.pure trivial) ?_
  exact (topLevel_names h).andThen fun _ => .pure trivial

end Grammar

/-- The names of a program are of a kind, and the functions with a body have names of their own. -/
structure Program.Named (P : String → Prop) (p : Program) : Prop where
  functions : ∀ f ∈ p.functions, P f.name
  globals : ∀ g ∈ p.globals, P g.name
  bodies : ((p.functions.filter (·.body.isSome)).map (·.name)).Nodup

theorem Program.parse_named {P : String → Prop} {source : Source} {tokens : List Lexed} {p : Program}
    (parsed : Program.parse source tokens = .ok p)
    (words : ∀ token ∈ tokens, ∀ name, token.value.kind = .id name → P name) : p.Named P := by
  unfold Program.parse Program.parseWith at parsed
  simp only at parsed
  split at parsed
  · rename_i s run
    cases parsed
    have start : ParseState.Named P { tokens, last := Location.atStart source } :=
      ⟨words, fun f mem => absurd mem not_mem_nil, fun g mem => absurd mem not_mem_nil, nodup_nil⟩
    obtain ⟨named, -⟩ := Grammar.topLevels_names (Grammar.upTo_builds _) _ _ _ start run
    exact ⟨named.functions, named.globals, named.bodies⟩
  · cases parsed

end MiniC
