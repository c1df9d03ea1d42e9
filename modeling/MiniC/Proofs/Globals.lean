import Mathlib.Data.List.Chain
import MiniC.Proofs.DataSection

/-!
# Repeated declarations of a global

A global may be declared many times. `Grammar.globalsDeclared` reads a program and keeps every
declaration of a global in the order of the source; without them it is `topLevels`. One of the
declarations of a name is decisive: the first that is not external and has an initializer, or else
the first that is not external, or else the first of all. The program has this one for the name
and no other.

So an initializer is lost if it stands in an external declaration only: either another declaration
is decisive, or the external one is and the data section leaves it out.
-/

namespace MiniC

open List

/-! ## Reading the declarations -/

def Round.map {α α' β β' : Type} (f : α → α') (g : β → β') : Round α β → Round α' β'
  | .more a => .more (f a)
  | .done b => .done (g b)

namespace Parse

variable {α α' β β' : Type}

theorem iterate_map {step : α → Parse (Round α β)} {step' : α' → Parse (Round α' β')}
    {f : α' → α} {g : β' → β} (round : ∀ a, step (f a) = Round.map f g <$> step' a)
    (stuck : SyntaxError) (rounds : Nat) :
    ∀ a, iterate stuck rounds step (f a) = g <$> iterate stuck rounds step' a := by
  induction rounds with
  | zero => exact fun _ => rfl
  | succ rounds ih =>
    intro a
    simp only [iterate, round, map_bind, bind_map_left]
    refine bind_congr fun r => ?_
    cases r with
    | more a => exact ih a
    | done b => exact (map_pure g b).symm

end Parse

namespace Grammar

open Parse

variable (below : Below)

def globalPartDeclared (spec : DeclSpec) (start : (Located String × CType) × List Global) :
    Parse (Round ((Located String × CType) × List Global) (List Global)) := do
  let ty ← typeSuffix below start.1.2
  let global ← globalDeclared below spec start.1.1 ty
  addGlobal global
  let declared := start.2 ++ [global]
  if ← eat .comma then
    let ty ← pointers below spec.ty
    return .more ((← identifier, ty), declared)
  else
    expect .semicolon
    return .done declared

theorem globalPart_eq (spec : DeclSpec) (start : (Located String × CType) × List Global) :
    globalPart below spec start.1 =
      Round.map Prod.fst (fun _ => ()) <$> globalPartDeclared below spec start := by
  unfold globalPart globalPartDeclared
  simp only [globalVariable_eq, bind_assoc, map_bind]
  refine bind_congr fun ty => bind_congr fun global => bind_congr fun _ => bind_congr fun comma => ?_
  cases comma <;> simp [Round.map]

def topLevelDeclared (declared : List Global) : Parse (List Global) := do
  let spec ← declSpec below
  if spec.isTypedef then
    typedefNames below spec.ty
    return declared
  else if ← eat .semicolon then return declared
  else
    let ty ← pointers below spec.ty
    let name ← identifier
    if ← isAt .openParen then
      function below spec ty name
      return declared
    else loop below (globalPartDeclared below spec) ((name, ty), declared)

theorem topLevel_eq (declared : List Global) :
    topLevel below = (fun _ => ()) <$> topLevelDeclared below declared := by
  unfold topLevel topLevelDeclared
  simp only [map_bind]
  refine bind_congr fun spec => ?_
  split
  · simp
  · simp only [map_bind]
    refine bind_congr fun semicolon => ?_
    cases semicolon with
    | true => simp
    | false =>
      simp only [Bool.false_eq_true, if_false, map_bind]
      refine bind_congr fun ty => bind_congr fun name => bind_congr fun paren => ?_
      cases paren with
      | true => simp
      | false => exact iterate_map (globalPart_eq below spec) _ _ ((name, ty), declared)

def topLevelPartDeclared (declared : List Global) : Parse (Round (List Global) (List Global)) := do
  if (← peek?).isNone then return .done declared
  else return .more (← topLevelDeclared below declared)

def globalsDeclared : Parse (List Global) := loop below (topLevelPartDeclared below) []

theorem topLevels_eq : topLevels below = (fun _ => ()) <$> globalsDeclared below := by
  refine iterate_map (f := fun _ => ()) (fun declared => ?_) _ _ []
  unfold topLevelPart topLevelPartDeclared
  simp only [map_bind]
  refine bind_congr fun next => ?_
  split
  · simp [Round.map]
  · simp [topLevel_eq below declared, Round.map]

end Grammar

/-! ## The decisive declaration -/

namespace Global

/-- A declaration that defines its global: it is not external, and it has an initializer. -/
def isDefinition (g : Global) : Bool := !g.isExtern && g.init.isSome

/-- The declaration among those of one global that decides what the global is: the first
definition, or else the first that is not external, or else the first of all. -/
def decisive? (ds : List Global) : Option Global :=
  (ds.find? (·.isDefinition)).or ((ds.find? (!·.isExtern)).or ds.head?)

def Replaces (g e : Global) : Prop := g.isExtern = false ∧ (e.isExtern = true ∨ g.init.isSome = true)

variable {ds : List Global} {e g : Global}

theorem decisive?_eq_none_iff : decisive? ds = none ↔ ds = [] := by
  cases ds with
  | nil => exact ⟨fun _ => rfl, fun _ => rfl⟩
  | cons d ds => simp [decisive?]

theorem decisive?_singleton (g : Global) : decisive? [g] = some g := by
  by_cases defined : g.isDefinition = true
  · simp [decisive?, defined]
  · cases isExtern : g.isExtern <;> simp [decisive?, defined, isExtern]

theorem decisive?_mem (h : decisive? ds = some e) : e ∈ ds := by
  simp only [decisive?, Option.or_eq_some_iff] at h
  rcases h with h | ⟨-, h | ⟨-, h⟩⟩
  · exact mem_of_find?_eq_some h
  · exact mem_of_find?_eq_some h
  · exact mem_of_head? h

theorem decisive?_isDefinition {d : Global} (h : decisive? ds = some e) (mem : d ∈ ds)
    (defined : d.isDefinition = true) : e.isDefinition = true := by
  simp only [decisive?, Option.or_eq_some_iff] at h
  rcases h with h | ⟨none, -⟩
  · exact List.find?_some h
  · exact absurd defined (List.find?_eq_none.mp none d mem)

theorem decisive?_keep (h : decisive? ds = some e)
    (keeps : ¬g.Replaces e) : decisive? (ds ++ [g]) = some e := by
  simp only [decisive?, Option.or_eq_some_iff] at h
  simp only [decisive?, List.find?_append, List.head?_append]
  rcases h with h | ⟨none, h | ⟨inner, h⟩⟩
  · rw [h]; rfl
  · have := List.find?_some h
    have undefined : g.isDefinition = false := by
      simp_all [Replaces, isDefinition]
    simp [none, h, undefined]
  · have := List.find?_eq_none.mp inner e (mem_of_head? h)
    have isExtern : g.isExtern = true := by
      simp_all [Replaces]
    have undefined : g.isDefinition = false := by
      simp [isDefinition, isExtern]
    simp [none, inner, h, isExtern, undefined]

theorem decisive?_replace (h : decisive? ds = some e) (replaces : g.Replaces e)
    (once : ¬(e.init.isSome = true ∧ g.init.isSome = true)) :
    decisive? (ds ++ [g]) = some g := by
  simp only [decisive?, Option.or_eq_some_iff] at h
  simp only [decisive?, List.find?_append, List.head?_append]
  obtain ⟨stored, replaces⟩ := replaces
  rcases h with h | ⟨none, h | ⟨inner, h⟩⟩
  · have := List.find?_some h
    simp_all [isDefinition]
  · have := List.find?_some h
    have defined : g.isDefinition = true := by simp_all [isDefinition]
    simp [none, defined]
  · by_cases defined : g.isDefinition = true
    · simp [none, defined]
    · simp [none, inner, stored, defined]

end Global

/-- What a list of globals has to do with the declarations it was made from: one global for each
name, which is the decisive declaration, and no name defined in two ways. -/
structure Merged (declared globals : List Global) : Prop where
  names : (globals.map (·.name)).Nodup
  find : ∀ name, globals.find? (·.name == name) = Global.decisive? (declared.filter (·.name == name))
  once : ∀ d ∈ declared, ∀ d' ∈ declared, d.name = d'.name →
    d.isDefinition = true → d'.isDefinition = true → d.init = d'.init

theorem filter_name_eq {globals : List Global} (names : (globals.map (·.name)).Nodup) (name : String) :
    globals.filter (·.name == name) = (globals.find? (·.name == name)).toList := by
  induction globals with
  | nil => rfl
  | cons g rest ih =>
    obtain ⟨new, names⟩ := nodup_cons.mp names
    by_cases here : g.name = name
    · have others : rest.filter (·.name == name) = [] := by
        rw [filter_eq_nil_iff]
        intro other mem same
        exact new (mem_map.mpr ⟨other, mem, (eq_of_beq same).trans here.symm⟩)
      rw [filter_cons_of_pos (by simp [here]), List.find?_cons_of_pos (by simp [here]), others]
      rfl
    · rw [filter_cons_of_neg (by simp [here]), List.find?_cons_of_neg (by simp [here]), ih names]

namespace ParseState

theorem find?_replaceGlobal {globals : List Global} {global : Global}
    (known : (globals.find? (·.name == global.name)).isSome) (name : String) :
    (replaceGlobal globals global).find? (·.name == name) =
      if global.name = name then some global else globals.find? (·.name == name) := by
  induction globals with
  | nil => cases known
  | cons other rest ih =>
    rw [replaceGlobal]
    by_cases same : other.name = global.name
    · rw [if_pos (beq_iff_eq.mpr same), List.find?_cons, List.find?_cons, same]
      by_cases here : global.name = name
      · simp [here]
      · simp [here, beq_eq_false_iff_ne.mpr here]
    · rw [List.find?_cons, beq_eq_false_iff_ne.mpr same] at known
      rw [if_neg (by simpa using same), List.find?_cons, List.find?_cons, ih known]
      by_cases here : global.name = name
      · rw [if_pos here, if_pos here, ← here, beq_eq_false_iff_ne.mpr same]
      · rw [if_neg here, if_neg here]

variable {s s' : ParseState} {g : Global}

/-- A global is added, takes the place of its namesake, or changes nothing. -/
theorem defineGlobal_cases (defined : s.defineGlobal g = some s') :
    (s.globals.find? (·.name == g.name) = none ∧ s'.globals = s.globals ++ [g]) ∨
    ∃ e, s.globals.find? (·.name == g.name) = some e ∧
      ((g.Replaces e ∧ ¬(e.init.isSome = true ∧ g.init.isSome = true) ∧
          s'.globals = replaceGlobal s.globals g) ∨
        (¬g.Replaces e ∧ s'.globals = s.globals)) := by
  unfold defineGlobal at defined
  split at defined
  · rename_i new
    cases defined
    exact .inl ⟨new, rfl⟩
  · rename_i e found
    refine .inr ⟨e, found, ?_⟩
    split at defined
    · rename_i isExtern
      cases defined
      refine .inr ⟨fun replaces => ?_, rfl⟩
      rw [replaces.1] at isExtern
      cases isExtern
    · rename_i stored
      split at defined
      · cases defined
      · rename_i once
        split at defined
        · rename_i replaces
          cases defined
          refine .inl ⟨⟨Bool.eq_false_iff.mpr stored, Bool.or_eq_true_iff.mp replaces⟩, ?_, rfl⟩
          rwa [Bool.and_eq_true_iff] at once
        · rename_i keeps
          cases defined
          exact .inr ⟨fun replaces => keeps (Bool.or_eq_true_iff.mpr replaces.2), rfl⟩

theorem defineGlobal_undefined {d : Global} {declared : List Global}
    (merged : Merged declared s.globals) (defined : s.defineGlobal g = some s')
    (isDefinition : g.isDefinition = true) (mem : d ∈ declared) (same : d.name = g.name) :
    d.isDefinition = false := by
  have before := merged.find g.name
  have listed : d ∈ declared.filter (·.name == g.name) := mem_filter.mpr ⟨mem, by simp [same]⟩
  obtain ⟨stored, init⟩ : g.isExtern = false ∧ g.init.isSome = true := by
    simpa [Global.isDefinition] using isDefinition
  rw [Bool.eq_false_iff]
  intro first
  obtain ⟨new, -⟩ | ⟨e, found, ⟨-, once, -⟩ | ⟨keeps, -⟩⟩ := defineGlobal_cases defined
  · rw [new, eq_comm, Global.decisive?_eq_none_iff] at before
    rw [before] at listed
    cases listed
  · rw [found, eq_comm] at before
    have earlier := Global.decisive?_isDefinition before listed first
    simp only [Global.isDefinition, Bool.and_eq_true] at earlier
    exact once ⟨earlier.2, init⟩
  · exact keeps ⟨stored, .inr init⟩

/-- The global of a name is its decisive declaration. -/
theorem defineGlobal_find {declared : List Global} (merged : Merged declared s.globals)
    (defined : s.defineGlobal g = some s') (name : String) :
    s'.globals.find? (·.name == name) =
      Global.decisive? ((declared ++ [g]).filter (·.name == name)) := by
  have before := merged.find name
  rw [filter_append]
  by_cases here : g.name = name
  · subst here
    rw [filter_cons_of_pos (by simp), filter_nil]
    obtain ⟨new, added⟩ | ⟨e, found, ⟨replaces, once, replaced⟩ | ⟨keeps, kept⟩⟩ :=
      defineGlobal_cases defined
    · rw [new, eq_comm, Global.decisive?_eq_none_iff] at before
      rw [added, List.find?_append, new, before, nil_append, Global.decisive?_singleton]
      simp
    · rw [found, eq_comm] at before
      rw [replaced, find?_replaceGlobal (by rw [found]; rfl), if_pos rfl,
        Global.decisive?_replace before replaces once]
    · rw [found, eq_comm] at before
      rw [kept, found, Global.decisive?_keep before keeps]
  · rw [filter_cons_of_neg (by simpa using here), filter_nil, append_nil, ← before]
    obtain ⟨-, added⟩ | ⟨e, found, ⟨-, -, replaced⟩ | ⟨-, kept⟩⟩ := defineGlobal_cases defined
    · rw [added, List.find?_append]
      simp [here]
    · rw [replaced, find?_replaceGlobal (by rw [found]; rfl), if_neg here]
    · rw [kept]

theorem defineGlobal_merged {declared : List Global} (merged : Merged declared s.globals)
    (defined : s.defineGlobal g = some s') :
    Merged (declared ++ [g]) s'.globals := by
  refine ⟨defineGlobal_names defined merged.names, defineGlobal_find merged defined, ?_⟩
  intro d mem d' mem' same first second
  rcases mem_append.mp mem with mem | mem <;> rcases mem_append.mp mem' with mem' | mem'
  · exact merged.once d mem d' mem' same first second
  · cases mem_singleton.mp mem'
    rw [defineGlobal_undefined merged defined second mem same] at first
    cases first
  · cases mem_singleton.mp mem
    rw [defineGlobal_undefined merged defined first mem' same.symm] at second
    cases second
  · cases mem_singleton.mp mem
    cases mem_singleton.mp mem'
    rfl

end ParseState

/-! ## A whole program -/

namespace Parse

variable {α β : Type}

def Quiet (x : Parse α) : Prop := ∀ s a s', x s = .ok a s' → s'.globals = s.globals

variable {x : Parse α} {f : α → Parse β}

theorem Quiet.of_builds {Q : α → Prop} (h : Builds (.blind .phrase) True x Q) : Quiet x :=
  fun _ _ _ run => (h.phrase run).globals

/-- If the globals come from `declared` before a step, they come from the declarations in its
answer after it. -/
def Records (declared : List Global) (x : Parse α) (answer : α → List Global) : Prop :=
  ∀ s a s', Merged declared s.globals → x s = .ok a s' → Merged (answer a) s'.globals

variable {declared : List Global} {answer : β → List Global}

theorem Records.pure {b : β} (h : answer b = declared) : Records declared (Pure.pure b) answer := by
  intro s a s' merged run
  cases run
  exact h ▸ merged

theorem Quiet.andThen (first : Quiet x)
    (rest : ∀ a, Records declared (f a) answer) : Records declared (x >>= f) answer := by
  intro s b s' merged run
  obtain ⟨a, t, ran, ran'⟩ := bind_ran.mp run
  exact rest a t b s' (first s a t ran ▸ merged) ran'

theorem Records.bind {middle : α → List Global} (first : Records declared x middle)
    (rest : ∀ a, Records (middle a) (f a) answer) :
    Records declared (x >>= f) answer := by
  intro s b s' merged run
  obtain ⟨a, t, ran, ran'⟩ := bind_ran.mp run
  exact rest a t b s' (first s a t merged ran) ran'

theorem Records.ite {c : Prop} [Decidable c] {x y : Parse β} (yes : Records declared x answer)
    (no : Records declared y answer) : Records declared (if c then x else y) answer := by
  split
  · exact yes
  · exact no

def recorded (carried : α → List Global) (answer : β → List Global) : Round α β → List Global
  | .more a => carried a
  | .done b => answer b

theorem iterate_records {step : α → Parse (Round α β)} {carried : α → List Global}
    (round : ∀ a, Records (carried a) (step a) (recorded carried answer)) (stuck : SyntaxError)
    (rounds : Nat) : ∀ a, Records (carried a) (iterate stuck rounds step a) answer := by
  induction rounds with
  | zero =>
    intro a s b s' merged run
    cases run
  | succ rounds ih =>
    intro a
    refine (round a).bind fun r => ?_
    cases r with
    | more a => exact ih a
    | done b => exact .pure rfl

end Parse

namespace Grammar

open Parse

theorem addGlobal_records (declared : List Global) (global : Global) :
    Records declared (addGlobal global) fun _ => declared ++ [global] := by
  intro s u s' merged run
  exact ParseState.defineGlobal_merged merged (addGlobal_eq_ok run)

variable {below : Below} (h : below.Builds)
include h

theorem globalPartDeclared_records (spec : DeclSpec)
    (start : (Located String × CType) × List Global) :
    Records start.2 (globalPartDeclared below spec start) (recorded Prod.snd id) := by
  refine (Quiet.of_builds ((typeSuffix_builds h _).weaken fun _ => Outlook.blind_checks _ _)).andThen fun ty => ?_
  have quiet : Quiet (globalDeclared below spec start.1.1 ty) :=
    fun _ _ _ run => (globalDeclared_keeps h run).globals
  refine quiet.andThen fun global => (addGlobal_records _ global).bind fun _ => ?_
  refine (Quiet.of_builds (eat_builds _)).andThen fun _ => .ite ?_ ?_
  · refine (Quiet.of_builds ((pointers_builds h _).weaken fun _ => Outlook.blind_checks _ _)).andThen fun ty => ?_
    exact (Quiet.of_builds identifier_builds).andThen fun _ => .pure rfl
  · exact (Quiet.of_builds (expect_builds _)).andThen fun _ => .pure rfl

theorem topLevelDeclared_records (declared : List Global) :
    Records declared (topLevelDeclared below declared) id := by
  refine (Quiet.of_builds (declSpec_builds h)).andThen fun spec => .ite ?_ ?_
  · exact (Quiet.of_builds ((typedefNames_builds h _).weaken fun _ => Outlook.blind_checks _ _)).andThen fun _ => .pure rfl
  refine (Quiet.of_builds (eat_builds _)).andThen fun _ => .ite (.pure rfl) ?_
  refine (Quiet.of_builds ((pointers_builds h _).weaken fun _ => Outlook.blind_checks _ _)).andThen fun ty => ?_
  refine (Quiet.of_builds identifier_builds).andThen fun name => ?_
  refine (Quiet.of_builds (isAt_builds _)).andThen fun _ => .ite ?_ ?_
  · have quiet : Quiet (function below spec ty name) := fun _ _ _ run => (function_added h run).1
    exact quiet.andThen fun _ => .pure rfl
  · exact iterate_records (globalPartDeclared_records h spec) _ _ ((name, ty), declared)

theorem globalsDeclared_records : Records [] (globalsDeclared below) id := by
  have round : ∀ declared, Records (id declared) (topLevelPartDeclared below declared)
      (recorded id id) := by
    intro declared
    refine (Quiet.of_builds peek?_builds).andThen fun _ => .ite (.pure rfl) ?_
    exact (topLevelDeclared_records h declared).bind fun _ => .pure rfl
  exact iterate_records round _ _ []

end Grammar

namespace Program

/-- The declarations of globals in a source, in order; none, if it is not a program. -/
def declarations (source : Source) (tokens : List Lexed) : List Global :=
  match Grammar.globalsDeclared (.upTo tokens.length) { tokens, last := .atStart source } with
  | .ok declared _ => declared
  | .error .. => []

theorem parse_merged {source : Source} {tokens : List Lexed} {p : Program}
    (parsed : parse source tokens = .ok p) : Merged (declarations source tokens) p.globals := by
  unfold parse parseWith at parsed
  simp only [Grammar.topLevels_eq] at parsed
  split at parsed
  · rename_i s run
    cases parsed
    rw [map_eq_pure_bind] at run
    obtain ⟨declared, t, ran, same⟩ := Parse.bind_ran.mp run
    cases same
    have none : Merged [] [] := ⟨.nil, fun _ => rfl, fun d mem => absurd mem not_mem_nil⟩
    have merged := Grammar.globalsDeclared_records (Grammar.upTo_builds _) _ _ _ none ran
    rwa [declarations, ran]
  · cases parsed

end Program

/-! ## The data section -/

namespace Emit

open Asm

/-- Lines in which a label behind an alignment is one of `names`, and that do not end with an
alignment. -/
structure Heads (names : List String) (lines : List Line) : Prop where
  chain : lines.IsChain fun line next => ∀ align name,
    line = .directive (.align align) → next = .label (.symbol name) → name ∈ names
  last : ∀ align, lines.getLast? ≠ some (.directive (.align align))

variable {names : List String} {lines : List Line} {g : Global} {globals : List Global}

theorem Heads.append {first rest : List Line} (h : Heads names first)
    (h' : Heads names rest) : Heads names (first ++ rest) := by
  refine ⟨isChain_append.mpr ⟨h.chain, h'.chain, ?_⟩, fun align => ?_⟩
  · intro line mem next _ align name same
    subst same
    exact absurd mem (h.last align)
  · rw [List.getLast?_append]
    cases found : rest.getLast? with
    | none => exact h.last align
    | some line => exact fun same => h'.last align (found.trans same)

theorem Heads.plain
    (plain : ∀ line ∈ lines, ∀ align, line ≠ .directive (.align align)) : Heads names lines := by
  refine ⟨?_, fun align found => plain _ (mem_of_getLast? found) align rfl⟩
  rw [isChain_iff_forall_rel_of_append_cons_cons]
  intro line next before after split align name same
  exact absurd same (plain line (by simp [split]) align)

theorem Heads.contents (contents : ∀ line ∈ lines, line.isContents = true) : Heads names lines := by
  refine .plain fun line mem align same => ?_
  have := contents line mem
  rw [same] at this
  cases this

theorem globalHead_heads (σ : Structs) (mem : g.name ∈ names) :
    Heads names (globalHead σ g) := by
  refine .append (.plain ?_) ⟨?_, ?_⟩
  · unfold visibility
    cases g.isStatic <;> simp
  · rw [isChain_pair]
    intro align name _ same
    cases same
    exact mem
  · simp

theorem strings_heads (index : Nat) (texts : List (List UInt8)) :
    Heads names (strings index texts) := by
  induction texts generalizing index with
  | nil => exact .plain fun _ mem => absurd mem not_mem_nil
  | cons bytes rest ih =>
    have label : Heads names [.label (.symbol (stringLabel index))] := .plain (by simp)
    exact (label.append (.contents (byteLines_contents _))).append (ih _)

theorem initialized_heads {σ : Structs} (known : ∀ g ∈ globals, g.name ∈ names)
    (made : initialized σ globals = some lines) : Heads names lines := by
  induction globals generalizing lines with
  | nil =>
    cases made
    exact .plain fun _ mem => absurd mem not_mem_nil
  | cons g globals ih =>
    simp only [initialized, do_eq_some] at made
    obtain ⟨others, made, first⟩ := made
    obtain ⟨here, known⟩ := forall_mem_cons.mp known
    split at first
    · obtain ⟨image, written, same⟩ := Option.bind_eq_some_iff.mp first
      cases same
      exact ((globalHead_heads σ here).append (.contents (imageLines_contents written))).append
        (ih known made)
    · cases first
      exact ih known made

theorem zeroed_heads (σ : Structs)
    (known : ∀ g ∈ globals, g.name ∈ names) : Heads names (zeroed σ globals) := by
  unfold zeroed
  have known : ∀ g ∈ globals.filter (·.init.isNone), g.name ∈ names :=
    fun g mem => known g (mem_filter.mp mem).1
  generalize globals.filter (·.init.isNone) = listed at known ⊢
  induction listed with
  | nil => exact .plain fun _ mem => absurd mem not_mem_nil
  | cons g listed ih =>
    obtain ⟨here, known⟩ := forall_mem_cons.mp known
    exact ((globalHead_heads σ here).append (.plain (by simp))).append (ih known)

theorem data_heads {p : Program} {before after : List Line} (made : data p = some lines)
    (head : lines = before ++ globalHead p.structs g ++ after) :
    ∃ g' ∈ p.globals, g'.name = g.name ∧ g'.isExtern = false := by
  simp only [data, do_eq_some, Option.pure_def] at made
  obtain ⟨images, made, same⟩ := made
  let stored := p.globals.filter (!·.isExtern)
  have known : ∀ g ∈ stored, g.name ∈ stored.map (·.name) := fun g mem => mem_map_of_mem mem
  have heads : Heads (stored.map (·.name)) lines := by
    cases same
    refine .append (.append (.append (.append (.append ?_ ?_) ?_) ?_) ?_) ?_
    · exact .plain (by simp)
    · exact strings_heads 0 _
    · exact initialized_heads known made
    · exact .plain (by simp)
    · exact zeroed_heads _ known
    · exact .plain (by simp)
  have split : lines = (before ++ visibility g.name g.isStatic) ++
      .directive (.align (max (p.structs.align g.ty) 1)) :: .label (.symbol g.name) :: after := by
    simp [head, globalHead]
  have chain := isChain_iff_forall_rel_of_append_cons_cons.mp heads.chain split
  obtain ⟨g', mem, same⟩ := mem_map.mp (chain _ _ rfl rfl)
  obtain ⟨mem, isStored⟩ := mem_filter.mp mem
  exact ⟨g', mem, same, by simpa using isStored⟩

end Emit

namespace Program

/-- An initializer of a global is kept: the global is there once, with this image, and the data
section has the image behind the head of the global. -/
def Keeps (p : Program) (lines : List Asm.Line) (name : String) (image : Image) : Prop :=
  ∃ g, p.globals.filter (·.name == name) = [g] ∧ g.init = some image ∧
    ∃ before after, lines = before ++ Emit.globalHead p.structs g ++ after ∧
      Covers image.bytes image.relocations 0 (Asm.cellsToLabel after)

variable {source : Source} {tokens : List Lexed} {p : Program}

variable {lines : List Asm.Line} {name : String} {image : Image} {d : Global}

theorem Keeps.declared (merged : Merged (declarations source tokens) p.globals)
    (made : Emit.data p = some lines) (keeps : p.Keeps lines name image) :
    ∃ d ∈ (declarations source tokens).filter (·.name == name),
      d.isExtern = false ∧ d.init = some image := by
  obtain ⟨g, single, init, before, after, head, -⟩ := keeps
  have decisive : Global.decisive? ((declarations source tokens).filter (·.name == name)) = some g := by
    rwa [filter_name_eq merged.names, merged.find, Option.toList_eq_singleton_iff] at single
  refine ⟨g, Global.decisive?_mem decisive, ?_, init⟩
  obtain ⟨g', mem, same, stored⟩ := Emit.data_heads made head
  have named : g.name = name := by
    have listed : g ∈ p.globals.filter (·.name == name) := by rw [single]; exact mem_singleton_self g
    exact eq_of_beq (mem_filter.mp listed).2
  have listed : g' ∈ p.globals.filter (·.name == name) :=
    mem_filter.mpr ⟨mem, by simp [same, named]⟩
  rw [single] at listed
  rwa [← mem_singleton.mp listed]

/-- The initializer of a declaration that is not `extern` is kept. -/
theorem keeps_of_declared (parsed : parse source tokens = .ok p) (made : Emit.data p = some lines)
    (small : ∀ g ∈ p.globals, p.structs.extent g.ty ≤ maxObjectSize.toNat)
    (mem : d ∈ declarations source tokens) (stored : d.isExtern = false)
    (init : d.init = some image) : p.Keeps lines d.name image := by
  have merged := parse_merged parsed
  have definition : d.isDefinition = true := by simp [Global.isDefinition, stored, init]
  have listed : d ∈ (declarations source tokens).filter (·.name == d.name) :=
    mem_filter.mpr ⟨mem, by simp⟩
  have find := merged.find d.name
  cases decisive : Global.decisive? ((declarations source tokens).filter (·.name == d.name)) with
  | none =>
    rw [Global.decisive?_eq_none_iff.mp decisive] at listed
    cases listed
  | some g =>
    rw [decisive] at find
    obtain ⟨origin, named⟩ := mem_filter.mp (Global.decisive?_mem decisive)
    have isDefinition := Global.decisive?_isDefinition decisive listed definition
    have same := merged.once g origin d mem (eq_of_beq named) isDefinition definition
    have kept : g ∈ p.globals := mem_of_find?_eq_some find
    obtain ⟨isStored, -⟩ : g.isExtern = false ∧ g.init.isSome = true := by
      simpa [Global.isDefinition] using isDefinition
    have sized := ((parse_exact parsed).1 g.ty).sized (Structs.lt_of_le_max (small g kept))
    obtain ⟨-, spread⟩ := parse_image parsed kept isStored (same.trans init) sized
    refine ⟨g, ?_, same.trans init, Emit.data_head_covers made kept isStored (same.trans init) spread⟩
    rw [filter_name_eq merged.names, find]
    rfl

/-- **Which initializers of a global are kept.** However often a global is declared, a program has
it once: as the first declaration that is not external and has an initializer, or else the first
that is not external, or else the first of all. If the globals are no larger than the largest
object, the data section can be written, and it has the initializers of all declarations of a
name if and only if each of them is also the initializer of a declaration that is not external. -/
theorem initializers_kept_iff (parsed : parse source tokens = .ok p) :
    (∀ name, p.globals.filter (·.name == name) =
      (Global.decisive? ((declarations source tokens).filter (·.name == name))).toList) ∧
    ((∀ g ∈ p.globals, p.structs.extent g.ty ≤ maxObjectSize.toNat) →
      ∃ lines, Emit.data p = some lines ∧
        ∀ name, (∀ d ∈ (declarations source tokens).filter (·.name == name), ∀ image,
            d.init = some image → p.Keeps lines name image) ↔
          ∀ d ∈ (declarations source tokens).filter (·.name == name), ∀ image,
            d.init = some image → ∃ d' ∈ (declarations source tokens).filter (·.name == name),
              d'.isExtern = false ∧ d'.init = some image) := by
  have merged := parse_merged parsed
  refine ⟨fun name => by rw [filter_name_eq merged.names, merged.find], fun small => ?_⟩
  have exact := (parse_exact parsed).1
  obtain ⟨lines, made⟩ := parse_data_of_sized parsed fun g mem =>
    (exact g.ty).sized (Structs.lt_of_le_max (small g mem))
  refine ⟨lines, made, fun name => ⟨fun kept d mem image init => ?_, fun given d mem image init => ?_⟩⟩
  · exact (kept d mem image init).declared merged made
  · obtain ⟨d', listed, stored, init'⟩ := given d mem image init
    obtain ⟨mem', named⟩ := mem_filter.mp listed
    rw [← eq_of_beq named]
    exact keeps_of_declared parsed made small mem' stored init'

/-! ## Examples -/

/-- The declarations of a name in a source, each with whether it is external and its bytes. -/
def declared (source : Source) (name : String) : List (Bool × Option (List UInt8)) :=
  ((declarations source source.tokens).filter (·.name == name)).map fun d =>
    (d.isExtern, d.init.map (·.bytes.toList))

theorem exists_parse {α : Type} {f : Program → α} {a : α}
    (h : (parse source source.tokens).toOption.map f = some a) :
    ∃ p, parse source source.tokens = .ok p ∧ f p = a := by
  cases parsed : parse source source.tokens with
  | error e =>
    rw [parsed] at h
    cases h
  | ok p =>
    rw [parsed] at h
    exact ⟨p, rfl, Option.some.inj h⟩

def redeclared : Source :=
  ⟨"g.c", "extern int x; int x; int x = 5; extern int x; int x; int y; extern int y = 7;"⟩

theorem redeclared_extents : (parse redeclared redeclared.tokens).toOption.map (fun p =>
    p.globals.map fun g => p.structs.extent g.ty) = some [4, 4] := by decide +kernel

theorem redeclared_first : declared redeclared "x" =
    [(true, none), (false, none), (false, some [5, 0, 0, 0]), (true, none), (false, none)] := by
  decide +kernel

theorem redeclared_second : declared redeclared "y" =
    [(false, none), (true, some [7, 0, 0, 0])] := by decide +kernel

theorem mem_declared {isExtern : Bool} {bytes : List UInt8}
    (h : (isExtern, some bytes) ∈ declared source name) :
    ∃ d ∈ (declarations source source.tokens).filter (·.name == name), ∃ image,
      d.isExtern = isExtern ∧ d.init = some image ∧ image.bytes.toList = bytes := by
  obtain ⟨d, mem, same⟩ := mem_map.mp h
  simp only [Prod.mk.injEq, Option.map_eq_some_iff] at same
  obtain ⟨isExtern, image, init, bytes⟩ := same
  exact ⟨d, mem, image, isExtern, init, bytes⟩

theorem declared_mem (mem : d ∈ (declarations source source.tokens).filter (·.name == name))
    (init : d.init = some image) :
    (d.isExtern, some image.bytes.toList) ∈ declared source name :=
  mem_map.mpr ⟨d, mem, by rw [init]; rfl⟩

theorem initializers_kept_redeclared : ∃ p lines, parse redeclared redeclared.tokens = .ok p ∧
    (∀ g ∈ p.globals, p.structs.extent g.ty ≤ maxObjectSize.toNat) ∧ Emit.data p = some lines ∧
    (∃ image, image.bytes.toList = [5, 0, 0, 0] ∧ p.Keeps lines "x" image) ∧
    ¬∀ d ∈ (declarations redeclared redeclared.tokens).filter (·.name == "y"), ∀ image,
      d.init = some image → p.Keeps lines "y" image := by
  obtain ⟨p, parsed, extents⟩ := exists_parse redeclared_extents
  have small : ∀ g ∈ p.globals, p.structs.extent g.ty ≤ maxObjectSize.toNat := by
    intro g mem
    have mem := mem_map_of_mem (f := fun g : Global => p.structs.extent g.ty) mem
    rw [extents] at mem
    have all : ∀ n ∈ [4, 4], n ≤ maxObjectSize.toNat := by decide
    exact all _ mem
  obtain ⟨lines, made, kept⟩ := (initializers_kept_iff parsed).2 small
  refine ⟨p, lines, parsed, small, made, ?_, fun all => ?_⟩
  · have given : (false, some [5, 0, 0, 0]) ∈ declared redeclared "x" := by
      rw [redeclared_first]
      decide
    obtain ⟨d, mem, image, stored, init, bytes⟩ := mem_declared given
    refine ⟨image, bytes, (kept "x").mpr (fun d mem image init => ?_) d mem image init⟩
    have listed := declared_mem mem init
    rw [redeclared_first] at listed
    refine ⟨d, mem, ?_, init⟩
    simp at listed
    exact listed.1
  · have given : (true, some [7, 0, 0, 0]) ∈ declared redeclared "y" := by
      rw [redeclared_second]
      decide
    obtain ⟨d, mem, image, -, init, -⟩ := mem_declared given
    obtain ⟨d', mem, stored, init⟩ := (kept "y").mp all d mem image init
    have listed := declared_mem mem init
    rw [redeclared_second, stored] at listed
    simp at listed

def lost : Source := ⟨"g.c", "int x; extern int x = 5;"⟩

theorem lost_count : (parse lost lost.tokens).toOption.map (·.globals.length) = some 1 := by
  decide +kernel

theorem lost_declared : declared lost "x" = [(false, none), (true, some [5, 0, 0, 0])] := by
  decide +kernel

/-- The initializer of an external declaration may be lost. -/
theorem initializer_lost : ∃ p, parse lost lost.tokens = .ok p ∧
    ∃ d ∈ declarations lost lost.tokens, ∃ image, d.name = "x" ∧ d.init = some image ∧
      ∀ lines, Emit.data p = some lines → ¬p.Keeps lines "x" image := by
  obtain ⟨p, parsed, -⟩ := exists_parse lost_count
  have given : (true, some [5, 0, 0, 0]) ∈ declared lost "x" := by
    rw [lost_declared]
    decide
  obtain ⟨d, mem, image, -, init, -⟩ := mem_declared given
  obtain ⟨origin, named⟩ := mem_filter.mp mem
  refine ⟨p, parsed, d, origin, image, eq_of_beq named, init, fun lines made kept => ?_⟩
  obtain ⟨d', mem, stored, init⟩ := kept.declared (parse_merged parsed) made
  have listed := declared_mem mem init
  rw [lost_declared, stored] at listed
  simp at listed

end Program

end MiniC
