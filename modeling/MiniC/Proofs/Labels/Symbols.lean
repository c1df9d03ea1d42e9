import Mathlib.Data.List.Forall2
import MiniC.Proofs.Labels.Jumps

/-!
# Symbols of a program

The assembly of a program is its data and then the code of its functions, by either back end. So it
defines a symbol for each string, for each global that has storage and for each function with a
body, and sets each of them as often as the program has it. Strings, globals and functions are kept
apart among themselves; but nothing compares a function with a global, and a program may define both
under one name (`symbols_defined_iff`, `namesakes`).
-/

namespace MiniC

open Asm List

namespace Program

def stored (p : Program) : List Global := p.globals.filter (!·.isExtern)

/-- The symbols that a program defines: its strings, its globals with storage and its functions with
a body. -/
def symbols (p : Program) : List String :=
  (List.range p.strings.length).map stringLabel ++ p.stored.map (·.name) ++ p.bodied.map (·.name)

def Apart (p : Program) : Prop := ∀ f ∈ p.bodied, ∀ g ∈ p.stored, f.name ≠ g.name

/-- The assembly of a program by one of the back ends. -/
inductive Emits (p : Program) : List Line → Prop
  | stack {lines : List Line} : emitStack p = .ok lines → Emits p lines
  | allocated {gs : List Ir.Function} {lines : List Line} : lower p = .ok gs →
    emitAllocated p gs = .ok lines → Emits p lines

end Program

/-! ## Parts of an assembly -/

namespace Emit

theorem Stack.functions_writes {q : Program} {fs : List Function} : ∀ {code : Code},
    functions q.structs fs = some code → ∃ codes,
      List.Forall₂ q.Writes (fs.filter (·.body.isSome)) codes ∧ code = codes.flatten := by
  induction fs with
  | nil =>
    intro code made
    cases made
    exact ⟨[], .nil, rfl⟩
  | cons f rest ih =>
    intro code made
    cases body : f.body with
    | none =>
      simp only [functions, body, Option.bind_eq_bind, Option.bind_some, Option.bind_eq_some_iff,
        Option.pure_def, Option.some.injEq] at made
      obtain ⟨others, later, rfl⟩ := made
      rw [filter_cons_of_neg (by simp [body])]
      exact ih later
    | some tree =>
      simp only [functions, body, do_eq_some, Option.pure_def,
        Option.some.injEq] at made
      obtain ⟨first, made, others, later, rfl⟩ := made
      obtain ⟨codes, written, rfl⟩ := ih later
      rw [filter_cons_of_pos (by simp [body])]
      exact ⟨first :: codes, .cons (.stack body made) written, rfl⟩

theorem Allocated.functions_writes {q : Program} {fs : List Function} :
    ∀ {gs : List Ir.Function} {code : Code}, Ir.lowerFunctions q.structs fs = some gs →
      functions gs = .ok code → ∃ codes,
        List.Forall₂ q.Writes (fs.filter (·.body.isSome)) codes ∧ code = codes.flatten := by
  induction fs with
  | nil =>
    intro gs code lowered made
    cases lowered
    cases made
    exact ⟨[], .nil, rfl⟩
  | cons f rest ih =>
    intro gs code lowered made
    cases body : f.body with
    | none =>
      simp only [Ir.lowerFunctions, body] at lowered
      rw [filter_cons_of_neg (by simp [body])]
      exact ih lowered made
    | some tree =>
      simp only [Ir.lowerFunctions, body, do_eq_some,
        Option.pure_def, Option.some.injEq] at lowered
      obtain ⟨g, own, others, later, rfl⟩ := lowered
      obtain ⟨first, own', rest⟩ := bind_eq_ok.mp made
      obtain ⟨behind, made', same⟩ := bind_eq_ok.mp rest
      cases same
      obtain ⟨codes, written, rfl⟩ := ih later made'
      rw [filter_cons_of_pos (by simp [body])]
      exact ⟨first :: codes, .cons (.allocated body own (mapError_eq_ok.mp own')) written, rfl⟩

end Emit

/-- Either back end writes the data, and then each function that has a body. -/
theorem Program.Emits.parts {q : Program} {lines : List Line} (emitted : q.Emits lines) :
    ∃ head codes, Emit.data q = some head ∧ List.Forall₂ q.Writes q.bodied codes ∧
      lines = head ++ codes.flatten := by
  cases emitted with
  | stack made =>
    unfold emitStack at made
    split at made
    next found =>
      cases made
      simp only [Emit.Stack.program, do_eq_some, Option.pure_def,
        Option.some.injEq] at found
      obtain ⟨head, data, code, made, rfl⟩ := found
      obtain ⟨codes, written, rfl⟩ := Emit.Stack.functions_writes made
      exact ⟨head, codes, data, written, rfl⟩
    next => cases made
  | allocated lowered made =>
    have found := mapError_eq_ok.mp made
    unfold Emit.Allocated.program at found
    split at found
    · cases found
    next head data =>
      obtain ⟨code, each, same⟩ := bind_eq_ok.mp found
      cases same
      unfold lower Ir.lower at lowered
      split at lowered
      next listed =>
        cases lowered
        obtain ⟨codes, written, rfl⟩ := Emit.Allocated.functions_writes listed each
        exact ⟨head, codes, data, written, rfl⟩
      next => cases lowered

/-! ## Data -/

namespace Emit

theorem marked_byteLines (bytes : List UInt8) : marked (byteLines bytes) = [] := by
  refine flatMap_eq_nil_iff.mpr fun line mem => ?_
  have contents := byteLines_contents bytes line mem
  cases line with
  | label => cases contents
  | code | directive => rfl

theorem marked_image {contents : Image} {lines : List Line} (made : image contents = some lines) :
    marked lines = [] := by
  refine flatMap_eq_nil_iff.mpr fun line mem => ?_
  have contents := imageLines_contents made line mem
  cases line with
  | label => cases contents
  | code | directive => rfl

theorem marked_globalHead (σ : Structs) (g : Global) :
    marked (globalHead σ g) = [.symbol g.name] := by
  unfold globalHead visibility
  split <;> rfl

theorem marked_strings (strings : List (List UInt8)) : ∀ index : Nat,
    marked (Emit.strings index strings) =
      (List.range' index strings.length).map fun i => .symbol (stringLabel i) := by
  induction strings with
  | nil => exact fun _ => rfl
  | cons bytes rest ih =>
    intro index
    rw [Emit.strings, stringLines, ← singleton_append, marked_append, marked_append,
      marked_byteLines, ih, length_cons, List.range'_succ, map_cons]
    rfl

theorem marked_initialized {σ : Structs} {globals : List Global} : ∀ {lines : List Line},
    initialized σ globals = some lines →
      marked lines = (globals.filter (·.init.isSome)).map fun g => .symbol g.name := by
  induction globals with
  | nil =>
    intro lines made
    cases made
    rfl
  | cons g rest ih =>
    intro lines made
    simp only [initialized, do_eq_some] at made
    obtain ⟨others, later, made⟩ := made
    cases init : g.init with
    | none =>
      simp only [init] at made
      cases made
      rw [filter_cons_of_neg (by simp [init]), ih later]
    | some contents =>
      simp only [init, do_eq_some, Option.pure_def, Option.some.injEq] at made
      obtain ⟨bytes, written, rfl⟩ := made
      rw [filter_cons_of_pos (by simp [init]), marked_append, marked_append, marked_globalHead,
        marked_image written, ih later]
      rfl

theorem marked_zeroed (σ : Structs) (globals : List Global) :
    marked (zeroed σ globals) = (globals.filter (·.init.isNone)).map fun g => .symbol g.name := by
  unfold zeroed
  induction globals.filter (·.init.isNone) with
  | nil => rfl
  | cons g rest ih =>
    rw [flatMap_cons, marked_append, marked_append, marked_globalHead, ih]
    rfl

theorem data_marked {q : Program} {head : List Line} (made : data q = some head) :
    (marked head).Perm (((List.range q.strings.length).map stringLabel ++
      q.stored.map (·.name)).map Label.symbol) := by
  simp only [data, do_eq_some, Option.pure_def,
    Option.some.injEq] at made
  obtain ⟨images, written, rfl⟩ := made
  simp only [marked_append, marked_strings, marked_initialized written, marked_zeroed]
  have split : ((q.stored.filter (·.init.isSome)) ++ q.stored.filter (·.init.isNone)).Perm q.stored := by
    simpa using filter_append_perm (·.init.isSome) q.stored
  have globals := split.map fun g => Label.symbol g.name
  rw [map_append] at globals
  rw [map_append, map_map, map_map, range_eq_range']
  have all := globals.append_left ((List.range' 0 q.strings.length).map fun i =>
    Label.symbol (stringLabel i))
  simpa only [marked, flatMap_cons, flatMap_nil, Line.marks, append_nil,
    nil_append, append_assoc, Function.comp_def, Program.stored] using all

end Emit

/-! ## Definitions -/

theorem Asm.Label.symbol_injective : Function.Injective Label.symbol := by
  intro a b same
  cases same
  rfl

section Accepted

variable {source : Source} {includes : Macro.Includes} {lexed tokens : List Lexed}
  {implicitDecls : Bool} {p q : Program} {lines : List Line}

theorem count_codes (parsed : parse source tokens = .ok p) (analyzed : analyze implicitDecls p = .ok q)
    {fs : List Function} {codes : List (List Line)} (written : List.Forall₂ q.Writes fs codes)
    (listed : ∀ f ∈ fs, f ∈ q.functions) (symbol : String) :
    codes.flatten.count (.label (.symbol symbol)) = (fs.map (·.name)).count symbol := by
  induction written with
  | nil => rfl
  | @cons f code fs codes first _ ih =>
    rw [forall_mem_cons] at listed
    have lands := writes_lands parsed analyzed listed.1 first
    rw [flatten_cons, count_append, ih listed.2, map_cons, count_cons, Nat.add_comm]
    congr 1
    split
    next same => rw [← eq_of_beq same, lands.named]
    next other =>
      refine count_eq_zero.mpr fun mem => ?_
      rcases lands.own _ (mem_marked.mpr mem) with same | ⟨spot, same⟩
      · cases same
        exact other (beq_self_eq_true _)
      · cases same

theorem Program.Named.proper (named : q.Named fun name => Lexer.isName name = true) :
    ∀ symbol ∈ q.symbols, (Label.symbol symbol).Proper := by
  intro symbol mem
  rw [symbols, append_assoc] at mem
  rcases mem_append.mp mem with mem | mem
  · obtain ⟨index, -, rfl⟩ := mem_map.mp mem
    exact .inr ⟨index, rfl⟩
  · rcases mem_append.mp mem with mem | mem
    · obtain ⟨g, stored, rfl⟩ := mem_map.mp mem
      exact .inl (named.globals g (mem_of_mem_filter stored))
    · obtain ⟨f, bodied, rfl⟩ := mem_map.mp mem
      exact .inl (named.functions f (mem_of_mem_filter bodied))

/-- A symbol is defined as often as the program lists it. -/
theorem emits_count (emitted : q.Emits lines) (parsed : parse source tokens = .ok p)
    (analyzed : analyze implicitDecls p = .ok q) (named : q.Named fun name => Lexer.isName name = true) :
    (∀ label ∈ marked lines, label.Proper) ∧
      ∀ symbol, lines.count (.label (.symbol symbol)) = q.symbols.count symbol := by
  obtain ⟨head, codes, data, written, rfl⟩ := emitted.parts
  have listed : ∀ f ∈ q.bodied, f ∈ q.functions := fun f mem => mem_of_mem_filter mem
  have perm := Emit.data_marked data
  constructor
  · rw [marked_append]
    refine forall_mem_append.mpr ⟨fun label mem => ?_, fun label mem => ?_⟩
    · obtain ⟨name, known, rfl⟩ := mem_map.mp (perm.mem_iff.mp mem)
      exact named.proper name (mem_append_left _ known)
    · obtain ⟨code, listed', set⟩ := mem_flatten.mp (mem_marked.mp mem)
      obtain ⟨i, lt, rfl⟩ := mem_iff_getElem.mp listed'
      have lt' : i < q.bodied.length := written.length_eq ▸ lt
      have mem := getElem_mem lt'
      have lands := writes_lands parsed analyzed (listed _ mem) (written.get lt' lt)
      exact lands.proper (named.functions _ (listed _ mem)) label (mem_marked.mpr set)
  · intro symbol
    rw [count_append, ← count_marked, perm.count_eq, count_map_of_injective
      _ _ Label.symbol_injective, count_codes parsed analyzed written listed, Program.symbols]
    exact count_append.symm

/-- Symbols differ if and only if no function shares its name with a global. -/
theorem Program.symbols_nodup_iff (named : q.Named fun name => Lexer.isName name = true)
    (distinct : (q.globals.map (·.name)).Nodup) : q.symbols.Nodup ↔ q.Apart := by
  have globals : (q.stored.map (·.name)).Nodup :=
    distinct.sublist (filter_sublist.map _)
  have strings : ((List.range q.strings.length).map stringLabel).Nodup :=
    nodup_range.map Label.stringLabel_injective
  have words : ∀ name ∈ q.stored.map (·.name) ++ q.bodied.map (·.name),
      Lexer.isName name = true := by
    refine forall_mem_append.mpr ⟨?_, ?_⟩
    · exact forall_mem_map.mpr fun g mem => named.globals g (mem_of_mem_filter mem)
    · exact forall_mem_map.mpr fun f mem => named.functions f (mem_of_mem_filter mem)
  rw [symbols, append_assoc, nodup_append, nodup_append]
  constructor
  · rintro ⟨-, ⟨-, -, apart⟩, -⟩ f listed g listed' same
    exact apart _ (mem_map_of_mem listed') _ (mem_map_of_mem listed) same.symm
  · intro apart
    refine ⟨strings, ⟨globals, named.bodies, fun name mem name' mem' same => ?_⟩, ?_⟩
    · obtain ⟨g, listed, rfl⟩ := mem_map.mp mem
      obtain ⟨f, listed', rfl⟩ := mem_map.mp mem'
      exact apart f listed' g listed same.symm
    · intro name mem name' mem' same
      obtain ⟨index, -, rfl⟩ := mem_map.mp mem
      have word := words name' mem'
      rw [← same, Label.stringLabel_not_isName] at word
      cases word

/-- **Symbols are defined once unless a function has the name of a global.** Take a source that gets
through to typing. The symbols of its strings, its globals with storage and its functions with a
body are pairwise different if and only if no function with a body has the name of a global with
storage. An assembly of either back end sets each of these names as often as the program has it, so
each of them is set exactly once under the same condition. -/
theorem symbols_defined_iff (read : tokenize source = .ok lexed)
    (expanded : preprocess includes lexed = .ok tokens) (parsed : parse source tokens = .ok p)
    (analyzed : analyze implicitDecls p = .ok q) :
    (q.symbols.Nodup ↔ q.Apart) ∧ ∀ lines, q.Emits lines →
      (∀ symbol ∈ q.symbols, (names lines).count symbol = q.symbols.count symbol) ∧
      ((∀ symbol ∈ q.symbols, (names lines).count symbol = 1) ↔ q.Apart) := by
  have named := analyze_named read expanded parsed analyzed
  have distinct : (q.globals.map (·.name)).Nodup := by
    rw [(analyze_heads analyzed).2.1]
    exact (Program.parse_merged (parse_eq_ok.mp parsed)).names
  have nodup := Program.symbols_nodup_iff named distinct
  refine ⟨nodup, fun lines emitted => ?_⟩
  obtain ⟨proper, count⟩ := emits_count emitted parsed analyzed named
  have set : ∀ symbol ∈ q.symbols, (names lines).count symbol = q.symbols.count symbol :=
    fun symbol mem => (count_names proper (named.proper symbol mem)).trans (count symbol)
  refine ⟨set, ?_⟩
  rw [← nodup]
  constructor
  · intro once
    refine nodup_iff_count_le_one.mpr fun symbol => ?_
    by_cases mem : symbol ∈ q.symbols
    · rw [← set symbol mem, once symbol mem]
    · rw [count_eq_zero.mpr mem]
      exact Nat.zero_le 1
  · intro distinct symbol mem
    rw [set symbol mem]
    exact count_eq_one_of_mem distinct mem

end Accepted

/-! ## Examples -/

def Program.settings? (q : Program) (name : String) : Option (Nat × Nat) := do
  let stack ← (emitStack q).toOption
  let gs ← (lower q).toOption
  let allocated ← (emitAllocated q gs).toOption
  return ((names stack).count name, (names allocated).count name)

theorem Program.emits_of_settings? {q : Program} {name : String} {n m : Nat}
    (found : q.settings? name = some (n, m)) :
    (∃ lines, emitStack q = .ok lines ∧ (names lines).count name = n) ∧
      ∃ gs lines, lower q = .ok gs ∧ emitAllocated q gs = .ok lines ∧
        (names lines).count name = m := by
  simp only [settings?, do_eq_some, Option.pure_def,
    Option.some.injEq, Prod.mk.injEq] at found
  obtain ⟨stack, made, gs, lowered, allocated, made', rfl, rfl⟩ := found
  exact ⟨⟨stack, eq_ok_of_toOption made, rfl⟩, gs, allocated, eq_ok_of_toOption lowered,
    eq_ok_of_toOption made', rfl⟩

def greeting : Source := ⟨"s.c", "char *s = \"hi\"; int x; int f() \x7b return x; \x7d"⟩

theorem typed?_greeting : greeting.typed?.map (fun x => x.2.2.symbols) =
    some [".L.str.0", "s", "x", "f"] := by decide +kernel

theorem symbols_defined_greeting : ∃ tokens p q, tokenize greeting = .ok tokens ∧
    preprocess ⟨"", fun _ => .error .notFound⟩ tokens = .ok tokens ∧
    parse greeting tokens = .ok p ∧ analyze false p = .ok q ∧
    q.symbols = [".L.str.0", "s", "x", "f"] ∧ q.Apart ∧
    ∀ lines, q.Emits lines → ∀ symbol ∈ q.symbols, (names lines).count symbol = 1 := by
  obtain ⟨⟨tokens, p, q⟩, found, symbols⟩ := Option.map_eq_some_iff.mp typed?_greeting
  obtain ⟨read, expanded, parsed, analyzed⟩ :=
    Source.stages_of_typed? found ⟨"", fun _ => .error .notFound⟩
  obtain ⟨nodup, set⟩ := symbols_defined_iff read expanded parsed analyzed
  have apart : q.Apart := nodup.mp (by rw [symbols]; decide)
  exact ⟨tokens, p, q, read, expanded, parsed, analyzed, symbols, apart,
    fun lines emitted => (set lines emitted).2.mpr apart⟩

def namesakes : Source := ⟨"f.c", "int f; int f() \x7b return 0; \x7d"⟩

theorem typed?_namesakes : (namesakes.typed?.bind fun x => x.2.2.settings? "f") = some (2, 2) := by
  decide +kernel

/-- The program is accepted, and both back ends set the name twice. -/
theorem namesakes_defined_twice : ∃ tokens p q, tokenize namesakes = .ok tokens ∧
    preprocess ⟨"", fun _ => .error .notFound⟩ tokens = .ok tokens ∧
    parse namesakes tokens = .ok p ∧ analyze false p = .ok q ∧
    (∃ lines, emitStack q = .ok lines ∧ (names lines).count "f" = 2) ∧
    ∃ gs lines, lower q = .ok gs ∧ emitAllocated q gs = .ok lines ∧ (names lines).count "f" = 2 := by
  obtain ⟨⟨tokens, p, q⟩, found, settings⟩ := Option.bind_eq_some_iff.mp typed?_namesakes
  obtain ⟨read, expanded, parsed, analyzed⟩ :=
    Source.stages_of_typed? found ⟨"", fun _ => .error .notFound⟩
  exact ⟨tokens, p, q, read, expanded, parsed, analyzed, Program.emits_of_settings? settings⟩

end MiniC
