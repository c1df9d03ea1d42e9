import MiniC.Proofs.DataSection

/-!
# Which declaration a name stands for

A scope keeps locals and typedefs apart, so it does not know which of the two was declared last. A
*ledger* does: the declarations of each open block in one list, the newest first. It goes along
with the state through everything a parse does (`Visits`), so it can be compared with what a name
is taken for.

A local hides every typedef of its name, also one declared further in. So the newest declaration
of a name decides unless it is a typedef and a local of the same name is visible around it.
-/

namespace MiniC

open List

/-! ## Ledgers -/

/-- What a name is declared as: a local with its number, or a typedef. -/
inductive Declaration where
  | var (index : Nat)
  | type (ty : CType)

namespace Declaration

def index? : Declaration → Option Nat
  | .var index => some index
  | .type _ => none

def type? : Declaration → Option CType
  | .var _ => none
  | .type ty => some ty

end Declaration

/-- The declarations of the open blocks, the innermost block and the newest declaration first. -/
abbrev Ledger := List (List (String × Declaration))

namespace Ledger

def newest? (ledger : Ledger) (name : String) : Option Declaration := Scope.find? ledger.flatten name

def newestOf? {α : Type} (kind : Declaration → Option α) (ledger : Ledger) (name : String) :
    Option α :=
  Scope.find? (ledger.flatten.filterMap fun entry => (kind entry.2).map (entry.1, ·)) name

def var? : Ledger → String → Option Nat := newestOf? Declaration.index?

def typedef? : Ledger → String → Option CType := newestOf? Declaration.type?

variable {ledger : Ledger} {name : String}

variable {α : Type}

theorem find?_cons (entry : String × α) (entries : List (String × α)) (name : String) :
    Scope.find? (entry :: entries) name =
      if entry.1 = name then some entry.2 else Scope.find? entries name := by
  unfold Scope.find?
  by_cases same : entry.1 = name
  · simp [same]
  · simp [same, beq_eq_false_iff_ne.mpr same]

theorem newestOf?_of_newest? (kind : Declaration → Option α) {d : Declaration} {a : α}
    (newest : newest? ledger name = some d) (isKind : kind d = some a) :
    newestOf? kind ledger name = some a := by
  unfold newest? at newest
  unfold newestOf?
  generalize ledger.flatten = entries at newest ⊢
  induction entries with
  | nil => cases newest
  | cons entry entries ih =>
    rw [find?_cons] at newest
    split at newest
    · rename_i same
      cases newest
      rw [filterMap_cons, isKind, Option.map_some, find?_cons, if_pos same]
    · rename_i different
      cases kept : kind entry.2 with
      | none => simpa [filterMap_cons, kept] using ih newest
      | some b =>
        rw [filterMap_cons, kept, Option.map_some, find?_cons, if_neg different]
        exact ih newest

theorem newest?_of_newestOf? {kind : Declaration → Option α} {a : α}
    (newest : newestOf? kind ledger name = some a) : ∃ d, newest? ledger name = some d := by
  unfold newestOf? at newest
  unfold newest?
  generalize ledger.flatten = entries at newest ⊢
  induction entries with
  | nil => cases newest
  | cons entry entries ih =>
    rw [find?_cons]
    split
    · exact ⟨_, rfl⟩
    · rename_i different
      refine ih ?_
      cases kept : kind entry.2 with
      | none => simpa [filterMap_cons, kept] using newest
      | some b => rwa [filterMap_cons, kept, Option.map_some, find?_cons, if_neg different] at newest

theorem newest?_of_typedef? {ty : CType} (none : ledger.var? name = none)
    (newest : ledger.typedef? name = some ty) : newest? ledger name = some (.type ty) := by
  obtain ⟨d, found⟩ := newest?_of_newestOf? newest
  cases d with
  | var index =>
    have := newestOf?_of_newest? Declaration.index? found rfl
    rw [var?, this] at none
    cases none
  | type ty' =>
    have := newestOf?_of_newest? Declaration.type? found rfl
    rw [typedef?, this] at newest
    cases newest
    exact found

end Ledger

/-! ## States with a ledger -/

namespace ParseState

def names (s : ParseState) : List (List (String × Nat) × List (String × CType)) :=
  s.scope.blocks.map fun block => (block.vars, block.typedefs)

/-- The states a parse may pass through, with the declarations that are visible there. Every
change of the state leads to such a state; a block may be entered at any time, and is left with
all its declarations. -/
inductive Visits : ParseState → Ledger → Prop
  | start (source : Source) (tokens : List Lexed) :
    Visits { tokens, last := .atStart source } [[]]
  | change {s t : ParseState} {ledger : Ledger} :
    Visits s ledger → Change s t → t.names = s.names → Visits t ledger
  | complete {s : ParseState} {ledger : Ledger} (ref : StructRef) (layout : Layout) :
    Visits s ledger → Visits { s with structs := (s.structs.complete ref layout).2 } ledger
  | declareLocal {s : ParseState} {block : List (String × Declaration)} {outer : Ledger}
      (name : Located String) (ty : CType) : Visits s (block :: outer) →
    Visits (s.declareLocal name ty).2 (((name.value, .var s.locals.length) :: block) :: outer)
  | declareType {s : ParseState} {block : List (String × Declaration)} {outer : Ledger}
      (name : String) (ty : CType) : Visits s (block :: outer) →
    Visits { s with scope := s.scope.addTypedef name ty } (((name, .type ty) :: block) :: outer)
  | enter {s : ParseState} {ledger : Ledger} : Visits s ledger → Visits s.enter ([] :: ledger)
  | leave {s : ParseState} {inner block : List (String × Declaration)} {outer : Ledger} :
    Visits s (inner :: block :: outer) → Visits s.leave (block :: outer)

def recorded (block : List (String × Declaration)) :
    List (String × Nat) × List (String × CType) :=
  (block.filterMap fun entry => entry.2.index?.map (entry.1, ·),
    block.filterMap fun entry => entry.2.type?.map (entry.1, ·))

/-- The scope of a state has the names that are recorded for it. -/
theorem Visits.names {s : ParseState} {ledger : Ledger} (visits : s.Visits ledger) :
    s.names = ledger.map recorded := by
  induction visits with
  | start => rfl
  | change _ _ same ih => rw [same, ih]
  | complete _ _ _ ih => exact ih
  | declareLocal name ty _ ih =>
    obtain ⟨inner, outer⟩ := List.cons.inj ih
    refine cons_eq_cons.mpr ⟨?_, outer⟩
    rw [recorded, Prod.mk.injEq] at inner
    simp [ParseState.declareLocal, Scope.addVar, recorded, Declaration.index?, Declaration.type?,
      inner]
  | declareType name ty _ ih =>
    obtain ⟨inner, outer⟩ := List.cons.inj ih
    refine cons_eq_cons.mpr ⟨?_, outer⟩
    rw [recorded, Prod.mk.injEq] at inner
    simp [Scope.addTypedef, recorded, Declaration.index?, Declaration.type?, inner]
  | enter _ ih => exact cons_eq_cons.mpr ⟨rfl, ih⟩
  | @leave s inner block outer _ ih =>
    obtain ⟨-, around⟩ := List.cons.inj ih
    simp only [ParseState.names, ParseState.leave, Scope.leave]
    cases blocks : s.scope.outer with
    | nil =>
      rw [blocks] at around
      cases around
    | cons block' outer' =>
      rw [blocks] at around
      exact around

theorem Visits.var? {s : ParseState} {ledger : Ledger} (visits : s.Visits ledger) (name : String) :
    s.scope.var? name = ledger.var? name := by
  have vars : s.scope.blocks.flatMap (·.vars) = (s.names.map Prod.fst).flatten := by
    simp only [ParseState.names, flatMap_def, map_map]
    rfl
  rw [Scope.var?, vars, visits.names, Ledger.var?, Ledger.newestOf?, filterMap_flatten]
  simp only [map_map]
  rfl

theorem Visits.typedefs {s : ParseState} {ledger : Ledger} (visits : s.Visits ledger)
    (name : String) :
    Scope.find? (s.scope.blocks.flatMap (·.typedefs)) name = ledger.typedef? name := by
  have typedefs : s.scope.blocks.flatMap (·.typedefs) = (s.names.map Prod.snd).flatten := by
    simp only [ParseState.names, flatMap_def, map_map]
    rfl
  rw [typedefs, visits.names, Ledger.typedef?, Ledger.newestOf?, filterMap_flatten]
  simp only [map_map]
  rfl

/-! ## Runs -/

theorem intern_names (s : ParseState) (bytes : List UInt8) : (s.intern bytes).2.names = s.names := by
  unfold intern
  split <;> rfl

theorem withStruct_names (s : ParseState) (tag : Option String) :
    (s.withStruct tag).names = s.names := by
  cases tag <;> rfl

variable {t : ParseState} {block : List (String × Declaration)} {outer : Ledger} {index ahead : Nat}

theorem Visits.changed {s : ParseState} (visits : s.Visits (block :: outer)) (change : Change s t) :
    ∃ more, t.Visits ((more ++ block) :: outer) := by
  cases change with
  | typedef name ty => exact ⟨[_], visits.declareType name ty⟩
  | declareLocal name ty => exact ⟨[_], visits.declareLocal name ty⟩
  | intern bytes => exact ⟨[], visits.change (.intern bytes) (intern_names s bytes)⟩
  | declareStruct tag => exact ⟨[], visits.change (.declareStruct tag) (withStruct_names s tag)⟩
  | define global complete suits defined =>
    refine ⟨[], visits.change (.define global complete suits defined) ?_⟩
    obtain ⟨globals, rfl⟩ := defineGlobal_eq defined
    rfl
  | take tokens => exact ⟨[], visits.change (.take tokens) rfl⟩
  | constant name value => exact ⟨[], visits.change (.constant name value) rfl⟩
  | enumTag name => exact ⟨[], visits.change (.enumTag name) rfl⟩
  | forgetLocals => exact ⟨[], visits.change .forgetLocals rfl⟩
  | addFunction f => exact ⟨[], visits.change (.addFunction f) rfl⟩

/-- Whatever is parsed adds declarations to the innermost block. -/
theorem Visits.reached {s : ParseState} (visits : s.Visits (block :: outer))
    (reaches : s.Reaches t) :
    ∃ more, t.Visits ((more ++ block) :: outer) := by
  induction reaches generalizing block outer with
  | refl => exact ⟨[], visits⟩
  | tail _ change ih =>
    obtain ⟨more, before⟩ := ih visits
    obtain ⟨new, after⟩ := before.changed change
    exact ⟨new ++ more, by rwa [append_assoc]⟩
  | block _ _ before inside =>
    obtain ⟨more, around⟩ := before visits
    obtain ⟨_, within⟩ := inside around.enter
    exact ⟨more, within.leave⟩
  | body _ target _ _ _ before inside =>
    obtain ⟨more, around⟩ := before visits
    obtain ⟨new, within⟩ : ∃ new, ParseState.Visits _ ((new ++ (more ++ block)) :: outer) := by
      cases target with
      | known => exact inside around
      | fresh tag => exact inside (around.change (.declareStruct tag) (withStruct_names _ tag))
    exact ⟨new ++ more, by rw [append_assoc]; exact within.complete _ _⟩

/-! ## What a name stands for -/

theorem lookup?_eq_var_iff {s : ParseState} {name : String} {loc : Location} :
    s.lookup? name loc = some (.var ⟨.void, loc⟩ index) ↔ s.scope.var? name = some index := by
  unfold lookup?
  cases s.scope.var? name with
  | some found => simp
  | none =>
    simp only [reduceCtorEq, iff_false]
    split
    · simp
    · intro found
      obtain ⟨_, _, same⟩ := Option.map_eq_some_iff.mp found
      cases same

/-- The newest declaration of a name decides what it stands for: the name is a local if that is a
local, namely this one, and it starts a type if that is a typedef. -/
structure NewestWins (s : ParseState) (ledger : Ledger) (name : String) : Prop where
  value : ∀ loc index, s.lookup? name loc = some (.var ⟨.void, loc⟩ index) ↔
    ledger.newest? name = some (.var index)
  typeName : ∀ tokens ahead, peekAt? { s with tokens } ahead = some (.id name) →
    (startsType { s with tokens } ahead = true ↔ ∃ ty, ledger.newest? name = some (.type ty))

theorem startsType_iff {s : ParseState} {name : String} (next : s.peekAt? ahead = some (.id name)) :
    s.startsType ahead = true ↔ s.scope.var? name = none ∧
      ∃ ty, Scope.find? (s.scope.blocks.flatMap (·.typedefs)) name = some ty := by
  unfold startsType Scope.typedef?
  rw [next]
  cases found : s.scope.var? name with
  | some => simp [found]
  | none => simp [found, Option.isSome_iff_exists]

variable {s : ParseState} {ledger : Ledger} {name : String}

theorem Visits.lookup?_iff (visits : s.Visits ledger) (loc : Location) (index : Nat) :
    s.lookup? name loc = some (.var ⟨.void, loc⟩ index) ↔ ledger.var? name = some index := by
  rw [lookup?_eq_var_iff, visits.var?]

theorem Visits.startsType_iff (visits : s.Visits ledger) {tokens : List Lexed}
    (next : peekAt? { s with tokens } ahead = some (.id name)) :
    startsType { s with tokens } ahead = true ↔
      ledger.var? name = none ∧ ∃ ty, ledger.typedef? name = some ty := by
  rw [ParseState.startsType_iff next]
  exact visits.var? name ▸ visits.typedefs name ▸ Iff.rfl

theorem NewestWins.newest (wins : s.NewestWins ledger name) (visits : s.Visits ledger)
    (found : ledger.var? name = some index) : ledger.newest? name = some (.var index) :=
  (wins.value s.last index).mp ((visits.lookup?_iff _ _).mpr found)

theorem NewestWins.of_newest (visits : s.Visits ledger)
    (newest : ledger.newest? name = some (.var index)) : s.NewestWins ledger name := by
  have found : ledger.var? name = some index := Ledger.newestOf?_of_newest? _ newest rfl
  refine ⟨fun loc other => ?_, fun tokens ahead next => ?_⟩
  · rw [visits.lookup?_iff, found, newest]
    simp
  · rw [visits.startsType_iff next, found, newest]
    simp

theorem NewestWins.of_none (visits : s.Visits ledger) (none : ledger.var? name = none) :
    s.NewestWins ledger name := by
  refine ⟨fun loc index => ?_, fun tokens ahead next => ?_⟩
  · rw [visits.lookup?_iff, none]
    refine ⟨fun found => absurd found (by simp), fun newest => ?_⟩
    rw [← none]
    exact Ledger.newestOf?_of_newest? _ newest rfl
  · rw [visits.startsType_iff next]
    refine ⟨fun ⟨_, ty, found⟩ => ⟨ty, Ledger.newest?_of_typedef? none found⟩, fun ⟨ty, newest⟩ => ?_⟩
    exact ⟨none, ty, Ledger.newestOf?_of_newest? _ newest rfl⟩

/-- **When the newest declaration of a name decides.** In every state a parse passes through, a
name is a local exactly if a local of that name is visible, namely the newest one; it starts a type
exactly if a typedef of that name is visible and no local is. So the newest declaration decides
if and only if it is a local or no local of the name is visible. Every step of the grammar leads
to such a state again, with more declarations in the innermost block alone. -/
theorem newest_wins_iff {block : List (String × Declaration)} {outer : Ledger}
    (visits : s.Visits (block :: outer)) (name : String) :
    (∀ {α : Type} (x : Parse α), Parse.Moves x →
      ∃ more, (Parse.final x s).Visits ((more ++ block) :: outer)) ∧
    (∀ loc index, s.lookup? name loc = some (.var ⟨.void, loc⟩ index) ↔
      Ledger.var? (block :: outer) name = some index) ∧
    (∀ tokens ahead, peekAt? { s with tokens } ahead = some (.id name) →
      (startsType { s with tokens } ahead = true ↔ Ledger.var? (block :: outer) name = none ∧
        ∃ ty, Ledger.typedef? (block :: outer) name = some ty)) ∧
    (s.NewestWins (block :: outer) name ↔ Ledger.var? (block :: outer) name = none ∨
      ∃ index, Ledger.newest? (block :: outer) name = some (.var index)) := by
  refine ⟨fun x moves => visits.reached (moves.reaches s), visits.lookup?_iff,
    fun tokens ahead => visits.startsType_iff, fun wins => ?_, fun either => ?_⟩
  · cases found : Ledger.var? (block :: outer) name with
    | none => exact .inl rfl
    | some index => exact .inr ⟨index, wins.newest visits found⟩
  · rcases either with none | ⟨index, newest⟩
    · exact .of_none visits none
    · exact .of_newest visits newest

/-! ## Examples -/

def blank : ParseState := { tokens := [], last := .atStart ⟨"n.c", ""⟩ }

def withLocal : ParseState :=
  ({ blank with scope := blank.scope.addTypedef "T" .int }.enter.declareLocal ⟨"T", blank.last⟩ .int).2

theorem newest_wins_local :
    withLocal.Visits [[("T", .var 0)], [("T", .type .int)]] ∧
    Ledger.newest? [[("T", .var 0)], [("T", .type .int)]] "T" = some (.var 0) ∧
    withLocal.NewestWins [[("T", .var 0)], [("T", .type .int)]] "T" := by
  have visits : withLocal.Visits [[("T", .var 0)], [("T", .type .int)]] :=
    ((Visits.start _ []).declareType "T" .int).enter.declareLocal ⟨"T", blank.last⟩ .int
  exact ⟨visits, rfl, (newest_wins_iff visits "T").2.2.2.mpr (.inr ⟨0, rfl⟩)⟩

def withTypedef : ParseState :=
  let s := (blank.declareLocal ⟨"T", blank.last⟩ .int).2.enter
  { s with scope := s.scope.addTypedef "T" .int }

def hidden : Source :=
  ⟨"n.c", "int f() \x7b int T; T = 1; \x7b typedef int T; T x; x = 2; return x; \x7d \x7d"⟩

def message? : Except (Located SyntaxError) Program → Option String
  | .ok _ => none
  | .error e => some e.value.message

/-- The newest declaration of a name may be a typedef, and yet the name is taken for a local. -/
theorem typedef_hidden :
    withTypedef.Visits [[("T", .type .int)], [("T", .var 0)]] ∧
    Ledger.newest? [[("T", .type .int)], [("T", .var 0)]] "T" = some (.type .int) ∧
    ¬withTypedef.NewestWins [[("T", .type .int)], [("T", .var 0)]] "T" ∧
    message? (Program.parse hidden hidden.tokens) = some "Expected `;`, found identifier `x`" := by
  have visits : withTypedef.Visits [[("T", .type .int)], [("T", .var 0)]] :=
    ((Visits.start _ []).declareLocal ⟨"T", blank.last⟩ .int).enter.declareType "T" .int
  refine ⟨visits, rfl, fun wins => ?_, by decide +kernel⟩
  have newest := wins.newest visits (show Ledger.var? _ "T" = some 0 from rfl)
  cases newest

end ParseState

end MiniC
