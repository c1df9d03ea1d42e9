import MiniC.Proofs.Grammar.Builds

/-!
# Functions and programs as they are parsed

A function is built in two steps. Its parameters are the first of its locals, numbered in their
order, and none of them is an array; what its body declares comes behind them and has a complete
type. Behind a function its locals are forgotten, so outside of functions there are none.

`Program.parse_built` and `Program.parse_scoped` say what holds of the functions of a program, and
`Program.parse_reaches` that a program is the end of a chain of changes.
-/

namespace MiniC

open List

open ParseState (Reaches)

namespace Grammar

open Parse

/-! ## Functions -/

def parameterHead (below : Below) : Parse (Located String × CType) := do
  let spec ← declSpec below
  let ty ← pointers below spec.ty
  let name := (← identifier?).getD ⟨"", ← here⟩
  let ty ← typeSuffix below ty
  return (name, ty.decay)

theorem parameterPart_eq (below : Below) (params : List Nat) : parameterPart below params = (do
    if ← eat .ellipsis then
      expect .closeParen
      return .done (params, true)
    else
      let named ← parameterHead below
      let params := params ++ [← modifyGet (·.declareLocal named.1 named.2)]
      if ← eat .comma then return .more params
      else
        expect .closeParen
        return .done (params, false)) := by
  simp only [parameterPart, parameterHead, bind_assoc, pure_bind]

def parametersOf : Round (List Nat) (List Nat × Bool) → List Nat
  | .more params => params
  | .done (params, _) => params

variable {below : Below} {spec : DeclSpec} {name : Located String} {s t : ParseState} {u : Unit}
  {global : Global}

theorem function_eq_ok {ret : CType} (run : function below spec ret name s = .ok u t) :
    ∃ params isVariadic body t₁ t₂ t₃, expect .openParen (ParseState.enter { s with locals := [] }) = .ok () t₁ ∧
      parameters below t₁ = .ok (params, isVariadic) t₂ ∧ functionBody below name t₂ = .ok body t₃ ∧
      t = { t₃ with
        scope := t₃.scope.leave
        locals := []
        functions := t₃.functions ++ [⟨name.value, ret, params, t₃.locals, body, 0, spec.isStatic,
          isVariadic, name.loc⟩] } := by
  simp only [function, bind_ran] at run
  obtain ⟨_, _, forgotten, run⟩ := run
  cases forgotten
  obtain ⟨t, ran, rfl⟩ := inBlock_eq_ok run
  simp only [functionRest, bind_ran] at ran
  obtain ⟨_, t₁, opened, ⟨params, isVariadic⟩, t₂, read, body, t₃, bodied, added⟩ := ran
  cases added
  exact ⟨params, isVariadic, body, t₁, t₂, t₃, opened, read, bodied, rfl⟩

section Functions

variable {κ : Outlook} {P : Prop} {below : Below} (h : below.Builds)
include h

theorem parameterHead_builds : Builds κ P (parameterHead below) fun named =>
    κ.Checks named.2 ∧ named.2.decay = named.2 := by
  refine (declSpec_builds h).bind fun spec => ?_
  refine .bind (.weaken And.right (pointers_builds h spec.ty)) fun ty => ?_
  refine identifier?_builds.andThen fun name => here_builds.andThen fun loc => ?_
  refine .bind (.weaken And.right (typeSuffix_builds h ty)) fun ty => .pure fun known => ?_
  refine ⟨fun sound => (known.2 sound).decay, ?_⟩
  cases ty <;> rfl

theorem parameterPart_builds (layer : κ.layer = some .parameters) (inside : κ.locals ≠ none)
    (params : List Nat) : Builds κ P (parameterPart below params) fun _ => True := by
  rw [parameterPart_eq]
  refine .eat ?_ ((parameterHead_builds h).bind fun named => ?_)
  · exact .expect <| .pure fun _ => trivial
  have declares : κ.layer ≠ some .phrase := by
    rw [layer]
    decide
  refine .bind (.weaken ?_ (declareLocal_builds declares inside named.1 named.2)) fun index => ?_
  · rintro ⟨_, checked, decayed⟩
    refine ⟨checked, ?_⟩
    rw [Outlook.Admits, layer]
    exact decayed
  · refine .eat (.pure fun _ => trivial) ?_
    exact .expect <| .pure fun _ => trivial

theorem parameters_builds (layer : κ.layer = some .parameters) (inside : κ.locals ≠ none) :
    Builds κ P (parameters below) fun _ => True := by
  refine peek?_builds.andThen fun token => .look fun s => .ite ?_ ?_
  · exact .advance <| .advance <| .pure fun _ => trivial
  · refine .eat (.pure fun _ => trivial) ?_
    exact loop_silent h (parameterPart_builds h layer inside)

variable {s t : ParseState} {Ω : Ending} {Λ : Texts}

theorem parameterPart_range {params : List Nat} {r : Round (List Nat) (List Nat × Bool)}
    (run : parameterPart below params s = .ok r t)
    (numbers : params = List.range s.locals.length) : parametersOf r = List.range t.locals.length := by
  rw [parameterPart_eq] at run
  obtain ⟨dots, s₁, eaten, run⟩ := bind_ran.mp run
  rw [← ((eat_builds _).phrase eaten).same] at numbers
  cases dots with
  | true =>
    obtain ⟨_, s₂, closed, run⟩ := bind_ran.mp run
    cases run
    rw [((expect_builds _).phrase closed).same]
    exact numbers
  | false =>
    obtain ⟨named, s₂, head, run⟩ := bind_ran.mp run
    rw [← ((parameterHead_builds h).phrase head).same] at numbers
    obtain ⟨_, _, declared, run⟩ := bind_ran.mp run
    cases declared
    obtain ⟨comma, s₃, eaten', run⟩ := bind_ran.mp run
    have next : params ++ [s₂.locals.length] = List.range s₃.locals.length := by
      have kept : s₃.locals = s₂.locals ++ [_] := ((eat_builds _).phrase eaten').same
      rw [kept, length_append, length_singleton, range_succ, numbers]
    cases comma with
    | true =>
      cases run
      exact next
    | false =>
      obtain ⟨_, s₄, closed, run⟩ := bind_ran.mp run
      cases run
      rw [((expect_builds _).phrase closed).same]
      exact next

/-- Parameters are the first locals, in order. -/
theorem parameters_range {r : List Nat × Bool} (none : s.locals = [])
    (run : parameters below s = .ok r t) : r.1 = List.range t.locals.length := by
  have loops : ∀ (rounds : Nat) {params : List Nat} {s : ParseState},
      iterate below.stuck rounds (parameterPart below) params s = .ok r t →
      params = List.range s.locals.length → r.1 = List.range t.locals.length := by
    intro rounds
    induction rounds with
    | zero =>
      intro params s run
      cases run
    | succ rounds ih =>
      intro params s run numbers
      obtain ⟨round, u, ran, run⟩ := bind_ran.mp run
      have numbers := parameterPart_range h ran numbers
      cases round with
      | more params => exact ih run numbers
      | done r =>
        cases run
        exact numbers
  obtain ⟨token, s₁, peeked, run⟩ := bind_ran.mp run
  cases peeked
  obtain ⟨_, _, got, run⟩ := bind_ran.mp run
  cases got
  split at run
  · obtain ⟨_, s₂, taken, run⟩ := bind_ran.mp run
    obtain ⟨_, s₃, taken', run⟩ := bind_ran.mp run
    cases run
    rw [(advance_builds.phrase taken').same, (advance_builds.phrase taken).same, none]
    rfl
  · obtain ⟨closed, s₂, eaten, run⟩ := bind_ran.mp run
    have none : s₂.locals = [] := ((eat_builds _).phrase eaten).same.trans none
    cases closed with
    | true =>
      cases run
      rw [none]
      rfl
    | false => exact loops _ run (by rw [none]; rfl)

theorem functionRest_moves (spec : DeclSpec) (ret : CType) (name : Located String) :
    Moves (functionRest below spec ret name) := by
  have parameters := parameters_builds (κ := .blind .parameters) (P := True) h rfl nofun
  have body := functionBody_builds (κ := .blind .body) (P := True) h ⟨rfl, nofun⟩ name
  refine .bind (expect_builds (κ := .blind .phrase) (P := True) _).moves fun _ => ?_
  refine parameters.moves.bind fun _ => body.moves.bind fun _ => .modifyGet fun s => ?_
  exact (Reaches.single .forgetLocals).tail (.addFunction _)

theorem function_moves (spec : DeclSpec) (ret : CType) (name : Located String) :
    Moves (function below spec ret name) :=
  .bind (.modifyGet fun _ => .single .forgetLocals) fun _ =>
    inBlock_moves (functionRest_moves h spec ret name)

omit h in
theorem built_of_parts {f : Function} {passed : List Var}
    (params : f.params = List.range passed.length) (front : passed <+: f.locals)
    (decayed : ∀ v ∈ passed, v.ty.decay = v.ty) (checked : ∀ v ∈ f.locals, Ω.structs.Checked v.ty)
    (behind : ∀ v ∈ f.locals.drop passed.length, Ω.structs.isComplete v.ty)
    (fits : ∀ s ∈ f.body, s.Fits (.body Ω Λ f.locals.length passed.length)) :
    f.Built Ω ∧ f.Scoped := by
  refine ⟨⟨checked, fun i v found other => ?_, fun i v found mem => ?_, ?_⟩, fun p mem => ?_, ?_⟩
  · rw [params, mem_range, Nat.not_lt] at other
    refine behind v (mem_of_getElem? (i := i - passed.length) ?_)
    rwa [List.getElem?_drop, Nat.add_sub_cancel' other]
  · rw [params, mem_range] at mem
    obtain ⟨rest, same⟩ := front
    rw [← same, List.getElem?_append_left mem] at found
    exact decayed v (mem_of_getElem? found)
  · exact fun s mem e inside => ((fits s mem).exprs e inside).raw
  · rw [params, mem_range] at mem
    exact Nat.lt_of_lt_of_le mem front.length_le
  · exact Stmt.optionalScoped_iff.mpr fun s mem => (fits s mem).bound ⟨trivial, rfl⟩

theorem function_builds (spec : DeclSpec) (ret : CType) (name : Located String) :
    Builds (.outside Ω Λ) P (function below spec ret name) fun _ => True := by
  refine ⟨function_moves h spec ret name, nofun, fun {s t a} run inside => ?_,
    fun {s t a} run inside _ built => ⟨fun _ => ?_, trivial⟩⟩
  all_goals
    obtain ⟨params, isVariadic, body, t₁, t₂, t₃, opened, read, bodied, rfl⟩ := function_eq_ok run
    -- the number of all locals is known at the end, that of the parameters behind them
    have opens := expect_builds (κ := .parameters Ω Λ t₃.locals.length) (P := True) .openParen
    have reads := parameters_builds (κ := .parameters Ω Λ t₃.locals.length) (P := True) h rfl nofun
    have ends := functionBody_builds (κ := .body Ω Λ t₃.locals.length t₂.locals.length) (P := True) h
      ⟨rfl, nofun⟩ name
    have fourth : t₃.Within (.body Ω Λ t₃.locals.length t₂.locals.length) :=
      { inside with locals := fun n mem => (Option.some.inj mem).le }
    have third : t₂.Within (.parameters Ω Λ t₃.locals.length) := { ends.within bodied fourth with }
    have second := reads.within read third
    have first := opens.within opened second
  · exact { first with locals := nofun }
  have start := built trivial
  have passed := (reads.built read third trivial
    (opens.built opened second trivial fun _ => start.enterFunction _).1).1 trivial
  obtain ⟨done, fits⟩ := ends.built bodied fourth trivial fun _ => passed.enterBody
  have none : t₁.locals = [] := ((expect_builds .openParen).phrase opened).same
  have kept := ends.keeps bodied _ rfl
  have outer := kept.outer.trans ((reads.keeps read _ rfl).outer.trans (opens.keeps opened _ rfl).outer)
  obtain ⟨new, bound⟩ := built_of_parts (f := ⟨name.value, ret, params, t₃.locals, body, 0, spec.isStatic,
    isVariadic, name.loc⟩) (parameters_range h none read) kept.locals passed.new (done trivial).locals
    (done trivial).new fits
  exact (done trivial).leaveFunction start outer new bound fun body mem e inside =>
    ((fits body mem).exprs e inside).known trivial

/-- A function is added, and if it has a body no earlier one of its name does. -/
theorem function_added {spec : DeclSpec} {ret : CType} {name : Located String} {u : Unit}
    (run : function below spec ret name s = .ok u t) :
    t.globals = s.globals ∧ ∃ f, t.functions = s.functions ++ [f] ∧ f.name = name.value ∧
      (f.body.isSome →
        s.functions.any (fun other => other.name == name.value && other.body.isSome) = false) := by
  obtain ⟨params, isVariadic, body, t₁, t₂, t₃, opened, read, bodied, rfl⟩ := function_eq_ok run
  have first := (expect_builds .openParen).phrase opened
  have second := (parameters_builds (κ := .blind .parameters) (P := True) h rfl nofun).keeps read _ rfl
  have third := (functionBody_builds (κ := .blind .body) (P := True) h ⟨rfl, nofun⟩ name).keeps bodied _ rfl
  have before : t₂.functions = s.functions := second.functions.trans first.functions
  refine ⟨third.globals.trans (second.globals.trans first.globals), ⟨name.value, ret, params, t₃.locals,
    body, 0, spec.isStatic, isVariadic, name.loc⟩, ?_, rfl, fun some => ?_⟩
  · exact congrArg (· ++ _) (third.functions.trans before)
  · obtain ⟨semicolon, t, eaten, run⟩ := bind_ran.mp bodied
    split at run
    · cases run
      cases some
    · obtain ⟨_, _, got, run⟩ := bind_ran.mp run
      cases got
      split at run
      · cases run
      next alone =>
        rw [((eat_builds _).phrase eaten).functions, before] at alone
        exact Bool.eq_false_iff.mpr alone

end Functions

/-! ## Globals -/

def globalDeclared (below : Below) (spec : DeclSpec) (name : Located String) (ty : CType) : Parse Global := do
  let init ← initializer? below ty
  let s ← get
  let ty ← Parse.ofExcept (Init.inferLength s.structs ty init)
  unless spec.isExtern || s.structs.isComplete ty do fail (.incomplete name.value ty) name.loc
  let image ← match init with
    | some init => do pure (some (← Parse.ofExcept (init.image ⟨s.structs, s.globals⟩ ty)))
    | none => pure none
  return {
    name := name.value
    ty
    init := image
    isExtern := spec.isExtern
    isStatic := spec.isStatic
    loc := name.loc }

def addGlobal (global : Global) : Parse Unit := do
  match (← get).defineGlobal global with
  | some s => set s
  | none => fail (.redefinition global.name) global.loc

theorem globalVariable_eq (spec : DeclSpec) (name : Located String) (ty : CType) :
    globalVariable below spec name ty = globalDeclared below spec name ty >>= addGlobal := by
  unfold globalVariable globalDeclared
  simp only [bind_assoc]
  refine bind_congr fun init => bind_congr fun s => bind_congr fun ty => ?_
  split
  · cases init with
    | none => rfl
    | some init => simp only [bind_assoc, pure_bind]; rfl
  · rfl

theorem ofExcept_eq_ok {α : Type} {r : Except (Located SyntaxError) α} {a : α}
    (run : ofExcept r s = .ok a t) : r = .ok a ∧ t = s := by
  cases r <;> cases run
  exact ⟨rfl, rfl⟩

theorem globalDeclared_eq_ok {ty : CType}
    (run : globalDeclared below spec name ty s = .ok global t) :
    global.name = name.value ∧ ∃ init, initializer? below ty s = .ok init t ∧
      Init.inferLength t.structs ty init = .ok global.ty ∧ ∀ image ∈ global.init, ∃ i ∈ init,
        i.image ⟨t.structs, t.globals⟩ global.ty = .ok image := by
  obtain ⟨init, u, read, run⟩ := bind_ran.mp run
  obtain ⟨_, _, got, run⟩ := bind_ran.mp run
  cases got
  obtain ⟨ty', v, made, run⟩ := bind_ran.mp run
  obtain ⟨inferred, rfl⟩ := ofExcept_eq_ok made
  split at run
  · cases init with
    | none =>
      cases run
      exact ⟨rfl, none, read, inferred, nofun⟩
    | some init =>
      obtain ⟨image, w, written, same⟩ := bind_ran.mp run
      obtain ⟨made, rfl⟩ := ofExcept_eq_ok written
      cases same
      refine ⟨rfl, some init, read, inferred, ?_⟩
      rintro _ ⟨⟩
      exact ⟨init, rfl, made⟩
  · obtain ⟨_, _, failed, -⟩ := bind_ran.mp run
    cases failed

theorem addGlobal_eq_ok (run : addGlobal global s = .ok u t) : s.defineGlobal global = some t := by
  obtain ⟨_, _, got, run⟩ := bind_ran.mp run
  cases got
  cases defined : s.defineGlobal global with
  | none =>
    rw [defined] at run
    cases run
  | some t' =>
    rw [defined] at run
    cases run
    rfl

section Globals

variable {κ : Outlook} {Ω : Ending} {Λ : Texts} {P : Prop} {below : Below} (h : below.Builds)
include h

theorem globalDeclared_keeps {spec : DeclSpec} {name : Located String} {ty : CType}
    {s t : ParseState} {global : Global} (run : globalDeclared below spec name ty s = .ok global t) :
    s.Keeps .phrase t := by
  obtain ⟨-, init, read, -⟩ := globalDeclared_eq_ok run
  exact (initializer?_builds h ty).phrase read

theorem globalDeclared_leads (spec : DeclSpec) (name : Located String) (ty : CType) :
    Leads (fun _ => True) (globalDeclared below spec name ty) fun global s =>
      (global.isExtern ∨ s.structs.isComplete global.ty) ∧ ∀ image, global.init = some image →
        ∃ init : Init, init.Suits s.structs global.ty ∧
          init.image ⟨s.structs, s.globals⟩ global.ty = .ok image := by
  have read : Leads (fun _ => True) (initializer? below ty) fun init s =>
      ∀ i ∈ init, i.Suits s.structs ty :=
    Builds.leads (Q := fun σ init => ∀ i ∈ init, i.Suits σ ty) fun κ =>
      (initializer?_builds h ty).mono fun _ known i mem => (known i mem).2
  refine read.bind fun init => Leads.get.bind fun t => ?_
  -- from here on the state does not change
  refine .bind (ofExcept_leads ?_) fun ty' => .check fun known => ?_
  · exact fun _ _ e failed => .of_plain (Init.inferLength_plain _ _ _ e failed)
  have complete : spec.isExtern ∨ t.structs.isComplete ty' := by simpa using known
  cases init with
  | none =>
    refine .pure ?_
    rintro s ⟨-, rfl, -⟩
    exact ⟨complete, nofun⟩
  | some init =>
    have suits : ∀ s, (Init.inferLength t.structs ty (some init) = .ok ty' ∧ t = s ∧
        ∀ i ∈ some init, i.Suits s.structs ty) → init.Suits t.structs ty' := by
      rintro s ⟨inferred, rfl, suits⟩
      exact Init.inferLength_suits (suits init rfl) inferred
    refine .bind (ofExcept_leads ?_) fun image => .pure ?_
    · intro s before e failed blamed same
      cases (Init.image_overrun failed same).1
      refine ⟨init, ?_⟩
      rw [← before.2.1]
      exact ⟨suits s before, failed⟩
    · rintro s ⟨written, before⟩
      obtain ⟨-, rfl, -⟩ := id before
      refine ⟨complete, fun image' same => ?_⟩
      cases same
      exact ⟨init, suits t before, written⟩

omit h in
theorem addGlobal_leads (global : Global) :
    Leads (fun s => (global.isExtern ∨ s.structs.isComplete global.ty) ∧
      ∀ image, global.init = some image → ∃ init : Init, init.Suits s.structs global.ty ∧
        init.image ⟨s.structs, s.globals⟩ global.ty = .ok image)
      (addGlobal global) fun _ _ => True := by
  intro s ⟨complete, image⟩
  rw [addGlobal, get_bind, final, get_bind]
  cases defined : s.defineGlobal global with
  | none => exact Leads.fail (P := fun _ => True) rfl s trivial
  | some t =>
    refine ⟨.single (.define global complete image defined), fun _ _ _ => trivial, fun e u run => ?_⟩
    cases run

theorem globalVariable_moves (spec : DeclSpec) (name : Located String) (ty : CType) :
    Moves (globalVariable below spec name ty) := by
  rw [globalVariable_eq]
  exact Leads.bind (globalDeclared_leads h spec name ty) addGlobal_leads

theorem globalVariable_builds (spec : DeclSpec) (name : Located String) (ty : CType) :
    Builds (.outside Ω Λ) ((Outlook.outside Ω Λ).Checks ty) (globalVariable below spec name ty)
      fun _ => True := by
  refine ⟨globalVariable_moves h spec name ty, nofun, fun {s t a} run inside => ?_,
    fun {s t a} run inside known built => ⟨fun _ => ?_, trivial⟩⟩
  all_goals
    rw [globalVariable_eq] at run
    obtain ⟨global, u, declared, run⟩ := bind_ran.mp run
    obtain ⟨-, init, read, inferred, images⟩ := globalDeclared_eq_ok declared
    have defined := addGlobal_eq_ok run
    have mem : ∀ g ∈ t.globals, g ∈ u.globals ∨ g = global := fun g => ParseState.mem_defineGlobal defined
    obtain ⟨globals, rfl⟩ := ParseState.defineGlobal_eq defined
    have before : u.Within (.outside Ω Λ) := { inside with }
    have reads := initializer?_builds (κ := .outside Ω Λ) (P := True) h ty
  · exact reads.within read before
  · obtain ⟨b, fits⟩ := reads.built read before trivial built
    have b := b trivial
    refine { b with globals := fun g listed => ?_, images := fun g listed image given => ?_ }
    all_goals rcases mem g listed with old | rfl
    · exact b.globals g old
    · exact inferLength_checked (known trivial) before.structs inferred
    · exact b.images g old image given
    · obtain ⟨i, mem, made⟩ := images image given
      exact ⟨i, _, (fits i mem).1, made⟩

theorem globalVariables_builds (spec : DeclSpec) (name : Located String) (ty : CType) :
    Builds (.outside Ω Λ) ((Outlook.outside Ω Λ).Checks spec.ty ∧ (Outlook.outside Ω Λ).Checks ty)
      (globalVariables below spec name ty) fun _ => True := by
  refine loop_builds h (a := (name, ty))
    (fun start => (Outlook.outside Ω Λ).Checks spec.ty ∧ (Outlook.outside Ω Λ).Checks start.2)
    fun (name, ty) => ?_
  refine .bind (.weaken And.right (typeSuffix_builds h ty)) fun ty => ?_
  refine .andThen (.weaken And.right (globalVariable_builds h spec name ty)) fun _ => ?_
  refine .eat ?_ ?_
  · refine .bind (.weaken (fun known => known.1.1) (pointers_builds h spec.ty)) fun ty => ?_
    exact identifier_builds.andThen fun _ => .pure fun known => ⟨known.1.1.1, known.2⟩
  · exact .expect <| .pure fun _ => trivial

/-! ## Programs -/

theorem topLevel_builds : Builds (.outside Ω Λ) P (topLevel below) fun _ => True := by
  refine (declSpec_builds h).bind fun spec => .ite (.weaken And.right (typedefNames_builds h _)) ?_
  refine .eat (.pure fun _ => trivial) ?_
  refine .bind (.weaken And.right (pointers_builds h spec.ty)) fun ty => ?_
  refine identifier_builds.andThen fun name => (isAt_builds _).andThen fun _ => .ite ?_ ?_
  · exact function_builds h spec ty name
  · exact .weaken (fun known => ⟨known.1.2, known.2⟩) (globalVariables_builds h spec name ty)

theorem topLevels_builds : Builds (.outside Ω Λ) P (topLevels below) fun _ => True := by
  refine loop_silent h fun _ => peek?_builds.andThen fun _ => .ite (.pure fun _ => trivial) ?_
  exact (topLevel_builds h).andThen fun _ => .pure fun _ => trivial

theorem topLevels_moves : Moves (topLevels below) :=
  (topLevels_builds (Ω := ⟨{}, []⟩) (Λ := ⟨[], []⟩) (P := True) h).moves

end Globals

end Grammar

namespace Program

def constants (source : Source) (tokens : List Lexed) : List Int64 :=
  match Grammar.topLevels (.upTo tokens.length) { tokens, last := .atStart source } with
  | .ok _ s => s.enums.map (·.2)
  | .error .. => []

/-- A program as parsing leaves it. -/
structure Built (constants : List Int64) (p : Program) : Prop where
  globals : ∀ global ∈ p.globals, p.structs.Checked global.ty
  fields : ∀ entry ∈ p.structs.layouts, ∀ field ∈ entry.2.fields, p.structs.Checked field.ty
  functions : ∀ f ∈ p.functions, f.Built ⟨p.structs, constants⟩

variable {source : Source} {tokens : List Lexed} {p : Program}

theorem parse_eq_ok (h : Program.parse source tokens = .ok p) : ∃ s : ParseState,
    Grammar.topLevels (.upTo tokens.length) { tokens, last := .atStart source } = .ok () s ∧
      p.functions = s.functions ∧ p.globals = s.globals ∧ p.strings = s.strings ∧
      p.structs = s.structs := by
  unfold Program.parse Program.parseWith at h
  simp only at h
  split at h
  · rename_i s run
    cases h
    exact ⟨s, run, rfl, rfl, rfl, rfl⟩
  · cases h

theorem parse_reaches (h : Program.parse source tokens = .ok p) : ∃ s : ParseState,
    Reaches { tokens, last := .atStart source } s ∧ p.functions = s.functions ∧
      p.globals = s.globals ∧ p.strings = s.strings ∧ p.structs = s.structs := by
  obtain ⟨s, run, same⟩ := parse_eq_ok h
  have reaches := (Grammar.topLevels_moves (Grammar.upTo_builds tokens.length)).reaches
    { tokens, last := .atStart source }
  rw [Parse.final_ok run] at reaches
  exact ⟨s, reaches, same⟩

theorem topLevels_built {s : ParseState}
    (run : Grammar.topLevels (.upTo tokens.length) { tokens, last := .atStart source } = .ok () s) :
    s.Built (.outside ⟨s.structs, constants source tokens⟩ ⟨tokens, s.strings⟩) := by
  have known : constants source tokens = s.enums.map (·.2) := by
    unfold constants
    rw [run]
  rw [known]
  have inside : s.Within (.outside ⟨s.structs, s.enums.map (·.2)⟩ ⟨tokens, s.strings⟩) :=
    ⟨.refl _, fun entry mem => mem_map_of_mem mem, nofun, prefix_refl _⟩
  refine ((Grammar.topLevels_builds (Grammar.upTo_builds tokens.length)).built run inside trivial
    fun _ => ?_).1 trivial
  exact ⟨by simp [Scope.blocks], by simp [Scope.blocks], by simp [Scope.blocks], nofun, nofun, nofun,
    fun _ => rfl, nofun, nofun, suffix_refl _, nodup_nil, nofun, nofun⟩

theorem parse_built (h : Program.parse source tokens = .ok p) : p.Built (constants source tokens) := by
  obtain ⟨s, run, functions, globals, -, structs⟩ := parse_eq_ok h
  have built := topLevels_built run
  rw [← structs] at built
  refine ⟨globals ▸ built.globals, ?_, fun f mem => (built.functions f (functions ▸ mem)).1⟩
  rw [structs]
  exact structs ▸ built.fields

theorem parse_scoped (h : Program.parse source tokens = .ok p) : ∀ f ∈ p.functions, f.Scoped := by
  obtain ⟨s, run, functions, -⟩ := parse_eq_ok h
  rw [functions]
  exact fun f mem => ((topLevels_built run).functions f mem).2

end Program

end MiniC
