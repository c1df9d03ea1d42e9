import MiniC.Compiler
import MiniC.Proofs.Grammar.Functions
import MiniC.Proofs.Lowering.Meaning
import MiniC.Proofs.Typing.Typed

/-!
# Lowering preserves meaning

The blocks of every function of a typed program do what its body does: the same calls in the
same order, with the same memory at each of them, and the same value in the end.
-/

namespace MiniC.Ir

open Lowering

theorem machine_decides (host : Host) (base : Word) (f : Function) :
    (machine host base f).Decides (Returns f) where
  halted _ _ := Returns.halted
  stopped _ _ := Stops.halted
  answer := by
    rintro _ _ d ⟨src, here, rfl⟩ ⟨src', here', rfl⟩
    cases here.symm.trans here'
    rfl
  reason := by
    rintro r s d ⟨i, here, w, stopped⟩ ⟨i', here', w', stopped'⟩
    cases here.symm.trans here'
    cases stopped.symm.trans stopped'
    rfl
  either := by
    rintro _ s d ⟨src, here, rfl⟩ ⟨i, here', w, stopped⟩
    cases here.symm.trans here'
    cases stopped
  world _ _ _ := fun h h' => h.symm.trans h'

theorem lowerFunction_implements (σ : Structs) {f : MiniC.Function} {code : Stmt}
    (h : f.Formed code) : ∃ g, lowerFunction σ f code = some g ∧
      g.params.length = f.params.length ∧ g.params.Nodup ∧
      ∀ host base regs w, (machine host base g).Implements ⟨0, regs, w⟩ w
        (f.eval host σ base code (g.params.map regs)) (Returns g) := by
  obtain ⟨params, built, made, -, length, distinct, paid, -⟩ := body_made ⟨σ, f⟩ h
  refine ⟨_, by rw [lowerFunction, made]; rfl, length, distinct, ?_⟩
  intro host base regs w
  refine (machine_decides host base _).implements fun n => ?_
  exact body_follows ⟨σ, f⟩ n h made (within_of_owed rfl paid)

/-- Every formed function has its blocks in the lowered program. -/
theorem mem_lowerFunctions (σ : Structs) {fs : List MiniC.Function}
    (formed : ∀ f ∈ fs, ∀ code, f.body = some code → f.Formed code) :
    ∃ gs, lowerFunctions σ fs = some gs ∧ ∀ f ∈ fs, ∀ code, f.body = some code →
      ∀ g, lowerFunction σ f code = some g → g ∈ gs := by
  induction fs with
  | nil => exact ⟨[], rfl, nofun⟩
  | cons f rest ih =>
    obtain ⟨gs, lowered, mem⟩ := ih fun g hg => formed g (List.mem_cons_of_mem _ hg)
    cases body : f.body with
    | none =>
      refine ⟨gs, ?_, ?_⟩
      · simp only [lowerFunctions, body]
        exact lowered
      · intro f' hf' code some
        rcases List.mem_cons.mp hf' with rfl | hf'
        · cases body.symm.trans some
        · exact mem f' hf' code some
    | some code =>
      obtain ⟨g, made, -⟩ := lowerFunction_implements σ (formed f List.mem_cons_self code body)
      refine ⟨g :: gs, ?_, ?_⟩
      · simp only [lowerFunctions, body, made, lowered]
        rfl
      · intro f' hf' code' some g' made'
        rcases List.mem_cons.mp hf' with rfl | hf'
        · cases body.symm.trans some
          cases made.symm.trans made'
          exact List.mem_cons_self
        · exact List.mem_cons_of_mem _ (mem f' hf' code' some g' made')

theorem exists_of_mem_lowerFunctions {σ : Structs} {g : Function} {fs : List MiniC.Function} :
    ∀ {gs : List Function}, lowerFunctions σ fs = some gs → g ∈ gs →
      ∃ f ∈ fs, ∃ code, f.body = some code ∧ lowerFunction σ f code = some g := by
  induction fs with
  | nil =>
    intro gs lowered mem
    cases lowered
    cases mem
  | cons f rest ih =>
    intro gs lowered mem
    have later : ∀ {gs : List Function}, lowerFunctions σ rest = some gs → g ∈ gs →
        ∃ f' ∈ f :: rest, ∃ code, f'.body = some code ∧ lowerFunction σ f' code = some g := by
      intro gs lowered mem
      obtain ⟨f', listed, found⟩ := ih lowered mem
      exact ⟨f', List.mem_cons_of_mem _ listed, found⟩
    cases body : f.body with
    | none =>
      simp only [lowerFunctions, body] at lowered
      exact later lowered mem
    | some code =>
      simp only [lowerFunctions, body, do_eq_some] at lowered
      obtain ⟨g', first, gs', lowered, same⟩ := lowered
      cases same
      rcases List.mem_cons.mp mem with rfl | mem
      · exact ⟨f, List.mem_cons_self, code, body, first⟩
      · exact later lowered mem

end MiniC.Ir

namespace MiniC

variable {source : Source} {tokens : List Lexed} {implicitDecls : Bool} {p q : Program}

theorem parse_eq_ok :
    parse source tokens = .ok p ↔ Program.parse source tokens = .ok p :=
  mapError_eq_ok

theorem analyze_formed (parsed : parse source tokens = .ok p)
    (analyzed : analyze implicitDecls p = .ok q) :
    ∀ f ∈ q.functions, ∀ code, f.body = some code → f.Formed code :=
  Typing.program_formed (Program.parse_scoped (parse_eq_ok.mp parsed)) (analyze_eq_ok.mp analyzed)

theorem exists_of_mem_lower {gs : List Ir.Function} {g : Ir.Function} (lowered : lower q = .ok gs)
    (mem : g ∈ gs) : ∃ f ∈ q.functions, ∃ code, f.body = some code ∧
      Ir.lowerFunction q.structs f code = some g := by
  unfold lower Ir.lower at lowered
  split at lowered
  next functions made =>
    cases lowered
    exact Ir.exists_of_mem_lowerFunctions made mem
  next => cases lowered

/-- **Lowering preserves meaning.** Every function of a program that was parsed and typed has
blocks, and from any registers in which the arguments have arrived, in any memory and for any
calls, these carry out the body of the function. -/
theorem lower_preserves (parsed : parse source tokens = .ok p)
    (analyzed : analyze implicitDecls p = .ok q) :
    ∃ gs, lower q = .ok gs ∧ ∀ f ∈ q.functions, ∀ code, f.body = some code →
      ∃ g ∈ gs, Ir.lowerFunction q.structs f code = some g ∧
        g.params.length = f.params.length ∧ g.params.Nodup ∧
        ∀ (host : Host) (base : Word) (regs : Ir.VReg → Word) (w : World),
          (Ir.machine host base g).Implements ⟨0, regs, w⟩ w
            (f.eval host q.structs base code (g.params.map regs)) (Ir.Returns g) := by
  have formed := analyze_formed parsed analyzed
  obtain ⟨gs, lowered, mem⟩ := Ir.mem_lowerFunctions q.structs formed
  refine ⟨gs, ?_, fun f hf code body => ?_⟩
  · rw [lower, Ir.lower, lowered]
  · obtain ⟨g, made, implements⟩ := Ir.lowerFunction_implements q.structs (formed f hf code body)
    exact ⟨g, mem f hf code body g made, made, implements⟩

/-! ## An example -/

def countdown : List Lexed :=
  [.keyword .int, .id "f", .punct .openParen, .keyword .int, .id "n", .punct .closeParen,
    .punct .openCurly, .keyword .whileWord, .punct .openParen, .id "n", .punct .andAnd,
    .id "g", .punct .openParen, .id "n", .punct .closeParen, .punct .closeParen, .id "n",
    .punct .assign, .id "n", .punct .minus, .int 1, .punct .semicolon, .keyword .returnWord,
    .id "n", .punct .semicolon, .punct .closeCurly].map
    fun kind => ⟨⟨kind, false⟩, .atStart ⟨"f.c", ""⟩⟩

def countdown? : Option (Program × Program × Function × Stmt) :=
  match parse ⟨"f.c", ""⟩ countdown with
  | .error _ => none
  | .ok p =>
    match analyze true p with
    | .error _ => none
    | .ok q => do
      let f ← q.functions.head?
      return (p, q, f, ← f.body)

theorem countdown?_isSome : countdown?.isSome := by decide +kernel

theorem countdown?_eq_some {f : Function} {code : Stmt} (h : countdown? = some (p, q, f, code)) :
    parse ⟨"f.c", ""⟩ countdown = .ok p ∧ analyze true p = .ok q ∧ f ∈ q.functions ∧
      f.body = some code := by
  unfold countdown? at h
  split at h
  · cases h
  · rename_i p' parsed
    split at h
    · cases h
    · rename_i q' analyzed
      simp only [do_eq_some] at h
      obtain ⟨f', head, code', body, same⟩ := h
      cases same
      exact ⟨parsed, analyzed, List.mem_of_mem_head? head, body⟩

theorem lower_preserves_countdown : ∃ p q f code g,
    parse ⟨"f.c", ""⟩ countdown = .ok p ∧ analyze true p = .ok q ∧ f ∈ q.functions ∧
    f.body = some code ∧ Ir.lowerFunction q.structs f code = some g ∧
    ∀ (host : Host) (base : Word) (regs : Ir.VReg → Word) (w : World),
      (Ir.machine host base g).Implements ⟨0, regs, w⟩ w
        (f.eval host q.structs base code (g.params.map regs)) (Ir.Returns g) := by
  obtain ⟨⟨p, q, f, code⟩, found⟩ := Option.isSome_iff_exists.mp countdown?_isSome
  obtain ⟨parsed, analyzed, mem, body⟩ := countdown?_eq_some found
  obtain ⟨gs, -, preserves⟩ := lower_preserves parsed analyzed
  obtain ⟨g, -, lowered, -, -, implements⟩ := preserves f mem code body
  exact ⟨p, q, f, code, g, parsed, analyzed, mem, body, lowered, implements⟩

end MiniC
