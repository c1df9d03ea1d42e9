import MiniC.Proofs.Emission
import MiniC.Proofs.Stack.Balance
import MiniC.Proofs.Typing.Idempotent

/-!
# Discipline of the machine stack

The code of a function as a whole. The prologue lays out a frame, the code after it is followed
with the words above the frame, and every path through the function keeps to what was found
(`Disciplined`). So the number of words above the frame depends on the line alone and is what
emission counts; it is zero between statements and wherever `break`, `continue` and `return` lead;
and a call finds the stack aligned and its arguments in their registers.
-/

namespace MiniC

open List

/-! ## Frames -/

theorem analyze_aligned {implicitDecls : Bool} {p q : Program}
    (analyzed : analyze implicitDecls p = .ok q) :
    ∀ f ∈ q.functions, f.stackSize.toNat % 16 = 0 := by
  intro f listed
  obtain ⟨_, -, _, typed⟩ := exists_of_forall₂ (Typing.program_eq (analyze_eq_ok.mp analyzed)).2 listed
  obtain ⟨_, last, _, -, -, -, -, rfl⟩ := Typing.function_eq_ok.mp typed
  change (alignTo last 16).toNat % 16 = 0
  rw [alignTo, UInt32.toNat_mul]
  change _ * 16 % 2 ^ 32 % 16 = 0
  omega

namespace Emit.Stack

open Asm

/-- The words of the frame of a function: its locals, and what its caller had in `rbp`. -/
def frameWords (f : Function) : Nat := 1 + f.stackSize.toNat / 8

def opening (f : Function) : Option Code := do
  return functionHead f.name f.isStatic ++ (← prologue f)

namespace Noted

def closing (σ : Structs) (f : Function) (body : Stmt) : Option Noted := do
  let ctx : Context := ⟨σ, f⟩
  let body ← (stmt ctx {} body).run' 0
  return body ++ lines [constant 0] ++ landing ctx .ret ++ lines [.code .leave, .code .ret]

end Noted

def Note.callDepth? : Note → Option Nat
  | .calls depth _ => some depth
  | _ => none

def Note.Counts (level : Nat) : Note → Prop
  | .starts depth _ | .ends depth _ | .argument depth _ => level = depth
  | .calls depth _ => level = depth + 2 + padding (depth + 2)
  | .boundary | .target _ => level = 0

/-- Code whose paths keep to the notes, from line `first` on. The number of words above a frame of
`frame` words is given by `level` for every line. -/
structure Disciplined (frame first : Nat) (a : Noted) (level : Nat → Nat) : Prop where
  /-- The notes count the words above the frame. -/
  counts : ∀ k n, (k, n) ∈ a.notes → first ≤ k ∧ n.Counts (level k)
  /-- All calls are noted. -/
  calls : ∀ k name n, a.code[k]? = some (.code (.call name n)) →
    ∃ depth args, (k, .calls depth args) ∈ a.notes ∧ args.length = n
  /-- However a line is reached, there are as many words above the frame. -/
  levels : ∀ entry p : Point, entry.pc = 0 → entry.stack = [] → Asm.Path a.code entry p →
    first ≤ p.pc → p.stack.length = frame + level p.pc
  /-- Control goes on until the function gives up its frame. -/
  goesOn : ∀ entry p : Point, entry.pc = 0 → entry.stack = [] → Asm.Path a.code entry p →
    a.code[p.pc]? = some (.code .leave) ∨ a.code[p.pc]? = some (.code .ret) ∨
      ∃ q, Asm.Step a.code p q
  /-- The stack is aligned at a call. -/
  aligned : ∀ entry p : Point, entry.pc = 0 → entry.stack = [] → (entry.regs .rsp).toNat % 16 = 8 →
    Asm.Path a.code entry p → ∀ depth args, (p.pc, .calls depth args) ∈ a.notes →
      (p.regs .rsp).toNat % 16 = 0
  /-- A call finds each argument in its register: the word that was pushed last on the line after
  the code of the argument. -/
  passes : ∀ entry p : Point, entry.pc = 0 → entry.stack = [] → Asm.Path a.code entry p →
    ∀ depth args, (p.pc, .calls depth args) ∈ a.notes → ∀ n e, args[n]? = some e →
      ∃ r j, Reg.arguments[n]? = some r ∧ (j, .ends (depth + n) e) ∈ a.notes ∧
        a.code[j]? = some (.code (.push .rax)) ∧ p.regs r = p.latest j

/-! ## Following a function -/

section Follow

variable {head : Code} {a : Noted} {base : Slots} {held : Reg → Option Nat} {τ : Sketch}

def start : Sketch := ⟨[], fun _ => none⟩

def level (first : Nat) (held : Reg → Option Nat) (a : Noted) (k : Nat) : Nat :=
  (Sketch.scan first ⟨[], held⟩ (a.code.take (k - first))).elim 0 (·.stack.length)

variable {k : Nat} {known : List (Nat × Note)} {n : Note}

theorem start_on (before : start.scan 0 head = some ⟨base, held⟩)
    (scan : Sketch.scan head.length ⟨[], held⟩ a.code = some τ) (le : head.length ≤ k) :
    ∃ ρ, Sketch.scan head.length ⟨[], held⟩ (a.code.take (k - head.length)) = some ρ ∧
      start.on (head ++ a.code) k = some (ρ.above base) := by
  rw [← take_append_drop (k - head.length) a.code, Sketch.scan_append] at scan
  obtain ⟨ρ, found, -⟩ := Option.bind_eq_some_iff.mp scan
  refine ⟨ρ, found, ?_⟩
  rw [Sketch.on, take_append, take_of_length_le le, Sketch.scan_append, before]
  rw [Nat.zero_add]
  exact Sketch.scan_above found

theorem level_eq (before : start.scan 0 head = some ⟨base, held⟩)
    (scan : Sketch.scan head.length ⟨[], held⟩ a.code = some τ) (le : head.length ≤ k) :
    ∃ ρ, start.on (head ++ a.code) k = some ρ ∧
      ρ.stack.length = base.length + level head.length held a k := by
  obtain ⟨ρ, found, known⟩ := start_on before scan le
  refine ⟨_, known, ?_⟩
  rw [level, found, Option.elim_some, Sketch.above, length_append, Nat.add_comm]

theorem coherent_of_runs (before : start.scan 0 head = some ⟨base, held⟩) (quiet : head.all isQuiet)
    (runs : Runs known (fun _ => False) head.length ⟨[], held⟩ a [] τ)
    (distinct : Distinct (head ++ a.code)) : Coherent (head ++ a.code) start := by
  have collect := fun labels => Sketch.collect_append labels head a.code before
  have rest : ∀ labels, Sketch.collect labels head.length ⟨base, held⟩ a.code =
      (Sketch.collect labels head.length ⟨[], held⟩ a.code).map fun x => (x.1, x.2 ++ base) :=
    fun _ => Sketch.collect_above runs.scan
  simp only [Nat.zero_add] at collect
  refine .of_collect ⟨nofun, nofun, rfl⟩ (σ := τ.above base) ?_ distinct fun x mem => ?_
  · rw [Sketch.scan_append, before, Nat.zero_add]
    exact Sketch.scan_above runs.scan
  · rw [collect, rest, mem_append] at mem ⊢
    rcases mem with mem | mem
    · have opened : Runs [] (fun _ => False) 0 start (.lines head) [] ⟨base, held⟩ :=
        Runs.lines before quiet
      exact .inl ((opened.jumps x mem).resolve_right id)
    · obtain ⟨y, found, rfl⟩ := mem_map.mp mem
      exact .inr (mem_map.mpr ⟨y, (runs.jumps y found).resolve_right id, rfl⟩)

theorem note_on (before : start.scan 0 head = some ⟨base, held⟩)
    (runs : Runs (a.notesFrom head.length) (fun _ => False) head.length ⟨[], held⟩ a [] τ)
    (mem : (k, n) ∈ a.notesFrom head.length) :
    ∃ ρ, head.length ≤ k ∧ start.on (head ++ a.code) k = some (ρ.above base) ∧
      level head.length held a k = ρ.stack.length ∧
      n.Holds (a.notesFrom head.length) (head ++ a.code)[k]? ρ := by
  obtain ⟨⟨j, n⟩, mem, same⟩ := mem_map.mp mem
  cases same
  have le : head.length ≤ head.length + j := Nat.le_add_right ..
  obtain ⟨-, ρ, found, holds⟩ := runs.notes j n mem
  obtain ⟨ρ', found', known⟩ := start_on before runs.scan le
  rw [Nat.add_sub_cancel_left] at found'
  cases found.symm.trans found'
  refine ⟨ρ, le, known, ?_, ?_⟩
  · rw [level, Nat.add_sub_cancel_left, found, Option.elim_some]
  · rwa [List.getElem?_append_right le, Nat.add_sub_cancel_left]

theorem Note.Holds.counts {line : Option Line} {ρ : Sketch}
    (h : n.Holds known line ρ) : n.Counts ρ.stack.length := by
  cases n with
  | starts | ends | boundary | target => exact h
  | argument => exact h.2
  | calls => exact h.2.1

/-- Code that can be followed from its opening to its end is disciplined. -/
theorem disciplined_of_runs (before : start.scan 0 head = some ⟨base, held⟩)
    (quiet : head.all isQuiet)
    (runs : Runs (a.notesFrom head.length) (fun _ => False) head.length ⟨[], held⟩ a [] τ)
    (distinct : Distinct (head ++ a.code)) (last : a.code.getLast? = some (.code .ret))
    (odd : base.length % 2 = 1) :
    Disciplined base.length head.length (.lines head ++ a) (level head.length held a) := by
  have coherent := coherent_of_runs before quiet runs distinct
  have empty : ∀ {p : Point}, p.stack = [] → start.Fits p := by
    intro p empty
    refine ⟨?_, nofun⟩
    rw [empty]
    exact .nil
  -- the stack at a point is the one of the sketch on its line
  have reached : ∀ {entry p : Point}, entry.pc = 0 → entry.stack = [] →
      Asm.Path (head ++ a.code) entry p → head.length ≤ p.pc →
      p.stack.length = base.length + level head.length held a p.pc := by
    intro entry p first none path le
    obtain ⟨ρ, known, fits⟩ := coherent.fits path first (empty none)
    obtain ⟨ρ', known', length⟩ := level_eq before runs.scan le
    cases known.symm.trans known'
    rw [← length, fits.length, Sketch.stack_facing]
  refine ⟨fun k n mem => ?_, fun k name n here => ?_, fun _ _ => reached, ?_, ?_, ?_⟩
  · obtain ⟨ρ, le, -, counted, holds⟩ := note_on before runs mem
    rw [counted]
    exact ⟨le, holds.counts⟩
  · rw [Noted.code_append, Noted.code_lines] at here
    rcases Nat.lt_or_ge k head.length with lt | le
    · rw [List.getElem?_append_left lt] at here
      cases all_eq_true.mp quiet _ (mem_of_getElem? here)
    · rw [List.getElem?_append_right le] at here
      obtain ⟨depth, args, mem, count⟩ := runs.calls _ name n here
      refine ⟨depth, args, mem_map.mpr ⟨_, mem, ?_⟩, count⟩
      simp only [Noted.code_lines, Nat.add_sub_cancel' le]
  · intro entry p first none path
    have ends : (head ++ a.code).getLast? = some (.code .ret) := by
      rw [List.getLast?_append, last]
      rfl
    have lt := path.lt_length ends (by rw [first]; exact length_pos_of_mem (mem_of_getLast? ends))
    have here : (head ++ a.code)[p.pc]? = some (head ++ a.code)[p.pc] := List.getElem?_eq_getElem lt
    change (head ++ a.code)[p.pc]? = _ ∨ (head ++ a.code)[p.pc]? = _ ∨ _
    rcases coherent.exists_step path first (empty none) here with same | same | next
    · exact .inl (here.trans (congrArg some same))
    · exact .inr (.inl (here.trans (congrArg some same)))
    · exact .inr (.inr next)
  · intro entry p first none top path depth args mem
    obtain ⟨ρ, le, -, counted, -, length, -⟩ := note_on before runs mem
    have words := reached first none path le
    have rsp : p.regs .rsp = entry.regs .rsp - .ofNat 64 (8 * p.stack.length) :=
      path.rsp (by simp [none])
    rw [rsp, words, counted, length, padding]
    have parity : (base.length + (depth + 2 + (depth + 2) % 2)) % 2 = 1 := by omega
    generalize base.length + (depth + 2 + (depth + 2) % 2) = n at parity
    generalize entry.regs .rsp = x at top
    bv_omega
  · intro entry p first none path depth args mem n e here
    obtain ⟨ρ, le, known, -, ⟨name, line⟩, -, passed⟩ := note_on before runs mem
    obtain ⟨r, j, reg, holds, pushed, ends⟩ := passed n e here
    obtain ⟨-, -, -, -, push, -⟩ := note_on before runs pushed
    obtain ⟨ρ', known', fits⟩ := coherent.fits path first (empty none)
    cases known.symm.trans known'
    rw [line] at fits
    exact ⟨r, j, reg, ends, push, fits.held r j holds⟩

end Follow

/-! ## Functions -/

theorem scan_reserve {n : Nat} (small : n < 2 ^ 32) (words : n % 8 = 0) (k : Nat) (σ : Sketch) :
    σ.scan k [.code (.alu .sub .qword .rsp (.imm (.ofNat n)))] =
      some { σ with stack := List.replicate (n / 8) none ++ σ.stack } := by
  have bytes : (Int64.ofNat n).toInt = n := Int64.toInt_ofNat_of_lt (by omega)
  have counted : Sketch.words? (.ofNat n) = some (n / 8) := by
    rw [Sketch.words?, bytes, if_pos (by omega)]
    rfl
  simp [Sketch.scan, Sketch.after, Sketch.afterCode, Sketch.afterMove, counted]

variable {f : Function} {body : Stmt}

theorem scan_opening {head : Code} (made : opening f = some head)
    (aligned : f.stackSize.toNat % 16 = 0) : head.all isQuiet ∧
      ∃ base held, start.scan 0 head = some ⟨base, held⟩ ∧ base.length = frameWords f := by
  obtain ⟨code, laid, same⟩ := Option.bind_eq_some_iff.mp made
  cases same
  obtain ⟨spills, frame, stored, reserve, rfl⟩ := prologue_eq_some laid
  have named : (functionHead f.name f.isStatic).all isQuiet ∧
      start.scan 0 (functionHead f.name f.isStatic) = some start := by
    unfold functionHead visibility
    split <;> exact ⟨rfl, rfl⟩
  have reserved : frame.all isQuiet ∧ ∀ k (σ : Sketch), σ.scan k frame =
      some { σ with stack := List.replicate (f.stackSize.toNat / 8) none ++ σ.stack } := by
    rw [reserve]
    split
    · exact ⟨rfl, scan_reserve f.stackSize.toNat_lt (by omega)⟩
    next none =>
      have zero : f.stackSize = 0 := by simpa using none
      rw [zero]
      exact ⟨rfl, fun _ _ => rfl⟩
  have spilled : spills.all isPlain ∧ spills.all isQuiet := by
    constructor
    all_goals
      refine all_eq_true.mpr fun line mem => ?_
      obtain ⟨_, _, _, rfl⟩ := exists_of_mem_spills stored mem
      rfl
  refine ⟨?_, ?_⟩
  · simp only [all_append, named.1, reserved.1, spilled.2]
    rfl
  · have framed : ∀ {k s}, Through (fun _ => False) k s (.lines frame) []
        (List.replicate (f.stackSize.toNat / 8) none ++ s) :=
      fun {k s} _ _ held => ⟨held, .lines (reserved.2 k ⟨s, held⟩) reserved.1⟩
    have saved : Through (fun _ => False) (functionHead f.name f.isStatic).length []
        (.lines [.code (.push .rbp), .code (.mov .qword .rbp (.reg .rsp))]) [] [_] :=
      .cons (.push .rbp) (.plain rfl)
    have through := (saved.appendLines framed).appendLines (.plain spilled.1)
    obtain ⟨held, runs⟩ := through [] nofun fun _ => none
    have entered : ∀ code, start.scan 0 (functionHead f.name f.isStatic ++ code) =
        start.scan (functionHead f.name f.isStatic).length code := by
      intro code
      rw [Sketch.scan_append, named.2, Option.bind_some, Nat.zero_add]
    refine ⟨_, held, (entered _).trans runs.scan, ?_⟩
    simp [frameWords, Nat.add_comm]

/-- The code of a function can be followed to its end. -/
theorem function_runs (σ : Structs) (h : f.Formed body)
    (aligned : f.stackSize.toNat % 16 = 0) : ∃ head a base held τ,
      opening f = some head ∧ Noted.closing σ f body = some a ∧
      function σ f body = some (head ++ a.code) ∧ Distinct (head ++ a.code) ∧
      a.code.getLast? = some (.code .ret) ∧ head.all isQuiet ∧
      start.scan 0 head = some ⟨base, held⟩ ∧ base.length = frameWords f ∧
      Runs (a.notesFrom head.length) (fun _ => False) head.length ⟨[], held⟩ a [] τ := by
  obtain ⟨code, made⟩ := function_total σ h
  have distinct := function_distinct made h.numbers
  obtain ⟨laid, lines, last, first, ran, rfl⟩ := function_eq_some made
  obtain ⟨b, noted, rfl⟩ := Noted.exists_of_stmt ran
  let head := functionHead f.name f.isStatic ++ laid
  let ctx : Context := ⟨σ, f⟩
  let a := b ++ .lines [constant 0] ++ .landing ctx .ret ++ .lines [.code .leave, .code .ret]
  have opened : opening f = some head := by
    rw [opening, first]
    rfl
  have closed : Noted.closing σ f body = some a := by
    rw [Noted.closing, StateT.run', noted]
    rfl
  have text : functionHead f.name f.isStatic ++ laid ++ b.code ++
      [constant 0, Context.mark ⟨σ, f⟩ .ret, .code .leave, .code .ret] = head ++ a.code := by
    simp [head, a, ctx, Noted.landing]
  rw [text] at made distinct
  obtain ⟨quiet, base, held, scan, length⟩ := scan_opening opened aligned
  have through : Through (fun _ => False) head.length [] a [] [] := by
    refine .close [(ctx.label .ret, [])]
      ((((stmt_through body h.formed noted ?_).append (.plain rfl)).append .landing).append
        (.cons (.line (fun held => ⟨held, rfl⟩) (fun _ mem => absurd mem not_mem_nil) ?_)
          (.plain rfl))) ?_ (nil_subset _)
    · intro spot mem
      cases mem_singleton.mp mem
      exact .inl (mem_singleton_self _)
    · intro name n same
      cases same
    · simp
  obtain ⟨held', runs⟩ := through (a.notesFrom head.length) (List.Subset.refl _) held
  have ends : a.code.getLast? = some (.code .ret) := by simp [a, Noted.landing]
  exact ⟨head, a, base, held, _, opened, closed, made, distinct, ends, quiet, scan, length, runs⟩

theorem function_coherent {σ : Structs} {code : Code} (h : f.Formed body)
    (aligned : f.stackSize.toNat % 16 = 0) (made : function σ f body = some code) :
    Coherent code start := by
  obtain ⟨head, a, base, held, τ, -, -, made', distinct, -, quiet, scan, -, runs⟩ :=
    function_runs σ h aligned
  cases made.symm.trans made'
  exact coherent_of_runs scan quiet runs distinct

theorem function_disciplined (σ : Structs) (h : f.Formed body)
    (aligned : f.stackSize.toNat % 16 = 0) : ∃ head a level,
      opening f = some head ∧ Noted.closing σ f body = some a ∧
      function σ f body = some (head ++ a.code) ∧
      Disciplined (frameWords f) head.length (.lines head ++ a) level := by
  obtain ⟨head, a, base, held, τ, opened, closed, made, distinct, ends, quiet, scan, length, runs⟩ :=
    function_runs σ h aligned
  have odd : base.length % 2 = 1 := by
    rw [length, frameWords]
    omega
  exact ⟨head, a, _, opened, closed, made,
    length ▸ disciplined_of_runs scan quiet runs distinct ends odd⟩

end Emit.Stack

/-- **Stack discipline.** Every function of a program that was parsed and typed has code on the
machine stack, and that code is disciplined: on every path the number of words above the frame is
the one that emission counts on that line, which is zero between statements, where `break` and
`continue` lead and where the function returns; and at a call the stack is aligned to 16 bytes and
each argument is in its register. -/
theorem emitted_disciplined {source : Source} {tokens : List Lexed} {implicitDecls : Bool}
    {p q : Program} {f : Function} {body : Stmt} (parsed : parse source tokens = .ok p)
    (analyzed : analyze implicitDecls p = .ok q) (listed : f ∈ q.functions)
    (defined : f.body = some body) : ∃ head a level,
      Emit.Stack.opening f = some head ∧ Emit.Stack.Noted.closing q.structs f body = some a ∧
      Emit.Stack.function q.structs f body = some (head ++ a.code) ∧
      Emit.Stack.Disciplined (Emit.Stack.frameWords f) head.length (.lines head ++ a) level :=
  Emit.Stack.function_disciplined q.structs (analyze_formed parsed analyzed f listed body defined)
    (analyze_aligned analyzed f listed)

/-! ## An example -/

/-- `int g(int a, int b); int f(int n) { while (n) n = g(n, 1 + g(n, 2)); return n; }`, as
tokens. -/
def nested : List Lexed :=
  [.keyword .int, .id "g", .punct .openParen, .keyword .int, .id "a", .punct .comma, .keyword .int,
    .id "b", .punct .closeParen, .punct .semicolon, .keyword .int, .id "f", .punct .openParen,
    .keyword .int, .id "n", .punct .closeParen, .punct .openCurly, .keyword .whileWord,
    .punct .openParen, .id "n", .punct .closeParen, .id "n", .punct .assign, .id "g",
    .punct .openParen, .id "n", .punct .comma, .int 1, .punct .plus, .id "g", .punct .openParen,
    .id "n", .punct .comma, .int 2, .punct .closeParen, .punct .closeParen, .punct .semicolon,
    .keyword .returnWord, .id "n", .punct .semicolon, .punct .closeCurly].map
    fun kind => ⟨⟨kind, false⟩, .atStart ⟨"f.c", ""⟩⟩

def callDepths? (tokens : List Lexed) : Option (List Nat) := do
  let p ← (parse ⟨"f.c", ""⟩ tokens).toOption
  let q ← (analyze true p).toOption
  let f ← q.functions.getLast?
  let body ← f.body
  let a ← Emit.Stack.Noted.closing q.structs f body
  return a.notes.filterMap fun x => x.2.callDepth?

theorem callDepths?_nested : callDepths? nested = some [3, 1] := by decide +kernel

theorem emitted_disciplined_nested : ∃ p q f body head a level,
    parse ⟨"f.c", ""⟩ nested = .ok p ∧ analyze true p = .ok q ∧ f ∈ q.functions ∧
    f.body = some body ∧ Emit.Stack.function q.structs f body = some (head ++ a.code) ∧
    (a.notes.filterMap fun x => x.2.callDepth?) = [3, 1] ∧
    Emit.Stack.Disciplined (Emit.Stack.frameWords f) head.length (.lines head ++ a) level := by
  have depths := callDepths?_nested
  simp only [callDepths?, do_eq_some, Option.pure_def,
    Option.some.injEq] at depths
  obtain ⟨p, parsed, q, analyzed, f, last, body, defined, a, closed, depths⟩ := depths
  have listed := mem_of_getLast? last
  obtain ⟨head, a', level, -, closed', made, disciplined⟩ := emitted_disciplined
    (eq_ok_of_toOption parsed) (eq_ok_of_toOption analyzed) listed defined
  cases closed.symm.trans closed'
  exact ⟨p, q, f, body, head, a, level, eq_ok_of_toOption parsed, eq_ok_of_toOption analyzed, listed,
    defined, made, depths, disciplined⟩

end MiniC
