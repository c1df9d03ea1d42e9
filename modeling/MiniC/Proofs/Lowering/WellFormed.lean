import MiniC.Proofs.Lowering.Liveness
import MiniC.Proofs.Lowering.Preservation

/-!
# Lowered blocks are well formed

The blocks of a function have different names, each of them ends where control leaves it, and
every jump leads to one of them.

Two facts about a construction carry this. The blocks that it has closed end in their only
terminator, and the block that is open has none: every change keeps both. And a construction that
is done owes no block, so a name that was handed out is the name of exactly one block, whoever
opened it: a `switch` names the blocks of its cases, and the statements inside it open them.
-/

namespace MiniC.Ir

namespace Block

def Ended (b : Block) : Prop :=
  ∃ before last, b.instructions = before ++ [last] ∧ last.isTerminator = true ∧
    ∀ i ∈ before, i.isTerminator = false

end Block

namespace Function

def names (f : Function) : List BlockId := f.blocks.map (·.id)

/-- Blocks that control goes through as their text says. -/
structure WellFormed (f : Function) : Prop where
  distinct : f.names.Nodup
  ended : ∀ b ∈ f.blocks, b.Ended
  targets : ∀ i ∈ f.instructions, ∀ id ∈ i.targets, id ∈ f.names

end Function

theorem map_fst_placesFrom (k : Nat) (blocks : List Block) :
    (placesFrom k blocks).map (·.1) = blocks.map (·.id) := by
  induction blocks generalizing k with
  | nil => rfl
  | cons b rest ih => rw [placesFrom, List.map_cons, ih, List.map_cons]

namespace Lowering

namespace Build

/-! ## Where blocks end -/

/-- The closed blocks end in their only terminator, and the open one has none so far. -/
structure Ended (b : Build) : Prop where
  closed : ∀ block ∈ b.closed, block.Ended
  straight : ∀ block ∈ b.current, ∀ i ∈ block.reversed, i.isTerminator = false

theorem Ended.append {b : Build} {block : OpenBlock} (i : Instruction)
    (closed : ∀ block ∈ b.closed, block.Ended)
    (straight : ∀ i ∈ block.reversed, i.isTerminator = false) : (b.append block i).Ended := by
  unfold Build.append
  cases last : i.isTerminator with
  | true =>
    refine ⟨fun done mem => ?_, nofun⟩
    rcases List.mem_cons.mp mem with rfl | mem
    · refine ⟨block.reversed.reverse, i, List.reverse_cons, last, fun j mem => ?_⟩
      exact straight j (List.mem_reverse.mp mem)
    · exact closed done mem
  | false =>
    refine ⟨closed, ?_⟩
    rintro _ ⟨⟩ j mem
    rcases List.mem_cons.mp mem with rfl | mem
    · exact last
    · exact straight j mem

theorem Ended.emit {b : Build} (h : b.Ended) (i : Instruction) : (b.emit i).Ended := by
  unfold Build.emit
  split
  next block isOpen => exact .append i h.closed (h.straight block isOpen)
  next => exact .append i h.closed nofun

theorem Ended.start {b : Build} (h : b.Ended) (id : BlockId) : (b.start id).Ended := by
  have left : ∀ block ∈ (b.start id).closed, block.Ended := by
    rw [start_eq]
    split
    · exact (h.emit _).closed
    · exact h.closed
  refine ⟨left, ?_⟩
  rintro _ ⟨⟩
  exact nofun

theorem Ended.grows {b b' : Build} (h : b.Ended) (grows : b.Grows b') : b'.Ended := by
  induction grows with
  | refl => exact h
  | tail _ change ih =>
    cases change with
    | emit => exact ih.emit _
    | start id => exact ih.start id
    | vreg | block | case => exact ⟨ih.closed, ih.straight⟩

theorem Ended.blocks {b : Build} (h : b.Ended) (closed : b.isOpen = false) :
    ∀ block ∈ b.blocks, block.Ended := by
  rw [isOpen, Option.isSome_eq_false_iff, Option.isNone_iff_eq_none] at closed
  intro block mem
  rw [Build.blocks, closed, Option.map_none, Option.toList_none, List.append_nil,
    List.mem_reverse] at mem
  exact h.closed block mem

/-! ## Names -/

theorem count_names {b : Build} (paid : ∀ id, b.owed id = 0) (id : BlockId) :
    (b.blocks.map (·.id)).count id = if id.index < b.nextBlock then 1 else 0 := by
  have settled := paid id
  rw [owed, places, map_fst_placesFrom] at settled
  split at settled <;> split <;> omega

end Build

theorem Consistent.target_lt {params : List VReg} {b : Build} {held : Nat → List VReg}
    {marks : BlockId → Option (List VReg)} (h : Consistent params b held marks) {i : Instruction}
    (mem : i ∈ b.code) {id : BlockId} (target : id ∈ i.targets) : id.index < b.nextBlock := by
  obtain ⟨k, here⟩ := List.mem_iff_getElem?.mp mem
  cases entry : b.entry id with
  | none =>
    obtain ⟨needs, mark, -⟩ := (h.jumps k i here id target).2 entry
    exact h.named id needs mark
  | some j => exact (h.placed id j entry).1

end Lowering

open Lowering

/-- The blocks of a formed function are well formed. -/
theorem lowerFunction_wellFormed {σ : Structs} {f : MiniC.Function} {code : Stmt} {g : Function}
    (h : f.Formed code) (lowered : lowerFunction σ f code = some g) : g.WellFormed ∧
      ∃ params built, body ⟨σ, f⟩ code {} = some (params, built) ∧ g.blocks = built.blocks ∧
        ∀ id, g.names.count id = if id.index < built.nextBlock then 1 else 0 := by
  obtain ⟨params, built, made, grows, -, -, paid, closed⟩ := body_made ⟨σ, f⟩ h
  rw [lowerFunction, made] at lowered
  cases lowered
  obtain ⟨held, marks, consistent, -⟩ := body_tracked made
  have once := Build.count_names paid
  refine ⟨⟨?_, ?_, ?_⟩, params, built, made, rfl, once⟩
  · refine List.nodup_iff_count_le_one.mpr fun id => ?_
    rw [Function.names, once]
    split <;> omega
  · have ended : ({} : Build).Ended := by constructor <;> simp
    exact (ended.grows grows).blocks closed
  · intro i mem id target
    have named := consistent.target_lt mem target
    refine List.count_pos_iff.mp ?_
    rw [Function.names, once, if_pos named]
    exact Nat.one_pos

end MiniC.Ir

namespace MiniC

/-- **Lowered blocks are well formed.** Lowering succeeds on every program that was parsed and
typed. In each function that it returns the blocks have different names, each ends in its only
terminator, and every jump and branch leads to blocks of the function. The construction of the
function opened each block whose name it handed out, and none of them twice. -/
theorem lower_wellFormed {source : Source} {tokens : List Lexed} {implicitDecls : Bool}
    {p q : Program} (parsed : parse source tokens = .ok p)
    (analyzed : analyze implicitDecls p = .ok q) :
    ∃ gs, lower q = .ok gs ∧ ∀ g ∈ gs, g.WellFormed ∧
      ∃ f ∈ q.functions, ∃ code, f.body = some code ∧
        ∃ params built, Ir.Lowering.body ⟨q.structs, f⟩ code {} = some (params, built) ∧
          g.blocks = built.blocks ∧
          ∀ id, g.names.count id = if id.index < built.nextBlock then 1 else 0 := by
  have formed := analyze_formed parsed analyzed
  obtain ⟨gs, lowered, -⟩ := Ir.mem_lowerFunctions q.structs formed
  have lowered : lower q = .ok gs := by rw [lower, Ir.lower, lowered]
  refine ⟨gs, lowered, fun g mem => ?_⟩
  obtain ⟨f, listed, code, body, made⟩ := exists_of_mem_lower lowered mem
  obtain ⟨wellFormed, opened⟩ := Ir.lowerFunction_wellFormed (formed f listed code body) made
  exact ⟨wellFormed, f, listed, code, body, opened⟩

/-! ## An example -/

/-- `int f(int n) { switch (n) { case 1: break; n = 2; default: return n ? 3 : 4; } return n; }`,
as tokens. -/
def choice : List Lexed :=
  [.keyword .int, .id "f", .punct .openParen, .keyword .int, .id "n", .punct .closeParen,
    .punct .openCurly, .keyword .switch, .punct .openParen, .id "n", .punct .closeParen,
    .punct .openCurly, .keyword .case, .int 1, .punct .colon, .keyword .breakWord,
    .punct .semicolon, .id "n", .punct .assign, .int 2, .punct .semicolon, .keyword .default,
    .punct .colon, .keyword .returnWord, .id "n", .punct .question, .int 3, .punct .colon, .int 4,
    .punct .semicolon, .punct .closeCurly, .keyword .returnWord, .id "n", .punct .semicolon,
    .punct .closeCurly].map
    fun kind => ⟨⟨kind, false⟩, .atStart ⟨"f.c", ""⟩⟩

def blockNames? (tokens : List Lexed) : Option (List (List Nat)) := do
  let p ← (parse ⟨"f.c", ""⟩ tokens).toOption
  let q ← (analyze true p).toOption
  let gs ← (lower q).toOption
  return gs.map fun g => g.names.map (·.index)

theorem blockNames?_choice : blockNames? choice = some [[0, 3, 2, 5, 4, 6, 7, 8, 1]] := by
  decide +kernel

theorem lower_wellFormed_choice : ∃ p q gs, parse ⟨"f.c", ""⟩ choice = .ok p ∧
    analyze true p = .ok q ∧ lower q = .ok gs ∧
    gs.map (·.names.map (·.index)) = [[0, 3, 2, 5, 4, 6, 7, 8, 1]] ∧ ∀ g ∈ gs, g.WellFormed := by
  have named := blockNames?_choice
  simp only [blockNames?, do_eq_some, Option.pure_def,
    Option.some.injEq] at named
  obtain ⟨p, parsed, q, analyzed, gs, lowered, names⟩ := named
  obtain ⟨gs', lowered', wellFormed⟩ :=
    lower_wellFormed (eq_ok_of_toOption parsed) (eq_ok_of_toOption analyzed)
  rw [lowered'] at lowered
  cases lowered
  exact ⟨p, q, gs, eq_ok_of_toOption parsed, eq_ok_of_toOption analyzed, lowered', names,
    fun g mem => (wellFormed g mem).1⟩

end MiniC
