import MiniC.Proofs.Allocated.Registers
import MiniC.Proofs.Emission
import MiniC.Proofs.Labels.Jumps
import MiniC.Proofs.LinearScan

/-!
# Registers and the stack of a function

How far down the stack pointer is on a line follows from the lines before it (`depth`): a function
moves it on its way in, code around calls moves it and moves it back, and control jumps only where
it is as on the way in. So a register that was saved on the way in is popped from where it was
pushed, and the stack is aligned at every call if the frame is.
-/

namespace MiniC.Asm

open List

/-! ## The stack pointer -/

namespace Instruction

def depth : Instruction → Word
  | .push _ => 8
  | .pop _ => -8
  | .alu op _ dst (.imm value) =>
    if dst = .rsp then if op = .sub then value.toBitVec else -value.toBitVec else 0
  | _ => 0

/-- Whether an instruction moves the stack pointer as `depth` says, and does not return. -/
def isSteady : Instruction → Bool
  | .push _ => true
  | .ret => false
  | .pop dst => dst ≠ .rsp
  | .alu op w dst (.imm _) => dst ≠ .rsp || (w = .qword && (op = .sub || op = .add))
  | i => .rsp ∉ i.changes

end Instruction

variable {host : Host} {scratch : State → Reg → Word} {hidden : Word → Prop} {s t : State}

variable {i : Instruction} {d e height : Word} {line : Line} {n k : Nat} {c : Config}
  {rest : List Line}

/-- A steady instruction moves the stack pointer by its depth. -/
theorem operate_rsp (steady : i.isSteady = true)
    (done : operate host scratch s i = .ok t) : t.regs .rsp = s.regs .rsp - i.depth := by
  have kept : .rsp ∉ i.changes → i.depth = 0 → t.regs .rsp = s.regs .rsp - i.depth := by
    intro other zero
    rw [zero, operate_regs done other]
    exact (BitVec.sub_zero _).symm
  cases i with
  | push =>
    cases done
    rfl
  | pop dst =>
    cases done
    have other : dst ≠ .rsp := of_decide_eq_true steady
    rw [State.pop, State.set_regs, Function.update_of_ne other.symm, State.set_regs,
      Function.update_self, Instruction.depth]
    bv_omega
  | alu op w dst src =>
    by_cases here : dst = .rsp
    · cases done
      subst here
      cases src with
      | reg r => simp [Instruction.isSteady, Instruction.changes] at steady
      | imm value =>
        simp [Instruction.isSteady] at steady
        obtain ⟨rfl, rfl | rfl⟩ := steady
        · rfl
        · simp [Instruction.depth, State.forget, AluOp.apply, operand]
    · refine kept (by simpa [Instruction.changes, eq_comm] using here) ?_
      cases src with
      | reg => rfl
      | imm => exact if_neg here
  | ret => cases steady
  | _ => exact kept (of_decide_eq_true steady) rfl

namespace Line

def depth : Line → Word
  | .code i => i.depth
  | _ => 0

/-- How far down the stack pointer has to be on a line: jumps and the labels that they lead to are
on a level, and calls are two words below it. -/
def height? : Line → Option Word
  | .code (.jmp _) | .code (.jcc ..) | .label (.inner ..) => some 0
  | .code (.call ..) => some 16
  | _ => none

end Line

def depth (code : List Line) : Word := (code.map Line.depth).sum

@[simp] theorem depth_append (first rest : List Line) : depth (first ++ rest) = depth first + depth rest := by
  rw [depth, map_append, sum_append]
  rfl

@[simp] theorem depth_cons (line : Line) (rest : List Line) :
    depth (line :: rest) = line.depth + depth rest := by
  rw [depth, map_cons, sum_cons]
  rfl

/-- Where the stack pointer is after lines, from `d` on, if it is right on each of them. -/
def level (d : Word) : List Line → Option Word
  | [] => some d
  | line :: rest => if line.height?.all (· = d) then level (d + line.depth) rest else none

theorem level_append (first rest : List Line) (d : Word) :
    level d (first ++ rest) = (level d first).bind fun e => level e rest := by
  induction first generalizing d with
  | nil => rfl
  | cons line first ih =>
    rw [cons_append, level, level]
    split
    · exact ih _
    · rfl

theorem level_depth {code : List Line} (h : level d code = some e) :
    e = d + depth code := by
  induction code generalizing d with
  | nil =>
    cases h
    exact (BitVec.add_zero _).symm
  | cons line rest ih =>
    rw [level] at h
    split at h
    · rw [ih h, depth_cons, BitVec.add_assoc]
    · cases h

theorem level_free {code : List Line} (free : ∀ line ∈ code, line.height? = none) (d : Word) :
    level d code = some (d + depth code) := by
  induction code generalizing d with
  | nil => exact congrArg some (BitVec.add_zero d).symm
  | cons line rest ih =>
    obtain ⟨first, later⟩ := forall_mem_cons.mp free
    rw [level, first, Option.all_none, if_pos rfl, ih later, depth_cons, BitVec.add_assoc]

theorem level_flat {code : List Line}
    (flat : ∀ line ∈ code, line.depth = 0 ∧ line.height?.all (· = d) = true) : level d code = some d := by
  induction code with
  | nil => rfl
  | cons line rest ih =>
    obtain ⟨⟨still, right⟩, later⟩ := forall_mem_cons.mp flat
    rw [level, if_pos right, still, show d + 0 = d from BitVec.add_zero d, ih later]

theorem level_height {pre post : List Line} (h : level d (pre ++ line :: post) = some e)
    (fixed : line.height? = some height) :
    height = d + depth pre := by
  rw [level_append] at h
  obtain ⟨here, reached, h⟩ := Option.bind_eq_some_iff.mp h
  rw [level, fixed] at h
  split at h
  · next right => exact (of_decide_eq_true right).trans (level_depth reached)
  · cases h

/-! ## Runs -/

theorem steps_keep {C : Type} {m : Machine C} {I : C → Prop} {start c : C}
    (each : ∀ i c d, m.Steps i start c → I c → m.step c = some d → I d) (run : m.Steps n start c)
    (first : I start) : I c := by
  have from_ : ∀ {n b c}, m.Steps n b c → ∀ i, m.Steps i start b → I b → I c := by
    intro n b c run
    induction run with
    | refl => exact fun _ _ h => h
    | next stepped _ ih => exact fun i before h => ih _ (before.trans (.one stepped)) (each i _ _ before h stepped)
  exact from_ run 0 (.refl start) first

/-- The lines of a function up to the place where it gives up its frame. Jumps find the stack
pointer where the label has it. -/
structure Steady (main : List Line) : Prop where
  lines : ∀ i, Line.code i ∈ main → i.isSteady = true
  jumps : ∀ {k j : Nat} {i : Instruction} {label : Label}, main[k]? = some (.code i) →
    label ∈ i.targets → main[j]? = some (.label label) → depth (main.take j) = depth (main.take k)

theorem depth_take_succ {main : List Line} (here : main[k]? = some line) :
    depth (main.take (k + 1)) = depth (main.take k) + line.depth := by
  rw [take_add_one, here, depth_append, Option.toList_some, depth_cons]
  exact congrArg _ (BitVec.add_zero _)

theorem getElem?_ending {main : List Line}
    (here : (main ++ [.code .leave, .code .ret])[k]? = some line) :
    main[k]? = some line ∨ k = main.length ∧ line = .code .leave ∨
      k = main.length + 1 ∧ line = .code .ret := by
  rcases Nat.lt_or_ge k main.length with lt | le
  · rw [List.getElem?_append_left lt] at here
    exact .inl here
  · obtain ⟨j, rfl⟩ := Nat.exists_eq_add_of_le le
    rw [List.getElem?_append_right le, Nat.add_sub_cancel_left] at here
    cases j with
    | zero =>
      cases here
      exact .inr (.inl ⟨rfl, rfl⟩)
    | succ j =>
      cases j with
      | zero =>
        cases here
        exact .inr (.inr ⟨rfl, rfl⟩)
      | succ => cases here

theorem Steady.continues {main : List Line} (h : Steady main)
    (mem : Line.code i ∈ main) : i ≠ .ret := by
  rintro rfl
  cases h.lines _ mem

theorem exit?_eq_some {label : Label} (done : operate host scratch s i = .ok t)
    (leaves : i.exit? t = some label) : label ∈ i.targets ∧ t = s := by
  cases i with
  | jmp =>
    cases leaves
    cases done
    exact ⟨mem_cons_self, rfl⟩
  | jcc cond target =>
    rw [Instruction.exit?] at leaves
    rw [operate] at done
    split at leaves
    · cases leaves
      split at done
      · cases done
        exact ⟨mem_cons_self, rfl⟩
      · cases done
    · cases leaves
  | _ => cases leaves

theorem Steady.step_cases {main : List Line} (h : Steady main) {d : Config}
    (stepped : (machine host scratch hidden (main ++ [.code .leave, .code .ret])).step c = some d) :
    (∃ i, (main ++ [.code .leave, .code .ret])[c.pc]? = some (.code i) ∧
      operate host scratch c.state i = .ok d.state ∧ d.pc = c.pc + 1) ∨
    (∃ line, main[c.pc]? = some line ∧ (∀ i, line ≠ .code i) ∧ d = ⟨c.pc + 1, c.state⟩) ∨
    ∃ i label, main[c.pc]? = some (.code i) ∧ label ∈ i.targets ∧
      main[d.pc]? = some (.label label) ∧ d.state = c.state := by
  obtain ⟨i, found, done, leads⟩ | ⟨line, found, other, same⟩ := Asm.step_cases stepped
  · rcases getElem?_ending found with here | ⟨last, same⟩ | ⟨-, same⟩
    · rw [target_eq (h.continues (mem_of_getElem? here))] at leads
      cases exits : i.exit? d.state with
      | none =>
        rw [exits] at leads
        exact .inl ⟨i, found, done, (Option.some.inj leads).symm⟩
      | some label =>
        rw [exits] at leads
        obtain ⟨target, same⟩ := exit?_eq_some done exits
        rcases getElem?_ending (getElem?_of_position leads) with there | ⟨-, no⟩ | ⟨-, no⟩
        · exact .inr (.inr ⟨i, label, here, target, there, same⟩)
        · cases no
        · cases no
    · cases same
      exact .inl ⟨.leave, found, done, (Option.some.inj leads).symm⟩
    · cases same
      cases leads
  · rcases getElem?_ending found with here | ⟨-, no⟩ | ⟨-, no⟩
    · exact .inr (.inl ⟨line, here, other, same⟩)
    · exact absurd no (other _)
    · exact absurd no (other _)

/-- Where the stack pointer is depends on the line only. -/
theorem Steady.rsp {main : List Line} (h : Steady main)
    (run : (machine host scratch hidden (main ++ [.code .leave, .code .ret])).Steps n ⟨0, s⟩ c)
    (inside : c.pc ≤ main.length) :
    c.state.regs .rsp = s.regs .rsp - depth (main.take c.pc) := by
  refine steps_keep (I := fun c => c.pc ≤ main.length →
    c.state.regs .rsp = s.regs .rsp - depth (main.take c.pc)) ?_ run
    (fun _ => (BitVec.sub_zero _).symm) inside
  intro _ c d _ ih stepped within
  rcases h.step_cases stepped with ⟨i, found, done, next⟩ | ⟨line, here, other, rfl⟩ |
    ⟨i, label, here, target, there, same⟩
  · rw [List.getElem?_append_left (by omega)] at found
    rw [operate_rsp (h.lines i (mem_of_getElem? found)) done, ih (by omega), next,
      depth_take_succ found]
    exact BitVec.sub_sub ..
  · have still : line.depth = 0 := by
      cases line with
      | code i => exact absurd rfl (other i)
      | label | directive => rfl
    rw [depth_take_succ here, still, ih (List.getElem?_eq_some_iff.mp here).1.le]
    exact congrArg _ (BitVec.add_zero _).symm
  · rw [same, ih (List.getElem?_eq_some_iff.mp here).1.le, h.jumps here target there]

/-- A register is pushed on line `k` with the value that it had at the start, and popped on line `j`
from the same place, which gives it the value that it has at the end. -/
structure Restores (m : Machine Config) (text : List Line) (r : Reg) (k j : Nat) (offset : Word) :
    Prop where
  push : text[k]? = some (.code (.push r))
  pop : text[j]? = some (.code (.pop r))
  pushed : ∀ n s c, m.Steps n ⟨0, s⟩ c → c.pc = k →
    c.state.regs r = s.regs r ∧ c.state.regs .rsp - 8 = s.regs .rsp - offset
  popped : ∀ n s c, m.Steps n ⟨0, s⟩ c → c.pc = j → c.state.regs .rsp = s.regs .rsp - offset
  restored : ∀ n s c, m.Steps n ⟨0, s⟩ c → text[c.pc]? = some (.code .ret) →
    c.state.regs r = c.state.world.memory.load .qword (s.regs .rsp - offset)

/-- A function in the middle of which a register is kept on the stack. -/
structure Wraps (main : List Line) (r : Reg) (pre mid post : List Line) : Prop where
  split : main = pre ++ .code (.push r) :: mid ++ .code (.pop r) :: post
  balanced : depth mid = 0
  early : ∀ i, Line.code i ∈ pre → r ∉ i.changes
  later : ∀ i label, Line.code i ∈ main → label ∈ i.targets → Line.label label ∉ pre
  late : ∀ line ∈ post, ∃ q, q ≠ r ∧ line = .code (.pop q)
  general : r ≠ .rsp ∧ r ≠ .rbp

namespace Wraps

variable {main pre mid post : List Line} {r : Reg} {n : Nat} {c : Config}

theorem regs_early (h : Wraps main r pre mid post) (steady : Steady main)
    (run : (machine host scratch hidden (main ++ [.code .leave, .code .ret])).Steps n ⟨0, s⟩ c)
    (soon : c.pc ≤ pre.length) : c.state.regs r = s.regs r := by
  refine steps_keep (I := fun c => c.pc ≤ pre.length → c.state.regs r = s.regs r) ?_ run
    (fun _ => rfl) soon
  intro _ c d _ ih stepped soon
  rcases steady.step_cases stepped with ⟨i, found, done, next⟩ | ⟨line, here, other, rfl⟩ |
    ⟨i, label, here, target, there, same⟩
  · rw [h.split, append_assoc, append_assoc, List.getElem?_append_left (by omega)] at found
    rw [operate_regs done (h.early i (mem_of_getElem? found)), ih (by omega)]
  · exact ih (Nat.le_of_succ_le soon)
  · exfalso
    rw [h.split, append_assoc] at there
    rcases Nat.lt_or_eq_of_le soon with lt | last
    · rw [List.getElem?_append_left lt] at there
      exact h.later i label (mem_of_getElem? here) target (mem_of_getElem? there)
    · rw [last, List.getElem?_append_right (Nat.le_refl _), Nat.sub_self] at there
      cases there

theorem getElem?_pop (h : Wraps main r pre mid post) :
    main[(pre ++ .code (.push r) :: mid).length]? = some (.code (.pop r)) := by
  rw [h.split, List.getElem?_append_right (Nat.le_refl _), Nat.sub_self]
  rfl

theorem getElem?_late (h : Wraps main r pre mid post) {k : Nat} {line : Line}
    (past : (pre ++ .code (.push r) :: mid).length < k) (here : main[k]? = some line) :
    ∃ q, q ≠ r ∧ line = .code (.pop q) := by
  obtain ⟨j, rfl⟩ := Nat.exists_eq_add_of_lt past
  rw [h.split, List.getElem?_append_right past.le, Nat.add_assoc, Nat.add_sub_cancel_left,
    List.getElem?_cons_succ] at here
  exact h.late line (mem_of_getElem? here)

theorem rsp_pop (h : Wraps main r pre mid post) (steady : Steady main)
    (run : (machine host scratch hidden (main ++ [.code .leave, .code .ret])).Steps n ⟨0, s⟩ c)
    (here : c.pc = (pre ++ .code (.push r) :: mid).length) :
    c.state.regs .rsp = s.regs .rsp - (depth pre + 8) := by
  have inside := (List.getElem?_eq_some_iff.mp (here ▸ h.getElem?_pop)).1.le
  rw [steady.rsp run inside, here, h.split, take_left, depth_append, depth_cons, h.balanced]
  exact congrArg (s.regs .rsp - ·) (congrArg (depth pre + ·) (BitVec.add_zero 8))

/-- Once it is popped, a register is what its slot holds. -/
theorem regs_late (h : Wraps main r pre mid post) (steady : Steady main)
    (run : (machine host scratch hidden (main ++ [.code .leave, .code .ret])).Steps n ⟨0, s⟩ c)
    (past : (pre ++ .code (.push r) :: mid).length < c.pc) :
    c.state.regs r = c.state.world.memory.load .qword (s.regs .rsp - (depth pre + 8)) := by
  refine steps_keep (I := fun c => (pre ++ .code (.push r) :: mid).length < c.pc →
    c.state.regs r = c.state.world.memory.load .qword (s.regs .rsp - (depth pre + 8))) ?_ run
    (fun no => absurd no (Nat.not_lt_zero _)) past
  intro _ c d run ih stepped past
  have popped := h.getElem?_pop
  rcases steady.step_cases stepped with ⟨i, found, done, next⟩ | ⟨line, here, other, rfl⟩ |
    ⟨i, label, -, -, there, -⟩
  · rcases Nat.lt_or_eq_of_le (Nat.le_of_lt_succ (next ▸ past)) with later | here
    · -- what is popped after the register leaves it and the memory alone
      have kept : r ∉ i.changes ∧ d.state.world = c.state.world := by
        rcases getElem?_ending found with here | ⟨-, same⟩ | ⟨-, same⟩
        · obtain ⟨q, other, same⟩ := h.getElem?_late later here
          cases same
          exact ⟨by simp [Instruction.changes, h.general, other.symm], (Except.ok.inj done) ▸ rfl⟩
        · cases same
          exact ⟨by simp [Instruction.changes, h.general], (Except.ok.inj done) ▸ rfl⟩
        · cases same
          exact ⟨not_mem_nil, (Except.ok.inj done) ▸ rfl⟩
      rw [operate_regs done kept.1, kept.2, ih later]
    · rw [← here, List.getElem?_append_left (List.getElem?_eq_some_iff.mp popped).1, popped] at found
      cases found
      rw [← h.rsp_pop steady run here.symm, ← Except.ok.inj done, State.pop, State.set_regs,
        Function.update_self]
      rfl
  · rcases Nat.lt_or_eq_of_le (Nat.le_of_lt_succ past) with later | here'
    · exact ih later
    · rw [← here', popped] at here
      cases here
      exact absurd rfl (other _)
  · obtain ⟨q, -, same⟩ := h.getElem?_late past there
    cases same

theorem restores (h : Wraps main r pre mid post) (steady : Steady main) :
    Restores (machine host scratch hidden (main ++ [.code .leave, .code .ret]))
      (main ++ [.code .leave, .code .ret]) r pre.length (pre ++ .code (.push r) :: mid).length
      (depth pre + 8) := by
  have pushes : main[pre.length]? = some (.code (.push r)) := by
    rw [h.split, append_assoc, List.getElem?_append_right (Nat.le_refl _), Nat.sub_self]
    rfl
  have inside := (List.getElem?_eq_some_iff.mp pushes).1
  have pops := h.getElem?_pop
  refine ⟨?_, ?_, fun n s c run here => ⟨h.regs_early steady run here.le, ?_⟩,
    fun n s c run here => h.rsp_pop steady run here, fun n s c run here => ?_⟩
  · rwa [List.getElem?_append_left inside]
  · rwa [List.getElem?_append_left (List.getElem?_eq_some_iff.mp pops).1]
  · rw [steady.rsp run (here ▸ inside.le), here, h.split, append_assoc, take_left]
    exact BitVec.sub_sub ..
  · refine h.regs_late steady run ?_
    rcases getElem?_ending here with inner | ⟨-, same⟩ | ⟨last, -⟩
    · exact absurd rfl (steady.continues (mem_of_getElem? inner))
    · cases same
    · rw [last]
      exact Nat.lt_succ_of_lt (List.getElem?_eq_some_iff.mp pops).1

end Wraps

/-! ## Lines on a level -/

/-- Code that moves the stack pointer as `depth` says, is even in the end, and jumps to labels that
are on a level. -/
structure Levelled (code : List Line) : Prop where
  lines : ∀ i, Line.code i ∈ code → i.isSteady = true ∧
    ∀ label ∈ i.targets, (Line.label label).height? = some 0
  level : level 0 code = some 0

theorem Levelled.nil : Levelled [] := ⟨fun _ mem => absurd mem not_mem_nil, rfl⟩

theorem Levelled.append {first : List Line} (a : Levelled first)
    (b : Levelled rest) : Levelled (first ++ rest) := by
  refine ⟨fun i mem => (mem_append.mp mem).elim (a.lines i) (b.lines i), ?_⟩
  rw [level_append, a.level]
  exact b.level

theorem depth_take_of_height {front : List Line} (free : ∀ line ∈ front, line.height? = none)
    (even : level 0 rest = some e) (here : (front ++ rest)[k]? = some line)
    (fixed : line.height? = some height) :
    depth ((front ++ rest).take k) = depth front + height ∧ front.length ≤ k := by
  rcases Nat.lt_or_ge k front.length with lt | le
  · rw [List.getElem?_append_left lt] at here
    rw [free line (mem_of_getElem? here)] at fixed
    cases fixed
  · refine ⟨?_, le⟩
    obtain ⟨j, rfl⟩ := Nat.exists_eq_add_of_le le
    rw [List.getElem?_append_right le, Nat.add_sub_cancel_left] at here
    obtain ⟨lt, found⟩ := List.getElem?_eq_some_iff.mp here
    have split : rest = rest.take j ++ line :: rest.drop (j + 1) := by
      rw [← found, getElem_cons_drop, take_append_drop]
    rw [split] at even
    rw [take_length_add_append, depth_append, level_height even fixed]
    exact congrArg _ (BitVec.zero_add _).symm

theorem plain_levelled (plain : i.isPlain = true) (still : .rsp ∉ i.changes) :
    i.isSteady = true ∧ i.depth = 0 ∧ (Line.code i).height?.all (· = 0) = true := by
  cases i with
  | push | pop | call | leave | ret => cases plain
  | alu op w dst src =>
    have other : dst ≠ .rsp := fun same => still (same ▸ mem_cons_self)
    cases src with
    | reg => exact ⟨decide_eq_true still, rfl, rfl⟩
    | imm => exact ⟨by simp [Instruction.isSteady, other], if_neg other, rfl⟩
  | jmp | jcc => exact ⟨rfl, rfl, rfl⟩
  | _ => exact ⟨decide_eq_true still, rfl, rfl⟩

end MiniC.Asm

namespace MiniC.Emit.Allocated

open Asm Ir List

variable {ctx : Context} {code : Code} {i : Ir.Instruction}

variable {v : VReg} {r : Reg} {op : AluOp} {j : Asm.Instruction}

theorem reg_eq_ok (found : ctx.reg v = .ok r) :
    ctx.allocation.register? Reg.bank v = some r := by
  unfold Context.reg at found
  split at found
  · next given =>
    cases found
    exact given
  · cases found

theorem reg_mem_bank (found : ctx.reg v = .ok r) : r ∈ Reg.bank := by
  obtain ⟨slot, -, here⟩ := Option.bind_eq_some_iff.mp (reg_eq_ok found)
  exact mem_of_getElem? here

theorem held_bank {vs : List VReg} (mem : r ∈ ctx.held vs) : ∃ v, ctx.reg v = .ok r := by
  obtain ⟨v, -, found⟩ := mem_filterMap.mp mem
  exact ⟨v, eq_ok_of_toOption found⟩

theorem levelled_call (name : String) (args : List Reg) (width : Width) {dst : Reg} (mem : dst ∈ Reg.bank) :
    Levelled (call name args width dst) := by
  have moves : ∀ line ∈ pass args, (∃ i, line = .code i ∧ i.isSteady = true ∧ i.targets = []) ∧
      line.depth = 0 ∧ line.height?.all (· = 16) = true := by
    intro line mem
    obtain ⟨w, arg, src, rfl, given, -⟩ := mem_pass mem
    refine ⟨⟨_, rfl, decide_eq_true fun same => ?_, rfl⟩, rfl, rfl⟩
    cases mem_singleton.mp same
    exact absurd given (by decide)
  have other : dst ≠ .rsp := by
    rintro rfl
    exact absurd mem (by decide)
  have down : level 0 [.code (.push .r10), .code (.push .r11)] = some 16 := rfl
  rw [call_eq]
  refine ⟨fun i listed => ?_, ?_⟩
  · rcases mem_append.mp listed with listed | listed
    · simp only [mem_cons, Line.code.injEq, not_mem_nil, or_false] at listed
      rcases listed with rfl | rfl <;> exact ⟨rfl, forall_mem_nil _⟩
    · rcases mem_append.mp listed with listed | listed
      · obtain ⟨j, same, steady, straight⟩ := (moves _ listed).1
        cases same
        exact ⟨steady, straight ▸ forall_mem_nil _⟩
      · simp only [result, mem_cons, Line.code.injEq, not_mem_nil, or_false] at listed
        rcases listed with rfl | rfl | rfl | rfl
        · exact ⟨rfl, forall_mem_nil _⟩
        · exact ⟨rfl, forall_mem_nil _⟩
        · exact ⟨rfl, forall_mem_nil _⟩
        · exact ⟨decide_eq_true (by simp [Asm.Instruction.changes, other.symm]), forall_mem_nil _⟩
  · rw [level_append, down, Option.bind_some, level_append, level_flat fun line mem => (moves line mem).2]
    simp [level, Line.height?, Line.depth, Asm.Instruction.depth, result]

/-- The code of an instruction leaves the stack pointer where it found it. -/
theorem Coded.levelled (h : Coded ctx i code) : Levelled code := by
  have inner : ∀ j, Line.code j ∈ code → ∀ label ∈ j.targets, (Line.label label).height? = some 0 := by
    intro j mem label target
    have goes := h.goes (mem_cons_self (a := ctx.returnLabel) (l := i.targets.map ctx.blockLabel))
      (fun id mem => mem_cons_of_mem _ (mem_map_of_mem mem)) _ mem
    rcases mem_cons.mp (goes.jumps target) with rfl | mem
    · rfl
    · obtain ⟨id, -, rfl⟩ := mem_map.mp mem
      rfl
  cases calls : isCall i with
  | false =>
    have calm : ∀ j, Line.code j ∈ code → _ := fun j mem => by
      have works := h.works calls _ mem
      refine plain_levelled works.1 fun changed => ?_
      rcases mem_append.mp (works.2.2 changed) with defined | working
      · obtain ⟨v, found⟩ := held_bank defined
        exact absurd (reg_mem_bank found) (by decide)
      · exact absurd working (by decide)
    refine ⟨fun j mem => ⟨(calm j mem).1, inner j mem⟩, level_flat fun line mem => ?_⟩
    have works := h.works calls _ mem
    cases line with
    | code j => exact (calm j mem).2
    | label | directive => exact works.elim
  | true =>
    cases h with
    | call _ hr => exact levelled_call _ _ _ (reg_mem_bank hr)
    | _ => cases calls

/-! ## Functions -/

def isTame : Line → Bool
  | .code i => i.isSteady && (Line.code i).height?.isNone
  | line => line.height?.isNone

def entry (f : Ir.Function) (kept : List Reg) : Code :=
  functionHead f.name f.isStatic ++ ([.code (.push .rbp), .code (.mov .qword .rbp (.reg .rsp))] ++
    reserve f ++ kept.map fun reg => .code (.push reg))

def opening (f : Ir.Function) (kept : List Reg) (params : Code) : Code :=
  entry f kept ++ (alignment .sub kept ++ params)

def closing (ctx : Context) (kept : List Reg) : Code :=
  .label ctx.returnLabel :: (alignment .add kept ++ kept.reverse.map fun reg => .code (.pop reg))

variable {allocation : Allocation} {f : Ir.Function} {text params body : Code} {kept : List Reg}

def Copies (ctx : Context) (params : Code) : Prop :=
  ∀ line ∈ params, ∃ v r arg, ctx.reg v = .ok r ∧ arg ∈ Reg.arguments ∧ line = copy r arg

theorem emit_parts (made : emit allocation f = .ok text) :
    ∃ params body, Copies ⟨f.name, allocation, none⟩ params ∧
      blocks ⟨f.name, allocation, none⟩ f.blocks = .ok body ∧
      text = opening f (saved allocation) params ++ (body ++
        closing ⟨f.name, allocation, none⟩ (saved allocation)) ++ [.code .leave, .code .ret] := by
  obtain ⟨head, body, hh, hb, rfl⟩ := emit_coded made
  obtain ⟨params, rfl, copies⟩ := prologue_coded hh
  refine ⟨params, body, copies, hb, ?_⟩
  simp only [opening, entry, closing, epilogue, append_assoc, cons_append, nil_append]

theorem blocks_levelled {bs : List Block} (made : blocks ctx bs = .ok body) : Levelled body := by
  refine blocks_all .nil .append (fun id => ⟨fun i mem => ?_, ?_⟩) (fun b _ i _ next c h => h.levelled) made
  · cases mem_singleton.mp mem
  · exact level_flat (forall_mem_singleton.mpr ⟨rfl, rfl⟩)

theorem isTame_alignment (sound : op = .sub ∨ op = .add) (kept : List Reg) :
    (alignment op kept).all isTame = true := by
  unfold alignment
  split
  · rcases sound with rfl | rfl <;> rfl
  · rfl

theorem isTame_opening (copies : Copies ctx params) (f : Ir.Function) (kept : List Reg) :
    (opening f kept params).all isTame = true := by
  have head : (functionHead f.name f.isStatic).all isTame = true := by
    unfold functionHead visibility
    split <;> rfl
  have frame : (reserve f).all isTame = true := by
    unfold reserve
    split <;> rfl
  have pushes : (kept.map fun reg => Line.code (.push reg)).all isTame = true := by
    rw [all_map]
    exact all_eq_true.mpr fun _ _ => rfl
  have moves : params.all isTame = true := by
    refine all_eq_true.mpr fun line mem => ?_
    obtain ⟨v, r, arg, found, -, rfl⟩ := copies line mem
    have other : Reg.rsp ∉ [r] := by
      intro same
      cases mem_singleton.mp same
      exact absurd (reg_mem_bank found) (by decide)
    exact Bool.and_eq_true_iff.mpr ⟨decide_eq_true other, rfl⟩
  simp only [opening, entry, all_append, head, frame, pushes, moves, isTame_alignment (.inl rfl)]
  rfl

theorem isTame_closing (within : ∀ r ∈ kept, r ∈ Reg.bank) :
    (alignment .add kept ++ kept.reverse.map fun reg => Line.code (.pop reg)).all isTame = true := by
  rw [all_append, isTame_alignment (.inr rfl), all_map, Bool.true_and]
  refine all_eq_true.mpr fun r mem => ?_
  have other : r ≠ .rsp := by
    rintro rfl
    exact absurd (within _ (mem_reverse.mp mem)) (by decide)
  exact Bool.and_eq_true_iff.mpr ⟨decide_eq_true other, rfl⟩

theorem height?_of_isTame {line : Line} (h : isTame line = true) : line.height? = none := by
  cases line with
  | code i => exact Option.isNone_iff_eq_none.mp (Bool.and_eq_true_iff.mp h).2
  | label | directive => exact Option.isNone_iff_eq_none.mp h

variable (ctx) in
/-- The lines of a function up to the place where it gives up its frame. -/
structure Main (kept : List Reg) (params body : Code) : Prop where
  copies : Copies ctx params
  even : Levelled body
  within : ∀ r ∈ kept, r ∈ Reg.bank

namespace Main

variable (h : Main ctx kept params body)

include h

theorem free : ∀ line ∈ opening f kept params, line.height? = none := fun line mem =>
  height?_of_isTame (all_eq_true.mp (isTame_opening h.copies f kept) line mem)

theorem level : ∃ e, level 0 (body ++ closing ctx kept) = some e := by
  have free := level_free fun line mem =>
    height?_of_isTame (all_eq_true.mp (isTame_closing h.within) line mem)
  exact ⟨_, by rw [level_append, h.even.level]; exact free 0⟩

theorem code_cases {i : Asm.Instruction}
    (mem : Line.code i ∈ opening f kept params ++ (body ++ closing ctx kept)) :
    isTame (.code i) = true ∨ .code i ∈ body := by
  rcases mem_append.mp mem with mem | mem
  · exact .inl (all_eq_true.mp (isTame_opening h.copies f kept) _ mem)
  · rcases mem_append.mp mem with mem | mem
    · exact .inr mem
    · rcases mem_cons.mp mem with same | mem
      · cases same
      · exact .inl (all_eq_true.mp (isTame_closing h.within) _ mem)

theorem target_height {i : Asm.Instruction} {label : Label}
    (mem : Line.code i ∈ opening f kept params ++ (body ++ closing ctx kept))
    (target : label ∈ i.targets) :
    (Line.code i).height? = some 0 ∧ (Line.label label).height? = some 0 := by
  have jump : (Line.code i).height? = some 0 := by
    cases i with
    | jmp | jcc => rfl
    | _ => cases target
  refine ⟨jump, ?_⟩
  rcases h.code_cases mem with tame | mem
  · rw [height?_of_isTame tame] at jump
    cases jump
  · exact (h.even.lines i mem).2 label target

theorem steady : Steady (opening f kept params ++ (body ++ closing ctx kept)) := by
  obtain ⟨e, level⟩ := h.level
  constructor
  · intro i mem
    rcases h.code_cases mem with tame | mem
    · exact (Bool.and_eq_true_iff.mp tame).1
    · exact (h.even.lines i mem).1
  · intro k j i label here target there
    obtain ⟨jump, on⟩ := h.target_height (mem_of_getElem? here) target
    rw [(depth_take_of_height h.free level here jump).1, (depth_take_of_height h.free level there on).1]

end Main

/-! ## The frame -/

theorem depth_pushes (kept : List Reg) :
    depth (kept.map fun reg => .code (.push reg)) = BitVec.ofNat 64 (8 * kept.length) := by
  induction kept with
  | nil => rfl
  | cons r rest ih =>
    rw [map_cons, depth_cons, ih, length_cons, Nat.mul_succ, Nat.add_comm, BitVec.ofNat_add]
    rfl

theorem depth_pops (kept : List Reg) :
    depth (kept.map fun reg => .code (.pop reg)) = -BitVec.ofNat 64 (8 * kept.length) := by
  induction kept with
  | nil => rfl
  | cons r rest ih =>
    rw [map_cons, depth_cons, ih, length_cons, Nat.mul_succ, Nat.add_comm, BitVec.ofNat_add]
    change -8#64 + _ = _
    bv_omega

theorem depth_alignment (kept : List Reg) :
    depth (alignment .sub kept) = BitVec.ofNat 64 (8 * padding kept.length) ∧
      depth (alignment .add kept) = -BitVec.ofNat 64 (8 * padding kept.length) := by
  unfold alignment padding
  rcases Nat.mod_two_eq_zero_or_one kept.length with even | odd
  · rw [even]
    exact ⟨rfl, rfl⟩
  · rw [odd]
    exact ⟨rfl, rfl⟩

theorem depth_copies (copies : Copies ctx params) : depth params = 0 := by
  induction params with
  | nil => rfl
  | cons line rest ih =>
    obtain ⟨⟨v, r, arg, -, -, rfl⟩, later⟩ := forall_mem_cons.mp copies
    rw [depth_cons, ih later]
    rfl

theorem depth_opening (copies : Copies ctx params) (f : Ir.Function) (kept : List Reg) :
    depth (opening f kept params) =
      BitVec.ofNat 64 (8 + f.stackSize.toNat + 8 * (kept.length + padding kept.length)) := by
  have head : depth (functionHead f.name f.isStatic) = 0 := by
    unfold functionHead visibility
    split <;> rfl
  have frame : depth (reserve f) = BitVec.ofNat 64 f.stackSize.toNat := by
    unfold reserve
    split
    · exact BitVec.add_zero _
    · next none =>
      have zero : f.stackSize = 0 := UInt32.le_zero_iff.mp (UInt32.not_lt.mp none)
      rw [zero]
      rfl
  have start : depth [.code (.push .rbp), .code (.mov .qword .rbp (.reg .rsp))] = 8#64 := rfl
  simp only [opening, entry, depth_append, head, frame, start, depth_pushes, depth_alignment,
    depth_copies copies]
  bv_omega

theorem entry_changes {i : Asm.Instruction} (mem : Line.code i ∈ entry f kept) :
    i.changes ⊆ [.rsp, .rbp] := by
  have head : ∀ i, Line.code i ∉ functionHead f.name f.isStatic := by
    intro i
    unfold functionHead visibility
    split <;> simp
  have frame : ∀ i, Line.code i ∈ reserve f → i.changes ⊆ [.rsp, .rbp] := by
    intro i
    unfold reserve
    split
    · intro mem
      cases mem_singleton.mp mem
      exact cons_subset.mpr ⟨mem_cons_self, nil_subset _⟩
    · exact fun mem => absurd mem not_mem_nil
  simp only [entry, mem_append, mem_cons, not_mem_nil, or_false, mem_map] at mem
  rcases mem with mem | ((same | same) | mem) | ⟨r, -, same⟩
  · exact absurd mem (head i)
  · cases same
    decide
  · cases same
    decide
  · exact frame i mem
  · cases same
    exact cons_subset.mpr ⟨mem_cons_self, nil_subset _⟩

theorem Main.wraps (h : Main ctx kept params body) (distinct : kept.Nodup) {xs ys : List Reg}
    (order : kept = xs ++ r :: ys) :
    Wraps (opening f kept params ++ (body ++ closing ctx kept)) r (entry f xs)
      (ys.map (fun reg => .code (.push reg)) ++ alignment .sub kept ++ params ++
        (body ++ .label ctx.returnLabel :: (alignment .add kept ++
          ys.reverse.map fun reg => .code (.pop reg))))
      (xs.reverse.map fun reg => .code (.pop reg)) := by
  have mem : r ∈ Reg.bank := h.within r (by simp [order])
  have starts : entry f (xs ++ r :: ys) = entry f xs ++ (r :: ys).map fun reg => .code (.push reg) := by
    simp [entry]
  refine ⟨?_, ?_, fun i listed changed => ?_, fun i label listed target early => ?_,
    fun line listed => ?_, ?_⟩
  · simp [opening, closing, starts, order]
  · have flat : depth body = 0 :=
      (BitVec.zero_add _).symm.trans (level_depth h.even.level).symm
    simp only [depth_append, depth_cons, depth_pushes, depth_pops, depth_alignment, length_reverse,
      depth_copies h.copies, flat, Line.depth]
    bv_omega
  · exact (by decide : ∀ r ∈ Reg.bank, r ∉ [.rsp, .rbp]) r mem (entry_changes listed changed)
  · have on := (h.target_height listed target).2
    rw [h.free (f := f) _ (by simp [opening, order, starts, early])] at on
    cases on
  · obtain ⟨q, other, rfl⟩ := mem_map.mp listed
    refine ⟨q, ?_, rfl⟩
    rintro rfl
    rw [order, nodup_append] at distinct
    exact distinct.2.2 q (mem_reverse.mp other) q mem_cons_self rfl
  · exact (by decide : ∀ r ∈ Reg.bank, r ≠ .rsp ∧ r ≠ .rbp) r mem

/-! ## Registers that are saved -/

def spare : List Reg := [.rax, .rcx, .rdx, .rsi, .rdi, .rsp, .rbp, .r8, .r9, .r10, .r11]

theorem notMem_spare : ∀ r ∈ Reg.bank, r.isCalleeSaved = true → r ∉ spare := by decide

theorem alignment_changes (listed : Line.code j ∈ alignment op kept) :
    j.changes ⊆ spare := by
  unfold alignment at listed
  split at listed
  · cases mem_singleton.mp listed
    exact cons_subset.mpr ⟨by decide, nil_subset _⟩
  · cases listed

/-- The code of an instruction changes the register it defines and the spare ones. -/
theorem Coded.changes (h : Coded ctx i code) (listed : Line.code j ∈ code) :
    j.changes ⊆ ctx.held i.def?.toList ++ spare := by
  cases calls : isCall i with
  | false =>
    intro r changed
    refine mem_append.mpr ((mem_append.mp ((h.works calls _ listed).2.2 changed)).imp_right ?_)
    exact fun working => (by decide : [.rax, .rcx, .rdx] ⊆ spare) working
  | true =>
    cases h with
    | call _ hr =>
      refine fun r changed => mem_append.mpr ?_
      rw [call_eq] at listed
      rcases mem_append.mp listed with listed | listed
      · simp only [mem_cons, Line.code.injEq, not_mem_nil, or_false] at listed
        rcases listed with rfl | rfl <;> exact .inr (mem_singleton.mp changed ▸ by decide)
      · rcases mem_append.mp listed with listed | listed
        · obtain ⟨w, arg, src, same, given, -⟩ := mem_pass listed
          cases same
          exact .inr (mem_singleton.mp changed ▸ (by decide : .rax :: Reg.arguments ⊆ spare) given)
        · simp only [result, mem_cons, Line.code.injEq, not_mem_nil, or_false] at listed
          rcases listed with rfl | rfl | rfl | rfl
          · exact .inr ((by decide : [.rax, .rcx, .rdx, .rsi, .rdi, .r8, .r9, .r10, .r11] ⊆ spare) changed)
          · exact .inr ((by decide : [.rsp, .r11] ⊆ spare) changed)
          · exact .inr ((by decide : [.rsp, .r10] ⊆ spare) changed)
          · rw [mem_singleton.mp changed]
            exact .inl (mem_held hr mem_cons_self)
    | _ => cases calls

/-- A register of the caller that some line changes is saved. -/
theorem saved_of_written (allocated : Allocation.allocate Reg.bank.length f = .ok allocation)
    (made : emit allocation f = .ok text) (mem : r ∈ Reg.bank) (callee : r.isCalleeSaved = true)
    (listed : Line.code j ∈ text) (changed : r ∈ j.changes) : r ∈ saved allocation := by
  obtain ⟨params, body, copies, blocks, rfl⟩ := emit_parts made
  have other := notMem_spare r mem callee
  have used : ∀ {v}, Context.reg ⟨f.name, allocation, none⟩ v = .ok r → r ∈ saved allocation := by
    intro v found
    refine mem_filter.mpr ⟨(Allocation.mem_usedRegisters_iff allocated).mpr ⟨v, ?_⟩, callee⟩
    exact reg_eq_ok found
  have inner : ∀ j, Line.code j ∈ body → r ∈ j.changes → r ∈ saved allocation := by
    refine blocks_all (P := fun c => ∀ j, Line.code j ∈ c → r ∈ j.changes → r ∈ saved allocation)
      (fun j mem => absurd mem not_mem_nil) (fun a b j mem => (mem_append.mp mem).elim (a j) (b j))
      (fun id j mem => absurd mem (by simp)) (fun b _ i _ next c h j listed changed => ?_) blocks
    rcases mem_append.mp (h.changes listed changed) with defined | no
    · obtain ⟨v, found⟩ := held_bank defined
      exact used found
    · exact absurd no other
  simp only [opening, closing, mem_append, mem_cons, mem_map, not_mem_nil, or_false,
    reduceCtorEq, false_or] at listed
  rcases listed with ((mem | mem | mem) | mem | mem | ⟨q, kept, same⟩) | same | same
  · exact absurd ((by decide : [.rsp, .rbp] ⊆ spare) (entry_changes mem changed)) other
  · exact absurd (alignment_changes mem changed) other
  · obtain ⟨v, q, arg, found, -, same⟩ := copies _ mem
    cases same
    exact used (mem_singleton.mp changed ▸ found)
  · exact inner j mem changed
  · exact absurd (alignment_changes mem changed) other
  · cases same
    rcases mem_cons.mp changed with rfl | changed
    · exact absurd (by decide) other
    · exact mem_singleton.mp changed ▸ mem_reverse.mp kept
  · cases same
    exact absurd ((by decide : [.rsp, .rbp] ⊆ spare) changed) other
  · cases same
    cases changed

theorem saved_nodup (allocated : Allocation.allocate Reg.bank.length f = .ok allocation) :
    (saved allocation).Nodup :=
  ((by decide : Reg.bank.Nodup).sublist (Allocation.usedRegisters_sublist allocated)).filter _

theorem main_of_emit (allocated : Allocation.allocate Reg.bank.length f = .ok allocation)
    (made : emit allocation f = .ok text) :
    ∃ params body, Main ⟨f.name, allocation, none⟩ (saved allocation) params body ∧
      text = opening f (saved allocation) params ++ (body ++
        closing ⟨f.name, allocation, none⟩ (saved allocation)) ++ [.code .leave, .code .ret] := by
  obtain ⟨params, body, copies, blocks, same⟩ := emit_parts made
  refine ⟨params, body, ⟨copies, blocks_levelled blocks, fun r mem => ?_⟩, same⟩
  exact (Allocation.usedRegisters_sublist allocated).subset (mem_of_mem_filter mem)

/-! ## Discipline -/

/-- Code that treats registers and the stack as its callers and its callees expect. The code of an
instruction, wherever it is, changes and reads the registers of the bank that the instruction says;
the registers that a caller relies on are saved on the way in if the function writes them at all,
and restored; and the stack is aligned at every call. -/
structure Disciplined (f : Ir.Function) (allocation : Allocation) (text : Code) : Prop where
  written : ∀ b ∈ f.blocks, ∀ i ∈ b.instructions, ∃ next code k,
    instruction ⟨f.name, allocation, next⟩ i = .ok code ∧ Sits text k code
  confined : ∀ host scratch hidden next i code k, host.Spares hidden →
    (isCall i = true → Blind scratch hidden) → instruction ⟨f.name, allocation, next⟩ i = .ok code →
      Sits text k code → Confined (machine host scratch hidden text) hidden (Ready hidden i)
        (Context.held ⟨f.name, allocation, next⟩ i.uses)
        (Context.held ⟨f.name, allocation, next⟩ i.def?.toList) k (k + code.length)
  saved : ∀ r ∈ Reg.bank, r.isCalleeSaved = true → (∃ i, Line.code i ∈ text ∧ r ∈ i.changes) →
    ∃ k j offset, (∀ spot p, position text (.inner f.name spot) = some p → k < p) ∧
      ∀ host scratch hidden, Restores (machine host scratch hidden text) text r k j offset
  aligned : f.stackSize.toNat % 16 = 0 → ∀ host scratch hidden n s c name passed,
    (s.regs .rsp).toNat % 16 = 8 → (machine host scratch hidden text).Steps n ⟨0, s⟩ c →
      text[c.pc]? = some (.code (.call name passed)) → (c.state.regs .rsp).toNat % 16 = 0

/-- **Registers are kept.** If every value of a function has a register, there is code for it, which is
disciplined: the code of an instruction reads and changes registers of the bank as the instruction
says, those that a caller relies on are saved and restored, and the stack is aligned at calls. -/
theorem register_discipline (allocated : Allocation.allocate Reg.bank.length f = .ok allocation) :
    ∃ text, emit allocation f = .ok text ∧ Disciplined f allocation text := by
  obtain ⟨text, made⟩ := function_succeeds allocated
  rw [function, allocated] at made
  change emit allocation f = .ok text at made
  refine ⟨text, made, ?_, ?_, ?_, ?_⟩
  · intro b mem i listed
    obtain ⟨before, after, split⟩ := append_of_mem mem
    obtain ⟨pre, code, post, hc, -, same⟩ := emit_split made split
    obtain ⟨first, c, rest, found, rfl⟩ := instructions_mem hc listed
    have sits := sits_of_eq same
    rw [sits_append, sits_cons, sits_append, sits_append] at sits
    exact ⟨_, c, _, found, sits.1.2.2.1⟩
  · intro host scratch hidden next i code k spares blind made sits
    exact (instruction_coded made).confined spares blind sits
  · intro r mem callee written
    obtain ⟨i, listed, changed⟩ := written
    have kept := saved_of_written allocated made mem callee listed changed
    obtain ⟨params, body, main, rfl⟩ := main_of_emit allocated made
    obtain ⟨xs, ys, order⟩ := append_of_mem kept
    have wraps := main.wraps (f := f) (saved_nodup allocated) order
    refine ⟨_, _, _, fun spot p found => ?_, fun host scratch hidden => wraps.restores main.steady⟩
    obtain ⟨e, level⟩ := main.level
    rcases getElem?_ending (getElem?_of_position found) with there | ⟨-, no⟩ | ⟨-, no⟩
    · have le := (depth_take_of_height main.free level there rfl).2
      rw [opening, order] at le
      simp [entry] at le ⊢
      omega
    · cases no
    · cases no
  · intro aligned host scratch hidden n s c name passed entry run here
    obtain ⟨params, body, main, rfl⟩ := main_of_emit allocated made
    obtain ⟨e, level⟩ := main.level
    rcases getElem?_ending here with inner | ⟨-, no⟩ | ⟨-, no⟩
    · rw [main.steady.rsp run (List.getElem?_eq_some_iff.mp inner).1.le,
        (depth_take_of_height main.free level inner rfl).1, depth_opening main.copies, padding]
      bv_omega
    · cases no
    · cases no

def relay : Ir.Function where
  name := "f"
  params := [⟨0⟩]
  blocks := [⟨⟨0⟩, [.imm ⟨1⟩ 1, .call .dword ⟨2⟩ "g" [⟨1⟩, ⟨0⟩], .branch ⟨2⟩ ⟨0⟩ ⟨1⟩]⟩,
    ⟨⟨1⟩, [.ret (some ⟨0⟩)]⟩]
  pins := []
  stackSize := 16
  isStatic := false
  loc := .atStart ⟨"f.c", ""⟩

/-- The discipline of a function with a call, and surroundings in which it is to be relied on: the
stack is in the upper memory, which the function does not access otherwise. -/
theorem register_discipline_relay :
    let given : Allocation := ⟨[(⟨0⟩, 0), (⟨1⟩, 1), (⟨2⟩, 2)], [0, 1, 2]⟩
    let host : Host := ⟨fun _ => 0, fun _ _ m => (0, m), fun a _ => decide (a.toNat < 2 ^ 32)⟩
    let hidden : Word → Prop := fun a => 2 ^ 33 ≤ a.toNat
    Allocation.allocate Reg.bank.length relay = .ok given ∧
      (∃ text, emit given relay = .ok text ∧ Disciplined relay given text) ∧
      host.Spares hidden ∧ Blind (fun _ _ => 0) hidden := by
  intro given host hidden
  have allocated : Allocation.allocate Reg.bank.length relay = .ok given := by cbv
  refine ⟨allocated, register_discipline allocated, ⟨fun a w allowed i lt seen => ?_, fun _ _ _ _ _ => rfl,
    fun _ _ _ _ same a shown => same a shown, fun _ _ _ _ _ => rfl⟩, fun _ _ _ _ => rfl⟩
  have low : a.toNat < 2 ^ 32 := of_decide_eq_true allowed
  have small := w.bytes_le
  have high : 2 ^ 33 ≤ (a + BitVec.ofNat 64 i).toNat := seen
  rw [BitVec.toNat_add, BitVec.toNat_ofNat] at high
  omega

end MiniC.Emit.Allocated
