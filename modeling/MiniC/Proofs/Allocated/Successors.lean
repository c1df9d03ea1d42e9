import MiniC.Proofs.Labels.Jumps
import MiniC.Proofs.Semantics.Segments

/-!
# Control follows the blocks

The code of a block ends with the code of its last instruction, and from there control goes to the
block that the instruction selects, or to the end of the function. The jump to it may be left out,
if that block comes next in the text; then its label is the line that follows.
-/

namespace MiniC

open List

/-- Where control goes at the end of a block: to a block, or out of the function. -/
inductive Ir.Exit where
  | block (id : BlockId)
  | done
deriving DecidableEq

/-- Where an instruction that ends its block sends control, given the values of the registers. -/
def Ir.Instruction.exit? (value : VReg → Word) : Ir.Instruction → Option Exit
  | .branch test yes no => some (.block (if value test ≠ 0 then yes else no))
  | .jump target => some (.block target)
  | .ret _ => some .done
  | _ => none

namespace Emit.Allocated

open Asm Ir

namespace Context

def exitLabel (ctx : Context) : Exit → Label
  | .block id => ctx.blockLabel id
  | .done => ctx.returnLabel

def value (ctx : Context) (s : State) (v : VReg) : Word := ((ctx.reg v).toOption.map s.regs).getD 0

theorem exitLabel_injective (ctx : Context) : Function.Injective ctx.exitLabel := by
  rintro (⟨⟨a⟩⟩ | _) (⟨⟨b⟩⟩ | _) same <;> cases same <;> rfl

variable {ctx : Context}

theorem value_eq {s : State} {v : VReg} {r : Reg} (found : ctx.reg v = .ok r) :
    ctx.value s v = s.regs r := by
  rw [value, found]
  rfl

end Context

variable {ctx : Context} {code : Code} {host : Host} {scratch : State → Reg → Word} {s : State}

/-- Code that sends control to a label or, to the block that comes next, off its end. -/
def Sends (host : Host) (scratch : State → Reg → Word) (ctx : Context) (s : State) (code : Code)
    (exit : Exit) : Prop :=
  ∃ t, cross host scratch s code = some (some (ctx.exitLabel exit), t) ∨
    ctx.next.map .block = some exit ∧ cross host scratch s code = some (none, t)

section

variable (host scratch)

theorem jump_sends (s : State) (target : BlockId) : Sends host scratch ctx s (ctx.jump target) (.block target) := by
  unfold Context.jump
  split
  · next follows => exact ⟨s, .inr ⟨by rw [follows]; rfl, rfl⟩⟩
  · exact ⟨s, .inl rfl⟩

theorem cross_test (s : State) (r : Reg) (cond : Cond) (label : Label) (rest : Code) :
    ∃ t, cross host scratch s (test r :: .code (.jcc cond label) :: rest) =
      if cond.holds (s.regs r).toInt 0 then some (some label, t) else cross host scratch t rest := by
  refine ⟨{ s with flags := some ((s.regs r).toInt, 0) }, ?_⟩
  cases holds : cond.holds (s.regs r).toInt 0 <;>
    simp [test, cross, operate, operand, Asm.Instruction.exit?, holds]

theorem branch_sends (r : Reg) (yes no : BlockId) :
    Sends host scratch ctx s (branch ctx r yes no) (.block (if s.regs r ≠ 0 then yes else no)) := by
  have zero : (s.regs r).toInt = 0 ↔ s.regs r = 0#64 := by
    rw [← BitVec.toInt_inj, BitVec.toInt_zero]
  unfold branch
  split
  · next follows =>
    obtain ⟨t, ran⟩ := cross_test host scratch s r .eq (ctx.blockLabel no) []
    by_cases h : s.regs r = 0#64
    · exact ⟨t, .inl (by simp [ran, Cond.holds, h, Context.exitLabel])⟩
    · exact ⟨t, .inr ⟨by simp [follows, h], by simp [ran, Cond.holds, zero, h, cross]⟩⟩
  · obtain ⟨t, ran⟩ := cross_test host scratch s r .ne (ctx.blockLabel yes) (ctx.jump no)
    by_cases h : s.regs r = 0#64
    · obtain ⟨u, sent⟩ : Sends host scratch ctx t (ctx.jump no) (.block no) := jump_sends ..
      refine ⟨u, ?_⟩
      simpa [ran, Cond.holds, zero, h] using sent
    · exact ⟨t, .inl (by simp [ran, Cond.holds, zero, h, Context.exitLabel])⟩

theorem Coded.sends {i : Ir.Instruction} (h : Coded ctx i code) (last : i.isTerminator = true)
    (s : State) :
    ∃ exit, i.exit? (ctx.value s) = some exit ∧ Sends host scratch ctx s code exit := by
  cases h with
  | branch found => 
    refine ⟨_, rfl, ?_⟩
    rw [Context.value_eq found]
    exact branch_sends ..
  | jump => exact ⟨_, rfl, jump_sends ..⟩
  | retValue | ret => exact ⟨_, rfl, _, .inl rfl⟩
  | _ => cases last

end

/-! ## Blocks -/

/-- The lines of a block with its label on line `start`. Up to `turn` each line is followed by the
next one; there the code of the last instruction begins, and from there control leaves the lines
before `stop` and goes on where the instruction says. -/
structure Leaves (ctx : Context) (text : Code) (last : Ir.Instruction) (start turn stop : Nat) :
    Prop where
  straight : ∀ host scratch hidden c d, start ≤ c.pc → c.pc < turn →
    (machine host scratch hidden text).step c = some d → d.pc = c.pc + 1
  turns : ∀ host scratch hidden s, ∃ d, Crosses (machine host scratch hidden text) turn stop ⟨turn, s⟩ d ∧
    ∀ exit, position text (ctx.exitLabel exit) = some d.pc ↔ last.exit? (ctx.value s) = some exit

variable {hidden : Word → Prop} {text : Code} {allocation : Allocation} {f : Ir.Function}

theorem target_of_isStraight {i : Asm.Instruction} {k : Nat} (h : isStraight (.code i) = true) :
    target text s k i = some (k + 1) := by
  cases i with
  | jmp | jcc | ret => cases h
  | _ => rfl

/-- Wherever control may leave a block to, there is a label. -/
theorem exit_mem (wellFormed : f.WellFormed) (made : emit allocation f = .ok text)
    {b : Block} (mem : b ∈ f.blocks) {i : Ir.Instruction} (listed : i ∈ b.instructions)
    {value : VReg → Word} {exit : Exit} (selected : i.exit? value = some exit) :
    Line.label (Context.exitLabel ⟨f.name, allocation, none⟩ exit) ∈ text := by
  cases exit with
  | done =>
    obtain ⟨head, body, -, -, rfl⟩ := emit_coded made
    simp [epilogue, Context.exitLabel]
  | block id =>
    have target : id ∈ i.targets := by
      cases i with
      | branch test yes no =>
        cases selected
        split <;> simp [Ir.Instruction.targets]
      | jump =>
        cases selected
        exact mem_cons_self
      | _ => cases selected
    have named := wellFormed.targets i (mem_flatMap.mpr ⟨b, mem, listed⟩) id target
    obtain ⟨b, mem, rfl⟩ := mem_map.mp named
    obtain ⟨before, after, split⟩ := append_of_mem mem
    obtain ⟨pre, code, post, -, -, rfl⟩ := emit_split made split
    exact mem_append_right _ mem_cons_self

theorem next_label {after : List Block} {post : Code} {exit : Exit}
    (made : blocks ctx after = .ok post) (next : (after.head?.map (·.id)).map .block = some exit) :
    ∃ more, post = .label (ctx.exitLabel exit) :: more := by
  cases after with
  | nil => cases next
  | cons b rest =>
    cases next
    obtain ⟨body, others, -, -, rfl⟩ := blocks_cons made
    exact ⟨_, rfl⟩

/-- **Control follows the blocks.** In the code of a well-formed function, with any allocation and any
order of blocks, the lines of a block are passed one after the other up to the code of its last
instruction, and from there control gets to the label of the block that this instruction selects. -/
theorem control_follows_blocks (wellFormed : f.WellFormed) (made : emit allocation f = .ok text)
    {before after : List Block} {b : Block} (split : f.blocks = before ++ b :: after) :
    ∃ code last start turn,
      instructions ⟨f.name, allocation, after.head?.map (·.id)⟩ b.instructions = .ok code ∧
      b.instructions.getLast? = some last ∧
      position text (Context.blockLabel ⟨f.name, allocation, none⟩ b.id) = some start ∧
      Sits text (start + 1) code ∧ start < turn ∧ turn ≤ start + 1 + code.length ∧
      Leaves ⟨f.name, allocation, none⟩ text last start turn (start + 1 + code.length) := by
  have mem : b ∈ f.blocks := by simp [split]
  have once := (emit_lands wellFormed made).once
  obtain ⟨first, last, order, terminates, inner⟩ := wellFormed.ended b mem
  obtain ⟨pre, code, post, hc, hp, same⟩ := emit_split made split
  obtain ⟨lead, tail, hl, ht, rfl⟩ := instructions_concat (order ▸ hc)
  have sits := sits_of_eq same
  rw [sits_append, sits_cons] at sits
  obtain ⟨⟨label, lines⟩, rest⟩ := sits
  obtain ⟨leading, ending⟩ := sits_append.mp lines
  refine ⟨lead ++ tail, last, pre.length, pre.length + 1 + lead.length, hc, by simp [order],
    once.position label, lines, by omega, by rw [length_append]; omega, ?_, ?_⟩
  · intro host scratch hidden c d le lt stepped
    have plain : lead.all isStraight = true := by
      refine instructions_all (P := fun c => c.all isStraight = true) rfl
        (fun a b => by rw [all_append, a, b]; rfl) (fun i mem c h => ?_) hl
      exact h.straight (inner i mem)
    obtain ⟨i, found, -, leads⟩ | ⟨line, -, -, rfl⟩ := step_cases stepped
    · have later : c.pc ≠ pre.length := by
        intro here
        rw [here, label] at found
        cases found
      have listed := leading.mem (show pre.length + 1 ≤ c.pc by omega) lt found
      rw [target_of_isStraight (all_eq_true.mp plain _ listed)] at leads
      exact (Option.some.inj leads).symm
    · rfl
  · intro host scratch hidden s
    obtain ⟨exit, selected, t, sent⟩ := ht.sends host scratch terminates s
    obtain ⟨exit?, ran, j, there, found⟩ : ∃ exit?, cross host scratch s tail = some (exit?, t) ∧
        ∃ j, exit?.elim (some (pre.length + 1 + lead.length + tail.length)) (position text) = some j ∧
        position text (Context.exitLabel ⟨f.name, allocation, none⟩ exit) = some j := by
      rcases sent with ran | ⟨next, ran⟩
      · obtain ⟨j, here⟩ := mem_iff_getElem?.mp
          (exit_mem wellFormed made mem (order ▸ mem_concat_self ..) selected)
        exact ⟨_, ran, j, once.position here, once.position here⟩
      · obtain ⟨more, rfl⟩ := next_label hp next
        have here := (sits_cons.mp (sits_append.mp rest).1).1
        rw [length_cons, length_append] at here
        refine ⟨_, ran, _, rfl, once.position ?_⟩
        rwa [show pre.length + 1 + lead.length + tail.length =
          pre.length + (lead.length + tail.length + 1) by omega]
    have stop : pre.length + 1 + (lead ++ tail).length = pre.length + 1 + lead.length + tail.length := by
      rw [length_append, Nat.add_assoc _ lead.length]
    rw [stop]
    refine ⟨⟨j, t⟩, (crosses_iff ending ht.within.1 ht.within.2).mpr ⟨exit?, ran, there⟩, fun other => ?_⟩
    constructor
    · intro also
      have same := (getElem?_of_position found).symm.trans (getElem?_of_position also)
      rw [Context.exitLabel_injective _ (Line.label.inj (Option.some.inj same))] at selected
      exact selected
    · intro chosen
      cases selected.symm.trans chosen
      exact found

/-- A block that leads back to itself, and a branch with the same block on both sides. -/
def spin : Ir.Function where
  name := "f"
  params := [⟨0⟩]
  blocks := [⟨⟨0⟩, [.branch ⟨0⟩ ⟨0⟩ ⟨2⟩]⟩, ⟨⟨2⟩, [.imm ⟨1⟩ 7, .branch ⟨1⟩ ⟨1⟩ ⟨1⟩]⟩,
    ⟨⟨1⟩, [.ret (some ⟨0⟩)]⟩]
  pins := []
  stackSize := 0
  isStatic := false
  loc := .atStart ⟨"f.c", ""⟩

theorem control_follows_blocks_spin :
    let given : Allocation := ⟨[(⟨0⟩, 0), (⟨1⟩, 1)], [0, 1]⟩
    spin.WellFormed ∧ ∃ text, emit given spin = .ok text ∧
      (∃ start turn stop, position text (.inner "f" (.block 0)) = some start ∧
        Leaves ⟨"f", given, none⟩ text (.branch ⟨0⟩ ⟨0⟩ ⟨2⟩) start turn stop) ∧
      ∃ start turn stop, position text (.inner "f" (.block 2)) = some start ∧
        Leaves ⟨"f", given, none⟩ text (.branch ⟨1⟩ ⟨1⟩ ⟨1⟩) start turn stop := by
  intro given
  have wellFormed : spin.WellFormed := by
    refine ⟨by decide, fun b mem => ?_, by decide⟩
    simp only [spin, mem_cons, not_mem_nil, or_false] at mem
    rcases mem with rfl | rfl | rfl
    · exact ⟨[], _, rfl, rfl, forall_mem_nil _⟩
    · exact ⟨[.imm ⟨1⟩ 7], _, rfl, rfl, forall_mem_singleton.mpr rfl⟩
    · exact ⟨[], _, rfl, rfl, forall_mem_nil _⟩
  obtain ⟨text, made⟩ : ∃ text, emit given spin = .ok text := ⟨_, rfl⟩
  refine ⟨wellFormed, text, made, ?_, ?_⟩
  · obtain ⟨code, last, start, turn, -, final, found, -, -, -, leaves⟩ :=
      control_follows_blocks wellFormed made (nil_append _).symm
    cases final
    exact ⟨start, turn, _, found, leaves⟩
  · obtain ⟨code, last, start, turn, -, final, found, -, -, -, leaves⟩ :=
      control_follows_blocks wellFormed made (show spin.blocks = [_] ++ _ :: _ from rfl)
    cases final
    exact ⟨start, turn, _, found, leaves⟩

end Emit.Allocated

end MiniC
