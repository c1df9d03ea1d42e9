import MiniC.Emit.Allocated
import MiniC.Proofs.Semantics.Flow
import MiniC.Proofs.Typing.Typed

/-!
# The shape of code from blocks

What was written when emission has succeeded: the code of each kind of instruction (`Coded`), the
code of a block between the code of the blocks around it, and the two ends of a function. Facts
about the code follow case by case from here, without looking at how it was put together.
-/

namespace MiniC.Emit.Allocated

open Asm Ir List

/-- The code of an instruction, once its values have registers. -/
inductive Coded (ctx : Context) : Ir.Instruction → Code → Prop where
  | imm {dst : VReg} {value : Int64} {r : Reg} : ctx.reg dst = .ok r →
    Coded ctx (.imm dst value) [.code (.mov .qword r (.imm value))]
  | label {dst : VReg} {symbol : String} {r : Reg} : ctx.reg dst = .ok r →
    Coded ctx (.label dst symbol) [.code (.lea r (.symbol symbol))]
  | localAddr {dst : VReg} {offset : UInt32} {r : Reg} : ctx.reg dst = .ok r →
    Coded ctx (.localAddr dst offset) [.code (.lea r (.frame offset))]
  | mov {dst src : VReg} {r a : Reg} : ctx.reg dst = .ok r → ctx.reg src = .ok a →
    Coded ctx (.mov dst src) (copyUnlessSame r a)
  | binary {op : BinOp} {width : Width} {dst lhs rhs : VReg} {r a b : Reg} : ctx.reg dst = .ok r →
    ctx.reg lhs = .ok a → ctx.reg rhs = .ok b →
    Coded ctx (.binary op width dst lhs rhs) (binary op width r a b)
  | unary {op : UnOp} {width : Width} {dst src : VReg} {r a : Reg} : ctx.reg dst = .ok r →
    ctx.reg src = .ok a → Coded ctx (.unary op width dst src) (unary op width r a)
  | keep {dst src : VReg} {r a : Reg} : ctx.reg dst = .ok r → ctx.reg src = .ok a →
    Coded ctx (.cast .qword dst src) (copyUnlessSame r a)
  | cast {width : Width} {dst src : VReg} {r a : Reg} : ctx.reg dst = .ok r →
    ctx.reg src = .ok a → Coded ctx (.cast width dst src) [result width r a]
  | load {width : Width} {dst addr : VReg} {r a : Reg} : ctx.reg dst = .ok r →
    ctx.reg addr = .ok a → Coded ctx (.load width dst addr) [.code (.load width r (.reg a))]
  | store {width : Width} {addr src : VReg} {a b : Reg} : ctx.reg addr = .ok a →
    ctx.reg src = .ok b → Coded ctx (.store width addr src) [.code (.store width (.reg a) b)]
  | call {width : Width} {dst : VReg} {name : String} {args : List VReg} {passed : List Reg}
    {r : Reg} : (args.take Reg.arguments.length).mapM ctx.reg = .ok passed → ctx.reg dst = .ok r →
    Coded ctx (.call width dst name args) (call name passed width r)
  | branch {test : VReg} {yes no : BlockId} {r : Reg} : ctx.reg test = .ok r →
    Coded ctx (.branch test yes no) (branch ctx r yes no)
  | jump {target : BlockId} : Coded ctx (.jump target) (ctx.jump target)
  | retValue {value : VReg} {r : Reg} : ctx.reg value = .ok r →
    Coded ctx (.ret (some value)) [copy .rax r, .code (.jmp ctx.returnLabel)]
  | ret : Coded ctx (.ret none) [.code (.jmp ctx.returnLabel)]

variable {ctx : Context} {code : Code} {f : Ir.Function}

variable {i : Ir.Instruction} {is : List Ir.Instruction} {P : Code → Prop} {b : Block}
  {before after : List Block} {allocation : Allocation}

/-- The code that is written for an instruction has a form of `Coded`. -/
theorem instruction_coded (made : instruction ctx i = .ok code) :
    Coded ctx i code := by
  cases i with
  | imm | label | localAddr =>
    obtain ⟨r, hr, made⟩ := bind_eq_ok.mp made
    cases made
    constructor
    exact hr
  | mov | unary | load | store =>
    obtain ⟨r, hr, made⟩ := bind_eq_ok.mp made
    obtain ⟨a, ha, made⟩ := bind_eq_ok.mp made
    cases made
    constructor
    · exact hr
    · exact ha
  | cast width =>
    cases width
    all_goals
      obtain ⟨r, hr, made⟩ := bind_eq_ok.mp made
      obtain ⟨a, ha, made⟩ := bind_eq_ok.mp made
      cases made
    · exact .cast hr ha
    · exact .cast hr ha
    · exact .keep hr ha
  | binary =>
    obtain ⟨r, hr, made⟩ := bind_eq_ok.mp made
    obtain ⟨a, ha, made⟩ := bind_eq_ok.mp made
    obtain ⟨b, hb, made⟩ := bind_eq_ok.mp made
    cases made
    exact .binary hr ha hb
  | call =>
    obtain ⟨passed, hp, made⟩ := bind_eq_ok.mp made
    obtain ⟨r, hr, made⟩ := bind_eq_ok.mp made
    cases made
    exact .call hp hr
  | branch =>
    obtain ⟨r, hr, made⟩ := bind_eq_ok.mp made
    cases made
    exact .branch hr
  | jump =>
    cases made
    exact .jump
  | ret value =>
    cases value with
    | none =>
      cases made
      exact .ret
    | some value =>
      obtain ⟨r, hr, made⟩ := bind_eq_ok.mp made
      cases made
      exact .retValue hr

def isStraight : Line → Bool
  | .code i => i.targets.isEmpty && i.continues
  | _ => false

theorem isStraight_copyUnlessSame (dst src : Reg) : (copyUnlessSame dst src).all isStraight = true := by
  unfold copyUnlessSame
  split <;> rfl

theorem isStraight_call (name : String) (args : List Reg) (width : Width) (dst : Reg) :
    (call name args width dst).all isStraight = true := by
  have copies : ∀ regs : List Reg, (regs.zipWith copy args).all isStraight = true := by
    intro regs
    refine all_eq_true.mpr fun line mem => ?_
    rw [← map_uncurry_zip_eq_zipWith] at mem
    obtain ⟨pair, -, rfl⟩ := mem_map.mp mem
    rfl
  simp only [call, all_append, copies]
  rfl

theorem Coded.straight (h : Coded ctx i code) (inner : i.isTerminator = false) :
    code.all isStraight = true := by
  cases h with
  | imm | label | localAddr | cast | load | store => rfl
  | mov | keep => exact isStraight_copyUnlessSame ..
  | @binary op => cases op <;> rfl
  | @unary op => cases op <;> rfl
  | call => exact isStraight_call ..
  | branch | jump | retValue | ret => cases inner

theorem Coded.within (h : Coded ctx i code) :
    (∀ label, Line.label label ∉ code) ∧ Line.code .ret ∉ code := by
  cases inner : i.isTerminator with
  | false =>
    have straight := all_eq_true.mp (h.straight inner)
    exact ⟨fun label mem => Bool.noConfusion (straight _ mem),
      fun mem => Bool.noConfusion (straight _ mem)⟩
  | true =>
    cases h with
    | branch =>
      unfold Allocated.branch Context.jump
      split_ifs <;> simp [test]
    | jump =>
      unfold Context.jump
      split_ifs <;> simp
    | retValue | ret => simp [copy]
    | _ => cases inner

/-! ## Instructions and blocks in order -/

theorem instructions_concat {first : List Ir.Instruction} {last : Ir.Instruction}
    (made : instructions ctx (first ++ [last]) = .ok code) :
    ∃ lead tail, instructions ctx first = .ok lead ∧ Coded ctx last tail ∧ code = lead ++ tail := by
  induction first generalizing code with
  | nil =>
    obtain ⟨tail, ht, made⟩ := bind_eq_ok.mp made
    cases made
    exact ⟨[], tail, rfl, instruction_coded ht, append_nil _⟩
  | cons i first ih =>
    obtain ⟨c, hc, made⟩ := bind_eq_ok.mp made
    obtain ⟨others, ho, made⟩ := bind_eq_ok.mp made
    cases made
    obtain ⟨lead, tail, hl, ht, rfl⟩ := ih ho
    refine ⟨c ++ lead, tail, ?_, ht, (append_assoc ..).symm⟩
    rw [instructions, hc, hl]
    rfl

theorem instructions_mem (made : instructions ctx is = .ok code) (mem : i ∈ is) :
    ∃ pre c post, instruction ctx i = .ok c ∧ code = pre ++ (c ++ post) := by
  induction is generalizing code with
  | nil => cases mem
  | cons j rest ih =>
    obtain ⟨c, hc, made⟩ := bind_eq_ok.mp made
    obtain ⟨others, ho, made⟩ := bind_eq_ok.mp made
    cases made
    rcases mem_cons.mp mem with rfl | mem
    · exact ⟨[], c, others, hc, rfl⟩
    · obtain ⟨pre, c', post, found, rfl⟩ := ih ho mem
      exact ⟨c ++ pre, c', post, found, (append_assoc ..).symm⟩

theorem instructions_all (nil : P []) (append : ∀ {a b}, P a → P b → P (a ++ b))
    (each : ∀ i ∈ is, ∀ {c}, Coded ctx i c → P c)
    (made : instructions ctx is = .ok code) : P code := by
  induction is generalizing code with
  | nil =>
    cases made
    exact nil
  | cons i rest ih =>
    rw [forall_mem_cons] at each
    obtain ⟨c, hc, made⟩ := bind_eq_ok.mp made
    obtain ⟨others, ho, made⟩ := bind_eq_ok.mp made
    cases made
    exact append (each.1 (instruction_coded hc)) (ih each.2 ho)

theorem blocks_next (next : Option BlockId) (bs : List Block) :
    blocks { ctx with next } bs = blocks ctx bs := by
  cases bs <;> rfl

theorem blocks_cons {rest : List Block} (made : blocks ctx (b :: rest) = .ok code) :
    ∃ body post, instructions { ctx with next := rest.head?.map (·.id) } b.instructions = .ok body ∧
      blocks ctx rest = .ok post ∧ code = .label (ctx.blockLabel b.id) :: body ++ post := by
  obtain ⟨body, hb, made⟩ := bind_eq_ok.mp made
  obtain ⟨post, hp, made⟩ := bind_eq_ok.mp made
  cases made
  exact ⟨body, post, hb, (blocks_next ..).symm.trans hp, rfl⟩

theorem blocks_append (made : blocks ctx (before ++ after) = .ok code) :
    ∃ pre post, blocks ctx after = .ok post ∧ code = pre ++ post := by
  induction before generalizing code with
  | nil => exact ⟨[], code, made, rfl⟩
  | cons b before ih =>
    obtain ⟨body, others, -, ho, rfl⟩ := blocks_cons made
    obtain ⟨pre, post, hp, rfl⟩ := ih ho
    exact ⟨_, post, hp, (append_assoc ..).symm⟩

theorem blocks_all (nil : P []) (append : ∀ {a b}, P a → P b → P (a ++ b))
    (label : ∀ id, P [.label (ctx.blockLabel id)]) {bs : List Block}
    (each : ∀ b ∈ bs, ∀ i ∈ b.instructions, ∀ {next c}, Coded { ctx with next } i c → P c)
    (made : blocks ctx bs = .ok code) : P code := by
  induction bs generalizing code with
  | nil =>
    cases made
    exact nil
  | cons b rest ih =>
    rw [forall_mem_cons] at each
    obtain ⟨body, post, hb, hp, rfl⟩ := blocks_cons made
    refine append (append (label b.id) (instructions_all nil append (fun i mem c h => ?_) hb))
      (ih each.2 hp)
    exact each.1 i mem h

/-! ## Functions -/

theorem mapM_eq_ok {α β : Type} {g : α → Except EmitError β} {as : List α} {bs : List β}
    (made : as.mapM g = .ok bs) : bs.length = as.length ∧ ∀ b ∈ bs, ∃ a ∈ as, g a = .ok b := by
  induction as generalizing bs with
  | nil =>
    cases made
    exact ⟨rfl, forall_mem_nil _⟩
  | cons a as ih =>
    rw [mapM_cons] at made
    obtain ⟨b, hb, made⟩ := bind_eq_ok.mp made
    obtain ⟨rest, hr, made⟩ := bind_eq_ok.mp made
    cases made
    obtain ⟨size, each⟩ := ih hr
    refine ⟨congrArg (· + 1) size, forall_mem_cons.mpr ⟨⟨a, mem_cons_self, hb⟩, ?_⟩⟩
    intro b mem
    obtain ⟨a, mem, found⟩ := each b mem
    exact ⟨a, mem_cons_of_mem _ mem, found⟩

def reserve (f : Ir.Function) : Code :=
  if f.stackSize > 0 then [.code (.alu .sub .qword .rsp (.imm (.ofNat f.stackSize.toNat)))] else []

theorem prologue_coded (made : prologue ctx f = .ok code) :
    ∃ params, code = [.code (.push .rbp), .code (.mov .qword .rbp (.reg .rsp))] ++ reserve f ++
        (saved ctx.allocation).map (fun reg => .code (.push reg)) ++
        alignment .sub (saved ctx.allocation) ++ params ∧
      ∀ line ∈ params, ∃ v r arg, ctx.reg v = .ok r ∧ arg ∈ Reg.arguments ∧ line = copy r arg := by
  simp only [prologue] at made
  obtain ⟨params, moved, made⟩ := bind_eq_ok.mp made
  cases made
  refine ⟨params, rfl, fun line mem => ?_⟩
  obtain ⟨pair, zipped, found⟩ := (mapM_eq_ok moved).2 line mem
  obtain ⟨r, hr, made⟩ := bind_eq_ok.mp found
  cases made
  exact ⟨pair.1, r, pair.2, hr, (of_mem_zip zipped).2, rfl⟩

theorem emit_coded (made : emit allocation f = .ok code) :
    ∃ head body, prologue ⟨f.name, allocation, none⟩ f = .ok head ∧
      blocks ⟨f.name, allocation, none⟩ f.blocks = .ok body ∧
      code = functionHead f.name f.isStatic ++ head ++ body ++ epilogue ⟨f.name, allocation, none⟩ := by
  obtain ⟨head, hh, made⟩ := bind_eq_ok.mp made
  obtain ⟨body, hb, made⟩ := bind_eq_ok.mp made
  cases made
  exact ⟨head, body, hh, hb, rfl⟩

theorem emit_split {text : Code} (made : emit allocation f = .ok text)
    (split : f.blocks = before ++ b :: after) :
    ∃ pre code post, instructions ⟨f.name, allocation, after.head?.map (·.id)⟩ b.instructions = .ok code ∧
      blocks ⟨f.name, allocation, none⟩ after = .ok post ∧
      text = pre ++ (.label (Context.blockLabel ⟨f.name, allocation, none⟩ b.id) :: code ++
        (post ++ epilogue ⟨f.name, allocation, none⟩)) := by
  obtain ⟨head, body, -, hb, rfl⟩ := emit_coded made
  rw [split] at hb
  obtain ⟨pre, rest, hr, rfl⟩ := blocks_append hb
  obtain ⟨code, post, hc, hp, rfl⟩ := blocks_cons hr
  refine ⟨functionHead f.name f.isStatic ++ head ++ pre, code, post, hc, hp, ?_⟩
  simp only [append_assoc, cons_append]

end MiniC.Emit.Allocated
