import MiniC.Proofs.Allocated.Code
import MiniC.Proofs.Semantics.Interference

/-!
# Registers of instructions

The code of an instruction works in registers that are not handed out. Of the bank it changes the
register of the value that the instruction defines, and no other; what it does depends on the
registers of the values that the instruction uses, and on no others. A call is no exception: its
caller's registers are on the stack meanwhile.
-/

namespace MiniC.Emit.Allocated

open Asm Ir List

def Context.held (ctx : Context) (vs : List VReg) : List Reg :=
  vs.filterMap fun v => (ctx.reg v).toOption

def Works (uses defs : List Reg) : Line → Prop
  | .code i => i.isPlain = true ∧ i.reads ⊆ uses ++ [.rax, .rcx, .rdx, .rbp] ∧
    i.changes ⊆ defs ++ [.rax, .rcx, .rdx]
  | _ => False

def isCall : Ir.Instruction → Bool
  | .call .. => true
  | _ => false

variable {ctx : Context} {code : Code} {i : Ir.Instruction}

variable {v : VReg} {r : Reg}

theorem held_cons (found : ctx.reg v = .ok r) (vs : List VReg) :
    ctx.held (v :: vs) = r :: ctx.held vs := by
  rw [Context.held, filterMap_cons, found]
  rfl

theorem mem_held {vs : List VReg} (found : ctx.reg v = .ok r) (mem : v ∈ vs) :
    r ∈ ctx.held vs := mem_filterMap.mpr ⟨v, mem, by rw [found]; rfl⟩

section

open Asm.Instruction

theorem works_copyUnlessSame (dst src : Reg) :
    ∀ line ∈ copyUnlessSame dst src, Works [src] [dst] line := by
  unfold copyUnlessSame
  split <;> simp [copy, Works, isPlain, reads, changes, Operand.reads]

theorem works_binary (op : BinOp) (width : Width) (dst lhs rhs : Reg) :
    ∀ line ∈ binary op width dst lhs rhs, Works [lhs, rhs] [dst] line := by
  cases op <;>
    simp [binary, alu, divide, shift, compare, boolean, logical, copy, test, result, Works, isPlain,
      reads, changes, Operand.reads]

theorem works_unary (op : UnOp) (width : Width) (dst src : Reg) :
    ∀ line ∈ unary op width dst src, Works [src] [dst] line := by
  cases op <;>
    simp [unary, boolean, copy, test, result, Works, isPlain, reads, changes, Operand.reads]

theorem works_jump (uses defs : List Reg) (target : BlockId) :
    ∀ line ∈ ctx.jump target, Works uses defs line := by
  unfold Context.jump
  split <;> simp [Works, isPlain, reads, changes]

theorem works_branch (r : Reg) (yes no : BlockId) :
    ∀ line ∈ branch ctx r yes no, Works [r] [] line := by
  unfold branch
  refine forall_mem_cons.mpr ⟨by simp [test, Works, isPlain, reads, changes, Operand.reads], ?_⟩
  split
  · simp [Works, isPlain, reads, changes]
  · exact forall_mem_cons.mpr ⟨by simp [Works, isPlain, reads, changes], works_jump _ _ no⟩

theorem Coded.works (h : Coded ctx i code) (inner : isCall i = false) :
    ∀ line ∈ code, Works (ctx.held i.uses) (ctx.held i.def?.toList) line := by
  cases h with
  | imm hr | label hr | localAddr hr =>
    rw [Ir.Instruction.def?, Option.toList_some, held_cons hr]
    simp [Works, isPlain, reads, changes, Operand.reads, Address.reads]
  | mov hr ha | keep hr ha =>
    rw [Ir.Instruction.def?, Ir.Instruction.uses, Option.toList_some, held_cons hr, held_cons ha]
    exact works_copyUnlessSame _ _
  | binary hr ha hb =>
    rw [Ir.Instruction.def?, Ir.Instruction.uses, Option.toList_some, held_cons hr, held_cons ha,
      held_cons hb]
    exact works_binary _ _ _ _ _
  | unary hr ha =>
    rw [Ir.Instruction.def?, Ir.Instruction.uses, Option.toList_some, held_cons hr, held_cons ha]
    exact works_unary _ _ _ _
  | cast hr ha | load hr ha =>
    rw [Ir.Instruction.def?, Ir.Instruction.uses, Option.toList_some, held_cons hr, held_cons ha]
    simp [result, Works, isPlain, reads, changes, Address.reads]
  | store ha hb =>
    rw [Ir.Instruction.uses, held_cons ha, held_cons hb]
    simp [Works, isPlain, reads, changes, Address.reads]
  | call => cases inner
  | branch hr =>
    rw [Ir.Instruction.uses, held_cons hr]
    exact works_branch _ _ _
  | jump => exact works_jump _ _ _
  | retValue hr =>
    rw [Ir.Instruction.uses, held_cons hr]
    simp [copy, Works, isPlain, reads, changes, Operand.reads]
  | ret => simp [Works, isPlain, reads, changes]

/-- The register of a result is changed last, or is that of an operand. -/
theorem Coded.defines (h : Coded ctx i code) {r : Reg} (defined : r ∈ ctx.held i.def?.toList) :
    (∃ j, code.getLast? = some (.code j) ∧ r ∈ j.changes) ∨ r ∈ ctx.held i.uses := by
  cases h with
  | imm hr | label hr | localAddr hr | cast hr | load hr =>
    rw [Ir.Instruction.def?, Option.toList_some, held_cons hr] at defined
    exact .inl ⟨_, rfl, defined⟩
  | mov hr ha | keep hr ha =>
    rw [Ir.Instruction.def?, Option.toList_some, held_cons hr] at defined
    unfold copyUnlessSame
    split
    · next same =>
      cases mem_singleton.mp defined
      exact .inr (mem_held (same ▸ ha) mem_cons_self)
    · exact .inl ⟨_, rfl, defined⟩
  | @binary op _ _ _ _ _ _ _ hr | @unary op _ _ _ _ _ hr =>
    rw [Ir.Instruction.def?, Option.toList_some, held_cons hr] at defined
    exact .inl (by cases op <;> exact ⟨_, rfl, defined⟩)
  | call _ hr =>
    rw [Ir.Instruction.def?, Option.toList_some, held_cons hr] at defined
    exact .inl ⟨_, List.getLast?_append .., defined⟩
  | store | branch | jump | retValue | ret => cases defined

end

/-! ## Calls -/

section

variable (host : Host) (scratch : State → Reg → Word)

def stow (s : State) : State := (s.push (s.regs .r10)).push (s.regs .r11)

def pass (args : List Reg) : Code :=
  Reg.arguments.zipWith copy args ++ [.code (.mov .dword .rax (.imm 0))]

/-- A call from a state with the arguments in their registers, and what comes after it. -/
def finish (name : String) (passed : Nat) (width : Width) (dst : Reg) (u : State) : State :=
  let v := ((invoke host scratch name passed u).pop .r11).pop .r10
  v.set dst ((v.regs .rax).cut width)

variable {args : List Reg} {u : State} {off : Reg → Prop}

theorem mem_pass {line : Line} (mem : line ∈ pass args) :
    ∃ w dst src, line = .code (.mov w dst src) ∧ dst ∈ .rax :: Reg.arguments ∧ w ≠ .byte ∧
      src.reads ⊆ args := by
  rcases mem_append.mp mem with mem | mem
  · rw [← map_uncurry_zip_eq_zipWith] at mem
    obtain ⟨pair, zipped, rfl⟩ := mem_map.mp mem
    obtain ⟨arg, src⟩ := of_mem_zip zipped
    exact ⟨.qword, pair.1, .reg pair.2, rfl, mem_cons_of_mem _ arg, by decide,
      cons_subset.mpr ⟨src, nil_subset _⟩⟩
  · cases mem_singleton.mp mem
    exact ⟨.dword, .rax, .imm 0, rfl, mem_cons_self, by decide, nil_subset _⟩

theorem cross_moves {code : Code} (moves : ∀ line ∈ code, ∃ w dst src, line = .code (.mov w dst src))
    (s : State) : ∃ u, cross host scratch s code = some (none, u) ∧ u.world = s.world := by
  induction code generalizing s with
  | nil => exact ⟨s, rfl, rfl⟩
  | cons line rest ih =>
    obtain ⟨⟨w, dst, src, rfl⟩, later⟩ := forall_mem_cons.mp moves
    exact ih later (s.setPart w dst (operand s src))

theorem cross_pass (args : List Reg) (s : State) :
    ∃ u, cross host scratch s (pass args) = some (none, u) ∧ u.world = s.world ∧
      ∀ r ∉ .rax :: Reg.arguments, u.regs r = s.regs r := by
  have moves : ∀ line ∈ pass args, ∃ w dst src, line = .code (.mov w dst src) := by
    intro line mem
    obtain ⟨w, dst, src, same, -⟩ := mem_pass mem
    exact ⟨w, dst, src, same⟩
  obtain ⟨u, ran, world⟩ := cross_moves host scratch moves s
  refine ⟨u, ran, world, fun r other => cross_regs (fun i mem changed => ?_) ran⟩
  obtain ⟨w, dst, src, same, given, -⟩ := mem_pass mem
  cases same
  exact other (mem_singleton.mp changed ▸ given)

variable {host scratch}

theorem call_eq (name : String) (args : List Reg) (width : Width) (dst : Reg) :
    call name args width dst = [.code (.push .r10), .code (.push .r11)] ++ (pass args ++
      [.code (.call name args.length), .code (.pop .r11), .code (.pop .r10), result width dst .rax]) := by
  simp [call, pass]

theorem cross_call {s : State} (ran : cross host scratch (stow s) (pass args) = some (none, u))
    (name : String) (width : Width) (dst : Reg) : cross host scratch s (call name args width dst) =
      some (none, finish host scratch name args.length width dst u) := by
  have kept : cross host scratch s [.code (.push .r10), .code (.push .r11)] = some (none, stow s) := rfl
  rw [call_eq, cross_append kept, cross_append ran]
  rfl

theorem stow_alike {hidden : Word → Prop} {s s' : State} (alike : Alike off hidden s s')
    (seen : ¬ off .rsp) (room : ∀ n < 16, hidden (s.regs .rsp - 16 + BitVec.ofNat 64 n)) :
    Alike off hidden (stow s) (stow s') := by
  refine (alike.push seen _ _ fun n lt => ?_).push seen _ _ fun n lt => ?_
  · have upper : s.regs .rsp - 8 + BitVec.ofNat 64 n = s.regs .rsp - 16 + BitVec.ofNat 64 (8 + n) := by
      rw [BitVec.ofNat_add]
      bv_omega
    rw [upper]
    exact room (8 + n) (by omega)
  · have lower : s.regs .rsp - 8 - 8 = s.regs .rsp - 16 := by bv_omega
    change hidden (s.regs .rsp - 8 - 8 + BitVec.ofNat 64 n)
    rw [lower]
    exact room n (by omega)

theorem load_stow (s : State) {m : Memory}
    (same : ∀ n < 16, m (s.regs .rsp - 16 + BitVec.ofNat 64 n) =
      (stow s).world.memory (s.regs .rsp - 16 + BitVec.ofNat 64 n)) :
    m.load .qword (s.regs .rsp - 16) = s.regs .r11 ∧
      m.load .qword (s.regs .rsp - 16 + 8) = s.regs .r10 := by
  have stored : (stow s).world.memory = (s.world.memory.store .qword (s.regs .rsp - 16 + 8)
      (s.regs .r10)).store .qword (s.regs .rsp - 16) (s.regs .r11) := by
    have upper : s.regs .rsp - 8 = s.regs .rsp - 16 + 8 := by bv_omega
    have lower : s.regs .rsp - 8 - 8 = s.regs .rsp - 16 := by bv_omega
    rw [← upper, ← lower]
    rfl
  rw [stored] at same
  constructor
  · rw [Memory.load_congr fun n lt => same n (by have : n < 8 := lt; omega), Memory.load_store]
  · refine (Memory.load_congr fun n lt => ?_).trans (Memory.load_store s.world.memory _ _)
    have small : n < 8 := lt
    have next : s.regs .rsp - 16 + 8 + BitVec.ofNat 64 n = s.regs .rsp - 16 + BitVec.ofNat 64 (8 + n) := by
      rw [BitVec.ofNat_add, BitVec.add_assoc]
      rfl
    rw [next, same (8 + n) (by omega), Memory.store_of_outside]
    rw [BitVec.add_comm, BitVec.add_sub_cancel, BitVec.toNat_ofNat, Nat.mod_eq_of_lt (by omega)]
    exact Nat.le_add_right 8 n

theorem finish_keeps {hidden : Word → Prop} {s : State} (spares : host.Spares hidden)
    (world : u.world = (stow s).world)
    (kept : ∀ r ∉ .rax :: Reg.arguments, u.regs r = (stow s).regs r)
    (room : ∀ n < 16, hidden (s.regs .rsp - 16 + BitVec.ofNat 64 n)) {name : String} {passed : Nat}
    {width : Width} {dst r : Reg} (mem : r ∈ Reg.bank) (other : r ≠ dst) :
    (finish host scratch name passed width dst u).regs r = s.regs r := by
  obtain ⟨v, called⟩ : ∃ v, v = invoke host scratch name passed u := ⟨_, rfl⟩
  have preserved : ∀ r, r.isPreserved = true → v.regs r = (stow s).regs r := by
    intro r calls
    rw [called, ← kept r (by cases r <;> first | decide | cases calls)]
    cases r <;> first | rfl | cases calls
  have top : v.regs .rsp = s.regs .rsp - 16 := by
    rw [preserved .rsp rfl]
    change s.regs .rsp - 8 - 8 = _
    bv_omega
  obtain ⟨r11, r10⟩ := load_stow s (m := v.world.memory) fun n lt => by
    rw [called, ← world]
    exact spares.keeps _ _ _ _ (room n lt)
  rw [← top] at r11 r10
  rw [finish, ← called, State.set_regs, Function.update_of_ne other]
  rcases mem_cons.mp mem with rfl | mem
  · exact r10
  · rcases mem_cons.mp mem with rfl | mem
    · exact r11
    · obtain ⟨calls, not10, not11, notTop⟩ := (by decide : ∀ r ∈ [Reg.rbx, .r12, .r13, .r14, .r15],
        r.isPreserved = true ∧ r ≠ .r10 ∧ r ≠ .r11 ∧ r ≠ .rsp) r mem
      rw [State.pop, State.set_regs, Function.update_of_ne not10, State.set_regs,
        Function.update_of_ne notTop, State.pop, State.set_regs, Function.update_of_ne not11,
        State.set_regs, Function.update_of_ne notTop, preserved r calls]
      simp [stow, State.push, State.withMemory, notTop]

theorem finish_alike {hidden : Word → Prop} {u' : State} (spares : host.Spares hidden)
    (alike : Alike off hidden u u') (within : ∀ r, off r → r ∈ Reg.bank)
    (blind : ∀ r, scratch u' r = scratch u r) (name : String) (passed : Nat) (width : Width)
    (dst : Reg) :
    Alike (fun r => (((off r ∧ r.isPreserved = true) ∨ r = .r11) ∨ r = .r10) ∧ r ∉ [dst]) hidden
      (finish host scratch name passed width dst u) (finish host scratch name passed width dst u') := by
  have seen : ∀ r ∉ Reg.bank, ¬ off r := fun r other h => other (within r h)
  have called := alike.invoke spares blind name passed fun r mem =>
    seen r ((by decide : ∀ r ∈ Reg.arguments, r ∉ Reg.bank) r mem)
  have popped := (called.pop (fun h => seen .rsp (by decide) h.1) .r11).pop (by
    rintro (h | h)
    · exact seen .rsp (by decide) h.1
    · cases h) .r10
  refine popped.set dst (congrArg (Word.cut width) (popped.regs .rax ?_))
  rintro ((h | h) | h)
  · exact seen .rax (by decide) h.1
  · cases h
  · cases h

end

/-! ## Instructions -/

/-- Whatever calls leave in registers that they do not keep does not depend on the bank or on hidden
memory. -/
def Blind (scratch : State → Reg → Word) (hidden : Word → Prop) : Prop :=
  ∀ s s', Alike (· ∈ Reg.bank) hidden s s' → ∀ r, scratch s' r = scratch s r

def Ready (hidden : Word → Prop) (i : Ir.Instruction) (s : State) : Prop :=
  isCall i = true → ∀ n < 16, hidden (s.regs .rsp - 16 + BitVec.ofNat 64 n)

variable {host : Host} {scratch : State → Reg → Word} {hidden : Word → Prop} {s s' t : State}
  {exit? : Option Label}

theorem Coded.keeps (h : Coded ctx i code) (spares : host.Spares hidden) (ready : Ready hidden i s)
    (ran : cross host scratch s code = some (exit?, t)) (mem : r ∈ Reg.bank)
    (other : r ∉ ctx.held i.def?.toList) : t.regs r = s.regs r := by
  cases calls : isCall i with
  | false =>
    refine cross_regs (fun j listed changed => ?_) ran
    rcases mem_append.mp ((h.works calls _ listed).2.2 changed) with defined | working
    · exact other defined
    · exact (by decide : ∀ r ∈ Reg.bank, r ∉ [.rax, .rcx, .rdx]) r mem working
  | true =>
    cases h with
    | call _ hr =>
      rw [Ir.Instruction.def?, Option.toList_some, held_cons hr] at other
      obtain ⟨u, passed, world, kept⟩ := cross_pass host scratch _ (stow s)
      rw [cross_call passed] at ran
      cases ran
      exact finish_keeps spares world kept (ready calls) mem (ne_of_not_mem_cons other)
    | _ => cases calls

/-- The code of an instruction depends on the registers that it uses. -/
theorem Coded.alike (h : Coded ctx i code) (spares : host.Spares hidden)
    (blind : isCall i = true → Blind scratch hidden) (ready : Ready hidden i s) (alike : Alike (fun r => r ∈ Reg.bank ∧ r ∉ ctx.held i.uses) hidden s s')
    (ran : cross host scratch s code = some (exit?, t)) :
    ∃ t', cross host scratch s' code = some (exit?, t') ∧
      Alike (fun r => r ∈ Reg.bank ∧ r ∉ ctx.held i.uses ∧ r ∉ ctx.held i.def?.toList) hidden t t' := by
  cases calls : isCall i with
  | false =>
    have reads : ∀ line ∈ code, ∃ j, line = .code j ∧ j.isPlain = true ∧
        ∀ r ∈ j.reads, ¬ (r ∈ Reg.bank ∧ r ∉ ctx.held i.uses) := by
      intro line listed
      have works := h.works calls line listed
      cases line with
      | label | directive => exact works.elim
      | code j =>
        refine ⟨j, rfl, works.1, fun r mem off => ?_⟩
        rcases mem_append.mp (works.2.1 mem) with used | working
        · exact off.2 used
        · exact (by decide : ∀ r ∈ Reg.bank, r ∉ [.rax, .rcx, .rdx, .rbp]) r off.1 working
    obtain ⟨t', ran', after⟩ := cross_alike spares reads alike ran
    refine ⟨t', ran', after.weaken fun r off => ⟨off.1.1, off.1.2, fun defined => ?_⟩⟩
    -- code that defines a value runs to its end, and its last line writes the register
    have inner : i.isTerminator = false := by cases i <;> first | rfl | cases defined
    have ends := cross_exit (fun j listed => isEmpty_iff.mp (Bool.and_eq_true_iff.mp
      (all_eq_true.mp (h.straight inner) _ listed)).1) ran
    rcases h.defines defined with ⟨j, last, changed⟩ | used
    · exact off.2 ends j (mem_of_getLast? last) changed
    · exact off.1.2 used
  | true =>
    cases h with
    | @call width dst name args passed r hp hr =>
      have room := ready calls
      have top : ¬ (Reg.rsp ∈ Reg.bank ∧ Reg.rsp ∉ ctx.held args) := fun h => absurd h.1 (by decide)
      have room' : ∀ n < 16, hidden (s'.regs .rsp - 16 + BitVec.ofNat 64 n) := by
        rwa [alike.regs .rsp top]
      have stowed : Alike _ hidden (stow s) (stow s') := stow_alike alike top room
      have reads : ∀ line ∈ pass passed, ∃ j, line = .code j ∧ j.isPlain = true ∧
          ∀ q ∈ j.reads, ¬ (q ∈ Reg.bank ∧ q ∉ ctx.held args) := by
        intro line listed
        obtain ⟨w, arg, src, rfl, -, wide, sources⟩ := mem_pass listed
        refine ⟨_, rfl, rfl, fun q mem off => off.2 ?_⟩
        rw [Asm.Instruction.reads, if_neg wide] at mem
        obtain ⟨v, given, found⟩ := (mapM_eq_ok hp).2 q (sources mem)
        exact mem_held found (mem_of_mem_take given)
      obtain ⟨u, ranU, world, kept⟩ := cross_pass host scratch passed (stow s)
      obtain ⟨u', ranU', world', kept'⟩ := cross_pass host scratch passed (stow s')
      obtain ⟨u'', same, passes⟩ := cross_alike spares reads stowed ranU
      cases ranU'.symm.trans same
      rw [cross_call ranU] at ran
      cases ran
      have after := finish_alike spares passes (fun q off => off.1.1)
        (blind calls u u' (passes.weaken fun q off => off.1.1)) name passed.length width r
      refine ⟨_, cross_call ranU' .., fun q shown => ?_, after.flags, after.world⟩
      by_cases result : q = r
      · exact after.regs q fun off => off.2 (mem_singleton.mpr result)
      · by_cases mem : q ∈ Reg.bank
        · have used : q ∈ ctx.held args := by
            by_contra unused
            refine shown ⟨mem, unused, ?_⟩
            rw [Ir.Instruction.def?, Option.toList_some, held_cons hr]
            exact fun h => result (mem_singleton.mp h)
          rw [finish_keeps spares world' kept' room' mem result,
            finish_keeps spares world kept room mem result, alike.regs q fun off => off.2 used]
        · refine after.regs q ?_
          rintro ⟨(off | rfl) | rfl, -⟩
          · exact mem off.1.1.1
          · exact mem (by decide)
          · exact mem (by decide)
    | _ => cases calls

/-- Code on the lines from `k` up to `stop` that changes no registers of the bank but some, and
depends on none but some: from states that differ in the others control leaves for the same line,
with the same effect. -/
structure Confined (m : Machine Asm.Config) (hidden : Word → Prop) (ready : State → Prop)
    (uses defs : List Reg) (k stop : Nat) : Prop where
  changes : ∀ s d, ready s → Crosses m k stop ⟨k, s⟩ d → ∀ r ∈ Reg.bank, r ∉ defs →
    d.state.regs r = s.regs r
  depends : ∀ s s' d, ready s → Alike (fun r => r ∈ Reg.bank ∧ r ∉ uses) hidden s s' →
    Crosses m k stop ⟨k, s⟩ d → ∃ d', Crosses m k stop ⟨k, s'⟩ d' ∧ d'.pc = d.pc ∧
      Alike (fun r => r ∈ Reg.bank ∧ r ∉ uses ∧ r ∉ defs) hidden d.state d'.state

theorem Coded.confined (h : Coded ctx i code) (spares : host.Spares hidden)
    (blind : isCall i = true → Blind scratch hidden) {text : Code} {k : Nat} (sits : Sits text k code) :
    Confined (machine host scratch hidden text) hidden (Ready hidden i) (ctx.held i.uses)
      (ctx.held i.def?.toList) k (k + code.length) := by
  obtain ⟨plain, stays⟩ := h.within
  constructor
  · intro s d ready run r mem other
    obtain ⟨exit?, ran, -⟩ := (crosses_iff sits plain stays).mp run
    exact h.keeps spares ready ran mem other
  · intro s s' d ready alike run
    obtain ⟨exit?, ran, there⟩ := (crosses_iff sits plain stays).mp run
    obtain ⟨t', ran', after⟩ := h.alike spares blind ready alike ran
    exact ⟨⟨d.pc, t'⟩, (crosses_iff sits plain stays).mpr ⟨exit?, ran', there⟩, rfl, after⟩

end MiniC.Emit.Allocated
