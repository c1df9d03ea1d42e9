import MiniC.Proofs.Semantics.Segments

/-!
# What instructions change and read

An instruction changes no registers but those that it names (`operate_regs`), and what it does
depends on no others than those that it reads: in two states that differ elsewhere it does the same
(`operate_alike`). Both carry over to lines that are crossed one after the other.
-/

namespace MiniC

open List

/-- Hidden memory is out of reach for a host: it lets no access through to it, and calls neither
look at it nor change it. -/
structure Host.Spares (host : Host) (hidden : Word → Prop) : Prop where
  allows : ∀ a w, host.allows a w → ∀ i, i < w.bytes → ¬ hidden (a + BitVec.ofNat 64 i)
  value : ∀ name args m m', (∀ a, ¬ hidden a → m a = m' a) →
    (host.answer name args m).1 = (host.answer name args m').1
  memory : ∀ name args m m', (∀ a, ¬ hidden a → m a = m' a) →
    ∀ a, ¬ hidden a → (host.answer name args m).2 a = (host.answer name args m').2 a
  keeps : ∀ name args m a, hidden a → (host.answer name args m).2 a = m a

namespace Asm

@[simp] theorem State.set_regs (s : State) (r : Reg) (v : Word) :
    (s.set r v).regs = Function.update s.regs r v := rfl

/-! ## Changes -/

section

variable {host : Host} {scratch : State → Reg → Word} {s s' : State}

/-- An instruction keeps the registers that it does not change. -/
theorem operate_regs {i : Instruction} {r : Reg} (done : operate host scratch s i = .ok s')
    (kept : r ∉ i.changes) : s'.regs r = s.regs r := by
  cases i with
  | load w dst src | set cond dst =>
    simp only [operate] at done
    split at done
    · cases done
      exact Function.update_of_ne (ne_of_not_mem_cons kept) _ _
    · cases done
  | store w dst src | jcc cond label =>
    simp only [operate] at done
    split at done
    · cases done
      rfl
    · cases done
  | idiv w src =>
    simp only [operate, idiv] at done
    split at done
    · cases done
    · cases done
      simp only [Instruction.changes, mem_cons, not_mem_nil, or_false, not_or] at kept
      simp [State.forget, kept]
  | call name passed =>
    cases done
    cases r <;> first | rfl | exact absurd (by simp [Instruction.changes]) kept
  | pop dst | leave | push src =>
    cases done
    simp only [Instruction.changes, mem_cons, not_mem_nil, or_false, not_or] at kept
    simp [State.pop, State.push, State.set, State.withMemory, kept]
  | mov | extend | zeroExtend | lea | alu | widen | shift | neg | not =>
    cases done
    exact Function.update_of_ne (ne_of_not_mem_cons kept) _ _
  | cmp | jmp | ret =>
    cases done
    rfl

end

/-! ## Reads -/

def Operand.reads : Operand → List Reg
  | .reg r => [r]
  | .imm _ => []

def Address.reads : Address → List Reg
  | .frame _ => [.rbp]
  | .symbol _ => []
  | .reg r => [r]

namespace Instruction

def isPlain : Instruction → Bool
  | .push _ | .pop _ | .call .. | .leave | .ret => false
  | _ => true

/-- The registers that a plain instruction may depend on. One that replaces a low byte depends on
the rest of its register. -/
def reads : Instruction → List Reg
  | .mov w dst src => if w = .byte then dst :: src.reads else src.reads
  | .load _ _ src | .lea _ src => src.reads
  | .store _ dst src => src :: dst.reads
  | .extend _ _ src | .zeroExtend _ src => [src]
  | .alu _ _ dst src | .cmp _ dst src => dst :: src.reads
  | .widen _ => [.rax, .rdx]
  | .idiv _ src => [.rax, .rdx, src]
  | .shift _ _ dst => [.rcx, dst]
  | .neg _ dst | .not _ dst | .set _ dst => [dst]
  | _ => []

end Instruction

/-- States that differ at most in some registers and in hidden memory. -/
structure Alike (off : Reg → Prop) (hidden : Word → Prop) (s s' : State) : Prop where
  regs : ∀ r, ¬ off r → s'.regs r = s.regs r
  flags : s'.flags = s.flags
  world : s'.world.Agrees hidden s.world

variable {host : Host} {scratch : State → Reg → Word} {off : Reg → Prop} {hidden : Word → Prop}
  {s s' t : State}

namespace Alike

theorem set (h : Alike off hidden s s') (r : Reg) {v v' : Word} (same : v' = v) :
    Alike (fun q => off q ∧ q ∉ [r]) hidden (s.set r v) (s'.set r v') := by
  refine ⟨fun q seen => ?_, h.flags, h.world⟩
  by_cases here : q = r
  · rw [here, State.set_regs, State.set_regs, Function.update_self, Function.update_self, same]
  · rw [State.set_regs, State.set_regs, Function.update_of_ne here, Function.update_of_ne here]
    exact h.regs q fun hidden => seen ⟨hidden, fun mem => here (mem_singleton.mp mem)⟩

theorem weaken {off' : Reg → Prop} (h : Alike off hidden s s') (less : ∀ r, off r → off' r) :
    Alike off' hidden s s' := ⟨fun r seen => h.regs r (mt (less r) seen), h.flags, h.world⟩

theorem forget (h : Alike off hidden s s') : Alike off hidden s.forget s'.forget :=
  ⟨h.regs, rfl, h.world⟩

theorem operand (h : Alike off hidden s s') {src : Operand} (reads : ∀ r ∈ src.reads, ¬ off r) :
    operand s' src = operand s src := by
  cases src with
  | reg r => exact h.regs r (reads r mem_cons_self)
  | imm => rfl

theorem address (h : Alike off hidden s s') {src : Address} (reads : ∀ r ∈ src.reads, ¬ off r) :
    address host s' src = address host s src := by
  cases src with
  | frame offset => rw [Asm.address, Asm.address, h.regs .rbp (reads .rbp mem_cons_self)]
  | symbol => rfl
  | reg r => exact h.regs r (reads r mem_cons_self)

theorem push (h : Alike off hidden s s') (seen : ¬ off .rsp) (v v' : Word)
    (room : ∀ n < 8, hidden (s.regs .rsp - 8 + BitVec.ofNat 64 n)) :
    Alike off hidden (s.push v) (s'.push v') := by
  have top := h.regs .rsp seen
  refine ⟨fun r hr => ?_, h.flags, h.world.calls, fun a shown => ?_⟩
  · simp only [State.push, State.withMemory, State.set_regs, top]
    by_cases here : r = .rsp
    · rw [here, Function.update_self, Function.update_self]
    · rw [Function.update_of_ne here, Function.update_of_ne here, h.regs r hr]
  · have outside : Width.qword.bytes ≤ (a - (s.regs .rsp - 8)).toNat := by
      by_contra inside
      refine shown ?_
      have := room _ (Nat.not_le.mp inside)
      rwa [BitVec.ofNat_toNat, BitVec.setWidth_eq, BitVec.add_comm, BitVec.sub_add_cancel] at this
    simp only [State.push, State.withMemory, top]
    rw [Memory.store_of_outside outside, Memory.store_of_outside outside]
    exact h.world.memory a shown

theorem pop (h : Alike off hidden s s') (seen : ¬ off .rsp) (r : Reg) :
    Alike (fun q => off q ∨ q = r) hidden (s.pop r) (s'.pop r) := by
  refine ⟨fun q shown => ?_, h.flags, h.world⟩
  obtain ⟨shown, other⟩ := not_or.mp shown
  simp only [State.pop, State.set_regs, Function.update_of_ne other, h.regs .rsp seen]
  by_cases here : q = .rsp
  · rw [here, Function.update_self, Function.update_self]
  · rw [Function.update_of_ne here, Function.update_of_ne here, h.regs q shown]

theorem invoke (h : Alike off hidden s s') (spares : host.Spares hidden)
    (blind : ∀ r, scratch s' r = scratch s r) (name : String) (passed : Nat)
    (seen : ∀ r ∈ Reg.arguments, ¬ off r) :
    Alike (fun r => off r ∧ r.isPreserved = true) hidden (invoke host scratch name passed s)
      (invoke host scratch name passed s') := by
  have args : (Reg.arguments.take passed).map s'.regs = (Reg.arguments.take passed).map s.regs :=
    map_congr_left fun r mem => h.regs r (seen r (mem_of_mem_take mem))
  have memory := h.world.memory
  refine ⟨fun r shown => ?_, rfl, ?_, fun a shown => ?_⟩
  · simp only [Asm.invoke, args]
    split
    · exact spares.value _ _ _ _ memory
    · split
      · next kept => exact h.regs r fun hidden => shown ⟨hidden, kept⟩
      · exact blind r
  · simp only [Asm.invoke, args, h.world.calls]
  · simp only [Asm.invoke, args]
    exact spares.memory _ _ _ _ memory a shown

end Alike

/-- An instruction does the same in states that differ only where it does not look. -/
theorem operate_alike {i : Instruction} (spares : host.Spares hidden) (plain : i.isPlain = true)
    (alike : Alike off hidden s s') (reads : ∀ r ∈ i.reads, ¬ off r)
    (done : operate host scratch s i = .ok t) :
    ∃ t', operate host scratch s' i = .ok t' ∧
      Alike (fun r => off r ∧ r ∉ i.changes) hidden t t' := by
  cases i with
  | push | pop | call | leave | ret => cases plain
  | mov w dst src =>
    cases done
    refine ⟨_, rfl, alike.set dst ?_⟩
    cases w with
    | byte =>
      have reads := forall_mem_cons.mp reads
      rw [alike.regs dst reads.1, alike.operand reads.2]
    | dword | qword => rw [alike.operand reads]; rfl
  | load w dst src =>
    simp only [operate] at done ⊢
    rw [alike.address reads]
    split at done
    · next allowed =>
      cases done
      rw [if_pos allowed]
      refine ⟨_, rfl, alike.set dst (Memory.load_congr fun k lt => ?_)⟩
      exact alike.world.memory _ (spares.allows _ w allowed k lt)
    · cases done
  | store w dst src =>
    have reads := forall_mem_cons.mp reads
    simp only [operate] at done ⊢
    rw [alike.address reads.2, alike.regs src reads.1]
    split at done
    · next allowed =>
      cases done
      rw [if_pos allowed]
      refine ⟨_, rfl, fun r seen => alike.regs r fun h => seen ⟨h, not_mem_nil⟩, alike.flags,
        alike.world.calls, fun a seen => Memory.store_congr (alike.world.memory a seen)⟩
    · cases done
  | extend w dst src | zeroExtend dst src =>
    cases done
    exact ⟨_, rfl, alike.set dst (by rw [alike.regs src (reads src mem_cons_self)])⟩
  | lea dst src =>
    cases done
    exact ⟨_, rfl, alike.set dst (alike.address reads)⟩
  | alu op w dst src =>
    cases done
    have reads := forall_mem_cons.mp reads
    refine ⟨_, rfl, (alike.set dst ?_).forget⟩
    rw [alike.regs dst reads.1, alike.operand reads.2]
  | widen w =>
    cases done
    refine ⟨_, rfl, alike.set .rdx ?_⟩
    rw [alike.regs .rax (reads _ mem_cons_self), alike.regs .rdx (reads _ (.tail _ (.head _)))]
  | idiv w src =>
    obtain ⟨rax, rdx, divisor⟩ := by simpa [Instruction.reads] using reads
    simp only [operate, idiv] at done ⊢
    rw [alike.regs .rax rax, alike.regs .rdx rdx, alike.regs src divisor]
    split at done
    · cases done
    · next fits =>
      cases done
      rw [if_neg fits]
      refine ⟨_, rfl, (Alike.weaken ((alike.set .rax ?_).set .rdx ?_) fun r h => ?_).forget⟩
      · rw [alike.regs .rax rax]
      · rw [State.setPart_regs, State.setPart_regs, Function.update_of_ne (by decide),
          Function.update_of_ne (by decide), alike.regs .rdx rdx]
      · simpa [Instruction.changes, and_assoc] using h
  | shift op w dst =>
    cases done
    refine ⟨_, rfl, (alike.set dst ?_).forget⟩
    rw [alike.regs .rcx (reads _ mem_cons_self), alike.regs dst (reads _ (.tail _ (.head _)))]
  | neg w dst =>
    cases done
    refine ⟨_, rfl, (alike.set dst ?_).forget⟩
    rw [alike.regs dst (reads dst mem_cons_self)]
  | not w dst =>
    cases done
    refine ⟨_, rfl, alike.set dst ?_⟩
    rw [alike.regs dst (reads dst mem_cons_self)]
  | set cond dst =>
    simp only [operate, alike.flags] at done ⊢
    split at done
    · cases done
      refine ⟨_, rfl, alike.set dst ?_⟩
      rw [alike.regs dst (reads dst mem_cons_self)]
    · cases done
  | cmp w lhs rhs =>
    cases done
    have reads := forall_mem_cons.mp reads
    refine ⟨_, rfl, ⟨fun r seen => alike.regs r fun h => seen ⟨h, not_mem_nil⟩, ?_, alike.world⟩⟩
    rw [alike.regs lhs reads.1, alike.operand reads.2]
  | jcc cond label =>
    simp only [operate, alike.flags] at done ⊢
    split at done
    · next known =>
      cases done
      rw [if_pos known]
      exact ⟨_, rfl, alike.weaken fun r h => ⟨h, not_mem_nil⟩⟩
    · cases done
  | jmp label =>
    cases done
    exact ⟨_, rfl, alike.weaken fun r h => ⟨h, not_mem_nil⟩⟩

/-! ## Lines one after the other -/

theorem cross_regs {code : List Line} {r : Reg} {exit? : Option Label}
    (kept : ∀ i, Line.code i ∈ code → r ∉ i.changes)
    (ran : cross host scratch s code = some (exit?, t)) : t.regs r = s.regs r := by
  induction code generalizing s with
  | nil =>
    cases ran
    rfl
  | cons line rest ih =>
    have later := fun u => ih (s := u) fun i mem => kept i (mem_cons_of_mem _ mem)
    cases line with
    | label | directive => exact later s ran
    | code i =>
      rw [cross] at ran
      cases done : operate host scratch s i with
      | error => simp [done] at ran
      | ok u =>
        have same := operate_regs done (kept i mem_cons_self)
        simp only [done] at ran
        split at ran
        · cases ran
          exact same
        · exact (later u ran).trans same

/-- Lines do the same in states that differ only where none of them looks. -/
theorem cross_alike {code : List Line} {exit? : Option Label} (spares : host.Spares hidden)
    (plain : ∀ line ∈ code, ∃ i, line = .code i ∧ i.isPlain = true ∧ ∀ r ∈ i.reads, ¬ off r)
    (alike : Alike off hidden s s') (ran : cross host scratch s code = some (exit?, t)) :
    ∃ t', cross host scratch s' code = some (exit?, t') ∧
      Alike (fun r => off r ∧ (exit? = none → ∀ i, Line.code i ∈ code → r ∉ i.changes)) hidden t t' := by
  induction code generalizing s s' off with
  | nil =>
    cases ran
    exact ⟨s', rfl, alike.weaken fun r h => ⟨h, fun _ i mem => absurd mem not_mem_nil⟩⟩
  | cons line rest ih =>
    rw [forall_mem_cons] at plain
    obtain ⟨⟨i, rfl, simple, reads⟩, plain⟩ := plain
    rw [cross] at ran ⊢
    cases done : operate host scratch s i with
    | error => simp [done] at ran
    | ok u =>
      obtain ⟨u', done', alike⟩ := operate_alike spares simple alike reads done
      have exits : i.exit? u' = i.exit? u := by
        cases i with
        | jcc cond label => simp only [Instruction.exit?, alike.flags]
        | _ => rfl
      simp only [done, done', exits] at ran ⊢
      split at ran
      · next leaves =>
        cases ran
        rw [if_pos leaves]
        refine ⟨u', rfl, alike.weaken fun r h => ⟨h.1, fun stays => ?_⟩⟩
        rw [stays] at leaves
        cases leaves
      · next stays =>
        rw [if_neg stays]
        have later : ∀ line ∈ rest, ∃ j, line = .code j ∧ j.isPlain = true ∧
            ∀ r ∈ j.reads, ¬ (off r ∧ r ∉ i.changes) := by
          intro line mem
          obtain ⟨j, same, simple, reads⟩ := plain line mem
          exact ⟨j, same, simple, fun r mem h => reads r mem h.1⟩
        obtain ⟨t', ran', alike⟩ := ih later alike ran
        refine ⟨t', ran', alike.weaken fun r h => ⟨h.1.1, fun ends j mem => ?_⟩⟩
        rcases mem_cons.mp mem with same | mem
        · cases same
          exact h.1.2
        · exact h.2 ends j mem

end Asm

end MiniC
