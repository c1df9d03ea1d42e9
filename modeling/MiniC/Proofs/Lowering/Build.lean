import MiniC.Ir.Lowering
import MiniC.Proofs.Computations
import MiniC.Typing.Error
import MiniC.Proofs.Semantics.Blocks
import Mathlib.Logic.Relation

/-!
# The text of a construction

A `Build` is read as a text: its instructions so far, and the places where its blocks
start. Both only grow: an instruction goes to the end of the text, and a block starts
there. `Grows` says that a construction went on by such changes; whatever they keep, a
whole construction keeps.

`owed` counts the blocks that have a name and have not started. Naming a block adds one
and starting it takes it away, so a construction that owes nothing in the end has started
every block it named, and none twice.
-/

namespace MiniC.Ir

open List

namespace Function

def places (f : Function) : List (BlockId × Nat) := placesFrom 0 f.blocks

end Function

theorem placesFrom_append (k : Nat) (first rest : List Block) :
    placesFrom k (first ++ rest) =
      placesFrom k first ++ placesFrom (k + (first.flatMap (·.instructions)).length) rest := by
  induction first generalizing k with
  | nil => simp [placesFrom]
  | cons b first ih =>
    simp only [cons_append, placesFrom, ih, flatMap_cons, length_append, Nat.add_assoc]

namespace Instruction

/-- What lowering keeps to: arithmetic on more than a byte, and at most six arguments. -/
def Legal : Instruction → Prop
  | .binary _ width _ _ _ | .unary _ width _ _ => width ≠ .byte
  | .call _ _ _ args => args.length ≤ maxArguments
  | _ => True

end Instruction

namespace Lowering

namespace Build

def code (b : Build) : List Instruction := b.blocks.flatMap (·.instructions)

def places (b : Build) : List (BlockId × Nat) := placesFrom 0 b.blocks

def isOpen (b : Build) : Bool := b.current.isSome

def withVReg (b : Build) : Build := { b with nextVReg := b.nextVReg + 1 }

def withBlock (b : Build) : Build := { b with nextBlock := b.nextBlock + 1 }

def withCase (b : Build) (label : Nat) (target : BlockId) : Build :=
  { b with cases := (label, target) :: b.cases }

def define (b : Build) (i : VReg → Instruction) : Build := b.withVReg.emit (i ⟨b.nextVReg⟩)

/-! ## Instructions and blocks -/

section Text

variable (b : Build) (i : Instruction) (id : BlockId) (label : Nat)

private theorem blocks_append (block : OpenBlock) (closed : b.current = none) :
    (b.append block i).blocks = b.blocks ++ [⟨block.id, block.reversed.reverse ++ [i]⟩] := by
  unfold append
  split <;> simp [blocks, closed, OpenBlock.toBlock]

private theorem blocks_append_current (block : OpenBlock) :
    (b.append block i).blocks =
      b.closed.reverse ++ [⟨block.id, block.reversed.reverse ++ [i]⟩] := by
  unfold append
  split <;> simp [blocks, OpenBlock.toBlock]

@[simp] theorem code_emit : (b.emit i).code = b.code ++ [i] := by
  unfold emit code
  cases h : b.current with
  | none =>
    rw [blocks_append _ _ _ rfl]
    simp [blocks, h]
  | some block =>
    rw [blocks_append_current]
    simp [blocks, h, OpenBlock.toBlock]

theorem places_emit : (b.emit i).places =
    b.places ++ if b.isOpen then [] else [(⟨b.nextBlock⟩, b.code.length)] := by
  unfold emit places code isOpen
  cases h : b.current with
  | none =>
    rw [blocks_append _ _ _ rfl, placesFrom_append]
    simp [blocks, h, placesFrom]
  | some block =>
    rw [blocks_append_current, placesFrom_append]
    simp [blocks, h, OpenBlock.toBlock, placesFrom_append, placesFrom]

@[simp] theorem isOpen_emit : (b.emit i).isOpen = !i.isTerminator := by
  unfold emit append isOpen
  split <;> split <;> simp_all

@[simp] theorem nextVReg_emit : (b.emit i).nextVReg = b.nextVReg := by
  unfold emit append
  split <;> split <;> rfl

theorem nextBlock_emit : (b.emit i).nextBlock = b.nextBlock + if b.isOpen then 0 else 1 := by
  unfold emit append isOpen
  split <;> split <;> simp_all

@[simp] theorem cases_emit : (b.emit i).cases = b.cases := by
  unfold emit append
  split <;> split <;> rfl

theorem start_eq : b.start id =
    { (if b.isOpen then b.emit (.jump id) else b) with current := some { id } } := rfl

@[simp] theorem isOpen_start : (b.start id).isOpen = true := rfl

@[simp] theorem nextVReg_start : (b.start id).nextVReg = b.nextVReg := by
  rw [start_eq]
  cases b.isOpen <;> simp

@[simp] theorem nextBlock_start : (b.start id).nextBlock = b.nextBlock := by
  rw [start_eq]
  cases h : b.isOpen <;> simp [nextBlock_emit, h]

@[simp] theorem cases_start : (b.start id).cases = b.cases := by
  rw [start_eq]
  cases b.isOpen <;> simp

private theorem blocks_open (h : b.isOpen = false) :
    { b with current := some { id } }.blocks = b.blocks ++ [⟨id, []⟩] := by
  cases hc : b.current with
  | none => simp [blocks, hc, OpenBlock.toBlock]
  | some _ => simp [isOpen, hc] at h

theorem code_start : (b.start id).code = b.code ++ if b.isOpen then [.jump id] else [] := by
  rw [start_eq]
  cases h : b.isOpen with
  | false => simp [code, blocks_open _ _ h]
  | true =>
    have closed : (b.emit (.jump id)).isOpen = false := by rw [isOpen_emit]; rfl
    rw [if_pos rfl, if_pos rfl, ← code_emit, code, blocks_open _ _ closed]
    simp [code]

theorem places_start : (b.start id).places = b.places ++ [(id, (b.start id).code.length)] := by
  rw [code_start, start_eq]
  cases h : b.isOpen with
  | false =>
    simp [places, code, blocks_open _ _ h, placesFrom_append, placesFrom]
  | true =>
    have closed : (b.emit (.jump id)).isOpen = false := by rw [isOpen_emit]; rfl
    have opened := places_emit b (.jump id)
    rw [h, if_pos rfl, append_nil] at opened
    rw [if_pos rfl, if_pos rfl, ← code_emit, ← opened, places, blocks_open _ _ closed,
      placesFrom_append]
    simp [placesFrom, code, places]

@[simp] theorem code_withVReg : b.withVReg.code = b.code := rfl
@[simp] theorem places_withVReg : b.withVReg.places = b.places := rfl
@[simp] theorem isOpen_withVReg : b.withVReg.isOpen = b.isOpen := rfl
@[simp] theorem nextVReg_withVReg : b.withVReg.nextVReg = b.nextVReg + 1 := rfl
@[simp] theorem nextBlock_withVReg : b.withVReg.nextBlock = b.nextBlock := rfl
@[simp] theorem cases_withVReg : b.withVReg.cases = b.cases := rfl

@[simp] theorem code_define (i : VReg → Instruction) :
    (b.define i).code = b.code ++ [i ⟨b.nextVReg⟩] := code_emit _ _
@[simp] theorem isOpen_define (i : VReg → Instruction) :
    (b.define i).isOpen = !(i ⟨b.nextVReg⟩).isTerminator := isOpen_emit _ _
@[simp] theorem nextVReg_define (i : VReg → Instruction) :
    (b.define i).nextVReg = b.nextVReg + 1 := nextVReg_emit _ _
@[simp] theorem cases_define (i : VReg → Instruction) : (b.define i).cases = b.cases :=
  cases_emit _ _

@[simp] theorem code_withBlock : b.withBlock.code = b.code := rfl
@[simp] theorem places_withBlock : b.withBlock.places = b.places := rfl
@[simp] theorem isOpen_withBlock : b.withBlock.isOpen = b.isOpen := rfl
@[simp] theorem nextVReg_withBlock : b.withBlock.nextVReg = b.nextVReg := rfl
@[simp] theorem nextBlock_withBlock : b.withBlock.nextBlock = b.nextBlock + 1 := rfl
@[simp] theorem cases_withBlock : b.withBlock.cases = b.cases := rfl

@[simp] theorem code_withCase : (b.withCase label id).code = b.code := rfl
@[simp] theorem places_withCase : (b.withCase label id).places = b.places := rfl
@[simp] theorem isOpen_withCase : (b.withCase label id).isOpen = b.isOpen := rfl
@[simp] theorem nextVReg_withCase : (b.withCase label id).nextVReg = b.nextVReg := rfl
@[simp] theorem nextBlock_withCase : (b.withCase label id).nextBlock = b.nextBlock := rfl
@[simp] theorem cases_withCase : (b.withCase label id).cases = (label, id) :: b.cases := rfl

end Text

/-! ## Growth -/

/-- One change of a construction. -/
inductive Change : Build → Build → Prop where
  | emit (b : Build) {i : Instruction} (legal : i.Legal) : Change b (b.emit i)
  | start (b : Build) (id : BlockId) : Change b (b.start id)
  | vreg (b : Build) : Change b b.withVReg
  | block (b : Build) : Change b b.withBlock
  | case (b : Build) (label : Nat) (target : BlockId) : Change b (b.withCase label target)

/-- A construction goes on by changes. -/
abbrev Grows : Build → Build → Prop := Relation.ReflTransGen Change

variable {b b' : Build}

theorem Grows.code_prefix (h : b.Grows b') : b.code <+: b'.code := by
  induction h with
  | refl => exact prefix_refl _
  | tail _ change ih =>
    refine ih.trans ?_
    cases change with
    | emit _ => rw [code_emit]; exact prefix_append _ _
    | start => rw [code_start]; exact prefix_append _ _
    | vreg | block | case => exact prefix_refl _

theorem Grows.places_prefix (h : b.Grows b') : b.places <+: b'.places := by
  induction h with
  | refl => exact prefix_refl _
  | tail _ change ih =>
    refine ih.trans ?_
    cases change with
    | emit _ => rw [places_emit]; exact prefix_append _ _
    | start => rw [places_start]; exact prefix_append _ _
    | vreg | block | case => exact prefix_refl _

theorem Grows.nextVReg_le (h : b.Grows b') : b.nextVReg ≤ b'.nextVReg := by
  induction h with
  | refl => exact Nat.le_refl _
  | tail _ change ih =>
    refine ih.trans ?_
    cases change <;> simp

theorem Grows.nextBlock_le (h : b.Grows b') : b.nextBlock ≤ b'.nextBlock := by
  induction h with
  | refl => exact Nat.le_refl _
  | tail _ change ih =>
    refine ih.trans ?_
    cases change <;> simp [nextBlock_emit]

theorem grows_define {i : VReg → Instruction} (legal : (i ⟨b.nextVReg⟩).Legal) :
    b.Grows (b.define i) :=
  (Relation.ReflTransGen.single (.vreg b)).tail (.emit _ legal)

/-! ## Blocks that are owed -/

def one (block id : BlockId) : Int := if id = block then 1 else 0

def owed (b : Build) (id : BlockId) : Int :=
  (if id.index < b.nextBlock then 1 else 0) - ((b.places.map (·.1)).count id : Nat)

private theorem index_lt_succ {id : BlockId} {n : Nat} :
    id.index < n + 1 ↔ id.index < n ∨ id = ⟨n⟩ := by
  rw [Nat.lt_succ_iff_lt_or_eq]
  exact or_congr_right ⟨fun h => h ▸ rfl, fun h => h ▸ rfl⟩

@[simp] theorem owed_emit (b : Build) (i : Instruction) (id : BlockId) :
    (b.emit i).owed id = b.owed id := by
  unfold owed
  rw [places_emit, nextBlock_emit]
  cases b.isOpen with
  | true => simp
  | false =>
    simp only [Bool.false_eq_true, if_false, index_lt_succ, map_append, map_cons, map_nil,
      count_append, count_singleton, beq_iff_eq]
    by_cases fresh : id = ⟨b.nextBlock⟩
    · subst fresh
      simp
    · simp [fresh, Ne.symm fresh]

@[simp] theorem owed_start (b : Build) (block id : BlockId) :
    (b.start block).owed id = b.owed id - one block id := by
  unfold owed one
  rw [places_start, nextBlock_start]
  simp only [map_append, map_cons, map_nil, count_append,
    count_singleton, beq_iff_eq, eq_comm (a := block)]
  split <;> push_cast <;> omega

@[simp] theorem owed_withVReg (b : Build) (id : BlockId) : b.withVReg.owed id = b.owed id := rfl

@[simp] theorem owed_define (b : Build) (i : VReg → Instruction) (id : BlockId) :
    (b.define i).owed id = b.owed id := owed_emit _ _ _

@[simp] theorem owed_withCase (b : Build) (label : Nat) (target id : BlockId) :
    (b.withCase label target).owed id = b.owed id := rfl

@[simp] theorem owed_withBlock (b : Build) (id : BlockId) :
    b.withBlock.owed id = b.owed id + one ⟨b.nextBlock⟩ id := by
  unfold owed one
  rw [nextBlock_withBlock, places_withBlock]
  by_cases fresh : id = ⟨b.nextBlock⟩
  · subst fresh
    simp
    omega
  · rw [if_congr index_lt_succ rfl rfl]
    simp [fresh]

end Build

/-! ## Steps of the construction -/

section Steps

variable {α β : Type} {b b' b'' : Build}

variable {x : Lower α} {f : α → Lower β} {a : α} {u : Unit} {id : BlockId} {v : VReg}
  {i : VReg → Instruction} {o : Option α}

theorem unit_eq_some : some ((), b) = some (u, b') ↔ b = b' := by
  rw [Option.some.injEq, Prod.mk.injEq]
  exact ⟨fun h => h.2, fun h => ⟨rfl, h⟩⟩

@[simp] theorem emit_eq_some {i : Instruction} :
    emit i b = some (u, b') ↔ b.emit i = b' := unit_eq_some

@[simp] theorem start_eq_some :
    start id b = some (u, b') ↔ b.start id = b' := unit_eq_some

@[simp] theorem vreg_eq_some :
    vreg b = some (v, b') ↔ ⟨b.nextVReg⟩ = v ∧ b.withVReg = b' := by
  change some (_, _) = some (v, b') ↔ _
  rw [Option.some.injEq, Prod.mk.injEq]
  rfl

@[simp] theorem newBlock_eq_some :
    newBlock b = some (id, b') ↔ ⟨b.nextBlock⟩ = id ∧ b.withBlock = b' := by
  change some (_, _) = some (id, b') ↔ _
  rw [Option.some.injEq, Prod.mk.injEq]
  rfl

@[simp] theorem define_eq_some :
    define i b = some (v, b') ↔ ⟨b.nextVReg⟩ = v ∧ b.define i = b' := by
  simp only [define, bind_eq_some, vreg_eq_some, emit_eq_some, pure_eq_some]
  constructor
  · rintro ⟨_, _, ⟨rfl, rfl⟩, _, _, rfl, rfl, rfl⟩
    exact ⟨rfl, rfl⟩
  · rintro ⟨rfl, rfl⟩
    exact ⟨_, _, ⟨rfl, rfl⟩, (), _, rfl, rfl, rfl⟩

@[simp] theorem imm_eq_some {value : Int64} :
    imm value b = some (v, b') ↔ ⟨b.nextVReg⟩ = v ∧ b.define (.imm · value) = b' :=
  define_eq_some

@[simp] theorem case_eq_some {label : Nat} {target : BlockId} :
    (modify fun b => { b with cases := (label, target) :: b.cases } : Lower Unit) b = some (u, b') ↔
      b.withCase label target = b' := unit_eq_some

def Build.enter (b : Build) (label : Option Nat) : Build :=
  ((label.bind (b.cases.lookup ·)).map b.start).getD b

@[simp] theorem startCase_eq_some {label : Option Nat} :
    startCase label b = some (u, b') ↔ b.enter label = b' := by
  have : startCase label b = some ((), b.enter label) := by
    refine bind_eq_some.mpr ⟨b, b, rfl, ?_⟩
    unfold Build.enter
    cases label.bind (b.cases.lookup ·) <;> rfl
  rw [this, unit_eq_some]

theorem emit_bind {i : Instruction} {f : Unit → Lower β} :
    (emit i >>= f) b = f () (b.emit i) := rfl

theorem start_bind {f : Unit → Lower β} : (start id >>= f) b = f () (b.start id) := rfl

theorem vreg_bind {f : VReg → Lower β} : (vreg >>= f) b = f ⟨b.nextVReg⟩ b.withVReg := rfl

theorem newBlock_bind {f : BlockId → Lower β} :
    (newBlock >>= f) b = f ⟨b.nextBlock⟩ b.withBlock := rfl

theorem define_bind {f : VReg → Lower β} :
    (define i >>= f) b = f ⟨b.nextVReg⟩ (b.define i) := rfl

theorem imm_bind {value : Int64} {f : VReg → Lower β} :
    (imm value >>= f) b = f ⟨b.nextVReg⟩ (b.define (.imm · value)) := rfl

theorem case_bind {label : Nat} {target : BlockId} {f : Unit → Lower β} :
    ((modify fun b => { b with cases := (label, target) :: b.cases } : Lower Unit) >>= f) b =
      f () (b.withCase label target) := rfl

/-- A step of the construction succeeds, by legal changes, and what it leaves is `Q`. -/
def Makes (x : Lower α) (b : Build) (Q : α → Build → Prop) : Prop :=
  ∃ a b', x b = some (a, b') ∧ b.Grows b' ∧ Q a b'

variable {Q : α → Build → Prop}

theorem Makes.of_eq_some (h : Makes x b Q) (made : x b = some (a, b')) :
    b.Grows b' ∧ Q a b' := by
  obtain ⟨a', c, made', grows, hq⟩ := h
  rw [made] at made'
  cases made'
  exact ⟨grows, hq⟩

theorem Makes.pure (h : Q a b) : Makes (Pure.pure a) b Q := ⟨a, b, rfl, .refl, h⟩

theorem Makes.bind {R : β → Build → Prop} (first : Makes x b Q)
    (rest : ∀ a b', b.Grows b' → Q a b' → Makes (f a) b' R) : Makes (x >>= f) b R := by
  obtain ⟨a, b', hx, grows, hq⟩ := first
  obtain ⟨c, b'', hf, grows', hr⟩ := rest a b' grows hq
  exact ⟨c, b'', bind_eq_some.mpr ⟨a, b', hx, hf⟩, grows.trans grows', hr⟩

theorem Makes.mono {R : α → Build → Prop} (h : Makes x b Q)
    (weaker : ∀ a b', Q a b' → R a b') : Makes x b R := by
  obtain ⟨a, b', hx, grows, hq⟩ := h
  exact ⟨a, b', hx, grows, weaker a b' hq⟩

theorem makes_emit {i : Instruction} (legal : i.Legal) :
    Makes (emit i) b fun _ c => c = b.emit i :=
  ⟨(), _, rfl, .single (.emit b legal), rfl⟩

theorem makes_start {P : Unit → Build → Prop} (h : P () (b.start id)) : Makes (start id) b P :=
  ⟨(), _, rfl, .single (.start b id), h⟩

theorem makes_vreg : Makes vreg b fun v c => v = ⟨b.nextVReg⟩ ∧ c = b.withVReg :=
  ⟨_, _, rfl, .single (.vreg b), rfl, rfl⟩

theorem makes_newBlock : Makes newBlock b fun id c => id = ⟨b.nextBlock⟩ ∧ c = b.withBlock :=
  ⟨_, _, rfl, .single (.block b), rfl, rfl⟩

theorem makes_define (legal : (i ⟨b.nextVReg⟩).Legal) :
    Makes (define i) b fun v c => v = ⟨b.nextVReg⟩ ∧ c = b.define i :=
  ⟨_, _, define_eq_some.mpr ⟨rfl, rfl⟩, Build.grows_define legal, rfl, rfl⟩

theorem makes_case (label : Nat) (target : BlockId) :
    Makes (modify fun b => { b with cases := (label, target) :: b.cases } : Lower Unit) b
      fun _ c => c = b.withCase label target :=
  ⟨(), _, rfl, .single (.case b label target), rfl⟩

theorem makes_startCase (label : Option Nat) :
    Makes (startCase label) b fun _ c => c = b.enter label := by
  refine ⟨(), _, startCase_eq_some.mpr rfl, ?_, rfl⟩
  unfold Build.enter
  cases label.bind (b.cases.lookup ·) with
  | none => exact .refl
  | some target => exact .single (.start b target)

theorem makes_lift (h : o = some a) :
    Makes (liftM o : Lower α) b fun c d => c = a ∧ d = b :=
  ⟨a, b, lift_eq_some.mpr ⟨h, rfl⟩, .refl, rfl, rfl⟩

namespace Makes

variable {R : β → Build → Prop}

theorem emit {i : Instruction} {f : Unit → Lower β} (legal : i.Legal)
    (rest : Makes (f ()) (b.emit i) R) : Makes (emit i >>= f) b R :=
  (makes_emit legal).bind (by rintro _ _ - rfl; exact rest)

theorem start {f : Unit → Lower β} (rest : Makes (f ()) (b.start id) R) :
    Makes (start id >>= f) b R :=
  (makes_start (P := fun _ c => c = b.start id) rfl).bind (by rintro _ _ - rfl; exact rest)

theorem vreg {f : VReg → Lower β} (rest : Makes (f ⟨b.nextVReg⟩) b.withVReg R) :
    Makes (vreg >>= f) b R :=
  makes_vreg.bind (by rintro _ _ - ⟨rfl, rfl⟩; exact rest)

theorem newBlock {f : BlockId → Lower β} (rest : Makes (f ⟨b.nextBlock⟩) b.withBlock R) :
    Makes (newBlock >>= f) b R :=
  makes_newBlock.bind (by rintro _ _ - ⟨rfl, rfl⟩; exact rest)

theorem define {f : VReg → Lower β} (legal : (i ⟨b.nextVReg⟩).Legal)
    (rest : Makes (f ⟨b.nextVReg⟩) (b.define i) R) : Makes (define i >>= f) b R :=
  (makes_define legal).bind (by rintro _ _ - ⟨rfl, rfl⟩; exact rest)

end Makes

end Steps

end Lowering

end MiniC.Ir
