import MiniC.Asm
import MiniC.Proofs.Semantics.Word
import Mathlib.Data.List.Forall2
import Mathlib.Logic.Function.Basic
import Mathlib.Logic.Relation

/-!
# Control flow of assembly

The paths that control may take through the lines of a function. A branch may go either way, and
an instruction may leave anything in the registers that it changes; what a path does is known for
the stack alone. The stack is a list of words, and `latest` records for every line the word that
it has pushed last; words that were pushed stay until they are popped, and what stores do to the
words of a frame is not followed. A path ends where a function gives up its frame.

A `Sketch` is what can be said about the stack on a line before any path is known: for each word
the line that pushed it, and for some registers the line that pushed the word they were popped
from. `scan` computes it along the text. It is right on every path (`Coherent.fits`) if a jump
finds the stack at its label as it is at the jump.
-/

namespace MiniC.Asm

open List

/-! ## Labels -/

def position (text : List Line) (label : Label) : Option Nat := text.idxOf? (.label label)

def Distinct (text : List Line) : Prop := ∀ label, text.count (.label label) ≤ 1

variable {label : Label} {k : Nat} {top : Word}

theorem getElem?_of_position {text : List Line}
    (found : position text label = some k) : text[k]? = some (.label label) := by
  obtain ⟨lt, here, -⟩ := List.idxOf?_eq_some_iff.mp found
  exact List.getElem?_eq_some_iff.mpr ⟨lt, here⟩

theorem Distinct.position {text : List Line} (distinct : Distinct text)
    (here : text[k]? = some (.label label)) : position text label = some k := by
  obtain ⟨lt, found⟩ := List.getElem?_eq_some_iff.mp here
  have split : text = text.take k ++ .label label :: text.drop (k + 1) := by
    rw [← found, getElem_cons_drop, take_append_drop]
  have once := distinct label
  rw [split, count_append, count_cons_self] at once
  have before : Line.label label ∉ text.take k := count_eq_zero.mp (by omega)
  rw [Asm.position, List.idxOf?_eq_some_iff]
  refine ⟨lt, found, fun i less earlier => before ?_⟩
  rw [← earlier]
  exact mem_take_iff_getElem.mpr ⟨i, by omega, rfl⟩

/-! ## Paths -/

namespace Instruction

def changes : Instruction → List Reg
  | .push _ => [.rsp]
  | .pop dst => [.rsp, dst]
  | .mov _ dst _ | .load _ dst _ | .extend _ dst _ | .zeroExtend dst _ | .lea dst _
  | .alu _ _ dst _ | .shift _ _ dst | .neg _ dst | .not _ dst | .set _ dst => [dst]
  | .widen _ => [.rdx]
  | .idiv .. => [.rax, .rdx]
  | .call .. => [.rax, .rcx, .rdx, .rsi, .rdi, .r8, .r9, .r10, .r11]
  | .leave => [.rsp, .rbp]
  | .store .. | .cmp .. | .jmp _ | .jcc .. | .ret => []

def targets : Instruction → List Label
  | .jmp target | .jcc _ target => [target]
  | _ => []

def continues : Instruction → Bool
  | .jmp _ | .leave | .ret => false
  | _ => true

end Instruction

namespace Line

def jumps : Line → List Label
  | .code i => i.targets
  | _ => []

def marks : Line → List Label
  | .label spot => [spot]
  | _ => []

end Line

/-- A point of a path: the line that comes next, the registers, the words on the stack with the
newest first, and the word that each line has pushed last. -/
structure Point where
  pc : Nat
  regs : Reg → Word
  stack : List Word
  latest : Nat → Word

/-- What an instruction on line `k` can do to the registers and the stack. Moving the stack
pointer down puts any words on the stack. -/
inductive Acts (k : Nat) : Instruction → Point → Point → Prop where
  | push {p : Point} (src : Reg) : Acts k (.push src) p
    { p with
      regs := Function.update p.regs .rsp (p.regs .rsp - 8)
      stack := p.regs src :: p.stack
      latest := Function.update p.latest k (p.regs src) }
  | pop {p : Point} {dst : Reg} {top : Word} {rest : List Word} : dst ≠ .rsp →
    p.stack = top :: rest → Acts k (.pop dst) p
    { p with
      regs := Function.update (Function.update p.regs .rsp (p.regs .rsp + 8)) dst top
      stack := rest }
  | reserve {p : Point} {value : Int64} (words : List Word) : value.toInt = 8 * words.length →
    Acts k (.alu .sub .qword .rsp (.imm value)) p
    { p with
      regs := Function.update p.regs .rsp (p.regs .rsp - value.toBitVec)
      stack := words ++ p.stack }
  | release {p : Point} {value : Int64} {words rest : List Word} :
    value.toInt = 8 * words.length → p.stack = words ++ rest →
    Acts k (.alu .add .qword .rsp (.imm value)) p
    { p with
      regs := Function.update p.regs .rsp (p.regs .rsp + value.toBitVec)
      stack := rest }
  | other {p : Point} {i : Instruction} (regs : Reg → Word) : .rsp ∉ i.changes →
    (∀ r, r ∉ i.changes → regs r = p.regs r) → Acts k i p { p with regs }

/-- Where control may go from an instruction on line `k`. -/
inductive Leads (text : List Line) (k : Nat) (i : Instruction) : Nat → Prop where
  | next : i.continues = true → Leads text k i (k + 1)
  | jump {label : Label} {j : Nat} : label ∈ i.targets → position text label = some j →
    Leads text k i j

/-- One step of a path. Labels and directives are passed over. -/
inductive Step (text : List Line) : Point → Point → Prop where
  | code {p q : Point} {i : Instruction} {j : Nat} : text[p.pc]? = some (.code i) →
    Acts p.pc i p q → Leads text p.pc i j → Step text p { q with pc := j }
  | label {p : Point} {label : Label} : text[p.pc]? = some (.label label) →
    Step text p { p with pc := p.pc + 1 }
  | directive {p : Point} {directive : Directive} : text[p.pc]? = some (.directive directive) →
    Step text p { p with pc := p.pc + 1 }

/-- Control may get from one point to another. -/
abbrev Path (text : List Line) : Point → Point → Prop := Relation.ReflTransGen (Step text)

variable {p q : Point}

theorem toBitVec_of_words {value : Int64} {n : Nat} (known : value.toInt = 8 * n) :
    value.toBitVec = .ofNat 64 (8 * n) := by
  have small := value.toInt_lt
  rw [known] at small
  apply BitVec.eq_of_toInt_eq
  refine known.trans ?_
  rw [BitVec.toInt_ofNat', Int.bmod_eq_of_le] <;> omega

theorem Acts.rsp {i : Instruction} (h : Acts k i p q)
    (before : p.regs .rsp = top - .ofNat 64 (8 * p.stack.length)) :
    q.regs .rsp = top - .ofNat 64 (8 * q.stack.length) := by
  cases h with
  | push src =>
    simp only [Function.update_self, length_cons, before]
    bv_omega
  | pop other popped =>
    rw [popped, length_cons] at before
    simp only [Function.update_of_ne (Ne.symm other), Function.update_self, before]
    bv_omega
  | reserve words known =>
    simp only [Function.update_self, before, toBitVec_of_words known, length_append]
    bv_omega
  | release known popped =>
    rw [popped, length_append] at before
    simp only [Function.update_self, before, toBitVec_of_words known]
    bv_omega
  | other regs kept unchanged => exact (unchanged _ kept).trans before

theorem Path.rsp {text : List Line} (h : Path text p q)
    (before : p.regs .rsp = top - .ofNat 64 (8 * p.stack.length)) :
    q.regs .rsp = top - .ofNat 64 (8 * q.stack.length) := by
  induction h with
  | refl => exact before
  | tail _ step ih =>
    cases step with
    | code _ acts _ => exact acts.rsp ih
    | label | directive => exact ih

/-! ## Sketches -/

/-- What is known on a line: for the words on the stack and for some registers, the line that
pushed the word. -/
structure Sketch where
  stack : List (Option Nat)
  held : Reg → Option Nat

namespace Sketch

def words? (value : Int64) : Option Nat :=
  if 0 ≤ value.toInt ∧ value.toInt % 8 = 0 then some (value.toInt / 8).toNat else none

theorem words?_eq_some {value : Int64} {n : Nat} (h : words? value = some n) :
    value.toInt = 8 * n := by
  unfold words? at h
  split at h
  · cases h
    omega
  · cases h

def joined (σ : Sketch) : Sketch := { σ with held := fun _ => none }

/-- What is known after an instruction that changes some registers and not the stack. -/
def forget (σ : Sketch) (changes : List Reg) : Sketch :=
  { σ with held := fun r => if r ∈ changes then none else σ.held r }

def afterMove (σ : Sketch) : AluOp → Width → Operand → Option Sketch
  | .sub, .qword, .imm value => do
    let n ← words? value
    return { σ with stack := List.replicate n none ++ σ.stack }
  | .add, .qword, .imm value => do
    let n ← words? value
    if n ≤ σ.stack.length then return { σ with stack := σ.stack.drop n } else none
  | _, _, _ => none

/-- What is known after an instruction on line `k`. There is no such thing if the stack may have
no word to pop, or if the stack pointer gets lost. -/
def afterCode (k : Nat) (σ : Sketch) : Instruction → Option Sketch
  | .push _ => some { σ with stack := some k :: σ.stack }
  | .pop dst =>
    match σ.stack with
    | [] => none
    | top :: rest => if dst = .rsp then none else some ⟨rest, Function.update σ.held dst top⟩
  | .alu op width dst src => if dst = .rsp then σ.afterMove op width src else some (σ.forget [dst])
  | .leave => some σ
  | i => if .rsp ∈ i.changes then none else some (σ.forget i.changes)

def after (k : Nat) (σ : Sketch) : Line → Option Sketch
  | .label _ => some σ.joined
  | .directive _ => some σ
  | .code i => σ.afterCode k i

/-- A sketch says the truth at a point. -/
structure Fits (σ : Sketch) (p : Point) : Prop where
  stack : List.Forall₂ (fun slot word => ∀ k ∈ slot, word = p.latest k) σ.stack p.stack
  held : ∀ r, ∀ k ∈ σ.held r, p.regs r = p.latest k

/-- A sketch speaks of earlier lines only, and not of the stack pointer. -/
structure Proper (k : Nat) (σ : Sketch) : Prop where
  stack : ∀ slot ∈ σ.stack, ∀ j ∈ slot, j < k
  held : ∀ r, ∀ j ∈ σ.held r, j < k
  rsp : σ.held .rsp = none

variable {k : Nat} {σ τ : Sketch} {i : Instruction} {p q : Point} {line : Line}

theorem Fits.length (h : σ.Fits p) : p.stack.length = σ.stack.length := h.stack.length_eq.symm

theorem Fits.joined (h : σ.Fits p) : σ.joined.Fits p := ⟨h.stack, nofun⟩

theorem afterCode_of_notMem (kept : .rsp ∉ i.changes) :
    σ.afterCode k i = some (σ.forget i.changes) := by
  cases i with
  | push | pop | leave => simp [Instruction.changes] at kept
  | alu op width dst src =>
    have free : dst ≠ .rsp := fun same => kept (mem_singleton.mpr same.symm)
    exact if_neg free
  | _ => simp only [afterCode, if_neg kept]

theorem after_of_notMem (kept : .rsp ∉ i.changes) :
    σ.after k (.code i) = some (σ.forget i.changes) :=
  afterCode_of_notMem kept

/-- The instructions after which something is known, and what that is. -/
inductive AfterCode (k : Nat) (σ : Sketch) : Instruction → Sketch → Prop where
  | push (src : Reg) : AfterCode k σ (.push src) { σ with stack := some k :: σ.stack }
  | pop {dst : Reg} {top : Option Nat} {rest : List (Option Nat)} : dst ≠ .rsp →
    σ.stack = top :: rest → AfterCode k σ (.pop dst) ⟨rest, Function.update σ.held dst top⟩
  | reserve {value : Int64} {n : Nat} : words? value = some n →
    AfterCode k σ (.alu .sub .qword .rsp (.imm value))
      { σ with stack := List.replicate n none ++ σ.stack }
  | release {value : Int64} {n : Nat} : words? value = some n → n ≤ σ.stack.length →
    AfterCode k σ (.alu .add .qword .rsp (.imm value)) { σ with stack := σ.stack.drop n }
  | leave : AfterCode k σ .leave σ
  | other {i : Instruction} : .rsp ∉ i.changes → AfterCode k σ i (σ.forget i.changes)

theorem afterCode_cases (found : σ.afterCode k i = some τ) : AfterCode k σ i τ := by
  have other : ∀ i : Instruction,
      (if .rsp ∈ i.changes then none else some (σ.forget i.changes)) = some τ →
      AfterCode k σ i τ := by
    intro i found
    split at found
    · cases found
    next kept =>
      cases found
      exact .other kept
  cases i with
  | push =>
    cases found
    exact .push _
  | leave =>
    cases found
    exact .leave
  | pop dst =>
    rw [afterCode] at found
    cases shape : σ.stack with
    | nil => simp [shape] at found
    | cons top rest =>
      simp only [shape, Option.ite_none_left_eq_some, Option.some.injEq] at found
      obtain ⟨free, rfl⟩ := found
      exact .pop free shape
  | alu op width dst src =>
    rw [afterCode] at found
    split at found
    next same =>
      subst same
      unfold afterMove at found
      split at found
      · obtain ⟨n, counted, same⟩ := Option.bind_eq_some_iff.mp found
        cases same
        exact .reserve counted
      · obtain ⟨n, counted, same⟩ := Option.bind_eq_some_iff.mp found
        split at same
        next enough =>
          cases same
          exact .release counted enough
        · cases same
      · cases found
    next free =>
      cases found
      exact .other (i := .alu op width dst src) fun mem => free (mem_singleton.mp mem).symm
  | _ => exact other _ found

theorem Proper.after (h : σ.Proper k) (found : σ.after k line = some τ) : τ.Proper (k + 1) := by
  have later : ∀ {slot : Option Nat}, (∀ j ∈ slot, j < k) → ∀ j ∈ slot, j < k + 1 :=
    fun known j mem => Nat.lt_succ_of_lt (known j mem)
  have stack : ∀ slot ∈ σ.stack, ∀ j ∈ slot, j < k + 1 := fun slot mem => later (h.stack slot mem)
  have held : ∀ r, ∀ j ∈ σ.held r, j < k + 1 := fun r => later (h.held r)
  cases line with
  | label =>
    cases found
    exact ⟨stack, nofun, rfl⟩
  | directive =>
    cases found
    exact ⟨stack, held, h.rsp⟩
  | code i =>
    cases afterCode_cases found with
    | push =>
      refine ⟨fun slot mem => ?_, held, h.rsp⟩
      rcases mem_cons.mp mem with rfl | mem
      · rintro _ ⟨⟩
        exact Nat.lt_succ_self k
      · exact stack slot mem
    | @pop dst top rest other shape =>
      rw [shape] at stack
      refine ⟨fun slot mem => stack slot (mem_cons_of_mem _ mem), fun r => ?_,
        (Function.update_of_ne (Ne.symm other) _ _).trans h.rsp⟩
      rcases eq_or_ne r dst with rfl | same
      · simp only [Function.update_self]
        exact stack top mem_cons_self
      · simp only [Function.update_of_ne same]
        exact held r
    | reserve =>
      refine ⟨fun slot mem => ?_, held, h.rsp⟩
      rcases mem_append.mp mem with mem | mem
      · cases eq_of_mem_replicate mem
        exact nofun
      · exact stack slot mem
    | release => exact ⟨fun slot mem => stack slot (mem_of_mem_drop mem), held, h.rsp⟩
    | leave => exact ⟨stack, held, h.rsp⟩
    | other =>
      refine ⟨stack, fun r j mem => ?_, by simp [forget, h.rsp]⟩
      dsimp only [forget] at mem
      split at mem
      · cases mem
      · exact held r j mem

/-- A sketch that is true before an instruction is true behind it. -/
theorem Fits.acts (h : σ.Fits p) (proper : σ.Proper k) (acts : Acts k i p q)
    (found : σ.afterCode k i = some τ) : τ.Fits q := by
  have other : ∀ {r : Reg} {j : Nat}, j ∈ σ.held r → r ≠ .rsp := by
    rintro r j mem rfl
    rw [proper.rsp] at mem
    cases mem
  cases acts with
  | push src =>
    cases found
    have earlier : ∀ {j : Nat}, j < k → Function.update p.latest k (p.regs src) j = p.latest j :=
      fun lt => Function.update_of_ne (Nat.ne_of_lt lt) _ _
    refine ⟨.cons ?_ ?_, fun r j mem => ?_⟩
    · rintro _ ⟨⟩
      exact (Function.update_self k _ p.latest).symm
    · refine List.Forall₂.imp ?_ ((forall₂_and_left ..).mpr ⟨proper.stack, h.stack⟩)
      rintro slot word ⟨before, known⟩ j mem
      exact (known j mem).trans (earlier (before j mem)).symm
    · refine (Function.update_of_ne (other mem) _ _).trans ?_
      exact (h.held r j mem).trans (earlier (proper.held r j mem)).symm
  | @pop _ dst _ _ free popped =>
    have stack := h.stack
    rw [popped] at stack
    unfold afterCode at found
    cases shape : σ.stack with
    | nil => simp [shape] at found
    | cons slot rest =>
      rw [shape] at stack
      simp only [shape, if_neg free, Option.some.injEq] at found
      subst found
      cases stack with
      | cons first stack =>
        refine ⟨stack, fun r j mem => ?_⟩
        dsimp only at mem ⊢
        rcases eq_or_ne r dst with rfl | same
        · rw [Function.update_self] at mem ⊢
          exact first j mem
        · rw [Function.update_of_ne same] at mem ⊢
          rw [Function.update_of_ne (other mem)]
          exact h.held r j mem
  | reserve words known =>
    obtain ⟨n, counted, same⟩ := Option.bind_eq_some_iff.mp found
    cases same
    have count : words.length = n := by
      have := words?_eq_some counted
      omega
    refine ⟨?_, fun r j mem => ?_⟩
    · refine rel_append ?_ h.stack
      rw [← count]
      exact forall₂_iff_get.mpr ⟨by simp, by simp⟩
    · exact (Function.update_of_ne (other mem) _ _).trans (h.held r j mem)
  | release known popped =>
    obtain ⟨n, counted, same⟩ := Option.bind_eq_some_iff.mp found
    split at same
    · cases same
      refine ⟨?_, fun r j mem => ?_⟩
      · have dropped := forall₂_drop n h.stack
        rw [popped, drop_left'] at dropped
        · exact dropped
        · have := words?_eq_some counted
          omega
      · exact (Function.update_of_ne (other mem) _ _).trans (h.held r j mem)
    · cases same
  | other regs kept unchanged =>
    rw [afterCode_of_notMem kept] at found
    cases found
    refine ⟨h.stack, fun r j mem => ?_⟩
    dsimp only [forget] at mem ⊢
    split at mem
    · cases mem
    next same => exact (unchanged r same).trans (h.held r j mem)

theorem Fits.exists_acts (h : σ.Fits p) (found : σ.afterCode k i = some τ) (stays : i ≠ .leave) :
    ∃ q, Acts k i p q := by
  cases afterCode_cases found with
  | push => exact ⟨_, .push _⟩
  | pop free shape =>
    have stack := h.stack
    rw [shape] at stack
    obtain ⟨top, rest, -, -, popped⟩ := forall₂_cons_left_iff.mp stack
    exact ⟨_, .pop free popped⟩
  | @reserve _ n counted =>
    refine ⟨_, .reserve (List.replicate n 0) ?_⟩
    rw [length_replicate]
    exact words?_eq_some counted
  | @release _ n counted enough =>
    rw [← h.length] at enough
    refine ⟨_, .release ?_ (take_append_drop n p.stack).symm⟩
    rw [length_take, Nat.min_eq_left enough]
    exact words?_eq_some counted
  | leave => exact absurd rfl stays
  | other kept => exact ⟨_, .other p.regs kept fun _ _ => rfl⟩

/-! ## Along a text -/

def scan (k : Nat) (σ : Sketch) : List Line → Option Sketch
  | [] => some σ
  | line :: rest => (σ.after k line).bind fun τ => scan (k + 1) τ rest

theorem scan_append (first rest : List Line) : ∀ (k : Nat) (σ : Sketch),
    σ.scan k (first ++ rest) = (σ.scan k first).bind fun τ => τ.scan (k + first.length) rest := by
  induction first with
  | nil => exact fun _ _ => rfl
  | cons line first ih =>
    intro k σ
    simp only [cons_append, scan, Option.bind_assoc, ih, length_cons, Nat.add_assoc, Nat.add_comm 1]

variable {code : List Line} {labels : Line → List Label} {base : List (Option Nat)}

theorem Proper.scan : ∀ {k : Nat} {σ : Sketch}, σ.Proper k →
    σ.scan k code = some τ → τ.Proper (k + code.length) := by
  induction code with
  | nil =>
    intro k σ h found
    cases found
    exact h
  | cons line rest ih =>
    intro k σ h found
    obtain ⟨ρ, first, found⟩ := Option.bind_eq_some_iff.mp found
    have := ih (h.after first) found
    rwa [length_cons, Nat.add_comm rest.length, ← Nat.add_assoc]

def on (σ : Sketch) (text : List Line) (k : Nat) : Option Sketch := σ.scan 0 (text.take k)

theorem on_succ {text : List Line} (here : text[k]? = some line) :
    σ.on text (k + 1) = (σ.on text k).bind fun τ => τ.after k line := by
  obtain ⟨lt, found⟩ := List.getElem?_eq_some_iff.mp here
  have length : (text.take k).length = k := length_take_of_le lt.le
  rw [on, take_add_one, here, Option.toList_some, scan_append, length, Nat.zero_add, on]
  simp [scan]

theorem exists_on {text : List Line} (scans : σ.scan 0 text = some τ) (k : Nat) :
    ∃ ρ, σ.on text k = some ρ := by
  rw [← take_append_drop k text, scan_append] at scans
  obtain ⟨ρ, found, -⟩ := Option.bind_eq_some_iff.mp scans
  exact ⟨ρ, found⟩

def collect (labels : Line → List Label) (k : Nat) (σ : Sketch) :
    List Line → List (Label × List (Option Nat))
  | [] => []
  | line :: rest => (labels line).map (·, σ.stack) ++
    (σ.after k line).elim [] fun τ => collect labels (k + 1) τ rest

theorem collect_append (labels : Line → List Label) (first rest : List Line) :
    ∀ {k : Nat} {σ τ : Sketch}, σ.scan k first = some τ → σ.collect labels k (first ++ rest) =
      σ.collect labels k first ++ τ.collect labels (k + first.length) rest := by
  induction first with
  | nil =>
    intro k σ τ found
    cases found
    rfl
  | cons line first ih =>
    intro k σ τ found
    obtain ⟨ρ, known, found⟩ := Option.bind_eq_some_iff.mp found
    simp only [cons_append, collect, known, Option.elim_some, ih found, append_assoc,
      length_cons, Nat.add_assoc, Nat.add_comm 1]

theorem mem_collect {label : Label}
    {slots : List (Option Nat)} : ∀ {k : Nat} {σ τ : Sketch}, σ.scan k code = some τ →
    ((label, slots) ∈ σ.collect labels k code ↔ ∃ j line ρ, code[j]? = some line ∧
      label ∈ labels line ∧ σ.scan k (code.take j) = some ρ ∧ ρ.stack = slots) := by
  induction code with
  | nil =>
    intro k σ τ _
    simp [collect]
  | cons line rest ih =>
    intro k σ τ found
    obtain ⟨ρ, known, found⟩ := Option.bind_eq_some_iff.mp found
    simp only [collect, known, Option.elim_some, mem_append, mem_map, Prod.mk.injEq, ih found]
    constructor
    · rintro (⟨_, mem, rfl, rfl⟩ | ⟨j, line', ρ', here, mem, scanned, same⟩)
      · exact ⟨0, line, σ, rfl, mem, rfl, rfl⟩
      · refine ⟨j + 1, line', ρ', here, mem, ?_, same⟩
        rw [take_succ_cons, scan, known]
        exact scanned
    · rintro ⟨j, line', ρ', here, mem, scanned, same⟩
      cases j with
      | zero =>
        cases here
        cases scanned
        exact .inl ⟨label, mem, rfl, same⟩
      | succ j =>
        rw [take_succ_cons, scan, known] at scanned
        exact .inr ⟨j, line', ρ', here, mem, scanned, same⟩

/-! ### More words below -/

def above (base : List (Option Nat)) (σ : Sketch) : Sketch := { σ with stack := σ.stack ++ base }

theorem after_above (found : σ.after k line = some τ) :
    (σ.above base).after k line = some (τ.above base) := by
  cases line with
  | label | directive =>
    cases found
    rfl
  | code i =>
    change (σ.above base).afterCode k i = _
    cases afterCode_cases found with
    | push | leave => rfl
    | pop other shape => simp [afterCode, above, shape, other]
    | reserve counted => simp [afterCode, afterMove, above, counted]
    | release counted enough =>
      simp [afterCode, afterMove, above, counted, Nat.le_add_right_of_le enough,
        drop_append_of_le_length enough]
    | other kept => exact afterCode_of_notMem kept

theorem scan_above : ∀ {k : Nat} {σ τ : Sketch},
    σ.scan k code = some τ → (σ.above base).scan k code = some (τ.above base) := by
  induction code with
  | nil =>
    intro k σ τ found
    cases found
    rfl
  | cons line rest ih =>
    intro k σ τ found
    obtain ⟨ρ, first, found⟩ := Option.bind_eq_some_iff.mp found
    exact Option.bind_eq_some_iff.mpr ⟨_, after_above first, ih found⟩

theorem collect_above :
    ∀ {k : Nat} {σ τ : Sketch}, σ.scan k code = some τ → (σ.above base).collect labels k code =
      (σ.collect labels k code).map fun x => (x.1, x.2 ++ base) := by
  induction code with
  | nil => exact fun _ => rfl
  | cons line rest ih =>
    intro k σ τ found
    obtain ⟨ρ, first, found⟩ := Option.bind_eq_some_iff.mp found
    simp only [collect, first, after_above first, Option.elim_some, ih found, map_append, map_map]
    rfl

/-- What is known where control comes to a line: on a label, it may come from anywhere. -/
def facing (σ : Sketch) : Option Line → Sketch
  | some (.label _) => σ.joined
  | _ => σ

theorem stack_facing (line : Option Line) : (σ.facing line).stack = σ.stack := by
  unfold facing
  split <;> rfl

theorem Fits.facing (h : σ.Fits p) (line : Option Line) : (σ.facing line).Fits p := by
  unfold Sketch.facing
  split
  · exact h.joined
  · exact h

end Sketch

/-- A text whose lines agree on the stack: it can be scanned from what is known at its start, and
a jump finds the stack at its label as it is at the jump. -/
structure Coherent (text : List Line) (start : Sketch) : Prop where
  proper : start.Proper 0
  scans : ∃ σ, start.scan 0 text = some σ
  jumps : ∀ k i label, text[k]? = some (.code i) → label ∈ i.targets →
    ∃ j, position text label = some j ∧
      ∀ σ τ, start.on text k = some σ → start.on text j = some τ → τ.stack = σ.stack

namespace Coherent

variable {text : List Line} {start : Sketch} {p q : Point}

variable {σ : Sketch}

theorem of_collect (proper : start.Proper 0) (scans : start.scan 0 text = some σ)
    (distinct : Distinct text)
    (jumps : ∀ x ∈ start.collect Line.jumps 0 text, x ∈ start.collect Line.marks 0 text) :
    Coherent text start := by
  refine ⟨proper, ⟨σ, scans⟩, fun k i label here target => ?_⟩
  obtain ⟨ρ, known⟩ := Sketch.exists_on scans k
  have jump : (label, ρ.stack) ∈ start.collect Line.jumps 0 text :=
    (Sketch.mem_collect scans).mpr ⟨k, .code i, ρ, here, target, known, rfl⟩
  obtain ⟨j, line, ρ', set, mem, known', same⟩ := (Sketch.mem_collect scans).mp (jumps _ jump)
  cases line with
  | code | directive => cases mem
  | label label' =>
    cases mem_singleton.mp mem
    refine ⟨j, distinct.position set, fun σ τ found found' => ?_⟩
    cases known.symm.trans found
    cases Eq.trans (Eq.symm known') found'
    exact same

theorem exists_on (h : Coherent text start) (k : Nat) : ∃ σ, start.on text k = some σ :=
  h.scans.elim fun _ scans => Sketch.exists_on scans k

theorem proper_on (h : Coherent text start) {k : Nat} (lt : k < text.length)
    (found : start.on text k = some σ) : σ.Proper k := by
  have := h.proper.scan found
  rwa [Nat.zero_add, length_take_of_le lt.le] at this

/-- In a coherent text the sketches stay true from step to step. -/
theorem fits_step (h : Coherent text start) (step : Step text p q)
    (before : ∃ σ, start.on text p.pc = some σ ∧ (σ.facing text[p.pc]?).Fits p) :
    ∃ σ, start.on text q.pc = some σ ∧ (σ.facing text[q.pc]?).Fits q := by
  obtain ⟨σ, found, fits⟩ := before
  -- what is known on the next line holds after this one
  have next : ∀ {line : Line} {q : Point}, text[p.pc]? = some line → q.pc = p.pc + 1 →
      (∀ τ, σ.after p.pc line = some τ → τ.Fits q) →
      ∃ σ, start.on text q.pc = some σ ∧ (σ.facing text[q.pc]?).Fits q := by
    intro line q here pc fits
    obtain ⟨τ, later⟩ := h.exists_on (p.pc + 1)
    rw [Sketch.on_succ here, found] at later
    refine ⟨τ, ?_, (fits τ later).facing _⟩
    rw [pc, Sketch.on_succ here, found]
    exact later
  cases step with
  | label here =>
    rw [here] at fits
    refine next here rfl fun τ known => ?_
    cases known
    exact ⟨fits.stack, nofun⟩
  | directive here =>
    rw [here] at fits
    refine next here rfl fun τ known => ?_
    cases known
    exact ⟨fits.stack, fits.held⟩
  | @code q i j here acts leads =>
    rw [here] at fits
    have lt := (List.getElem?_eq_some_iff.mp here).1
    have proper := h.proper_on lt found
    cases leads with
    | next =>
      refine next here rfl fun τ known => ?_
      have fits := Sketch.Fits.acts fits proper acts known
      exact ⟨fits.stack, fits.held⟩
    | jump target leads =>
      obtain ⟨j', leads', same⟩ := h.jumps p.pc i _ here target
      cases leads.symm.trans leads'
      obtain ⟨τ, known⟩ := h.exists_on j
      refine ⟨τ, known, ?_⟩
      dsimp only
      rw [getElem?_of_position leads]
      -- a jump leaves the stack as it is
      have kept : q.stack = p.stack ∧ q.latest = p.latest := by
        cases acts <;> first | exact ⟨rfl, rfl⟩ | cases target
      refine ⟨?_, nofun⟩
      change List.Forall₂ _ τ.stack q.stack
      rw [same σ τ found known, kept.1]
      simp only [kept.2]
      exact fits.stack

theorem fits (h : Coherent text start) (path : Path text p q) (entry : p.pc = 0)
    (known : start.Fits p) :
    ∃ σ, start.on text q.pc = some σ ∧ (σ.facing text[q.pc]?).Fits q := by
  induction path with
  | refl => exact ⟨start, by rw [entry]; rfl, known.facing _⟩
  | tail _ step ih => exact h.fits_step step ih

/-- In a coherent text every path goes on, up to the end of the function. -/
theorem exists_step (h : Coherent text start) (path : Path text p q) (entry : p.pc = 0)
    (known : start.Fits p) {line : Line} (here : text[q.pc]? = some line) :
    line = .code .leave ∨ line = .code .ret ∨ ∃ r, Step text q r := by
  obtain ⟨σ, found, fits⟩ := h.fits path entry known
  rw [here] at fits
  cases line with
  | label => exact .inr (.inr ⟨_, .label here⟩)
  | directive => exact .inr (.inr ⟨_, .directive here⟩)
  | code i =>
    by_cases leave : i = .leave
    · exact .inl (by rw [leave])
    by_cases ret : i = .ret
    · exact .inr (.inl (by rw [ret]))
    refine .inr (.inr ?_)
    obtain ⟨τ, later⟩ := h.exists_on (q.pc + 1)
    rw [Sketch.on_succ here, found] at later
    obtain ⟨r, acts⟩ := Sketch.Fits.exists_acts fits later leave
    cases goes : i.continues with
    | true => exact ⟨_, .code here acts (.next goes)⟩
    | false =>
      have target : ∃ label, label ∈ i.targets := by
        cases i with
        | jmp target => exact ⟨target, mem_singleton_self _⟩
        | leave => exact absurd rfl leave
        | ret => exact absurd rfl ret
        | _ => cases goes
      obtain ⟨label, target⟩ := target
      obtain ⟨j, leads, -⟩ := h.jumps q.pc i label here target
      exact ⟨_, .code here acts (.jump target leads)⟩

end Coherent

theorem Path.lt_length {text : List Line} (path : Path text p q)
    (last : text.getLast? = some (.code .ret)) (entry : p.pc < text.length) :
    q.pc < text.length := by
  induction path with
  | refl => exact entry
  | @tail q r _ step ih =>
    -- the last line is a `ret`, after which nothing comes
    have next : ∀ {line : Line}, text[q.pc]? = some line → line ≠ .code .ret →
        q.pc + 1 < text.length := by
      intro line here other
      by_contra past
      rw [List.getLast?_eq_getElem?, show text.length - 1 = q.pc by omega, here] at last
      exact other (Option.some.inj last)
    cases step with
    | label here => exact next here nofun
    | directive here => exact next here nofun
    | code here acts leads =>
      cases leads with
      | next goes =>
        refine next here ?_
        rintro ⟨⟩
        cases goes
      | jump target leads =>
        exact (List.getElem?_eq_some_iff.mp (getElem?_of_position leads)).1

end MiniC.Asm
