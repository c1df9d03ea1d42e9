import MiniC.Proofs.Stack.Notes

/-!
# Balance of code on the machine stack

What the code of expressions and statements does to the words above the frame. A piece of code is
followed from its first line to its last (`Through`): the words that it leaves on the stack, the
labels that it sets and the ones that it jumps to, with the stack at each, and that its notes are
right. An expression leaves the stack as it finds it (`expr_through`). A statement starts and ends
with no words above the frame, and so do the labels that it jumps to (`stmt_through`).
-/

namespace MiniC.Emit.Stack

open Asm List

/-- The words on the stack, each with the line that pushed it if that is known. -/
abbrev Slots := List (Option Nat)

/-- What a note says about the line that it stands before and about the words above the frame. A
call finds the values of its arguments in the argument registers: each is the word pushed on the
line after the code of the argument. -/
def Note.Holds (known : List (Nat × Note)) (line : Option Line) (σ : Sketch) : Note → Prop
  | .starts depth _ | .ends depth _ => σ.stack.length = depth
  | .argument depth _ => line = some (.code (.push .rax)) ∧ σ.stack.length = depth
  | .calls depth args => (∃ name, line = some (.code (.call name args.length))) ∧
    σ.stack.length = depth + 2 + padding (depth + 2) ∧
    ∀ n e, args[n]? = some e → ∃ r j, Reg.arguments[n]? = some r ∧ σ.held r = some j ∧
      (j, .argument (depth + n) e) ∈ known ∧ (j, .ends (depth + n) e) ∈ known
  | .boundary | .target _ => σ.stack.length = 0

variable {known : List (Nat × Note)} {σ : Sketch} {s : Slots}

theorem Note.Holds.mono {line line' : Option Line} {n : Note} (h : n.Holds known line σ)
    (same : ∀ l, line = some l → line' = some l) : n.Holds known line' σ := by
  cases n with
  | starts | ends | boundary | target => exact h
  | argument => exact ⟨same _ h.1, h.2⟩
  | calls => exact ⟨h.1.imp fun _ => same _, h.2⟩

namespace Noted

@[simp] theorem notes_append (a b : Noted) :
    (a ++ b).notes = a.notes ++ b.notesFrom a.code.length := rfl

@[simp] theorem notesFrom_append (k : Nat) (a b : Noted) :
    (a ++ b).notesFrom k = a.notesFrom k ++ b.notesFrom (k + a.code.length) := by
  simp only [notesFrom, notes_append, map_append, map_map]
  congr 2
  funext x
  simp only [Function.comp_apply, Nat.add_assoc]

theorem ends_mem {ctx : Context} {depth i j : Nat} {want : Want} {e : Expr} {a : Noted}
    (made : expr ctx depth want e i = some (a, j)) : (a.code.length, .ends depth e) ∈ a.notes := by
  have noted : ∀ {emit : Labelled Noted}, around depth e emit i = some (a, j) →
      (a.code.length, .ends depth e) ∈ a.notes := by
    intro emit made
    simp only [around, between, bind_eq_some, pure_eq_some] at made
    obtain ⟨b, _, -, rfl, rfl⟩ := made
    simp [notesFrom, note]
  cases e with
  | update => cases made
  | _ =>
    rw [expr] at made
    exact noted made

end Noted

/-! ## Pieces of code -/

def isPlain : Line → Bool
  | .label _ | .code (.call ..) => false
  | .directive _ => true
  | .code i => .rsp ∉ i.changes && i.targets.isEmpty

/-- The code `a` from line `k` on, followed from one sketch to another. It sets the labels `own`;
a label that it jumps to is set in it or is `away`; its notes are right, where other notes are
looked up in `known`; and all its calls are noted. -/
structure Runs (known : List (Nat × Note)) (away : Label × Slots → Prop) (k : Nat)
    (σ : Sketch) (a : Noted) (own : List (Label × Slots)) (τ : Sketch) : Prop where
  scan : σ.scan k a.code = some τ
  jumps : ∀ x ∈ σ.collect Line.jumps k a.code, x ∈ σ.collect Line.marks k a.code ∨ away x
  marks : own ⊆ σ.collect Line.marks k a.code
  notes : ∀ j n, (j, n) ∈ a.notes → j ≤ a.code.length ∧
    ∃ ρ, σ.scan k (a.code.take j) = some ρ ∧ n.Holds known a.code[j]? ρ
  calls : ∀ j name n, a.code[j]? = some (.code (.call name n)) →
    ∃ depth args, (j, .calls depth args) ∈ a.notes ∧ args.length = n

namespace Runs

variable {k : Nat} {known : List (Nat × Note)} {away away' : Label × Slots → Prop}
  {σ τ υ : Sketch} {a b : Noted} {own own' : List (Label × Slots)}

/-- Code is followed from sketch to sketch through both of its parts. -/
theorem append (first : Runs known away k σ a own τ)
    (rest : Runs known away (k + a.code.length) τ b own' υ) :
    Runs known away k σ (a ++ b) (own ++ own') υ := by
  have collect := fun labels => Sketch.collect_append labels a.code b.code first.scan
  refine ⟨?_, fun x mem => ?_, ?_, fun j n mem => ?_, fun j name n here => ?_⟩
  · rw [Noted.code_append, Sketch.scan_append, first.scan]
    exact rest.scan
  · simp only [Noted.code_append, collect, mem_append] at mem ⊢
    rcases mem with mem | mem
    · exact (first.jumps x mem).imp_left .inl
    · exact (rest.jumps x mem).imp_left .inr
  · rw [Noted.code_append, collect]
    exact append_subset.mpr ⟨subset_append_of_subset_left _ first.marks,
      subset_append_of_subset_right _ rest.marks⟩
  · rw [Noted.notes_append, mem_append] at mem
    simp only [Noted.code_append, length_append]
    rcases mem with mem | mem
    · obtain ⟨le, ρ, found, holds⟩ := first.notes j n mem
      refine ⟨by omega, ρ, by rwa [take_append_of_le_length le], holds.mono fun l here => ?_⟩
      rw [List.getElem?_append_left (List.getElem?_eq_some_iff.mp here).1, here]
    · obtain ⟨⟨i, n⟩, mem, same⟩ := mem_map.mp mem
      cases same
      obtain ⟨le, ρ, found, holds⟩ := rest.notes i n mem
      refine ⟨by omega, ρ, ?_, ?_⟩
      · rw [take_length_add_append, Sketch.scan_append, first.scan]
        exact found
      · rwa [List.getElem?_append_right (Nat.le_add_right ..), Nat.add_sub_cancel_left]
  · rw [Noted.notes_append]
    rw [Noted.code_append] at here
    rcases Nat.lt_or_ge j a.code.length with lt | le
    · rw [List.getElem?_append_left lt] at here
      obtain ⟨depth, args, mem, count⟩ := first.calls j name n here
      exact ⟨depth, args, mem_append_left _ mem, count⟩
    · rw [List.getElem?_append_right le] at here
      obtain ⟨depth, args, mem, count⟩ := rest.calls _ name n here
      refine ⟨depth, args, mem_append_right _ (mem_map.mpr ⟨_, mem, ?_⟩), count⟩
      simp only [Nat.add_sub_cancel' le]

theorem mono (h : Runs known away' k σ a own' τ) (fewer : own ⊆ own')
    (wider : ∀ x, away' x → away x ∨ x ∈ own') : Runs known away k σ a own τ := by
  refine ⟨h.scan, fun x mem => ?_, List.Subset.trans fewer h.marks, h.notes, h.calls⟩
  rcases h.jumps x mem with set | goes
  · exact .inl set
  · exact (wider x goes).symm.imp_left fun mem => h.marks mem

theorem line {line : Line} (notes : List Note) (next : σ.after k line = some τ)
    (goes : ∀ label ∈ line.jumps, away (label, σ.stack))
    (here : ∀ n ∈ notes, n.Holds known (some line) σ)
    (calls : ∀ name n, line = .code (.call name n) →
      ∃ depth args, .calls depth args ∈ notes ∧ args.length = n) :
    Runs known away k σ ⟨[line], notes.map (0, ·)⟩ (line.marks.map (·, σ.stack)) τ := by
  have collect : ∀ labels, σ.collect labels k [line] = (labels line).map (·, σ.stack) := by
    intro labels
    simp [Sketch.collect, next]
  refine ⟨?_, fun x mem => ?_, ?_, fun j n mem => ?_, fun j name n found => ?_⟩
  · simp [Sketch.scan, next]
  · rw [collect] at mem
    obtain ⟨label, found, rfl⟩ := mem_map.mp mem
    exact .inr (goes label found)
  · rw [collect]
    exact List.Subset.refl _
  · obtain ⟨n, mem, same⟩ := mem_map.mp mem
    cases same
    exact ⟨Nat.zero_le _, σ, rfl, here n mem⟩
  · obtain ⟨lt, found⟩ := List.getElem?_eq_some_iff.mp found
    obtain rfl : j = 0 := by simpa using lt
    obtain ⟨depth, args, mem, count⟩ := calls name n found
    exact ⟨depth, args, mem_map.mpr ⟨_, mem, rfl⟩, count⟩

end Runs

/-- The code `a` from line `k` on takes the stack from `s` to `s'`, whatever is known about the
registers before it. -/
def Through (away : Label × Slots → Prop) (k : Nat) (s : Slots) (a : Noted)
    (own : List (Label × Slots)) (s' : Slots) : Prop :=
  ∀ known, a.notesFrom k ⊆ known → ∀ held, ∃ held', Runs known away k ⟨s, held⟩ a own ⟨s', held'⟩

namespace Through

variable {k : Nat} {away away' : Label × Slots → Prop} {s s' s'' : Slots} {a b : Noted}
  {own own' : List (Label × Slots)} {ctx : Context} {spot : Spot} {code : Code}

theorem append (first : Through away k s a own s')
    (rest : Through away (k + a.code.length) s' b own' s'') :
    Through away k s (a ++ b) (own ++ own') s'' := by
  intro known within held
  rw [Noted.notesFrom_append, append_subset] at within
  obtain ⟨held', first⟩ := first known within.1 held
  obtain ⟨held'', rest⟩ := rest known within.2 held'
  exact ⟨held'', first.append rest⟩

theorem mono (h : Through away' k s a own' s') (fewer : own ⊆ own')
    (wider : ∀ x, away' x → away x ∨ x ∈ own') : Through away k s a own s' :=
  fun known within held => (h known within held).imp fun _ h => h.mono fewer wider

theorem close (labels : List (Label × Slots))
    (h : Through (fun x => x ∈ labels ∨ away x) k s a own' s') (set : labels ⊆ own')
    (fewer : own ⊆ own') : Through away k s a own s' :=
  h.mono fewer fun _ => Or.rec (fun mem => .inr (set mem)) .inl

theorem nil : Through away k s (.lines []) [] s :=
  fun _ _ held => ⟨held, rfl, nofun, nofun, nofun, nofun⟩

theorem note {n : Note} (here : ∀ known held, n.Holds known none ⟨s, held⟩) :
    Through away k s (.note n) [] s := by
  intro known _ held
  refine ⟨held, rfl, nofun, nofun, fun j n' mem => ?_, nofun⟩
  cases mem_singleton.mp mem
  exact ⟨Nat.le_refl 0, _, rfl, here known held⟩

variable {emit : Labelled Noted} {i j : Nat} {cond : Cond}

theorem between {first last : Note} (made : Noted.between first last emit i = some (a, j))
    (before : ∀ known held, first.Holds known none ⟨s, held⟩)
    (after : ∀ known held, last.Holds known none ⟨s, held⟩)
    (inner : ∀ b, emit i = some (b, j) → Through away k s b own s) :
    Through away k s a own s := by
  simp only [Noted.between, bind_eq_some, pure_eq_some] at made
  obtain ⟨b, _, made, rfl, rfl⟩ := made
  have := ((note before).append (inner b made)).append (note after)
  rwa [append_nil] at this

theorem line {line : Line}
    (next : ∀ held, ∃ held', (⟨s, held⟩ : Sketch).after k line = some ⟨s', held'⟩)
    (goes : ∀ label ∈ line.jumps, away (label, s)) (other : ∀ name n, line ≠ .code (.call name n)) :
    Through away k s (.lines [line]) (line.marks.map (·, s)) s' := by
  intro known _ held
  obtain ⟨held', next⟩ := next held
  exact ⟨held', .line [] next goes nofun fun name n same => absurd same (other name n)⟩

theorem push (r : Reg) : Through away k s (.lines [.code (.push r)]) [] (some k :: s) :=
  line (fun held => ⟨held, rfl⟩) nofun nofun

theorem pop (r : Reg) {top : Option Nat} (other : r ≠ .rsp) :
    Through away k (top :: s) (.lines [.code (.pop r)]) [] s := by
  refine line (fun held => ⟨Function.update held r top, ?_⟩) nofun nofun
  simp [Sketch.after, Sketch.afterCode, other]

theorem mark : Through away k s (.lines [ctx.mark spot]) [(ctx.label spot, s)] s :=
  line (fun _ => ⟨_, rfl⟩) nofun nofun

theorem landing : Through away k [] (Noted.landing ctx spot) [(ctx.label spot, [])] [] :=
  append (note (s := []) (n := .target spot) fun _ _ => rfl) mark

theorem kept {i : Instruction} (kept : .rsp ∉ i.changes)
    (goes : ∀ label ∈ i.targets, away (label, s)) (other : ∀ name n, i ≠ .call name n) :
    Through away k s (.lines [.code i]) [] s :=
  line (fun _ => ⟨_, Sketch.after_of_notMem kept⟩) goes
    fun name n same => other name n (Line.code.inj same)

theorem jump (goes : away (ctx.label spot, s)) :
    Through away k s (.lines [ctx.jump spot]) [] s :=
  kept nofun (fun _ mem => mem_singleton.mp mem ▸ goes) nofun

theorem jumpIf (goes : away (ctx.label spot, s)) :
    Through away k s (.lines [ctx.jumpIf cond spot]) [] s :=
  kept nofun (fun _ mem => mem_singleton.mp mem ▸ goes) nofun

theorem plain (h : code.all isPlain) : Through away k s (.lines code) [] s := by
  induction code generalizing k with
  | nil => exact nil
  | cons line rest ih =>
    rw [all_cons, Bool.and_eq_true] at h
    change Through away k s (.lines [line] ++ .lines rest) ([] ++ []) s
    refine append ?_ (ih h.2)
    cases line with
    | label => cases h.1
    | directive => exact Through.line (fun held => ⟨held, rfl⟩) nofun nofun
    | code i =>
      have free : .rsp ∉ i.changes ∧ i.targets = [] ∧ ∀ name n, i ≠ .call name n := by
        cases i <;> simp_all [isPlain, Instruction.changes, Instruction.targets]
      exact kept free.1 (by simp [free.2.1]) free.2.2

theorem cons {line : Line} (first : Through away k s (.lines [line]) own s')
    (rest : Through away (k + 1) s' (.lines code) own' s'') :
    Through away k s (.lines (line :: code)) (own ++ own') s'' :=
  append first rest

theorem appendLines {code' : Code} (first : Through away k s (.lines code) own s')
    (rest : Through away (k + code.length) s' (.lines code') own' s'') :
    Through away k s (.lines (code ++ code')) (own ++ own') s'' :=
  append first rest

theorem testIf (goes : away (ctx.label spot, s)) :
    Through away k s (.lines [test, ctx.jumpIf cond spot]) [] s :=
  cons (plain rfl) (jumpIf goes)

theorem pushed {depth : Nat} {arg : Expr} (level : s.length = depth) :
    Through away k s (.pushed depth arg) [] (some k :: s) := by
  refine fun known _ held => ⟨held, .line [.argument depth arg] rfl nofun ?_ nofun⟩
  intro n mem
  cases mem_singleton.mp mem
  exact ⟨rfl, level⟩

theorem around {depth : Nat} {e : Expr} (made : Noted.around depth e emit i = some (a, j))
    (level : s.length = depth) (inner : ∀ b, emit i = some (b, j) → Through away k s b [] s) :
    Through away k s a [] s :=
  between made (fun _ _ => level) (fun _ _ => level) inner

theorem bounded (made : Noted.bounded emit i = some (a, j))
    (inner : ∀ b, emit i = some (b, j) → Through away k [] b own []) :
    Through away k [] a own [] :=
  between made (fun _ _ => rfl) (fun _ _ => rfl) inner

end Through

/-! ## Expressions -/

section Plain

variable (width : Width)

@[simp] theorem isPlain_extend : (extend width).all isPlain := by cases width <;> rfl

@[simp] theorem isPlain_access (want : Want) (ty : CType) : (access want ty).all isPlain := by
  unfold access
  split
  · rfl
  · split <;> rfl

@[simp] theorem isPlain_unary (op : UnOp) : (unary op width).all isPlain := by
  cases op <;> cases width <;> rfl

theorem isPlain_binary {op : BinOp} {code : Code} (made : binary op width = some code) :
    code.all isPlain := by
  cases op <;> cases width <;> cases made <;> rfl

end Plain

theorem scan_pops {regs : List Reg} (free : .rsp ∉ regs) (distinct : regs.Nodup) :
    ∀ (k : Nat) {slots : Slots} (held : Reg → Option Nat), slots.length = regs.length →
      ∃ held', Sketch.scan k ⟨slots ++ s, held⟩ (regs.map fun reg => .code (.pop reg)) =
        some ⟨s, held'⟩ ∧ (∀ x ∈ regs.zip slots, held' x.1 = x.2) ∧
        ∀ r, r ∉ regs → held' r = held r := by
  induction regs with
  | nil =>
    intro k slots held length
    cases length_eq_zero_iff.mp length
    exact ⟨held, rfl, nofun, fun _ _ => rfl⟩
  | cons r rest ih =>
    intro k slots held length
    obtain ⟨slot, slots, rfl⟩ := exists_cons_of_length_eq_add_one length
    simp only [mem_cons, not_or, nodup_cons] at free distinct
    obtain ⟨held', popped, each, others⟩ := ih free.2 distinct.2 (k + 1)
      (Function.update held r slot) (Nat.succ.inj length)
    refine ⟨held', ?_, forall_mem_cons.mpr ⟨?_, each⟩, fun r' other => ?_⟩
    · simpa [Sketch.scan, Sketch.after, Sketch.afterCode, Ne.symm free.1] using popped
    · exact (others r distinct.1).trans (Function.update_self ..)
    · rw [mem_cons, not_or] at other
      exact (others r' other.2).trans (Function.update_of_ne other.1 ..)

def isQuiet : Line → Bool
  | .code (.call ..) => false
  | line => line.jumps.isEmpty

theorem Runs.lines {k : Nat} {away : Label × Slots → Prop} {τ : Sketch} {code : Code}
    (scan : σ.scan k code = some τ) (quiet : code.all isQuiet) :
    Runs known away k σ (.lines code) [] τ := by
  have quiet : ∀ line ∈ code, isQuiet line := all_eq_true.mp quiet
  refine ⟨scan, fun ⟨label, slots⟩ mem => ?_, nofun, nofun, fun j name n here => ?_⟩
  · obtain ⟨j, line, ρ, here, mem, -⟩ := (Sketch.mem_collect scan).mp mem
    have := quiet line (mem_of_getElem? here)
    unfold isQuiet at this
    split at this
    · cases this
    · rw [isEmpty_iff.mp this] at mem
      cases mem
  · cases quiet _ (mem_of_getElem? here)

section Call

variable {k depth : Nat} {known : List (Nat × Note)} {away : Label × Slots → Prop} {s : Slots}
  {held : Reg → Option Nat}

theorem padding_cases (n : Nat) : padding n = 0 ∨ padding n = 1 := by
  unfold padding
  omega

theorem scan_adjust_sub (σ : Sketch) : σ.scan k (adjust .sub depth) =
    some { σ with stack := List.replicate (padding (depth + 2)) none ++ σ.stack } := by
  unfold adjust
  rcases padding_cases (depth + 2) with none | one
  · rw [none]
    rfl
  · rw [one]
    rfl

theorem scan_adjust_add : Sketch.scan k ⟨List.replicate (padding (depth + 2)) none ++ s, held⟩
    (adjust .add depth) = some ⟨s, held⟩ := by
  unfold adjust
  rcases padding_cases (depth + 2) with none | one
  · rw [none]
    rfl
  · rw [one]
    have eight : Sketch.words? 8 = some 1 := rfl
    simp [Sketch.scan, Sketch.after, Sketch.afterCode, Sketch.afterMove, eight]

variable {places : List Nat}

variable (k depth s held) in
theorem scan_passing (few : places.length ≤ maxArguments) :
    ∃ x y held', Sketch.scan k ⟨(places.map some).reverse ++ s, held⟩ (passing places.length depth) =
      some ⟨List.replicate (padding (depth + 2)) none ++ x :: y :: s, held'⟩ ∧
      ∀ (n j : Nat), places[n]? = some j → ∃ r, Reg.arguments[n]? = some r ∧ held' r = some j := by
  have known : ∀ r ∈ Reg.arguments, r ≠ .rsp ∧ r ≠ .rax := by decide
  have distinct : Reg.arguments.Nodup := by decide
  have length : (Reg.arguments.take places.length).length = places.length :=
    length_take_of_le few
  have free : .rsp ∉ (Reg.arguments.take places.length).reverse :=
    fun mem => (known _ (mem_of_mem_take (mem_reverse.mp mem))).1 rfl
  have counted : (places.map some).reverse.length = (Reg.arguments.take places.length).reverse.length := by
    simp [length]
  obtain ⟨held', popped, each, -⟩ := scan_pops (s := s) free
    (nodup_reverse.mpr (distinct.sublist (take_sublist ..))) k held counted
  refine ⟨some (k + places.length + 1), some (k + places.length),
    fun r => if r = .rax then none else held' r, ?_, fun n j here => ?_⟩
  · unfold passing
    rw [Sketch.scan_append, Sketch.scan_append, Sketch.scan_append, popped]
    simp only [Option.bind_some, length_map, length_reverse, length]
    rw [show ∀ σ : Sketch, ∀ k, σ.scan k [.code (.push .r10), .code (.push .r11)] =
      some { σ with stack := some (k + 1) :: some k :: σ.stack } from fun _ _ => rfl]
    simp only [Option.bind_some, scan_adjust_sub]
    rw [Sketch.scan, Sketch.after_of_notMem (by simp [Instruction.changes])]
    simp [Sketch.scan, Sketch.forget, Instruction.changes]
  · have lt := (List.getElem?_eq_some_iff.mp here).1
    have lt' : n < Reg.arguments.length := Nat.lt_of_lt_of_le lt few
    obtain ⟨r, reg⟩ : ∃ r, Reg.arguments[n]? = some r := ⟨_, List.getElem?_eq_getElem lt'⟩
    refine ⟨r, reg, (if_neg (known r (mem_of_getElem? reg)).2).trans (each (r, some j) ?_)⟩
    rw [List.zip, ← reverse_zipWith (by simp [length]), mem_reverse]
    refine mem_of_getElem? (List.getElem?_zip_eq_some.mpr ⟨?_, ?_⟩) (i := n)
    · rw [List.getElem?_take_of_lt lt, reg]
    · rw [List.getElem?_map, here]
      rfl

theorem scan_resuming {x y : Option Nat} (ty : CType) : ∃ held',
    Sketch.scan k ⟨List.replicate (padding (depth + 2)) none ++ x :: y :: s, held⟩
      (resuming depth ty) = some ⟨s, held'⟩ := by
  unfold resuming
  rw [Sketch.scan_append, Sketch.scan_append, scan_adjust_add]
  cases Width.ofType ty with
  | qword => exact ⟨_, rfl⟩
  | byte | dword => exact ⟨_, rfl⟩

theorem isQuiet_adjust (op : AluOp) : (adjust op depth).all isQuiet := by
  rcases padding_cases (depth + 2) with none | one
  · rw [adjust, none]
    rfl
  · rw [adjust, one]
    rfl

theorem isQuiet_passing (count : Nat) : (passing count depth).all isQuiet := by
  simp only [passing, all_append, all_map, isQuiet_adjust, Bool.and_true]
  have pops : ((Reg.arguments.take count).reverse.all (isQuiet ∘ fun reg => .code (.pop reg))) :=
    all_eq_true.mpr fun _ _ => rfl
  rw [pops]
  rfl

theorem isQuiet_resuming (ty : CType) : (resuming depth ty).all isQuiet := by
  simp only [resuming, all_append, isQuiet_adjust, Bool.true_and]
  cases Width.ofType ty <;> rfl

/-- A call finds its arguments in their registers, and the stack aligned. -/
theorem called_runs {name : String} {args : List Expr} {ty : CType}
    (few : args.length ≤ maxArguments) (count : places.length = args.length)
    (level : s.length = depth) (passed : ∀ n e, args[n]? = some e → ∃ j, places[n]? = some j ∧
        (j, .argument (depth + n) e) ∈ known ∧ (j, .ends (depth + n) e) ∈ known) :
    ∃ held', Runs known away k ⟨(places.map some).reverse ++ s, held⟩
      (.called name args depth ty) [] ⟨s, held'⟩ := by
  obtain ⟨x, y, held₁, before, regs⟩ := scan_passing k depth s held (count ▸ few)
  rw [count] at before
  obtain ⟨held₂, call⟩ : ∃ held₂, Runs known away (k + (passing args.length depth).length)
      ⟨List.replicate (padding (depth + 2)) none ++ x :: y :: s, held₁⟩
      ⟨[.code (.call name args.length)], [(0, .calls depth args)]⟩ []
      ⟨List.replicate (padding (depth + 2)) none ++ x :: y :: s, held₂⟩ := by
    have kept : .rsp ∉ (Instruction.call name args.length).changes := by
      simp [Instruction.changes]
    refine ⟨_, .line [.calls depth args] (Sketch.after_of_notMem kept)
      (fun _ mem => absurd mem not_mem_nil)
      (fun n mem => ?_) fun name n same => ⟨depth, args, mem_singleton_self _, ?_⟩⟩
    · cases mem_singleton.mp mem
      refine ⟨⟨name, rfl⟩, ?_, fun n e here => ?_⟩
      · simp only [length_append, length_replicate, length_cons, level]
        omega
      · obtain ⟨j, place, noted⟩ := passed n e here
        obtain ⟨r, reg, holds⟩ := regs n j place
        exact ⟨r, j, reg, holds, noted⟩
    · cases same
      rfl
  obtain ⟨held', after⟩ := scan_resuming (s := s) (x := x) (y := y) ty
  exact ⟨held', ((Runs.lines before (isQuiet_passing _)).append call).append
    (.lines after (isQuiet_resuming ty))⟩

end Call

theorem level_cons {depth : Nat} (level : s.length = depth)
    (slot : Option Nat) : (slot :: s).length = depth + 1 :=
  congrArg (· + 1) level

mutual
/-- The code of an expression leaves the stack as it was, by induction over the tree. -/
theorem expr_through {ctx : Context} {locals : Nat} : (e : Expr) → e.Formed locals →
    ∀ {depth i j : Nat} {want : Want} {a : Noted}, Noted.expr ctx depth want e i = some (a, j) →
      ∀ {away : Label × Slots → Prop} {k : Nat} {s : Slots}, s.length = depth →
        Through away k s a [] s
  | .num .., _, _, _, _, _, _, made, _, _, _, level
  | .sizeof .., _, _, _, _, _, _, made, _, _, _, level => by
    refine .around made level fun b made => ?_
    obtain ⟨rfl, rfl⟩ := pure_eq_some.mp made
    exact .plain rfl
  | .str .., _, _, _, _, _, _, made, _, _, _, level
  | .global .., _, _, _, _, _, _, made, _, _, _, level => by
    refine .around made level fun b made => ?_
    obtain ⟨rfl, rfl⟩ := pure_eq_some.mp made
    exact .plain (isPlain_access ..)
  | .var .., _, _, _, _, _, _, made, _, _, _, level => by
    refine .around made level fun b made => ?_
    simp only [bind_eq_some, lift_eq_some, pure_eq_some] at made
    obtain ⟨v, _, ⟨-, rfl⟩, rfl, rfl⟩ := made
    exact .plain (isPlain_access ..)
  | .deref _ pointer, h, _, _, _, _, _, made, _, _, _, level => by
    refine .around made level fun b made => ?_
    obtain ⟨a, madeP, rfl⟩ := map_eq_some.mp made
    exact (expr_through pointer h madeP level).append (.plain (isPlain_access ..))
  | .member _ base _ offset, h, _, _, _, _, _, made, _, _, _, level => by
    refine .around made level fun b made => ?_
    obtain ⟨a, madeB, rfl⟩ := map_eq_some.mp made
    refine (expr_through base h madeB level).append
      (.appendLines (.plain ?_) (.plain (isPlain_access ..)))
    split <;> rfl
  | .binary _ op _ lhs rhs, h, _, i, _, _, _, made, away, _, s, level => by
    refine .around made level fun b made => ?_
    split at made
    · simp only [bind_eq_some, fresh_eq_some, pure_eq_some] at made
      obtain ⟨_, _, ⟨rfl, rfl⟩, a, _, madeL, b, _, madeR, rfl, rfl⟩ := made
      refine .close [(ctx.label (.short i), s), (ctx.label (.done i), s)]
        ((((expr_through lhs h.1 madeL level).append (.testIf (.inl ?_))).append
          (expr_through rhs h.2 madeR level)).append (.appendLines (.testIf (.inl ?_)) (.cons
            (.plain rfl) (.cons (.jump (.inl ?_)) (.cons .mark (.cons (.plain rfl) .mark))))))
        ?_ nofun <;> simp
    · simp only [bind_eq_some, lift_eq_some, pure_eq_some] at made
      obtain ⟨a, _, madeL, b, _, madeR, c, _, ⟨known, rfl⟩, rfl, rfl⟩ := made
      exact (((expr_through lhs h.1 madeL level).append (.push .rax)).append
        (expr_through rhs h.2 madeR (level_cons level _))).append
        (.appendLines (.cons (.plain rfl) (.pop .rax nofun)) (.plain (isPlain_binary _ known)))
  | .assign _ lhs rhs, h, _, _, _, _, _, made, away, _, _, level => by
    refine .around made level fun b made => ?_
    simp only [bind_eq_some, pure_eq_some] at made
    obtain ⟨a, _, madeL, b, _, madeR, rfl, rfl⟩ := made
    exact (((expr_through lhs h.1 madeL level).append (.push .rax)).append
      (expr_through rhs h.2 madeR (level_cons level _))).append
      (.appendLines (.cons (.pop .rdi nofun) (.plain rfl)) (.plain (isPlain_extend _)))
  | .comma _ lhs rhs, h, _, _, _, _, _, made, _, _, _, level => by
    refine .around made level fun b made => ?_
    simp only [bind_eq_some, pure_eq_some] at made
    obtain ⟨a, _, madeL, b, _, madeR, rfl, rfl⟩ := made
    exact (expr_through lhs h.1 madeL level).append (expr_through rhs h.2 madeR level)
  | .cond _ question yes no, h, _, i, _, _, _, made, away, _, s, level => by
    refine .around made level fun b made => ?_
    simp only [bind_eq_some, fresh_eq_some, pure_eq_some] at made
    obtain ⟨_, _, ⟨rfl, rfl⟩, a, _, madeQ, b, _, madeY, c, _, madeN, rfl, rfl⟩ := made
    refine .close [(ctx.label (.otherwise i), s), (ctx.label (.done i), s)]
      ((((((expr_through question h.1 madeQ level).append (.testIf (.inl ?_))).append
        (expr_through yes h.2.1 madeY level)).append (.cons (.jump (.inl ?_)) .mark)).append
        (expr_through no h.2.2 madeN level)).append .mark) ?_ nofun <;> simp
  | .unary _ _ operand, h, _, _, _, _, _, made, _, _, _, level => by
    refine .around made level fun b made => ?_
    obtain ⟨a, madeO, rfl⟩ := map_eq_some.mp made
    exact (expr_through operand h madeO level).append (.plain (isPlain_unary ..))
  | .addr _ operand, h, _, _, _, _, _, made, _, _, _, level => by
    exact .around made level fun b made => expr_through operand h made level
  | .call _ _ args, h, _, _, _, _, _, made, _, k, _, level => by
    refine .around made level fun b made => ?_
    obtain ⟨a, madeA, rfl⟩ := map_eq_some.mp made
    obtain ⟨places, count, pushes, noted⟩ := arguments_through args h.2 madeA (k := k) level
    intro known within held
    rw [Noted.notesFrom_append, append_subset] at within
    obtain ⟨held', first⟩ := pushes known within.1 held
    obtain ⟨held'', rest⟩ := called_runs h.1 count level fun n e here =>
      (noted n e here).imp fun _ found =>
        found.imp_right fun found => ⟨within.1 found.1, within.1 found.2⟩
    exact ⟨held'', first.append rest⟩
  | .cast _ _ operand, h, _, _, _, _, _, made, _, _, _, level => by
    refine .around made level fun b made => ?_
    obtain ⟨a, madeO, rfl⟩ := map_eq_some.mp made
    exact (expr_through operand h madeO level).append (.plain (isPlain_extend _))
  | .update .., h, _, _, _, _, _, _, _, _, _, _ => h.elim
theorem arguments_through {ctx : Context} {locals : Nat} : (args : List Expr) →
    Expr.AllFormed locals args → ∀ {depth i j : Nat} {a : Noted},
      Noted.arguments ctx depth args i = some (a, j) →
      ∀ {away : Label × Slots → Prop} {k : Nat} {s : Slots}, s.length = depth →
        ∃ places : List Nat, places.length = args.length ∧
          Through away k s a [] ((places.map some).reverse ++ s) ∧
          ∀ n e, args[n]? = some e →
            ∃ j, places[n]? = some j ∧ (j, .argument (depth + n) e) ∈ a.notesFrom k ∧
              (j, .ends (depth + n) e) ∈ a.notesFrom k
  | [], _, _, _, _, _, made, _, _, _, _ => by
    obtain ⟨rfl, rfl⟩ := pure_eq_some.mp made
    exact ⟨[], rfl, .nil, nofun⟩
  | arg :: args, h, depth, _, _, _, made, _, k, _, level => by
    simp only [Noted.arguments, bind_eq_some, pure_eq_some] at made
    obtain ⟨a, _, madeA, b, _, madeR, rfl, rfl⟩ := made
    obtain ⟨places, count, pushes, noted⟩ := arguments_through args h.2 madeR
      (k := k + (a ++ .pushed depth arg).code.length) (level_cons level (some (k + a.code.length)))
    refine ⟨(k + a.code.length) :: places, congrArg (· + 1) count, ?_, fun n e here => ?_⟩
    · have := ((expr_through arg h.1 madeA level).append (.pushed level)).append pushes
      simpa using this
    · cases n with
      | zero =>
        cases here
        refine ⟨k + a.code.length, rfl, ?_, ?_⟩
        · simp [Noted.pushed, Noted.notesFrom]
        · rw [Noted.notesFrom_append, Noted.notesFrom_append]
          refine mem_append_left _ (mem_append_left _ ?_)
          exact mem_map.mpr ⟨_, Noted.ends_mem madeA, rfl⟩
      | succ n =>
        obtain ⟨j, place, pushed, ends⟩ := noted n e here
        refine ⟨j, place, ?_⟩
        rw [Noted.notesFrom_append, Nat.add_comm n, ← Nat.add_assoc]
        exact ⟨mem_append_right _ pushed, mem_append_right _ ends⟩
end

/-! ## Statements -/

def caseLabels (ctx : Context) (labels : List CaseLabel) : List (Label × Slots) :=
  labels.map fun l => (ctx.label (.case l.label), [])

@[simp] theorem caseLabels_append (ctx : Context) (first rest : List CaseLabel) :
    caseLabels ctx (first ++ rest) = caseLabels ctx first ++ caseLabels ctx rest :=
  map_append

/-- Where a statement may lead: to the end of the function, or where `break` and `continue` do. -/
def Targets.spots (targets : Targets) : List Spot :=
  .ret :: (targets.exit.toList ++ targets.next.toList)

section Parts

variable {ctx : Context} {locals i j k : Nat} {a : Noted} {away : Label × Slots → Prop}

variable {e : Expr}

theorem value_through (h : e.Formed locals) (made : Noted.value ctx e i = some (a, j)) :
    Through away k [] a [] [] :=
  expr_through e h made rfl

theorem condition_through {spot : Spot} (goes : away (ctx.label spot, [])) (h : e.Formed locals)
    (made : Noted.condition ctx e spot i = some (a, j)) :
    Through away k [] a [] [] := by
  obtain ⟨a, madeE, rfl⟩ := map_eq_some.mp made
  exact (value_through h madeE).append (.testIf goes)

theorem optional_through {emit : Expr → Labelled Noted} {e : Option Expr}
    (each : ∀ {e i j a}, e.Formed locals → emit e i = some (a, j) → Through away k [] a [] [])
    (h : Expr.OptionalFormed locals e) (made : Noted.optional emit e i = some (a, j)) :
    Through away k [] a [] [] := by
  cases e with
  | none =>
    obtain ⟨rfl, rfl⟩ := pure_eq_some.mp made
    exact .nil
  | some e => exact each h made

theorem leaveTo_through {spot : Option Spot} (goes : ∀ x ∈ spot, away (ctx.label x, [])) :
    Through away k [] (.lines (leaveTo ctx spot)) [] [] := by
  cases spot with
  | none => exact .nil
  | some spot => exact .jump (goes spot rfl)

theorem dispatch_through {cases : List CaseLabel} (goes : ∀ x ∈ caseLabels ctx cases, away x) :
    Through away k [] (.lines (dispatch ctx cases)) [] [] := by
  induction cases generalizing k with
  | nil => exact .nil
  | cons case rest ih =>
    obtain ⟨value, label⟩ := case
    have rest := fun {k} => ih (k := k) fun x mem => goes x (mem_cons_of_mem _ mem)
    cases value with
    | none => exact rest
    | some value =>
      exact .appendLines (.cons (.plain rfl) (.cons (.plain rfl)
        (.jumpIf (goes _ mem_cons_self)))) rest

theorem fallback_mem (cases : List CaseLabel) : ∀ spot : Spot, fallback spot cases = spot ∨
    ∃ l ∈ cases, fallback spot cases = .case l.label := by
  induction cases with
  | nil => exact fun _ => .inl rfl
  | cons case rest ih =>
    intro spot
    have rest : ∀ {spot : Spot}, (∃ l ∈ rest, fallback spot rest = .case l.label) →
        ∃ l ∈ case :: rest, fallback spot rest = .case l.label :=
      fun ⟨l, mem, same⟩ => ⟨l, mem_cons_of_mem _ mem, same⟩
    change fallback (if case.value.isNone then .case case.label else spot) _ = _ ∨
      ∃ l ∈ case :: _, fallback (if case.value.isNone then .case case.label else spot) _ = _
    split
    · exact .inr ((ih (.case case.label)).elim (fun same => ⟨case, mem_cons_self, same⟩) rest)
    · exact (ih spot).imp_right rest

end Parts

mutual
/-- The code of a statement leaves the stack as it was, by induction over the tree. -/
theorem stmt_through {ctx : Context} {locals : Nat} : (t : Stmt) → ∀ {inside : Typing.Inside},
    t.Formed locals inside → ∀ {targets : Targets} {i j : Nat} {a : Noted},
      Noted.stmt ctx targets t i = some (a, j) →
      ∀ {away : Label × Slots → Prop} {k : Nat},
        (∀ spot ∈ targets.spots, away (ctx.label spot, [])) →
        Through away k [] a (caseLabels ctx t.labels) []
  | .expr _ e, _, h, _, _, _, _, made, _, _, _ => by
    exact .bounded made fun b made => value_through h made
  | .ret _ e, _, h, _, _, _, _, made, _, _, goes => by
    refine .bounded made fun b made => ?_
    obtain ⟨a, madeE, rfl⟩ := map_eq_some.mp made
    exact (optional_through value_through h madeE).append
      (.jump (goes .ret mem_cons_self))
  | .branch _ test yes no, _, h, _, i, _, _, made, _, _, goes => by
    refine .bounded made fun b made => ?_
    simp only [bind_eq_some, fresh_eq_some, pure_eq_some] at made
    obtain ⟨_, _, ⟨rfl, rfl⟩, a, _, madeC, b, _, madeY, c, _, madeN, rfl, rfl⟩ := made
    refine .close [(ctx.label (.otherwise i), []), (ctx.label (.done i), [])]
      (((((condition_through (.inl (by simp)) h.1 madeC).append
        (stmt_through yes h.2.1 madeY fun spot mem => .inr (goes spot mem))).append
        (.cons (.jump (.inl (by simp))) .mark)).append
        (optionalStmt_through no h.2.2 madeN fun spot mem => .inr (goes spot mem))).append
        .mark) (by simp) fun x mem => ?_
    simp only [Stmt.labels, caseLabels_append, mem_append] at mem ⊢
    tauto
  | .whileLoop _ test body, _, h, _, i, _, _, made, _, _, goes => by
    refine .bounded made fun b made => ?_
    simp only [bind_eq_some, fresh_eq_some, pure_eq_some] at made
    obtain ⟨_, _, ⟨rfl, rfl⟩, a, _, madeC, b, _, madeB, rfl, rfl⟩ := made
    have ret := goes .ret mem_cons_self
    exact .close [(ctx.label (.start i), []), (ctx.label (.done i), [])]
      ((((Through.landing.append
        (condition_through (.inl (by simp)) h.1 madeC)).append
        (stmt_through body h.2 madeB (by simp [Targets.spots, ret]))).append
        (.jump (.inl (by simp)))).append .landing) (by simp) (by simp [Stmt.labels])
  | .doLoop _ body test, _, h, _, i, _, _, made, _, _, goes => by
    refine .bounded made fun b made => ?_
    simp only [bind_eq_some, fresh_eq_some, pure_eq_some] at made
    obtain ⟨_, _, ⟨rfl, rfl⟩, a, _, madeB, b, _, madeC, rfl, rfl⟩ := made
    have ret := goes .ret mem_cons_self
    exact .close [(ctx.label (.start i), []), (ctx.label (.again i), []), (ctx.label (.done i), [])]
      ((((((Through.mark).append
        (stmt_through body h.2 madeB (by simp [Targets.spots, ret]))).append
        .landing).append (value_through h.1 madeC)).append
        (.testIf (.inl (by simp)))).append .landing) (by simp) (by simp [Stmt.labels])
  | .forLoop _ init test step body, _, h, _, i, _, _, made, _, _, goes => by
    refine .bounded made fun b made => ?_
    simp only [bind_eq_some, fresh_eq_some, pure_eq_some] at made
    obtain ⟨_, _, ⟨rfl, rfl⟩, a, _, madeI, b, _, madeC, c, _, madeB, d, _, madeS, rfl, rfl⟩ := made
    have ret := goes .ret mem_cons_self
    refine .close [(ctx.label (.start i), []), (ctx.label (.again i), []),
        (ctx.label (.done i), [])]
      ((((((((optionalStmt_through init h.1 madeI fun spot mem => .inr (goes spot mem)).append
        .mark).append (optional_through
          (condition_through (.inl (by simp))) h.2.1 madeC)).append
        (stmt_through body h.2.2.2 madeB (by simp [Targets.spots, ret]))).append
        .landing).append (optional_through value_through h.2.2.1 madeS)).append
        (.jump (.inl (by simp)))).append .landing) (by simp) fun x mem => ?_
    simp only [Stmt.labels, caseLabels_append, mem_append] at mem ⊢
    tauto
  | .switch _ e body cases, _, h, _, i, _, _, made, _, _, goes => by
    refine .bounded made fun b made => ?_
    simp only [bind_eq_some, fresh_eq_some, pure_eq_some] at made
    obtain ⟨_, _, ⟨rfl, rfl⟩, a, _, madeE, b, _, madeB, rfl, rfl⟩ := made
    obtain ⟨he, hb, rfl, -⟩ := h
    have ends : (ctx.label (fallback (.done i) body.labels), []) ∈
        caseLabels ctx body.labels ++ [(ctx.label (.done i), [])] := by
      rcases fallback_mem body.labels (.done i) with same | ⟨l, mem, same⟩
      · simp [same]
      · rw [same]
        exact mem_append_left _ (mem_map.mpr ⟨l, mem, rfl⟩)
    refine .close (caseLabels ctx body.labels ++ [(ctx.label (.done i), [])])
      ((((value_through he madeE).append (.appendLines
        (dispatch_through fun x mem => .inl (mem_append_left _ mem))
        (.jump (.inl ends)))).append (stmt_through body hb madeB fun spot mem => ?_)).append
        .landing) (by simp) nofun
    rcases mem_cons.mp mem with rfl | mem
    · exact .inr (goes .ret mem_cons_self)
    rcases mem_cons.mp mem with rfl | mem
    · exact .inl (mem_append_right _ (mem_singleton_self _))
    · exact .inr (goes spot (mem_cons_of_mem _ (mem_append_right _ mem)))
  | .case _ _ label body, _, h, _, _, _, _, made, _, _, goes
  | .default _ label body, _, h, _, _, _, _, made, _, _, goes => by
    refine .bounded made fun b made => ?_
    obtain ⟨a, madeB, rfl⟩ := map_eq_some.mp made
    cases label with
    | none => cases h.1
    | some n => exact .append .mark (stmt_through body h.2 madeB goes)
  | .exit _, _, _, _, _, _, _, made, _, _, goes => by
    refine .bounded made fun b made => ?_
    obtain ⟨rfl, rfl⟩ := pure_eq_some.mp made
    exact leaveTo_through fun x mem => goes x
      (mem_cons_of_mem _ (mem_append_left _ (Option.mem_toList.mpr mem)))
  | .next _, _, _, _, _, _, _, made, _, _, goes => by
    refine .bounded made fun b made => ?_
    obtain ⟨rfl, rfl⟩ := pure_eq_some.mp made
    exact leaveTo_through fun x mem => goes x
      (mem_cons_of_mem _ (mem_append_right _ (Option.mem_toList.mpr mem)))
  | .block _ body, _, h, _, _, _, _, made, _, _, goes => by
    exact .bounded made fun b made => stmts_through body h made goes
  | .null _, _, _, _, _, _, _, made, _, _, _ => by
    refine .bounded made fun b made => ?_
    obtain ⟨rfl, rfl⟩ := pure_eq_some.mp made
    exact .nil
theorem optionalStmt_through {ctx : Context} {locals : Nat} : (t : Option Stmt) →
    ∀ {inside : Typing.Inside}, Stmt.OptionalFormed locals inside t →
      ∀ {targets : Targets} {i j : Nat} {a : Noted},
      Noted.optionalStmt ctx targets t i = some (a, j) →
      ∀ {away : Label × Slots → Prop} {k : Nat},
        (∀ spot ∈ targets.spots, away (ctx.label spot, [])) →
        Through away k [] a (caseLabels ctx (Stmt.optionalLabels t)) []
  | none, _, _, _, _, _, _, made, _, _, _ => by
    obtain ⟨rfl, rfl⟩ := pure_eq_some.mp made
    exact .nil
  | some t, _, h, _, _, _, _, made, _, _, goes => stmt_through t h made goes
theorem stmts_through {ctx : Context} {locals : Nat} : (ts : List Stmt) →
    ∀ {inside : Typing.Inside}, Stmt.AllFormed locals inside ts →
      ∀ {targets : Targets} {i j : Nat} {a : Noted}, Noted.stmts ctx targets ts i = some (a, j) →
      ∀ {away : Label × Slots → Prop} {k : Nat},
        (∀ spot ∈ targets.spots, away (ctx.label spot, [])) →
        Through away k [] a (caseLabels ctx (Stmt.allLabels ts)) []
  | [], _, _, _, _, _, _, made, _, _, _ => by
    obtain ⟨rfl, rfl⟩ := pure_eq_some.mp made
    exact .nil
  | t :: rest, _, h, _, _, _, _, made, _, _, goes => by
    simp only [Noted.stmts, bind_eq_some, pure_eq_some] at made
    obtain ⟨a, _, madeS, b, _, madeR, rfl, rfl⟩ := made
    rw [Stmt.allLabels, caseLabels_append]
    exact (stmt_through t h.1 madeS goes).append (stmts_through rest h.2 madeR goes)
end

end MiniC.Emit.Stack
