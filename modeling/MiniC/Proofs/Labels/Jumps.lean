import MiniC.Proofs.Allocated.Code
import MiniC.Proofs.Grammar.Named
import MiniC.Proofs.Labels.Names
import MiniC.Proofs.Lowering.WellFormed
import MiniC.Proofs.Stack.Discipline

/-!
# Jumps land

The code of a function sets its symbol and spots of its own, none of them twice, and it jumps only
to spots that it sets. On the machine stack this follows from the numbers of the labels and from
the discipline of the stack; by way of blocks, from blocks that are well formed. The names of
functions are words, so the same holds of the names that an assembler sees, and no name is set in
the code of two functions (`jumps_land`).
-/

namespace MiniC

open Asm List

/-! ## The code of a function -/

/-- The labels of the code of a function with a given name: they are set once each, they are its
symbol and its spots, and jumps lead to them. -/
structure Asm.Lands (name : String) (code : List Line) : Prop where
  once : Distinct code
  own : ∀ label ∈ marked code, label = .symbol name ∨ ∃ spot, label = .inner name spot
  named : code.count (.label (.symbol name)) = 1
  land : ∀ label ∈ targets code, .label label ∈ code

namespace Asm

variable {label : Label}

theorem mem_marked {code : List Line} :
    label ∈ marked code ↔ Line.label label ∈ code := by
  rw [← count_pos_iff, count_marked, count_pos_iff]

theorem mem_targets {code : List Line} :
    label ∈ targets code ↔ ∃ i, Line.code i ∈ code ∧ label ∈ i.targets := by
  rw [targets, mem_flatMap]
  constructor
  · rintro ⟨line, mem, target⟩
    cases line with
    | code i => exact ⟨i, mem, target⟩
    | label | directive => cases target
  · rintro ⟨i, mem, target⟩
    exact ⟨.code i, mem, target⟩

theorem targets_append (first rest : List Line) :
    targets (first ++ rest) = targets first ++ targets rest := flatMap_append

theorem marked_functionHead (name : String) (isStatic : Bool) :
    marked (Emit.functionHead name isStatic) = [.symbol name] := by
  unfold Emit.functionHead Emit.visibility
  split <;> rfl

theorem targets_functionHead (name : String) (isStatic : Bool) :
    targets (Emit.functionHead name isStatic) = [] := by
  unfold Emit.functionHead Emit.visibility
  split <;> rfl

theorem Lands.of_head {name : String} {isStatic : Bool} {rest : List Line} (once : Distinct rest)
    (own : ∀ label ∈ marked rest, ∃ spot, label = .inner name spot)
    (land : ∀ label ∈ targets rest, .label label ∈ Emit.functionHead name isStatic ++ rest) :
    Lands name (Emit.functionHead name isStatic ++ rest) := by
  have inner : ∀ symbol, rest.count (.label (.symbol symbol)) = 0 := by
    refine fun symbol => count_eq_zero.mpr fun mem => ?_
    obtain ⟨spot, same⟩ := own _ (mem_marked.mpr mem)
    cases same
  refine ⟨Emit.distinct_functionHead once inner, fun label mem => ?_, ?_, fun label mem => ?_⟩
  · rw [marked_append, marked_functionHead, singleton_append, mem_cons] at mem
    exact mem.imp_right (own label)
  · rw [count_append, inner, ← count_marked, marked_functionHead, count_singleton_self]
  · rw [targets_append, targets_functionHead, nil_append] at mem
    exact land label mem

variable {name other : String} {code code' : List Line}

theorem Lands.proper (h : Lands name code) (word : Lexer.isName name = true) :
    ∀ label ∈ marked code, label.Proper := by
  intro label mem
  rcases h.own label mem with rfl | ⟨spot, rfl⟩
  · exact .inl word
  · exact word

theorem Lands.names_nodup (h : Lands name code) (word : Lexer.isName name = true) :
    (names code).Nodup := by
  refine nodup_iff_count_le_one.mpr fun text => ?_
  by_cases set : text ∈ names code
  · obtain ⟨label, mem, rfl⟩ := mem_map.mp set
    rw [count_names (h.proper word) (h.proper word label mem)]
    exact h.once label
  · rw [count_eq_zero.mpr set]
    exact Nat.zero_le 1

theorem Lands.count_target (h : Lands name code) (word : Lexer.isName name = true)
    (target : label ∈ targets code) : (names code).count label.text = 1 := by
  have set := h.land label target
  rw [count_names (h.proper word) (h.proper word label (mem_marked.mpr set))]
  have once := h.once label
  have some := count_pos_iff.mpr set
  omega

theorem Lands.disjoint (h : Lands name code) (h' : Lands other code')
    (word : Lexer.isName name = true) (word' : Lexer.isName other = true) (ne : name ≠ other) :
    (names code).Disjoint (names code') := by
  intro text mem mem'
  obtain ⟨label, set, rfl⟩ := mem_map.mp mem
  obtain ⟨label', set', same⟩ := mem_map.mp mem'
  cases Label.text_injective (h'.proper word' label' set') (h.proper word label set) same
  rcases h.own label set with rfl | ⟨spot, rfl⟩ <;>
    rcases h'.own _ set' with same | ⟨spot, same⟩ <;> cases same <;> exact ne rfl

theorem Lands.string_notMem (h : Lands name code) (word : Lexer.isName name = true) (index : Nat) :
    stringLabel index ∉ names code := by
  intro mem
  obtain ⟨label, set, same⟩ := mem_map.mp mem
  have proper : (Label.symbol (stringLabel index)).Proper := .inr ⟨index, rfl⟩
  cases Label.text_injective (h.proper word label set) proper same
  rcases h.own _ set with same | ⟨spot, same⟩
  · cases same
    rw [Label.stringLabel_not_isName] at word
    cases word
  · cases same

end Asm

/-! ## The machine stack -/

namespace Emit.Stack

theorem function_lands {σ : Structs} {f : Function} {body : Stmt} {code : Code} (h : f.Formed body)
    (aligned : f.stackSize.toNat % 16 = 0) (made : function σ f body = some code) :
    Lands f.name code := by
  have coherent := function_coherent h aligned made
  obtain ⟨rest, rfl, inner⟩ := function_marked made h.numbers
  have own : ∀ label ∈ marked rest, ∃ spot, label = .inner f.name spot := by
    intro label mem
    obtain ⟨spot, same, -⟩ := inner.own label (by rwa [← count_marked, count_pos_iff])
    exact ⟨spot, same⟩
  refine .of_head inner.once own fun label mem => ?_
  obtain ⟨i, mem, target⟩ := mem_targets.mp mem
  obtain ⟨k, here⟩ := mem_iff_getElem?.mp (mem_append_right _ mem)
  obtain ⟨j, found, -⟩ := coherent.jumps k i label here target
  exact mem_of_getElem? (getElem?_of_position found)

end Emit.Stack

/-! ## Blocks -/

namespace Emit.Allocated

variable {ctx : Context} {code : Code}

/-- A line that sets no label and jumps only to some. -/
structure Goes (allowed : List Label) (line : Line) : Prop where
  marks : line.marks = []
  jumps : line.jumps ⊆ allowed

variable {allowed : List Label} {line : Line}

theorem Goes.of_isStraight (h : isStraight line = true) : Goes allowed line := by
  cases line with
  | code i =>
    have none : i.targets = [] := isEmpty_iff.mp (Bool.and_eq_true_iff.mp h).1
    refine ⟨rfl, ?_⟩
    change i.targets ⊆ allowed
    rw [none]
    exact nil_subset _
  | label | directive => cases h

theorem Goes.all_straight (h : code.all isStraight = true) : ∀ line ∈ code, Goes allowed line :=
  fun line mem => .of_isStraight (all_eq_true.mp h line mem)

variable {label : Label} {g : Ir.Function}

theorem Goes.jmp (mem : label ∈ allowed) : Goes allowed (.code (.jmp label)) :=
  ⟨rfl, cons_subset.mpr ⟨mem, nil_subset _⟩⟩

theorem Goes.jcc {cond : Cond} (mem : label ∈ allowed) :
    Goes allowed (.code (.jcc cond label)) :=
  ⟨rfl, cons_subset.mpr ⟨mem, nil_subset _⟩⟩

theorem jump_goes {target : Ir.BlockId} (mem : ctx.blockLabel target ∈ allowed) :
    ∀ line ∈ ctx.jump target, Goes allowed line := by
  unfold Context.jump
  split
  · exact fun line mem => absurd mem not_mem_nil
  · exact forall_mem_singleton.mpr (.jmp mem)

theorem branch_goes {reg : Reg} {yes no : Ir.BlockId} (left : ctx.blockLabel yes ∈ allowed)
    (right : ctx.blockLabel no ∈ allowed) : ∀ line ∈ branch ctx reg yes no, Goes allowed line := by
  unfold branch
  refine forall_mem_cons.mpr ⟨.of_isStraight rfl, ?_⟩
  split
  · exact forall_mem_singleton.mpr (.jcc right)
  · exact forall_mem_cons.mpr ⟨.jcc left, jump_goes right⟩

theorem Coded.goes {i : Ir.Instruction} (h : Coded ctx i code) (ends : ctx.returnLabel ∈ allowed)
    (leads : ∀ id ∈ i.targets, ctx.blockLabel id ∈ allowed) : ∀ line ∈ code, Goes allowed line := by
  cases inner : i.isTerminator with
  | false => exact .all_straight (h.straight inner)
  | true =>
    cases h with
    | @branch test yes no r =>
      exact branch_goes (leads yes mem_cons_self) (leads no (by simp [Ir.Instruction.targets]))
    | @jump target => exact jump_goes (leads target mem_cons_self)
    | ret => exact forall_mem_singleton.mpr (.jmp ends)
    | retValue =>
      exact forall_mem_cons.mpr ⟨.of_isStraight rfl, forall_mem_singleton.mpr (.jmp ends)⟩
    | _ => cases inner

theorem Goes.marked_eq (h : ∀ line ∈ code, Goes allowed line) : marked code = [] :=
  flatMap_eq_nil_iff.mpr fun line mem => (h line mem).marks

theorem Goes.targets_subset (h : ∀ line ∈ code, Goes allowed line) : targets code ⊆ allowed := by
  intro label mem
  obtain ⟨line, mem, target⟩ := mem_flatMap.mp mem
  exact (h line mem).jumps target

theorem blocks_marked {bs : List Ir.Block} (made : blocks ctx bs = .ok code)
    (ends : ctx.returnLabel ∈ allowed)
    (leads : ∀ b ∈ bs, ∀ i ∈ b.instructions, ∀ id ∈ i.targets, ctx.blockLabel id ∈ allowed) :
    marked code = bs.map (fun b => ctx.blockLabel b.id) ∧ targets code ⊆ allowed := by
  induction bs generalizing code with
  | nil =>
    cases made
    exact ⟨rfl, nil_subset _⟩
  | cons b rest ih =>
    rw [forall_mem_cons] at leads
    obtain ⟨body, others, hb, hr, rfl⟩ := blocks_cons made
    have goes : ∀ line ∈ body, Goes allowed line := by
      refine instructions_all (P := fun c => ∀ line ∈ c, Goes allowed line) (forall_mem_nil _)
        (fun first rest => forall_mem_append.mpr ⟨first, rest⟩) (fun i mem c h => ?_) hb
      exact h.goes ends (leads.1 i mem)
    obtain ⟨set, jumps⟩ := ih hr leads.2
    rw [cons_append, ← singleton_append]
    constructor
    · rw [marked_append, marked_append, Goes.marked_eq goes, set]
      rfl
    · rw [targets_append, targets_append]
      exact append_subset.mpr ⟨nil_subset _, append_subset.mpr ⟨Goes.targets_subset goes, jumps⟩⟩

theorem isStraight_alignment (op : AluOp) (kept : List Reg) :
    (alignment op kept).all isStraight = true := by
  unfold alignment
  split <;> rfl

theorem isStraight_prologue (made : prologue ctx g = .ok code) :
    code.all isStraight = true := by
  obtain ⟨params, rfl, copies⟩ := prologue_coded made
  have frame : (reserve g).all isStraight = true := by
    unfold reserve
    split <;> rfl
  have moves : params.all isStraight = true := by
    refine all_eq_true.mpr fun line mem => ?_
    obtain ⟨v, r, arg, -, -, rfl⟩ := copies line mem
    rfl
  have pushes : ((saved ctx.allocation).map fun reg => Line.code (.push reg)).all isStraight = true := by
    rw [all_map]
    exact all_eq_true.mpr fun _ _ => rfl
  simp only [all_append, frame, pushes, isStraight_alignment, moves]
  rfl

theorem marked_epilogue (ctx : Context) :
    marked (epilogue ctx) = [ctx.returnLabel] ∧ targets (epilogue ctx) = [] := by
  have rest : (alignment .add (saved ctx.allocation) ++
      (saved ctx.allocation).reverse.map (fun reg => Line.code (.pop reg))).all isStraight = true := by
    rw [all_append, isStraight_alignment, all_map]
    exact all_eq_true.mpr fun _ _ => rfl
  have goes : ∀ line ∈ _, Goes [] line := Goes.all_straight rest
  rw [epilogue, append_assoc [_], marked_append, marked_append, targets_append, targets_append,
    Goes.marked_eq goes, subset_nil.mp (Goes.targets_subset goes)]
  exact ⟨rfl, rfl⟩

/-- The jumps of allocated code lead to its own labels. -/
theorem emit_lands {allocation : Allocation} (h : g.WellFormed)
    (made : emit allocation g = .ok code) : Lands g.name code := by
  obtain ⟨head, body, hh, hb, rfl⟩ := emit_coded made
  let ctx : Context := ⟨g.name, allocation, none⟩
  let labels := g.names.map ctx.blockLabel ++ [ctx.returnLabel]
  have opened : ∀ line ∈ head, Goes labels line := .all_straight (isStraight_prologue hh)
  obtain ⟨set, jumps⟩ : marked body = g.names.map ctx.blockLabel ∧ targets body ⊆ labels := by
    rw [Ir.Function.names, map_map]
    refine blocks_marked hb (mem_append_right _ mem_cons_self) fun b hb i hi id target => ?_
    refine mem_append_left _ (mem_map_of_mem ?_)
    exact h.targets i (mem_flatMap.mpr ⟨b, hb, hi⟩) id target
  have all : marked (head ++ body ++ epilogue ctx) = labels := by
    rw [marked_append, marked_append, Goes.marked_eq opened, set, (marked_epilogue ctx).1]
    rfl
  have distinct : labels.Nodup := by
    have injective : Function.Injective ctx.blockLabel := by
      rintro ⟨a⟩ ⟨b⟩ same
      cases same
      rfl
    refine nodup_append.mpr ⟨h.distinct.map injective, nodup_singleton _, ?_⟩
    intro label mem label' mem' same
    obtain ⟨id, -, rfl⟩ := mem_map.mp mem
    cases same.trans (mem_singleton.mp mem')
  rw [append_assoc, append_assoc, ← append_assoc head]
  refine .of_head (fun label => ?_) (fun label mem => ?_) fun label mem => ?_
  · rw [← count_marked, all]
    exact nodup_iff_count_le_one.mp distinct label
  · rw [all] at mem
    rcases mem_append.mp mem with mem | mem
    · obtain ⟨id, -, rfl⟩ := mem_map.mp mem
      exact ⟨_, rfl⟩
    · exact ⟨_, mem_singleton.mp mem⟩
  · refine mem_append_right _ (mem_marked.mp ?_)
    rw [all]
    rw [targets_append, targets_append, (marked_epilogue ctx).2, append_nil] at mem
    exact append_subset.mpr ⟨Goes.targets_subset opened, jumps⟩ mem

theorem function_lands (h : g.WellFormed) (made : function g = .ok code) :
    Lands g.name code := by
  obtain ⟨allocation, -, made⟩ := bind_eq_ok.mp made
  exact emit_lands h made

end Emit.Allocated

/-! ## Programs -/

namespace Typing

theorem function_head {Γ : Context} {f f' : Function} (h : function Γ f = .ok f') :
    f'.name = f.name ∧ f'.body.isSome = f.body.isSome := by
  obtain ⟨_, _, body, -, -, -, walked, rfl⟩ := function_eq_ok.mp h
  refine ⟨rfl, ?_⟩
  generalize f.body = parsed at walked
  cases walked <;> rfl

end Typing

namespace Program

def bodied (p : Program) : List Function := p.functions.filter (·.body.isSome)

/-- The code that a back end writes for a function. -/
inductive Writes (p : Program) (f : Function) : List Line → Prop
  | stack {body : Stmt} {code : List Line} : f.body = some body →
    Emit.Stack.function p.structs f body = some code → Writes p f code
  | allocated {body : Stmt} {g : Ir.Function} {code : List Line} : f.body = some body →
    Ir.lowerFunction p.structs f body = some g → Emit.Allocated.function g = .ok code →
      Writes p f code

end Program

section Accepted

variable {source : Source} {includes : Macro.Includes} {lexed tokens : List Lexed}
  {implicitDecls : Bool} {p q : Program}

theorem analyze_heads (analyzed : analyze implicitDecls p = .ok q) :
    q.functions.map (fun f => (f.name, f.body.isSome)) =
      p.functions.map (fun f => (f.name, f.body.isSome)) ∧
    q.globals = p.globals ∧ q.strings = p.strings := by
  obtain ⟨same, functions⟩ := Typing.program_eq (analyze_eq_ok.mp analyzed)
  refine ⟨?_, by rw [same], by rw [same]⟩
  clear same
  generalize p.functions = fs, q.functions = fs' at functions
  induction functions with
  | nil => rfl
  | cons typed _ ih =>
    obtain ⟨name, body⟩ := Typing.function_head typed.choose_spec
    rw [map_cons, map_cons, ih, name, body]

/-- The names of a typed program are identifiers. -/
theorem analyze_named (read : tokenize source = .ok lexed)
    (expanded : preprocess includes lexed = .ok tokens) (parsed : parse source tokens = .ok p)
    (analyzed : analyze implicitDecls p = .ok q) :
    q.Named fun name => Lexer.isName name = true := by
  have words : ∀ token ∈ tokens, ∀ name, token.value.kind = .id name →
      Lexer.isName name = true := by
    intro token mem name kind
    have word := preprocess_isWord read expanded token mem
    rwa [kind] at word
  have named := Program.parse_named (parse_eq_ok.mp parsed) words
  obtain ⟨heads, globals, -⟩ := analyze_heads analyzed
  have bodies : ∀ fs : List Function, (fs.filter (·.body.isSome)).map (·.name) =
      ((fs.map fun f => (f.name, f.body.isSome)).filter (·.2)).map (·.1) := by
    intro fs
    rw [filter_map, map_map]
    rfl
  refine ⟨fun f mem => ?_, globals ▸ named.globals, ?_⟩
  · have mem : (f.name, f.body.isSome) ∈ p.functions.map fun f => (f.name, f.body.isSome) :=
      heads ▸ mem_map_of_mem mem
    obtain ⟨f', mem, same⟩ := mem_map.mp mem
    rw [← (Prod.mk.inj same).1]
    exact named.functions f' mem
  · rw [bodies, heads, ← bodies]
    exact named.bodies

theorem Ir.lowerFunction_name {σ : Structs} {f : MiniC.Function} {body : Stmt} {g : Ir.Function}
    (lowered : Ir.lowerFunction σ f body = some g) : g.name = f.name := by
  simp only [Ir.lowerFunction, do_eq_some] at lowered
  obtain ⟨⟨params, built⟩, -, same⟩ := lowered
  cases same
  rfl

theorem writes_lands (parsed : parse source tokens = .ok p) (analyzed : analyze implicitDecls p = .ok q)
    {f : Function} {code : List Line} (listed : f ∈ q.functions) (written : q.Writes f code) :
    Lands f.name code := by
  have formed := analyze_formed parsed analyzed f listed
  cases written with
  | stack defined made =>
    exact Emit.Stack.function_lands (formed _ defined) (analyze_aligned analyzed f listed) made
  | allocated defined lowered made =>
    have named := Ir.lowerFunction_name lowered
    rw [← named]
    exact Emit.Allocated.function_lands (Ir.lowerFunction_wellFormed (formed _ defined) lowered).1 made

/-- **Jumps land.** Take a source that gets through to typing. Each of its functions with a body has
code on the machine stack. In the code that either back end writes for a function no name is set
twice, none is the name of a string, and the target of every jump is set by exactly one line of that
code. The code of two functions with a body never sets the same name. -/
theorem jumps_land (read : tokenize source = .ok lexed)
    (expanded : preprocess includes lexed = .ok tokens) (parsed : parse source tokens = .ok p)
    (analyzed : analyze implicitDecls p = .ok q) :
    (∀ f ∈ q.bodied, ∃ body code, f.body = some body ∧
      Emit.Stack.function q.structs f body = some code) ∧
    (∀ f ∈ q.bodied, ∀ code, q.Writes f code →
      (names code).Nodup ∧ (∀ index, stringLabel index ∉ names code) ∧
      ∀ target ∈ targets code, (names code).count target.text = 1) ∧
    q.bodied.Pairwise fun f f' => ∀ code code', q.Writes f code → q.Writes f' code' →
      (names code).Disjoint (names code') := by
  have named := analyze_named read expanded parsed analyzed
  refine ⟨fun f mem => ?_, fun f mem code written => ?_, ?_⟩
  · obtain ⟨listed, some⟩ := mem_filter.mp mem
    obtain ⟨body, defined⟩ := Option.isSome_iff_exists.mp some
    obtain ⟨code, made⟩ := Emit.Stack.function_total q.structs
      (analyze_formed parsed analyzed f listed body defined)
    exact ⟨body, code, defined, made⟩
  · obtain ⟨listed, -⟩ := mem_filter.mp mem
    have lands := writes_lands parsed analyzed listed written
    have word := named.functions f listed
    exact ⟨lands.names_nodup word, lands.string_notMem word, fun _ => lands.count_target word⟩
  · have apart : q.bodied.Pairwise fun f f' => f.name ≠ f'.name :=
      pairwise_map.mp named.bodies
    refine apart.imp_of_mem fun {f f'} mem mem' ne code code' written written' => ?_
    have listed := mem_of_mem_filter mem
    have listed' := mem_of_mem_filter mem'
    exact (writes_lands parsed analyzed listed written).disjoint
      (writes_lands parsed analyzed listed' written') (named.functions f listed)
      (named.functions f' listed') ne

end Accepted

/-! ## An example -/

/-- The tokens of a source without directives, and its program before and after typing. -/
def Source.typed? (source : Source) : Option (List Lexed × Program × Program) := do
  let tokens ← (tokenize source).toOption
  guard (tokens.all (!Macro.isDirective ·.value))
  let p ← (parse source tokens).toOption
  let q ← (analyze false p).toOption
  return (tokens, p, q)

theorem Source.stages_of_typed? {source : Source} {tokens : List Lexed} {p q : Program}
    (found : source.typed? = some (tokens, p, q)) (includes : Macro.Includes) :
    tokenize source = .ok tokens ∧ preprocess includes tokens = .ok tokens ∧
      parse source tokens = .ok p ∧ analyze false p = .ok q := by
  simp only [typed?, do_eq_some] at found
  obtain ⟨tokens', tokenized, _, plain, p', parsed, q', analyzed, same⟩ := found
  cases same
  have ordinary : ∀ token ∈ tokens, Macro.isDirective token.value = false := by
    unfold guard at plain
    split at plain
    next all => simpa using all
    next => cases plain
  exact ⟨eq_ok_of_toOption tokenized, preprocess_plain includes ordinary, eq_ok_of_toOption parsed,
    eq_ok_of_toOption analyzed⟩

def twoLoops : Source := ⟨"j.c", "int g(int n) \x7b while (n) n = n - 1; return n; \x7d
int f(int n) \x7b do n = g(n) ? 1 : 2; while (n); return n; \x7d"⟩

theorem typed?_twoLoops : twoLoops.typed?.map (fun x => x.2.2.bodied.map (·.name)) =
    some ["g", "f"] := by decide +kernel

theorem jumps_land_twoLoops : ∃ tokens p q, tokenize twoLoops = .ok tokens ∧
    preprocess ⟨"", fun _ => .error .notFound⟩ tokens = .ok tokens ∧
    parse twoLoops tokens = .ok p ∧ analyze false p = .ok q ∧ q.bodied.map (·.name) = ["g", "f"] ∧
    (∀ f ∈ q.bodied, ∃ body code, f.body = some body ∧
      Emit.Stack.function q.structs f body = some code) ∧
    (∀ f ∈ q.bodied, ∀ code, q.Writes f code →
      (names code).Nodup ∧ (∀ index, stringLabel index ∉ names code) ∧
      ∀ target ∈ targets code, (names code).count target.text = 1) ∧
    q.bodied.Pairwise fun f f' => ∀ code code', q.Writes f code → q.Writes f' code' →
      (names code).Disjoint (names code') := by
  obtain ⟨⟨tokens, p, q⟩, found, bodied⟩ := Option.map_eq_some_iff.mp typed?_twoLoops
  obtain ⟨read, expanded, parsed, analyzed⟩ :=
    Source.stages_of_typed? found ⟨"", fun _ => .error .notFound⟩
  exact ⟨tokens, p, q, read, expanded, parsed, analyzed, bodied,
    jumps_land read expanded parsed analyzed⟩

end MiniC
