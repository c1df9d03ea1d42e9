import MiniC.Proofs.Lowering.Text

/-!
# What lowered code keeps in registers

A register is live at a place if some path from there reads it before it is written. Lowered
code has a plan that bounds liveness: to each place of the text it gives the registers that
may still be read from there on, such that no jump backwards needs any.

The plan is made along with the text. `Tracked b needs held` says that the text so far has one,
in which `held` are the registers at hand at its end, and `needs` lists named blocks with the
registers that they will be entered with. A block that needs none may be entered again and again.
A block that needs some is the join of an expression or one of its arms: it starts once, after
all the jumps to it.
-/

namespace MiniC.Ir

open List

def Instruction.targets : Instruction → List BlockId
  | .branch _ yes no => [yes, no]
  | .jump target => [target]
  | _ => []

theorem Instruction.targets_eq_nil {i : Instruction} (straight : i.isTerminator = false) :
    i.targets = [] := by
  cases i <;> first | rfl | cases straight

namespace Function

def Writes (f : Function) (k : Nat) (v : VReg) : Prop :=
  ∃ i, f.instructions[k]? = some i ∧ i.def? = some v

def Reads (f : Function) (k : Nat) (v : VReg) : Prop :=
  ∃ i, f.instructions[k]? = some i ∧ v ∈ i.uses

/-- Where control may go from a place: to the next one, or to the start of a block that the
instruction jumps to. -/
def successors (f : Function) (k : Nat) : List Nat :=
  match f.instructions[k]? with
  | some i => if i.isTerminator then i.targets.filterMap f.entry else [k + 1]
  | none => []

/-- Control may go from a place to another. -/
abbrev Edge (f : Function) (k j : Nat) : Prop := j ∈ f.successors k

theorem edge_iff {f : Function} {k j : Nat} : f.Edge k j ↔ ∃ i, f.instructions[k]? = some i ∧
    (i.isTerminator = false ∧ j = k + 1 ∨ ∃ id ∈ i.targets, f.entry id = some j) := by
  unfold Edge successors
  cases f.instructions[k]? with
  | none => simp
  | some i =>
    cases kind : i.isTerminator with
    | true => simp [kind]
    | false => simp [kind, Instruction.targets_eq_nil kind]

/-- Some path from a place reads a register before it writes it. -/
inductive Live (f : Function) (v : VReg) : Nat → Prop where
  | here {k : Nat} (read : f.Reads k v) : Live f v k
  | later {k j : Nat} (edge : f.Edge k j) (kept : ¬ f.Writes k v) (rest : Live f v j) : Live f v k

/-- A plan of the registers that may be read from each place on. -/
structure Plan (f : Function) (held : Nat → List VReg) : Prop where
  start : held 0 ⊆ f.params
  reads : ∀ k i, f.instructions[k]? = some i → i.uses ⊆ held k
  next : ∀ k i, f.instructions[k]? = some i → i.isTerminator = false →
    ∀ v ∈ held (k + 1), v ∈ held k ∨ i.def? = some v
  jumps : ∀ k i, f.instructions[k]? = some i → ∀ id ∈ i.targets, ∀ j, f.entry id = some j →
    held j ⊆ held k ∧ (j ≤ k → held j = [])

variable {f : Function} {held : Nat → List VReg} {v : VReg} {k j : Nat}

theorem Plan.edge (h : f.Plan held) (edge : f.Edge k j) (mem : v ∈ held j) :
    v ∈ held k ∨ f.Writes k v := by
  obtain ⟨i, here, ⟨straight, rfl⟩ | ⟨id, target, entry⟩⟩ := edge_iff.mp edge
  · exact (h.next k i here straight v mem).imp_right fun write => ⟨i, here, write⟩
  · exact .inl ((h.jumps k i here id target j entry).1 mem)

theorem Plan.forward (h : f.Plan held) (edge : f.Edge k j) (mem : v ∈ held j) : k < j := by
  obtain ⟨i, here, ⟨straight, rfl⟩ | ⟨id, target, entry⟩⟩ := edge_iff.mp edge
  · exact Nat.lt_succ_self k
  · by_contra back
    rw [(h.jumps k i here id target j entry).2 (Nat.le_of_not_lt back)] at mem
    cases mem

theorem Live.mem (h : f.Plan held) (live : f.Live v k) : v ∈ held k := by
  induction live with
  | here read =>
    obtain ⟨i, here, use⟩ := read
    exact h.reads _ i here use
  | later edge kept _ ih => exact (h.edge edge ih).resolve_right kept

theorem Live.ahead (h : f.Plan held) (live : f.Live v k) : ∃ j, k ≤ j ∧ f.Reads j v := by
  induction live with
  | here read => exact ⟨_, Nat.le_refl _, read⟩
  | later edge _ rest ih =>
    obtain ⟨j, after, read⟩ := ih
    exact ⟨j, (h.forward edge (rest.mem h)).le.trans after, read⟩

end Function

namespace Lowering

open Build

namespace Build

def entry (b : Build) (id : BlockId) : Option Nat := b.places.lookup id

variable {b : Build} {i : Instruction}

theorem entry_emit (isOpen : b.isOpen = true) (id : BlockId) :
    (b.emit i).entry id = b.entry id := by
  rw [entry, places_emit, isOpen, if_pos rfl, append_nil, entry]

theorem entry_start (closed : b.isOpen = false) (id id' : BlockId) :
    (b.start id).entry id' =
      (b.entry id').or (if id' = id then some b.code.length else none) := by
  rw [entry, places_start, code_start, closed, lookup_append, entry]
  by_cases same : id' = id
  · simp [same]
  · simp [lookup_cons, same, beq_eq_false_iff_ne.mpr same]

theorem emit_eq_of_closed (closed : b.isOpen = false) :
    b.emit i = (b.withBlock.start ⟨b.nextBlock⟩).emit i := by
  unfold isOpen at closed
  cases none : b.current with
  | some block => simp [none] at closed
  | none =>
    simp only [emit, start, withBlock, none, Option.isSome_none, Bool.false_eq_true, if_false]
    unfold append
    split <;> rfl

theorem start_eq_of_open {id : BlockId} (isOpen : b.isOpen = true) :
    b.start id = (b.emit (.jump id)).start id := by
  rw [start_eq, start_eq, isOpen, isOpen_emit]
  rfl

end Build

/-- A plan for the text so far. The registers that a block will be entered with are marked, and
stay marked once it has started if there are none. -/
structure Consistent (params : List VReg) (b : Build) (held : Nat → List VReg)
    (marks : BlockId → Option (List VReg)) : Prop where
  start : held 0 ⊆ params
  reads : ∀ k i, b.code[k]? = some i → i.uses ⊆ held k
  next : ∀ k i, b.code[k]? = some i → i.isTerminator = false →
    ∀ v ∈ held (k + 1), v ∈ held k ∨ i.def? = some v
  jumps : ∀ k i, b.code[k]? = some i → ∀ id ∈ i.targets,
    (∀ j, b.entry id = some j → held j ⊆ held k ∧ (j ≤ k → held j = [])) ∧
      (b.entry id = none → ∃ needs, marks id = some needs ∧ needs ⊆ held k)
  named : ∀ id needs, marks id = some needs → id.index < b.nextBlock
  again : ∀ id needs j, marks id = some needs → b.entry id = some j → needs = [] ∧ held j = []
  placed : ∀ id j, b.entry id = some j → id.index < b.nextBlock ∧ j ≤ b.code.length
  inside : b.isOpen = false → ∀ id j, b.entry id = some j → j < b.code.length
  closed : b.isOpen = false → ∃ i, b.code.getLast? = some i ∧ i.isTerminator = true
  cases : ∀ c ∈ b.cases, marks c.2 = some []

theorem getElem?_concat {i i' : Instruction} {code : List Instruction} {k : Nat}
    (h : (code ++ [i'])[k]? = some i) : code[k]? = some i ∧ k < code.length ∨ k = code.length ∧ i = i' := by
  grind

namespace Consistent

variable {params held' : List VReg} {b : Build} {held : Nat → List VReg}
  {marks : BlockId → Option (List VReg)} {i : Instruction} {id : BlockId}

/-- An instruction that finds its operands at hand adds its result to them. -/
theorem emit (h : Consistent params b held marks) (isOpen : b.isOpen = true)
    (straight : i.isTerminator = false) (uses : i.uses ⊆ held b.code.length)
    (kept : held' ⊆ held b.code.length) :
    Consistent params (b.emit i)
      (fun k => if k ≤ b.code.length then held k else i.def?.toList ++ held') marks := by
  have entry := fun id => entry_emit (i := i) isOpen id
  have nextBlock : (b.emit i).nextBlock = b.nextBlock := by rw [nextBlock_emit, isOpen]; rfl
  refine ⟨?_, ?_, ?_, ?_, ?_, ?_, ?_, ?_, ?_, ?_⟩
  · simpa using h.start
  · intro k i' here
    rw [code_emit] at here
    rcases getElem?_concat here with ⟨here, lt⟩ | ⟨rfl, rfl⟩
    · rw [if_pos lt.le]
      exact h.reads k i' here
    · rwa [if_pos (Nat.le_refl _)]
  · intro k i' here straight' v mem
    rw [code_emit] at here
    rcases getElem?_concat here with ⟨here, lt⟩ | ⟨rfl, rfl⟩
    · rw [if_pos (Nat.succ_le_of_lt lt)] at mem
      rw [if_pos lt.le]
      exact h.next k i' here straight' v mem
    · rw [if_neg (by omega), mem_append, Option.mem_toList] at mem
      rw [if_pos (Nat.le_refl _)]
      exact mem.symm.imp_left fun mem => kept mem
  · intro k i' here id target
    rw [code_emit] at here
    rw [entry]
    rcases getElem?_concat here with ⟨here, lt⟩ | ⟨rfl, rfl⟩
    · rw [if_pos lt.le]
      refine ⟨fun j placed => ?_, (h.jumps k i' here id target).2⟩
      rw [if_pos (h.placed id j placed).2]
      exact (h.jumps k i' here id target).1 j placed
    · rw [Instruction.targets_eq_nil straight] at target
      cases target
  · intro id needs mark
    rw [nextBlock]
    exact h.named id needs mark
  · intro id needs j mark placed
    rw [entry] at placed
    rw [if_pos (h.placed id j placed).2]
    exact h.again id needs j mark placed
  · intro id j placed
    rw [entry] at placed
    rw [nextBlock, code_emit, length_append]
    exact ⟨(h.placed id j placed).1, (h.placed id j placed).2.trans (Nat.le_add_right _ _)⟩
  · simp [straight]
  · simp [straight]
  · rw [cases_emit]
    exact h.cases

/-- A block may end if its targets need nothing that is not at hand. -/
theorem leave (h : Consistent params b held marks) (isOpen : b.isOpen = true)
    (last : i.isTerminator = true) (uses : i.uses ⊆ held b.code.length)
    (targets : ∀ id ∈ i.targets, ∃ needs, marks id = some needs ∧ needs ⊆ held b.code.length) :
    Consistent params (b.emit i) held marks := by
  have entry := fun id => entry_emit (i := i) isOpen id
  have nextBlock : (b.emit i).nextBlock = b.nextBlock := by rw [nextBlock_emit, isOpen]; rfl
  have inside : ∀ id j, b.entry id = some j → j < (b.emit i).code.length := by
    intro id j placed
    rw [code_emit, length_append]
    exact Nat.lt_succ_of_le (h.placed id j placed).2
  refine ⟨h.start, ?_, ?_, ?_, ?_, ?_, ?_, ?_, ?_, ?_⟩
  · intro k i' here
    rw [code_emit] at here
    rcases getElem?_concat here with ⟨here, -⟩ | ⟨rfl, rfl⟩
    · exact h.reads k i' here
    · exact uses
  · intro k i' here straight
    rw [code_emit] at here
    rcases getElem?_concat here with ⟨here, -⟩ | ⟨rfl, rfl⟩
    · exact h.next k i' here straight
    · cases last.symm.trans straight
  · intro k i' here id target
    rw [code_emit] at here
    rw [entry]
    rcases getElem?_concat here with ⟨here, -⟩ | ⟨rfl, rfl⟩
    · exact h.jumps k i' here id target
    · obtain ⟨needs, mark, sub⟩ := targets id target
      refine ⟨fun j placed => ?_, fun _ => ⟨needs, mark, sub⟩⟩
      rw [(h.again id needs j mark placed).2]
      exact ⟨nil_subset _, fun _ => rfl⟩
  · intro id needs mark
    rw [nextBlock]
    exact h.named id needs mark
  · intro id needs j mark placed
    rw [entry] at placed
    exact h.again id needs j mark placed
  · intro id j placed
    rw [entry] at placed
    rw [nextBlock]
    exact ⟨(h.placed id j placed).1, (inside id j placed).le⟩
  · intro _ id j placed
    rw [entry] at placed
    exact inside id j placed
  · intro _
    exact ⟨i, by rw [code_emit, List.getLast?_concat], last⟩
  · rw [cases_emit]
    exact h.cases

theorem block (h : Consistent params b held marks) (needs : List VReg) :
    Consistent params b.withBlock held
      (fun id => if id = ⟨b.nextBlock⟩ then some needs else marks id) := by
  have fresh : ∀ {id : BlockId}, id.index < b.nextBlock → id ≠ ⟨b.nextBlock⟩ := by
    rintro id lt rfl
    exact Nat.lt_irrefl _ lt
  refine ⟨h.start, h.reads, h.next, ?_, ?_, ?_, ?_, h.inside, h.closed, ?_⟩
  · intro k i here id target
    refine ⟨(h.jumps k i here id target).1, fun missing => ?_⟩
    obtain ⟨needs, mark, sub⟩ := (h.jumps k i here id target).2 missing
    exact ⟨needs, by rwa [if_neg (fresh (h.named id needs mark))], sub⟩
  · intro id needs mark
    split at mark
    · subst id
      exact Nat.lt_succ_self _
    · exact (h.named id needs mark).trans (Nat.lt_succ_self _)
  · intro id needs j mark placed
    rw [if_neg (fresh (h.placed id j placed).1)] at mark
    exact h.again id needs j mark placed
  · intro id j placed
    exact ⟨(h.placed id j placed).1.trans (Nat.lt_succ_self _), (h.placed id j placed).2⟩
  · intro c mem
    rw [if_neg (fresh (h.named _ _ (h.cases c mem)))]
    exact h.cases c mem

/-- In a block that starts, what is needed there is at hand. -/
theorem enter (h : Consistent params b held marks) (closed : b.isOpen = false) {needs : List VReg}
    (mark : marks id = some needs) :
    Consistent params (b.start id) (fun k => if k = b.code.length then needs else held k)
      (fun id' => if id' = id then (marks id').filter List.isEmpty else marks id') := by
  have code : (b.start id).code = b.code := by rw [code_start, closed]; exact append_nil _
  have entry := entry_start closed id
  have marked : ∀ {id' : BlockId} {needs' : List VReg},
      (if id' = id then (marks id').filter List.isEmpty else marks id') = some needs' →
        marks id' = some needs' ∧ (id' = id → needs' = []) := by
    intro id' needs' mark'
    split at mark'
    next same =>
      rw [Option.filter_eq_some_iff] at mark'
      exact ⟨mark'.1, fun _ => isEmpty_iff.mp mark'.2⟩
    next other => exact ⟨mark', fun same => absurd same other⟩
  -- A place before the end of the text keeps its registers.
  have same : ∀ {k : Nat}, k < b.code.length →
      (if k = b.code.length then needs else held k) = held k := fun lt => if_neg lt.ne
  have lt : ∀ {k : Nat} {i : Instruction}, b.code[k]? = some i → k < b.code.length :=
    fun here => (List.getElem?_eq_some_iff.mp here).1
  obtain ⟨last, latest, terminator⟩ := h.closed closed
  have nonempty : 0 < b.code.length := length_pos_of_ne_nil (by rintro nil; simp [nil] at latest)
  refine ⟨?_, ?_, ?_, ?_, ?_, ?_, ?_, ?_, ?_, ?_⟩
  · rw [same nonempty]
    exact h.start
  · rw [code]
    intro k i here
    rw [same (lt here)]
    exact h.reads k i here
  · rw [code]
    intro k i here straight
    have before : k + 1 < b.code.length := by
      refine lt_of_le_of_ne (lt here) fun atEnd => ?_
      rw [List.getLast?_eq_getElem?, ← atEnd, Nat.add_sub_cancel, here] at latest
      cases latest
      cases terminator.symm.trans straight
    rw [same (lt here), same before]
    exact h.next k i here straight
  · rw [code]
    intro k i here id' target
    rw [same (lt here), entry]
    obtain ⟨old, ahead⟩ := h.jumps k i here id' target
    cases placed : b.entry id' with
    | some j =>
      refine ⟨?_, nofun⟩
      rintro _ ⟨⟩
      rw [same (h.inside closed id' j placed)]
      exact old j placed
    | none =>
      obtain ⟨needs', mark', sub⟩ := ahead placed
      by_cases first : id' = id
      · subst first
        cases mark.symm.trans mark'
        rw [if_pos rfl]
        refine ⟨?_, nofun⟩
        rintro _ ⟨⟩
        rw [if_pos rfl]
        exact ⟨sub, fun back => absurd (lt here) (Nat.not_lt_of_le back)⟩
      · simp only [if_neg first]
        exact ⟨nofun, fun _ => ⟨needs', mark', sub⟩⟩
  · intro id' needs' mark'
    rw [nextBlock_start]
    exact h.named id' needs' (marked mark').1
  · intro id' needs' j mark' placed
    rw [entry] at placed
    obtain ⟨unmarked, again⟩ := marked mark'
    cases old : b.entry id' with
    | some j' =>
      rw [old] at placed
      cases placed
      rw [same (h.inside closed id' j old)]
      exact h.again id' needs' j unmarked old
    | none =>
      rw [old, Option.none_or] at placed
      split at placed
      next first =>
        cases placed
        subst first
        cases mark.symm.trans unmarked
        rw [if_pos rfl]
        exact ⟨again rfl, again rfl⟩
      next => cases placed
  · intro id' j placed
    rw [entry] at placed
    rw [nextBlock_start, code]
    cases old : b.entry id' with
    | some j' =>
      rw [old] at placed
      cases placed
      exact h.placed id' j old
    | none =>
      rw [old, Option.none_or] at placed
      split at placed
      next first =>
        cases placed
        subst first
        exact ⟨h.named id' needs mark, Nat.le_refl _⟩
      next => cases placed
  · intro isClosed
    cases isClosed
  · intro isClosed
    cases isClosed
  · rw [cases_start]
    intro c mem
    split
    · rw [h.cases c mem]
      rfl
    · exact h.cases c mem

end Consistent

/-- The text so far has a plan. At its end the registers of `held` are at hand, and the blocks
of `needs` may be jumped to if theirs are. -/
def Tracked (params : List VReg) (b : Build) (needs : List (BlockId × List VReg))
    (held : List VReg) : Prop :=
  ∃ plan marks, Consistent params b plan marks ∧ (needs.map (·.1)).Nodup ∧
    (∀ e ∈ needs, marks e.1 = some e.2) ∧ held ⊆ plan b.code.length ∧ (b.isOpen = false → held = [])

namespace Tracked

variable {params held held' : List VReg} {b : Build} {needs needs' : List (BlockId × List VReg)}
  {id : BlockId} {i : Instruction} {expected : List VReg}

theorem forget (h : Tracked params b needs held) (sub : held' ⊆ held) :
    Tracked params b needs held' := by
  obtain ⟨plan, marks, consistent, distinct, marked, kept, closed⟩ := h
  refine ⟨plan, marks, consistent, distinct, marked, fun v mem => kept (sub mem), fun isClosed => ?_⟩
  rw [closed isClosed] at sub
  exact subset_nil.mp sub

theorem sublist (h : Tracked params b needs held) (sub : needs'.Sublist needs) :
    Tracked params b needs' held := by
  obtain ⟨plan, marks, consistent, distinct, marked, kept⟩ := h
  exact ⟨plan, marks, consistent, (sub.map _).nodup distinct, fun e mem => marked e (sub.subset mem),
    kept⟩

theorem tail {e : BlockId × List VReg} (h : Tracked params b (e :: needs) held) :
    Tracked params b needs held := h.sublist (sublist_cons_self _ _)

theorem perm (h : Tracked params b needs held) (perm : needs.Perm needs') :
    Tracked params b needs' held := by
  obtain ⟨plan, marks, consistent, distinct, marked, kept⟩ := h
  exact ⟨plan, marks, consistent, (perm.map _).nodup_iff.mp distinct,
    fun e mem => marked e (perm.mem_iff.mpr mem), kept⟩

theorem vreg (h : Tracked params b needs held) : Tracked params b.withVReg needs held := by
  obtain ⟨plan, marks, consistent, rest⟩ := h
  exact ⟨plan, marks, ⟨consistent.start, consistent.reads, consistent.next, consistent.jumps,
    consistent.named, consistent.again, consistent.placed, consistent.inside, consistent.closed,
    consistent.cases⟩, rest⟩

theorem block (h : Tracked params b needs held) (expected : List VReg) :
    Tracked params b.withBlock ((⟨b.nextBlock⟩, expected) :: needs) held := by
  obtain ⟨plan, marks, consistent, distinct, marked, kept⟩ := h
  have fresh : ∀ e ∈ needs, e.1 ≠ ⟨b.nextBlock⟩ := by
    intro e mem same
    have lt := consistent.named e.1 e.2 (marked e mem)
    rw [same] at lt
    exact Nat.lt_irrefl _ lt
  refine ⟨plan, _, consistent.block expected, ?_, ?_, kept⟩
  · rw [map_cons, nodup_cons]
    refine ⟨fun mem => ?_, distinct⟩
    obtain ⟨e, mem, same⟩ := mem_map.mp mem
    exact fresh e mem same
  · intro e mem
    rcases mem_cons.mp mem with rfl | mem
    · exact if_pos rfl
    · rw [if_neg (fresh e mem)]
      exact marked e mem

theorem case (h : Tracked params b needs held) (label : Nat) (mem : (id, []) ∈ needs) :
    Tracked params (b.withCase label id) needs held := by
  obtain ⟨plan, marks, consistent, distinct, marked, kept⟩ := h
  exact ⟨plan, marks, ⟨consistent.start, consistent.reads, consistent.next, consistent.jumps,
    consistent.named, consistent.again, consistent.placed, consistent.inside, consistent.closed,
    forall_mem_cons.mpr ⟨marked _ mem, consistent.cases⟩⟩, distinct, marked, kept⟩

private theorem enter (h : Tracked params b needs held) (closed : b.isOpen = false)
    (mem : (id, expected) ∈ needs) (sub : needs'.Sublist needs)
    (others : ∀ e ∈ needs', e.1 = id → e.2 = []) : Tracked params (b.start id) needs' expected := by
  obtain ⟨plan, marks, consistent, distinct, marked, -⟩ := h
  refine ⟨_, _, consistent.enter closed (marked _ mem), (sub.map _).nodup distinct, fun e he => ?_,
    ?_, fun isClosed => ?_⟩
  · have mark := marked e (sub.subset he)
    split
    next same => rw [mark, others e he same]; rfl
    next => exact mark
  · rw [code_start, closed, if_neg Bool.false_ne_true, append_nil, if_pos rfl]
    exact List.Subset.refl _
  · cases isClosed

private theorem opened (h : Tracked params b needs held) :
    ∃ c : Build, c.isOpen = true ∧ (∀ i, b.emit i = c.emit i) ∧ Tracked params c needs held := by
  cases isOpen : b.isOpen with
  | true => exact ⟨b, isOpen, fun _ => rfl, h⟩
  | false =>
    refine ⟨_, isOpen_start _ _, fun i => emit_eq_of_closed isOpen, ?_⟩
    have empty : held = [] := h.choose_spec.choose_spec.2.2.2.2 isOpen
    subst empty
    have fresh := (h.block []).choose_spec.choose_spec.2.1
    rw [map_cons, nodup_cons] at fresh
    refine (h.block []).enter isOpen mem_cons_self (sublist_cons_self _ _) ?_
    intro e mem same
    exact absurd (mem_map.mpr ⟨e, mem, same⟩) fresh.1

theorem emit (h : Tracked params b needs held) (straight : i.isTerminator = false)
    (uses : i.uses ⊆ held) : Tracked params (b.emit i) needs (i.def?.toList ++ held) := by
  obtain ⟨c, isOpen, same, plan, marks, consistent, distinct, marked, kept, -⟩ := h.opened
  rw [same]
  refine ⟨_, marks, consistent.emit isOpen straight (fun v mem => kept (uses mem)) kept, distinct,
    marked, ?_, ?_⟩
  · rw [code_emit, length_append, if_neg (by simp)]
    exact List.Subset.refl _
  · simp [straight]

theorem leave (h : Tracked params b needs held) (last : i.isTerminator = true)
    (uses : i.uses ⊆ held) (targets : ∀ id ∈ i.targets, ∃ expected, (id, expected) ∈ needs ∧
      expected ⊆ held) : Tracked params (b.emit i) needs [] := by
  obtain ⟨c, isOpen, same, plan, marks, consistent, distinct, marked, kept, -⟩ := h.opened
  rw [same]
  refine ⟨plan, marks, consistent.leave isOpen last (fun v mem => kept (uses mem)) ?_, distinct,
    marked, nil_subset _, fun _ => rfl⟩
  intro id target
  obtain ⟨expected, mem, sub⟩ := targets id target
  exact ⟨expected, marked _ mem, fun v mem => kept (sub mem)⟩

theorem jump (h : Tracked params b needs held) (id : BlockId) (mem : (id, expected) ∈ needs)
    (sub : expected ⊆ held) : Tracked params (b.emit (.jump id)) needs [] :=
  h.leave rfl (nil_subset _) fun _ target => by
    cases mem_singleton.mp target
    exact ⟨expected, mem, sub⟩

theorem branch {test : VReg} {yes no : BlockId} (h : Tracked params b needs (test :: held))
    (first : (yes, held) ∈ needs) (second : (no, held) ∈ needs) :
    Tracked params (b.emit (.branch test yes no)) needs [] := by
  refine h.leave rfl (cons_subset.mpr ⟨mem_cons_self, nil_subset _⟩) ?_
  intro id target
  rcases mem_pair.mp target with rfl | rfl
  · exact ⟨held, first, subset_cons_self _ _⟩
  · exact ⟨held, second, subset_cons_self _ _⟩

private theorem closing (h : Tracked params b needs held) (mem : (id, expected) ∈ needs)
    (sub : b.isOpen = true → expected ⊆ held) :
    ∃ c : Build, c.isOpen = false ∧ b.start id = c.start id ∧ Tracked params c needs [] := by
  cases isOpen : b.isOpen with
  | true => exact ⟨_, by simp [Instruction.isTerminator], start_eq_of_open isOpen,
      h.jump id mem (sub isOpen)⟩
  | false => exact ⟨b, isOpen, rfl, h.forget (nil_subset _)⟩

theorem start (h : Tracked params b ((id, expected) :: needs) held)
    (sub : b.isOpen = true → expected ⊆ held) : Tracked params (b.start id) needs expected := by
  obtain ⟨c, closed, same, h⟩ := h.closing mem_cons_self sub
  rw [same]
  have fresh := h.choose_spec.choose_spec.2.1
  rw [map_cons, nodup_cons] at fresh
  refine h.enter closed mem_cons_self (sublist_cons_self _ _) ?_
  intro e mem same
  exact absurd (mem_map.mpr ⟨e, mem, same⟩) fresh.1

theorem restart (h : Tracked params b needs held) (mem : (id, []) ∈ needs) :
    Tracked params (b.start id) needs [] := by
  obtain ⟨c, closed, same, h⟩ := h.closing mem fun _ => nil_subset _
  rw [same]
  refine h.enter closed mem (List.Sublist.refl _) ?_
  rintro ⟨id', expected⟩ mem' rfl
  have distinct := h.choose_spec.choose_spec.2.1
  exact congrArg Prod.snd (inj_on_of_nodup_map distinct mem' mem rfl)

theorem enterCase (h : Tracked params b needs []) (label : Option Nat) :
    Tracked params (b.enter label) needs [] := by
  unfold Build.enter
  cases found : label.bind (b.cases.lookup ·) with
  | none => exact h
  | some target =>
    obtain ⟨number, -, found⟩ := Option.bind_eq_some_iff.mp found
    have listed : (number, target) ∈ b.cases := by
      obtain ⟨first, rest, split, -⟩ := lookup_eq_some_iff.mp found
      rw [split]
      exact mem_append_right _ mem_cons_self
    by_cases known : target ∈ needs.map (·.1)
    · obtain ⟨⟨id, expected⟩, mem, rfl⟩ := mem_map.mp known
      obtain ⟨plan, marks, consistent, distinct, marked, kept⟩ := h
      cases (marked _ mem).symm.trans (consistent.cases _ listed)
      exact restart ⟨plan, marks, consistent, distinct, marked, kept⟩ mem
    · obtain ⟨plan, marks, consistent, distinct, marked, kept⟩ := h
      have more : Tracked params b ((target, []) :: needs) [] := by
        exact ⟨plan, marks, consistent, nodup_cons.mpr ⟨known, distinct⟩,
          forall_mem_cons.mpr ⟨consistent.cases _ listed, marked⟩, kept⟩
      exact more.start fun _ => nil_subset _

theorem define {i : VReg → Instruction} (operands : List VReg)
    (h : Tracked params b needs (operands ++ held))
    (straight : (i ⟨b.nextVReg⟩).isTerminator = false) (uses : (i ⟨b.nextVReg⟩).uses ⊆ operands)
    (write : (i ⟨b.nextVReg⟩).def? = some ⟨b.nextVReg⟩) :
    Tracked params (b.define i) needs (⟨b.nextVReg⟩ :: held) := by
  have made := h.vreg.emit straight fun v mem => mem_append_left held (uses mem)
  rw [write] at made
  refine made.forget ?_
  intro v mem
  simp only [Option.toList_some, cons_append, nil_append, mem_cons, mem_append] at *
  tauto

end Tracked

/-! ## Expressions -/

variable {ctx : Context} {params : List VReg}

variable {r : VReg} {b b' : Build} {u : Unit} {e : Option Expr} {yes no : BlockId}

theorem access_tracked {want : Want} {ty : CType} {addr : VReg}
    (made : access want ty addr b = some (r, b')) {needs : List (BlockId × List VReg)}
    {held : List VReg} (h : Tracked params b needs (addr :: held)) :
    Tracked params b' needs (r :: held) := by
  unfold access at made
  split at made
  · obtain ⟨rfl, rfl⟩ := pure_eq_some.mp made
    exact h
  · split at made
    · obtain ⟨rfl, rfl⟩ := pure_eq_some.mp made
      exact h
    · obtain ⟨rfl, rfl⟩ := define_eq_some.mp made
      exact .define [addr] h rfl (by simp [Instruction.uses]) rfl

theorem displace_tracked {offset : UInt32} {base : VReg}
    (made : displace base offset b = some (r, b')) {needs : List (BlockId × List VReg)}
    {held : List VReg} (h : Tracked params b needs (base :: held)) :
    Tracked params b' needs (r :: held) := by
  unfold displace at made
  split at made
  · obtain ⟨rfl, rfl⟩ := pure_eq_some.mp made
    exact h
  · simp only [bind_eq_some, imm_eq_some, define_eq_some] at made
    obtain ⟨_, _, ⟨rfl, rfl⟩, rfl, rfl⟩ := made
    refine .define [_, base] (.define [] h rfl (nil_subset _) rfl) rfl ?_ rfl
    simp [Instruction.uses]

theorem joinWith_tracked {result : VReg} {join block : BlockId} {value : Lower VReg}
    (made : joinWith result join block value b = some (u, b')) {needs : List (BlockId × List VReg)}
    {held : List VReg} (closed : b.isOpen = false)
    (arm : ∀ ⦃r c⦄, value (b.start block) = some (r, c) →
      Tracked params (b.start block) needs held → Tracked params c needs (r :: held))
    (join : (join, result :: held) ∈ needs) (h : Tracked params b ((block, held) :: needs) []) :
    Tracked params b' needs [] ∧ b'.isOpen = false := by
  simp only [joinWith, bind_eq_some, start_eq_some, emit_eq_some] at made
  obtain ⟨_, _, rfl, r, c, madeR, _, _, rfl, rfl⟩ := made
  have entered := h.start (by simp [closed])
  have moved := (arm madeR entered).emit (i := .mov result r) rfl (by simp [Instruction.uses])
  refine ⟨moved.jump _ join ?_, by simp [Instruction.isTerminator]⟩
  exact cons_subset_cons result (subset_cons_self _ _)

mutual
/-- The value of an expression is at hand behind it, by induction over the tree. -/
theorem expr_tracked : (e : Expr) → (want : Want) → ∀ ⦃b r b'⦄,
    expr ctx want e b = some (r, b') → ∀ ⦃needs held⦄, Tracked params b needs held →
      Tracked params b' needs (r :: held)
  | .num _ value, want | .sizeof _ operand, want => fun b r b' made needs held h => by
    obtain ⟨rfl, rfl⟩ := imm_eq_some.mp made
    exact .define [] h rfl (nil_subset _) rfl
  | .str note index, want | .global note name, want => fun b r b' made needs held h => by
    simp only [expr, bind_eq_some, define_eq_some] at made
    obtain ⟨_, _, ⟨rfl, rfl⟩, made⟩ := made
    exact access_tracked made (.define [] h rfl (nil_subset _) rfl)
  | .var note index, want => fun b r b' made needs held h => by
    simp only [expr, bind_eq_some, lift_eq_some, define_eq_some] at made
    obtain ⟨v, _, ⟨_, rfl⟩, _, _, ⟨rfl, rfl⟩, made⟩ := made
    exact access_tracked made (.define [] h rfl (nil_subset _) rfl)
  | .deref note pointer, want => fun b r b' made needs held h => by
    simp only [expr, bind_eq_some] at made
    obtain ⟨_, _, madeP, made⟩ := made
    exact access_tracked made (expr_tracked pointer .value madeP h)
  | .member note base _ offset, want => fun b r b' made needs held h => by
    simp only [expr, bind_eq_some] at made
    obtain ⟨_, _, madeB, _, _, madeD, made⟩ := made
    exact access_tracked made (displace_tracked madeD (expr_tracked base .address madeB h))
  | .binary note op _ lhs rhs, want => fun b r b' made needs held h => by
    by_cases skips : op = .logAnd ∨ op = .logOr
    · rw [expr_logical skips] at made
      simp only [bind_eq_some, vreg_eq_some, newBlock_eq_some, emit_eq_some, start_eq_some,
        imm_eq_some, pure_eq_some] at made
      obtain ⟨_, _, ⟨rfl, rfl⟩, right, _, ⟨hright, rfl⟩, short, _, ⟨hshort, rfl⟩, join, _,
        ⟨hjoin, rfl⟩, l, c, madeL, _, _, rfl, _, _, rfl, s, d, madeR, _, _, ⟨rfl, rfl⟩, _, _, rfl,
        _, _, rfl, _, _, rfl, _, _, rfl, _, _, rfl, rfl, rfl⟩ := made
      generalize VReg.mk b.nextVReg = result at *
      have named := ((h.vreg.block held).block held).block (result :: held)
      rw [hright, hshort, hjoin] at named
      have left := expr_tracked lhs .value madeL named
      have branched : Tracked params (c.emit (if op = .logAnd then .branch l right short
          else .branch l short right))
          ((join, result :: held) :: (short, held) :: (right, held) :: needs) [] := by
        split <;> exact left.branch (by simp) (by simp)
      -- The right operand, then the answer without it; both bring the result to the join.
      have entered := (branched.perm (.trans (.cons _ (.swap ..)) (.swap ..))).start
        (by split <;> simp [Instruction.isTerminator])
      have zero : Tracked params (d.define (.imm · 0)) ((join, result :: held) :: (short, held) ::
          needs) (⟨d.nextVReg⟩ :: s :: held) :=
        .define [] (expr_tracked rhs .value madeR entered) rfl (nil_subset _) rfl
      have compared := zero.emit (i := .binary .ne .qword result s ⟨d.nextVReg⟩) rfl
        (by simp [Instruction.uses])
      have joined := compared.jump join mem_cons_self
        (cons_subset_cons result (List.Subset.trans (subset_cons_self _ _) (subset_cons_self _ _)))
      have skipped := (joined.perm (.swap ..)).start (by simp [Instruction.isTerminator])
      have answered := skipped.emit (i := .imm result (if op = .logAnd then 0 else 1)) rfl
        (nil_subset _)
      exact answered.start fun _ => List.Subset.refl _
    · rw [expr, if_neg skips] at made
      simp only [bind_eq_some, define_eq_some] at made
      obtain ⟨l, c, madeL, s, d, madeR, rfl, rfl⟩ := made
      have both := expr_tracked rhs .value madeR (expr_tracked lhs .value madeL h)
      exact .define [s, l] both rfl (by simp [Instruction.uses]) rfl
  | .assign _ lhs rhs, want => fun b r b' made needs held h => by
    simp only [expr, bind_eq_some, emit_eq_some] at made
    obtain ⟨a, c, madeA, v, d, madeV, _, _, rfl, made⟩ := made
    have both := expr_tracked rhs .value madeV (expr_tracked lhs .address madeA h)
    have stored : Tracked params (d.emit (.store (.ofType lhs.ty) a v)) needs (v :: held) := by
      refine (both.emit rfl (by simp [Instruction.uses])).forget ?_
      exact cons_subset_cons v (subset_cons_self a held)
    split at made
    · obtain ⟨rfl, rfl⟩ := pure_eq_some.mp made
      exact stored
    · obtain ⟨rfl, rfl⟩ := define_eq_some.mp made
      exact .define [v] stored rfl (by simp [Instruction.uses]) rfl
  | .comma _ lhs rhs, want => fun b r b' made needs held h => by
    simp only [expr, bind_eq_some] at made
    obtain ⟨l, c, madeL, made⟩ := made
    refine expr_tracked rhs want made ((expr_tracked lhs .value madeL h).forget ?_)
    exact subset_cons_self _ _
  | .cond _ test yes no, want => fun b r b' made needs held h => by
    simp only [expr, bind_eq_some, vreg_eq_some, newBlock_eq_some, emit_eq_some, start_eq_some,
      pure_eq_some] at made
    obtain ⟨_, _, ⟨rfl, rfl⟩, first, _, ⟨hfirst, rfl⟩, second, _, ⟨hsecond, rfl⟩, join, _,
      ⟨hjoin, rfl⟩, q, c, madeQ, _, _, rfl, _, d, madeY, _, e, madeN, _, _, rfl, rfl, rfl⟩ := made
    generalize VReg.mk b.nextVReg = result at *
    have named := ((h.vreg.block held).block held).block (result :: held)
    rw [hfirst, hsecond, hjoin] at named
    have branched : Tracked params (c.emit (.branch q first second)) _ [] :=
      (expr_tracked test .value madeQ named).branch (by simp) (by simp)
    have one := joinWith_tracked madeY (by simp [Instruction.isTerminator])
      (fun _ _ made h => expr_tracked yes .value made h) (by simp)
      (branched.perm (.trans (.cons _ (.swap ..)) (.swap ..)))
    have two := joinWith_tracked madeN one.2 (fun _ _ made h => expr_tracked no .value made h)
      (by simp) (one.1.perm (.swap ..))
    exact two.1.start (by simp [two.2])
  | .unary note op operand, want => fun b r b' made needs held h => by
    simp only [expr, bind_eq_some, define_eq_some] at made
    obtain ⟨s, c, madeS, rfl, rfl⟩ := made
    exact .define [s] (expr_tracked operand .value madeS h) rfl (by simp [Instruction.uses]) rfl
  | .addr _ operand, want => fun b r b' made needs held h => expr_tracked operand .address made h
  | .call note callee args, want => fun b r b' made needs held h => by
    simp only [expr, bind_eq_some, define_eq_some] at made
    obtain ⟨rs, c, madeA, rfl, rfl⟩ := made
    exact .define rs (arguments_tracked args madeA h) rfl (by simp [Instruction.uses]) rfl
  | .cast _ target operand, want => fun b r b' made needs held h => by
    simp only [expr, bind_eq_some] at made
    obtain ⟨s, c, madeS, made⟩ := made
    have operand := expr_tracked operand .value madeS h
    cases width : Width.ofType target with
    | qword =>
      simp only [width, pure_eq_some] at made
      obtain ⟨rfl, rfl⟩ := made
      exact operand
    | byte | dword =>
      simp only [width, define_eq_some] at made
      obtain ⟨rfl, rfl⟩ := made
      exact .define [s] operand rfl (by simp [Instruction.uses]) rfl
  | .update .., want => fun b r b' made needs held h => by
    rw [expr] at made
    cases made
theorem arguments_tracked : (args : List Expr) → ∀ ⦃b rs b'⦄,
    arguments ctx args b = some (rs, b') → ∀ ⦃needs held⦄, Tracked params b needs held →
      Tracked params b' needs (rs ++ held)
  | [] => fun b rs b' made needs held h => by
    obtain ⟨rfl, rfl⟩ := pure_eq_some.mp made
    exact h
  | arg :: args => fun b rs b' made needs held h => by
    simp only [arguments, bind_eq_some, pure_eq_some] at made
    obtain ⟨r, c, madeR, rs, d, madeRs, rfl, rfl⟩ := made
    refine (arguments_tracked args madeRs (expr_tracked arg .value madeR h)).forget ?_
    intro v mem
    simp only [cons_append, mem_cons, mem_append] at *
    tauto
end

/-! ## Statements -/

variable {needs : List (BlockId × List VReg)}

theorem value_tracked {e : Expr} (made : value ctx e b = some (r, b'))
    (h : Tracked params b needs []) : Tracked params b' needs [r] :=
  expr_tracked e .value made h

theorem effect_tracked (made : effect ctx e b = some (u, b')) (h : Tracked params b needs []) :
    Tracked params b' needs [] := by
  cases e with
  | none =>
    obtain ⟨-, rfl⟩ := pure_eq_some.mp made
    exact h
  | some e =>
    simp only [effect, bind_eq_some, pure_eq_some] at made
    obtain ⟨r, _, made, -, rfl⟩ := made
    exact (value_tracked made h).forget (nil_subset _)

theorem branch_tracked {e : Expr} (made : branch ctx e yes no b = some (u, b'))
    (first : (yes, []) ∈ needs) (second : (no, []) ∈ needs)
    (h : Tracked params b needs []) : Tracked params b' needs [] := by
  simp only [branch, bind_eq_some, emit_eq_some] at made
  obtain ⟨r, _, made, rfl⟩ := made
  exact (value_tracked made h).branch first second

theorem optionalBranch_tracked (made : optionalBranch ctx e yes no b = some (u, b'))
    (first : (yes, []) ∈ needs) (second : (no, []) ∈ needs)
    (h : Tracked params b needs []) : Tracked params b' needs [] := by
  cases e with
  | none =>
    obtain ⟨-, rfl⟩ := pure_eq_some.mp made
    exact h
  | some e => exact branch_tracked made first second h

theorem leaveTo_tracked {target : Option BlockId} (made : leaveTo target b = some (u, b'))
    (known : ∀ id ∈ target, (id, []) ∈ needs)
    (h : Tracked params b needs []) : Tracked params b' needs [] := by
  cases target with
  | none =>
    obtain ⟨-, rfl⟩ := pure_eq_some.mp made
    exact h
  | some id =>
    obtain rfl := emit_eq_some.mp made
    exact h.jump id (known id rfl) (nil_subset _)

theorem dispatch_tracked (value : VReg) (cases : List CaseLabel) :
    ∀ ⦃needs fallback b t b'⦄, dispatch value fallback cases b = some (t, b') →
      (fallback, []) ∈ needs → Tracked params b needs [value] →
      ∃ more, needs.Sublist more ∧ (t, []) ∈ more ∧ Tracked params b' more [value] := by
  induction cases with
  | nil =>
    intro needs fallback b t b' made known h
    obtain ⟨rfl, rfl⟩ := pure_eq_some.mp made
    exact ⟨needs, List.Sublist.refl _, known, h⟩
  | cons case rest ih =>
    intro needs fallback b t b' made known h
    simp only [dispatch, bind_eq_some, newBlock_eq_some, case_eq_some] at made
    obtain ⟨_, _, ⟨rfl, rfl⟩, _, _, rfl, made⟩ := made
    have named := (h.block []).case case.label mem_cons_self
    cases constant : case.value with
    | none =>
      simp only [constant] at made
      obtain ⟨more, sub, mem, done⟩ := ih made mem_cons_self named
      exact ⟨more, (sublist_cons_self _ _).trans sub, mem, done⟩
    | some constant' =>
      simp only [constant, bind_eq_some, imm_eq_some, define_eq_some, newBlock_eq_some,
        emit_eq_some, start_eq_some] at made
      obtain ⟨_, _, ⟨rfl, rfl⟩, _, _, ⟨rfl, rfl⟩, _, _, ⟨rfl, rfl⟩, _, _, rfl, _, _, rfl, made⟩ := made
      have loaded := Tracked.define (i := (.imm · constant')) [] named rfl (nil_subset _) rfl
      generalize (b.withBlock.withCase case.label ⟨b.nextBlock⟩).define (.imm · constant') = c at *
      generalize VReg.mk (b.withBlock.withCase case.label ⟨b.nextBlock⟩).nextVReg = r at *
      have compared := loaded.vreg.emit (i := .binary .eq .qword ⟨c.nextVReg⟩ value r) rfl
        (by simp [Instruction.uses])
      have branched := (compared.block [value]).leave
        (i := .branch ⟨c.nextVReg⟩ ⟨b.nextBlock⟩ ⟨(c.define (.binary .eq .qword · value r)).nextBlock⟩)
        rfl (by simp [Instruction.uses, Instruction.def?]) (by
          intro id target
          rcases mem_pair.mp target with rfl | rfl
          · exact ⟨[], by simp, nil_subset _⟩
          · exact ⟨[value], mem_cons_self, by simp⟩)
      have next := branched.start (by simp [Instruction.isTerminator])
      obtain ⟨more, sub, mem, done⟩ := ih made (mem_cons_of_mem _ known) next
      exact ⟨more, (sublist_cons_self _ _).trans sub, mem, done⟩

mutual
/-- A plan goes on over a statement, by induction over the tree. -/
theorem stmt_tracked : (s : Stmt) → (targets : Targets) → ∀ ⦃b u b'⦄,
    stmt ctx targets s b = some (u, b') → ∀ ⦃needs⦄, (∀ id ∈ targets.exit, (id, []) ∈ needs) →
      (∀ id ∈ targets.next, (id, []) ∈ needs) → Tracked params b needs [] →
      Tracked params b' needs []
  | .expr _ e, targets => fun b u b' made needs exit next h => effect_tracked made h
  | .ret _ none, targets => fun b u b' made needs exit next h => by
    obtain rfl := emit_eq_some.mp made
    exact h.leave rfl (nil_subset _) nofun
  | .ret _ (some e), targets => fun b u b' made needs exit next h => by
    simp only [stmt, bind_eq_some, emit_eq_some] at made
    obtain ⟨r, c, made, rfl⟩ := made
    exact (value_tracked made h).leave rfl (List.Subset.refl _) nofun
  | .branch _ test yes none, targets => fun b u b' made needs exit next h => by
    simp only [stmt, bind_eq_some, newBlock_eq_some, start_eq_some] at made
    obtain ⟨first, _, ⟨hfirst, rfl⟩, join, _, ⟨hjoin, rfl⟩, _, c, madeT, _, _, rfl, _, d, madeY,
      rfl⟩ := made
    have named := (h.block []).block []
    rw [hfirst, hjoin] at named
    have branched := branch_tracked madeT (by simp) (by simp) named
    have done := stmt_tracked yes targets madeY
      (fun id mem => by simp [exit id mem]) (fun id mem => by simp [next id mem])
      (branched.restart (by simp))
    exact (done.restart mem_cons_self).tail.tail
  | .branch _ test yes (some no), targets => fun b u b' made needs exit next h => by
    simp only [stmt, bind_eq_some, newBlock_eq_some, start_eq_some, emit_eq_some] at made
    obtain ⟨first, _, ⟨hfirst, rfl⟩, join, _, ⟨hjoin, rfl⟩, second, _, ⟨hsecond, rfl⟩, _, c, madeT,
      _, _, rfl, _, d, madeY, _, _, rfl, _, _, rfl, _, e, madeN, rfl⟩ := made
    have named := ((h.block []).block []).block []
    rw [hfirst, hjoin, hsecond] at named
    have branched := branch_tracked madeT (by simp) (by simp) named
    have done := stmt_tracked yes targets madeY (fun id mem => by simp [exit id mem])
      (fun id mem => by simp [next id mem]) (branched.restart (by simp))
    have joined := done.jump join (by simp) (nil_subset _)
    have done' := stmt_tracked no targets madeN (fun id mem => by simp [exit id mem])
      (fun id mem => by simp [next id mem]) (joined.restart (by simp))
    exact (done'.restart (by simp)).tail.tail.tail
  | .whileLoop _ test body, targets => fun b u b' made needs exit next h => by
    simp only [stmt, bind_eq_some, newBlock_eq_some, start_eq_some, emit_eq_some] at made
    obtain ⟨head, _, ⟨hhead, rfl⟩, first, _, ⟨hfirst, rfl⟩, out, _, ⟨hout, rfl⟩, _, _, rfl, _, c,
      madeT, _, _, rfl, _, d, madeB, _, _, rfl, rfl⟩ := made
    have named := ((h.block []).block []).block []
    rw [hhead, hfirst, hout] at named
    have branched := branch_tracked madeT (by simp) (by simp) (named.restart (by simp))
    have done := stmt_tracked body ⟨some out, some head⟩ madeB (by simp) (by simp)
      (branched.restart (by simp))
    have again := done.jump head (by simp) (nil_subset _)
    exact (again.restart (by simp)).tail.tail.tail
  | .doLoop _ body test, targets => fun b u b' made needs exit next h => by
    simp only [stmt, bind_eq_some, newBlock_eq_some, start_eq_some] at made
    obtain ⟨first, _, ⟨hfirst, rfl⟩, again, _, ⟨hagain, rfl⟩, out, _, ⟨hout, rfl⟩, _, _, rfl, _, c,
      madeB, _, _, rfl, _, d, madeT, rfl⟩ := made
    have named := ((h.block []).block []).block []
    rw [hfirst, hagain, hout] at named
    have done := stmt_tracked body ⟨some out, some again⟩ madeB (by simp) (by simp)
      (named.restart (by simp))
    have branched := branch_tracked madeT (by simp) (by simp) (done.restart (by simp))
    exact (branched.restart (by simp)).tail.tail.tail
  | .forLoop _ init test step body, targets => fun b u b' made needs exit next h => by
    rw [stmt_forLoop] at made
    simp only [bind_eq_some, newBlock_eq_some, start_eq_some, emit_eq_some] at made
    obtain ⟨_, a, madeI, head, _, ⟨hhead, rfl⟩, first, _, ⟨hfirst, rfl⟩, again, _, ⟨hagain, rfl⟩,
      out, _, ⟨hout, rfl⟩, _, _, rfl, _, c, madeT, _, _, rfl, _, d, madeB, _, _, rfl, _, e, madeS,
      _, _, rfl, rfl⟩ := made
    have begun := optionalStmt_tracked init targets madeI exit next h
    have named := (((begun.block []).block []).block []).block []
    rw [hhead, hfirst, hagain, hout] at named
    have branched := optionalBranch_tracked madeT (by simp) (by simp) (named.restart (by simp))
    have done := stmt_tracked body ⟨some out, some again⟩ madeB (by simp) (by simp)
      (branched.restart (by simp))
    have stepped := effect_tracked madeS (done.restart (by simp))
    have back := stepped.jump head (by simp) (nil_subset _)
    exact (back.restart (by simp)).tail.tail.tail.tail
  | .switch _ e body cases, targets => fun b u b' made needs exit next h => by
    simp only [stmt, bind_eq_some, newBlock_eq_some, start_eq_some, emit_eq_some] at made
    obtain ⟨r, c, madeV, out, _, ⟨hout, rfl⟩, t, d, madeD, _, _, rfl, _, f, madeB, rfl⟩ := made
    have named := (value_tracked madeV h).block []
    rw [hout] at named
    obtain ⟨more, sub, mem, dispatched⟩ := dispatch_tracked r cases madeD mem_cons_self named
    have left := dispatched.jump t mem (nil_subset _)
    have done := stmt_tracked body { targets with exit := some out } madeB
      (by simpa using sub.subset mem_cons_self)
      (fun id mem => sub.subset (mem_cons_of_mem _ (next id mem))) left
    exact (done.restart (sub.subset mem_cons_self)).sublist
      ((sublist_cons_self _ _).trans sub)
  | .case _ _ label body, targets
  | .default _ label body, targets => fun b u b' made needs exit next h => by
    simp only [stmt, bind_eq_some, startCase_eq_some] at made
    obtain ⟨_, _, rfl, made⟩ := made
    exact stmt_tracked body targets made exit next (h.enterCase label)
  | .exit _, targets => fun b u b' made needs exit next h => leaveTo_tracked made exit h
  | .next _, targets => fun b u b' made needs exit next h => leaveTo_tracked made next h
  | .block _ body, targets => fun b u b' made needs exit next h => stmts_tracked body targets made exit next h
  | .null _, targets => fun b u b' made needs exit next h => by
    obtain ⟨-, rfl⟩ := pure_eq_some.mp made
    exact h
theorem optionalStmt_tracked : (s : Option Stmt) → (targets : Targets) → ∀ ⦃b u b'⦄,
    optionalStmt ctx targets s b = some (u, b') → ∀ ⦃needs⦄,
      (∀ id ∈ targets.exit, (id, []) ∈ needs) → (∀ id ∈ targets.next, (id, []) ∈ needs) →
      Tracked params b needs [] → Tracked params b' needs []
  | none, targets => fun b u b' made needs exit next h => by
    obtain ⟨-, rfl⟩ := pure_eq_some.mp made
    exact h
  | some s, targets => fun b u b' made needs exit next h => stmt_tracked s targets made exit next h
theorem stmts_tracked : (body : List Stmt) → (targets : Targets) → ∀ ⦃b u b'⦄,
    stmts ctx targets body b = some (u, b') → ∀ ⦃needs⦄,
      (∀ id ∈ targets.exit, (id, []) ∈ needs) → (∀ id ∈ targets.next, (id, []) ∈ needs) →
      Tracked params b needs [] → Tracked params b' needs []
  | [], targets => fun b u b' made needs exit next h => by
    obtain ⟨-, rfl⟩ := pure_eq_some.mp made
    exact h
  | s :: body, targets => fun b u b' made needs exit next h => by
    simp only [stmts, bind_eq_some] at made
    obtain ⟨_, c, madeS, made⟩ := made
    exact stmts_tracked body targets made exit next (stmt_tracked s targets madeS exit next h)
end

/-! ## Functions -/

theorem spill_tracked {f : MiniC.Function} (ps : List Nat) : ∀ ⦃b arrived b'⦄,
    spill f ps b = some (arrived, b') → Tracked params b needs arrived →
      Tracked params b' needs [] := by
  induction ps with
  | nil =>
    intro b arrived b' made h
    obtain ⟨rfl, rfl⟩ := pure_eq_some.mp made
    exact h
  | cons p rest ih =>
    intro b arrived b' made h
    simp only [spill, bind_eq_some, lift_eq_some, vreg_eq_some, define_eq_some, emit_eq_some,
      pure_eq_some] at made
    obtain ⟨v, _, ⟨_, rfl⟩, r, _, ⟨hr, rfl⟩, addr, _, ⟨haddr, rfl⟩, _, _, rfl, rs, c, made, rfl, rfl⟩ :=
      made
    have located : Tracked params (b.withVReg.define (.localAddr · v.offset)) needs
        (addr :: r :: rs) := by
      rw [← haddr]
      exact .define [] h.vreg rfl (nil_subset _) rfl
    have stored := located.emit (i := .store (.ofType v.ty) addr r) rfl (by simp [Instruction.uses])
    exact ih made (stored.forget fun v mem => by simp [mem])

theorem tracked_entry (params : List VReg) :
    Tracked params ((Build.withBlock {}).start ⟨0⟩) [] params := by
  refine ⟨fun _ => params, fun _ => none, ?_, nodup_nil, nofun, List.Subset.refl _, nofun⟩
  refine ⟨List.Subset.refl _, nofun, nofun, nofun, nofun, nofun, ?_, nofun, nofun, nofun⟩
  intro id j placed
  change List.lookup id [(⟨0⟩, 0)] = some j at placed
  rw [lookup_cons] at placed
  split at placed
  next same =>
    cases eq_of_beq same
    cases placed
    exact ⟨Nat.one_pos, Nat.le_refl _⟩
  next => cases placed

theorem finish_tracked (made : finish b = some (u, b'))
    (h : Tracked params b needs []) : Tracked params b' needs [] := by
  obtain ⟨-, rfl⟩ := (makes_finish b).of_eq_some made
  unfold Build.finish
  split
  · have zero : Tracked params (b.define (.imm · 0)) needs [⟨b.nextVReg⟩] :=
      .define [] h rfl (nil_subset _) rfl
    exact zero.leave rfl (List.Subset.refl _) nofun
  · exact h

theorem body_tracked {code : Stmt} (made : body ctx code {} = some (params, b)) :
    Tracked params b [] [] := by
  rw [body_eq] at made
  simp only [bind_eq_some, newBlock_eq_some, start_eq_some, pure_eq_some] at made
  obtain ⟨_, _, ⟨rfl, rfl⟩, _, _, rfl, _, c, madeP, _, d, madeS, _, e, madeF, rfl, rfl⟩ := made
  have spilled := spill_tracked _ madeP (tracked_entry _)
  exact finish_tracked madeF (stmt_tracked code {} madeS nofun nofun spilled)

end Lowering

theorem lowerFunction_plan {σ : Structs} {f : MiniC.Function} {code : Stmt} {g : Function}
    (lowered : lowerFunction σ f code = some g) : ∃ held, g.Plan held := by
  unfold lowerFunction at lowered
  obtain ⟨⟨params, built⟩, made, same⟩ := Option.bind_eq_some_iff.mp lowered
  cases same
  obtain ⟨held, marks, consistent, -⟩ := Lowering.body_tracked made
  exact ⟨held, consistent.start, consistent.reads, consistent.next,
    fun k i here id target j entry => (consistent.jumps k i here id target).1 j entry⟩

end MiniC.Ir
