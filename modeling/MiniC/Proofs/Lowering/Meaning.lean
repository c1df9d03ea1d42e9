import MiniC.Proofs.Lowering.Text

/-!
# Blocks mean what their tree means

A machine on the blocks of a function follows the evaluation of its tree. A construction
lies `Within` a function if its text is the start of the function's text; the machine is
`At` a construction if it is about to carry out what comes next in it. The lemma about
expressions says that the machine gets from the construction before an expression to the
one after it, with the value in the register of the result and older registers as they
were; the one about statements says that the code of a statement is wired for it.
-/

namespace MiniC.Ir.Lowering

open Build MiniC.Tree List

/-! ## Places in the text -/

/-- The text of a construction is where the text of a function starts. Blocks have
different names, and every name that was given out is the name of a block. -/
structure Within (b : Build) (f : Function) : Prop where
  code : b.code <+: f.instructions
  places : b.places <+: f.places
  named : ∀ id, id.index < b.nextBlock → ∃ k, f.entry id = some k
  unique : (f.places.map (·.1)).Nodup

/-- The machine is where the construction goes on. -/
structure At (b : Build) (c : Config) : Prop where
  isOpen : b.isOpen
  pc : c.pc = b.code.length

def AtBlock (f : Function) (id : BlockId) (c : Config) : Prop := f.entry id = some c.pc

variable {host : Host} {base : Word} {f : Function} {b b' : Build} {c : Config}

theorem Within.mono (h : Within b' f) (grows : b.Grows b') : Within b f :=
  ⟨grows.code_prefix.trans h.code, grows.places_prefix.trans h.places,
    fun id lt => h.named id (Nat.lt_of_lt_of_le lt grows.nextBlock_le), h.unique⟩

theorem Within.of_emit {i : Instruction} (h : Within (b.emit i) f) : Within b f := by
  refine ⟨List.IsPrefix.trans ?_ h.code, List.IsPrefix.trans ?_ h.places, fun id lt => ?_, h.unique⟩
  · rw [code_emit]
    exact prefix_append _ _
  · rw [places_emit]
    exact prefix_append _ _
  · refine h.named id ?_
    rw [nextBlock_emit]
    omega

variable {id yes no join target next exit : BlockId} {i : VReg → Instruction} {k pc : Nat}
  {test r s result : VReg} {regs : VReg → Word} {w : World} {v a : Word} {b'' b₀ b₁ b₂ : Build}
  {d e c₀ : Config} {x : Eval Word} {want : Want} {ty : CType} {u : Unit} {q : Config → Prop}
  {own first rest cases : List CaseLabel} {labels : Option Int64 → Config → Prop}

theorem Within.of_start (h : Within (b.start id) f) : Within b f :=
  h.mono (.single (.start b id))

theorem Within.of_withVReg (h : Within b.withVReg f) : Within b f := h.mono (.single (.vreg b))

theorem Within.of_withBlock (h : Within b.withBlock f) : Within b f := h.mono (.single (.block b))

theorem Within.of_define (h : Within (b.define i) f) : Within b f :=
  h.of_emit.of_withVReg

theorem Within.fetch {i : Instruction} (h : Within (b.emit i) f) (here : At b c) :
    f.instructions[c.pc]? = some i := by
  obtain ⟨rest, text⟩ := h.code
  rw [code_emit] at text
  rw [← text, here.pc]
  simp

theorem lookup_eq_some_of_mem {α β : Type} [DecidableEq α] {l : List (α × β)} {a : α} {v : β}
    (distinct : (l.map (·.1)).Nodup) (mem : (a, v) ∈ l) : l.lookup a = some v := by
  induction l with
  | nil => cases mem
  | cons x rest ih =>
    obtain ⟨k, u⟩ := x
    rw [map_cons, nodup_cons] at distinct
    rcases mem_cons.mp mem with same | later
    · cases same
      exact lookup_cons_self
    · have other : a ≠ k := by
        rintro rfl
        exact distinct.1 (mem_map.mpr ⟨(a, v), later, rfl⟩)
      rw [lookup_cons, beq_eq_false_iff_ne.mpr other]
      exact ih distinct.2 later

theorem Within.entry_start (h : Within (b.start id) f) :
    f.entry id = some (b.start id).code.length := by
  refine lookup_eq_some_of_mem h.unique (h.places.subset ?_)
  rw [places_start]
  exact mem_append_right _ mem_cons_self

theorem Within.at_start (h : Within (b.start id) f) (there : AtBlock f id c) :
    At (b.start id) c := by
  have := h.entry_start
  rw [there] at this
  exact ⟨rfl, Option.some.inj this⟩

/-! ## Steps -/

theorem step_jump (fetch : f.instructions[c.pc]? = some (.jump id)) (entry : f.entry id = some k) :
    (machine host base f).step c = some ⟨k, c.regs, c.world⟩ :=
  step_eq_some fetch rfl entry

theorem step_branch (fetch : f.instructions[c.pc]? = some (.branch test yes no))
    (entry : f.entry (if c.regs test ≠ 0 then yes else no) = some k) :
    (machine host base f).step c = some ⟨k, c.regs, c.world⟩ :=
  step_eq_some fetch rfl entry

/-- An operation that stops leaves the world as it was. -/
theorem operation_error {i : Instruction} {w' : World} {stop : Stop}
    (h : operation host base regs i w = .error stop w') :
    w' = w ∧ (stop = .division ∨ stop = .access) := by
  cases i with
  | imm | label | localAddr | mov | unary | cast | branch | jump | ret => cases h
  | binary op width dst lhs rhs =>
    simp only [operation, Word.combine] at h
    cases combined : Word.binary op width (regs lhs) (regs rhs) with
    | some v =>
      rw [combined] at h
      cases h
    | none =>
      rw [combined] at h
      cases h
      exact ⟨rfl, .inl rfl⟩
  | load width dst addr =>
    simp only [operation, Host.read] at h
    split at h
    · cases h
    · cases h
      exact ⟨rfl, .inr rfl⟩
  | store width addr src =>
    simp only [operation, Host.write] at h
    split at h
    · cases h
    · cases h
      exact ⟨rfl, .inr rfl⟩
  | call => cases h

variable (host base) in
theorem steps_emit {i : Instruction} (h : Within (b.emit i) f) (here : At b c)
    (straight : i.isTerminator = false)
    (computed : operation host base c.regs i c.world = .ok v w) :
    ∃ d, (machine host base f).Steps 1 c d ∧ At (b.emit i) d ∧ d.regs = update c.regs i.def? v ∧
      d.world = w := by
  have next : target f c.regs c.pc i = some (c.pc + 1) := by
    cases i <;> first | rfl | cases straight
  refine ⟨_, .one (step_eq_some (h.fetch here) computed next), ⟨?_, ?_⟩, rfl, rfl⟩
  · rw [isOpen_emit, straight]
    rfl
  · rw [code_emit, length_append, ← here.pc]
    rfl

variable (host base) in
theorem steps_jump (h : Within (b.emit (.jump id)) f) (here : At b c)
    (entry : f.entry id = some k) :
    (machine host base f).Steps 1 c ⟨k, c.regs, c.world⟩ :=
  .one (step_jump (h.fetch here) entry)

variable (host base) in
theorem steps_start (h : Within (b.start id) f) (here : At b c) :
    (machine host base f).Steps 1 c ⟨(b.start id).code.length, c.regs, c.world⟩ := by
  have jump : f.instructions[c.pc]? = some (.jump id) := by
    obtain ⟨rest, text⟩ := h.code
    rw [code_start, here.isOpen, if_pos rfl] at text
    rw [← text, here.pc]
    simp
  exact .one (step_jump jump h.entry_start)

theorem follows_emit {i : Instruction} (h : Within (b.emit i) f) (here : At b c)
    (straight : i.isTerminator = false) :
    (machine host base f).Follows 1 k c (operation host base c.regs i c.world) fun v d =>
      At (b.emit i) d ∧ d.regs = update c.regs i.def? v := by
  match computed : operation host base c.regs i c.world with
  | .ok v w =>
    obtain ⟨d, steps, there, regs, world⟩ := steps_emit host base h here straight computed
    exact ⟨1, d, Nat.le_refl 1, steps, world, there, regs⟩
  | .error stop w =>
    obtain ⟨rfl, rfl | rfl⟩ := operation_error computed
    · exact ⟨0, c, .refl c, rfl, i, h.fetch here, _, computed⟩
    · exact ⟨0, c, .refl c, rfl, i, h.fetch here, _, computed⟩

/-! ## Expressions -/

/-- The machine has got from one construction to a later one, with a value in a register
and the registers of the former as they were. -/
structure Computed (b : Build) (c : Config) (b' : Build) (r : VReg) (v : Word) (d : Config) :
    Prop where
  here : At b' d
  value : d.regs r = v
  keeps : ∀ u : VReg, u.index < b.nextVReg → d.regs u = c.regs u

theorem Computed.trans {u : Word} (first : Computed b c b' r v d) (grows : b.Grows b')
    (rest : Computed b' d b'' s u e) :
    Computed b c b'' s u e :=
  ⟨rest.here, rest.value, fun x lt => by
    rw [rest.keeps x (Nat.lt_of_lt_of_le lt grows.nextVReg_le), first.keeps x lt]⟩

theorem Computed.goesTo (h : Computed b c b' r v d) (there : At b'' e) (regs : e.regs = d.regs) :
    Computed b c b'' r v e :=
  ⟨there, by rw [regs, h.value], fun u old => by rw [regs, h.keeps u old]⟩

theorem follows_define (h : Within (b.define i) f) (here : At b c)
    (straight : (i ⟨b.nextVReg⟩).isTerminator = false)
    (writes : (i ⟨b.nextVReg⟩).def? = some ⟨b.nextVReg⟩)
    (computes : operation host base c.regs (i ⟨b.nextVReg⟩) = x) :
    (machine host base f).Follows 0 k c (x c.world) (Computed b c (b.define i) ⟨b.nextVReg⟩) := by
  have there : At b.withVReg c := ⟨here.isOpen, here.pc⟩
  rw [← computes]
  refine (follows_emit h there straight).mono (Nat.zero_le 1) (Nat.le_refl k) fun v d hd => ?_
  refine ⟨hd.1, ?_, fun u lt => ?_⟩
  · rw [hd.2, writes, update_self]
  · rw [hd.2, writes, update_of_ne]
    rintro rfl
    exact absurd lt (Nat.lt_irrefl _)

variable (host base) in
theorem steps_define (h : Within (b.define i) f) (here : At b c)
    (straight : (i ⟨b.nextVReg⟩).isTerminator = false)
    (writes : (i ⟨b.nextVReg⟩).def? = some ⟨b.nextVReg⟩)
    (computes : operation host base c.regs (i ⟨b.nextVReg⟩) c.world = .ok v c.world) :
    ∃ d, (machine host base f).Steps 1 c d ∧ d.world = c.world ∧
      Computed b c (b.define i) ⟨b.nextVReg⟩ v d := by
  have there : At b.withVReg c := ⟨here.isOpen, here.pc⟩
  obtain ⟨d, steps, there, regs, world⟩ := steps_emit host base h there straight computes
  refine ⟨d, steps, world, there, ?_, fun u lt => ?_⟩
  · rw [regs, writes, update_self]
  · rw [regs, writes, update_of_ne]
    rintro rfl
    exact absurd lt (Nat.lt_irrefl _)

theorem Within.of_access (made : access want ty r b = some (s, b'))
    (h : Within b' f) : Within b f := by
  unfold access at made
  split at made
  · obtain ⟨rfl, rfl⟩ := pure_eq_some.mp made
    exact h
  · split at made
    · obtain ⟨rfl, rfl⟩ := pure_eq_some.mp made
      exact h
    · obtain ⟨rfl, rfl⟩ := define_eq_some.mp made
      exact h.of_define

theorem access_follows (made : access want ty r b = some (s, b')) (h : Within b' f)
    (grows : b₀.Grows b) (computed : Computed b₀ c₀ b r a c) :
    (machine host base f).Follows 0 k c (host.access want ty a c.world)
      (Computed b₀ c₀ b' s) := by
  unfold access at made
  unfold Host.access
  split at made
  next =>
    obtain ⟨rfl, rfl⟩ := pure_eq_some.mp made
    exact .pure rfl computed
  next =>
    split at made
    next aggregate =>
      obtain ⟨rfl, rfl⟩ := pure_eq_some.mp made
      simp only [aggregate, if_true]
      exact .pure rfl computed
    next scalar =>
      obtain ⟨rfl, rfl⟩ := define_eq_some.mp made
      simp only [scalar]
      refine (follows_define h computed.here rfl rfl ?_).mono (Nat.le_refl 0) (Nat.le_refl k)
        fun _ _ => computed.trans grows
      rw [operation, computed.value]
      rfl

variable (host base f) in
/-- From one construction to a later one the machine follows a computation of a word. -/
def Computing (b b' : Build) (r : VReg) (x : Eval Word) : Prop :=
  ∀ c k, At b c → (machine host base f).Follows 0 k c (x c.world) (Computed b c b' r)

/-- The machine has got to the start of a block with a value in the register that the block
expects it in, and the older registers as they were. -/
structure Joined (b : Build) (c : Config) (pc : Nat) (result : VReg) (v : Word) (d : Config) :
    Prop where
  pc : d.pc = pc
  value : d.regs result = v
  keeps : ∀ u : VReg, u.index < b.nextVReg → u ≠ result → d.regs u = c.regs u

theorem truth_follows (rhs : Computing host base f b b₁ r x) (vregs : b.nextVReg ≤ b₁.nextVReg)
    (lt : r.index < b₁.nextVReg) (h : Within (((b₁.define (.imm · 0)).emit
      (.binary .ne .qword result r ⟨b₁.nextVReg⟩)).emit (.jump join)) f)
    (entry : f.entry join = some pc) (here : At b c) :
    (machine host base f).Follows 0 k c ((do return .ofBool ((← x) ≠ 0) : Eval Word) c.world)
      (Joined b c pc result) := by
  refine (rhs c k here).bind ?_
  rintro v d _ rfl computed
  have within₂ := h.of_emit
  obtain ⟨d₁, zero, at₁, regs₁, world₁⟩ :=
    steps_emit host base within₂.of_emit ⟨computed.here.isOpen, computed.here.pc⟩ rfl rfl
  obtain ⟨d₂, compare, at₂, regs₂, world₂⟩ := steps_emit host base within₂ at₁ rfl rfl
  have join := steps_jump host base h at₂ entry
  have kept : ∀ u : VReg, u.index < b₁.nextVReg → d₁.regs u = d.regs u := by
    intro u old
    rw [regs₁]
    refine update_of_ne _ ?_
    rintro rfl
    exact absurd old (Nat.lt_irrefl _)
  refine .afterSome ((zero.trans compare).trans join)
    (.pure (world₂.trans world₁) ⟨rfl, ?_, fun u old other => ?_⟩)
  · have zeroed : d₁.regs ⟨b₁.nextVReg⟩ = 0 := by
      rw [regs₁]
      exact update_self _ _ _
    change d₂.regs result = _
    rw [regs₂]
    refine (update_self _ _ _).trans ?_
    rw [zeroed, kept r lt, computed.value, Word.low_qword, Word.low_qword]
    congr 1
    rw [decide_eq_decide, BitVec.toInt_inj.ne]
  · change d₂.regs u = _
    rw [regs₂, ← computed.keeps u old, ← kept u (Nat.lt_of_lt_of_le old vregs)]
    exact update_of_ne _ other

theorem move_follows (value : Computing host base f b b₁ r x)
    (h : Within ((b₁.emit (.mov result r)).emit (.jump join)) f) (entry : f.entry join = some pc)
    (here : At b c) :
    (machine host base f).Follows 0 k c (x c.world) (Joined b c pc result) := by
  refine (value c k here).leads fun v => ?_
  rintro d _ rfl computed
  obtain ⟨d₁, move, at₁, regs₁, world₁⟩ := steps_emit host base h.of_emit computed.here rfl rfl
  refine ⟨_, _, move.trans (steps_jump host base h at₁ entry), world₁, rfl, ?_, fun u old other => ?_⟩
  · change d₁.regs result = v
    rw [regs₁, ← computed.value]
    exact update_self _ _ _
  · change d₁.regs u = _
    rw [regs₁, ← computed.keeps u old]
    exact update_of_ne _ other

variable (host base) in
theorem skip_follows {value : Int64} (h : Within ((b.emit (.imm result value)).start join) f)
    (here : At b c) :
    (machine host base f).Follows 0 k c ((pure value.toBitVec : Eval Word) c.world)
      (Joined b c ((b.emit (.imm result value)).start join).code.length result) := by
  obtain ⟨d, number, at₁, regs, world⟩ := steps_emit host base h.of_start here rfl rfl
  refine .afterSome (number.trans (steps_start host base h at₁)) (.pure world ⟨rfl, ?_, ?_⟩)
  · change d.regs result = _
    rw [regs]
    exact update_self _ _ _
  · intro u _ other
    change d.regs u = _
    rw [regs]
    exact update_of_ne _ other

/-- The start of an expression that ends in a join: a register for its result, and the names
of three blocks. -/
abbrev Build.forked (b : Build) : Build := b.withVReg.withBlock.withBlock.withBlock

theorem steps_branch (h : Within (b.emit (.branch test yes no)) f) (here : At b c)
    (first : Within (b₁.start yes) f) (second : Within (b₂.start no) f) :
    ∃ d, (machine host base f).Steps 1 c d ∧ d.world = c.world ∧ d.regs = c.regs ∧
      if c.regs test ≠ 0 then At (b₁.start yes) d else At (b₂.start no) d := by
  have fetch := h.fetch here
  by_cases holds : c.regs test ≠ 0
  · refine ⟨⟨(b₁.start yes).code.length, c.regs, c.world⟩, .one (step_branch fetch ?_), rfl, rfl, ?_⟩
    · rw [if_pos holds]
      exact first.entry_start
    · rw [if_pos holds]
      exact ⟨rfl, rfl⟩
  · refine ⟨⟨(b₂.start no).code.length, c.regs, c.world⟩, .one (step_branch fetch ?_), rfl, rfl, ?_⟩
    · rw [if_neg holds]
      exact second.entry_start
    · rw [if_neg holds]
      exact ⟨rfl, rfl⟩

/-- The blocks of a question follow the side that is chosen. -/
theorem fork_follows {b₃ b₄ : Build} {u v : Eval Word}
    (question : Computing host base f b.forked b₁ test x) (grows : b.forked.Grows b₁)
    (h : Within (b₁.emit (.branch test yes no)) f) (first : Within (b₂.start yes) f)
    (vregs : b₁.nextVReg ≤ b₂.nextVReg) (second : Within (b₃.start no) f)
    (vregs' : b₁.nextVReg ≤ b₃.nextVReg)
    (firstPath : ∀ c k, At (b₂.start yes) c → (machine host base f).Follows 0 k c (u c.world)
      (Joined (b₂.start yes) c (b₄.start join).code.length ⟨b.nextVReg⟩))
    (secondPath : ∀ c k, At (b₃.start no) c → (machine host base f).Follows 0 k c (v c.world)
      (Joined (b₃.start no) c (b₄.start join).code.length ⟨b.nextVReg⟩)) :
    Computing host base f b (b₄.start join) ⟨b.nextVReg⟩ (do if (← x) ≠ 0 then u else v) := by
  intro c k here
  have older : b.nextVReg ≤ b₁.nextVReg := (Nat.le_succ _).trans grows.nextVReg_le
  refine (question c k ⟨here.isOpen, here.pc⟩).bind ?_
  rintro a d _ rfl computed
  obtain ⟨e, branch, world, regs, there⟩ := steps_branch h computed.here first second
  have settle : ∀ {b' : Build} {id : BlockId} {w : Word} {g : Config}, b₁.nextVReg ≤ b'.nextVReg →
      Joined (b'.start id) e (b₄.start join).code.length ⟨b.nextVReg⟩ w g →
      Computed b c (b₄.start join) ⟨b.nextVReg⟩ w g := by
    intro b' id w g le joined
    refine ⟨⟨rfl, joined.pc⟩, joined.value, fun r old => ?_⟩
    rw [joined.keeps r, regs, computed.keeps r (Nat.lt_succ_of_lt old)]
    · rw [nextVReg_start]
      omega
    · rintro rfl
      exact absurd old (Nat.lt_irrefl _)
  refine .afterSome branch ?_
  rw [← world]
  rw [computed.value] at there
  by_cases holds : a ≠ 0
  · rw [if_pos holds] at there
    simp only [if_pos holds]
    exact (firstPath e k there).mono (Nat.le_refl 0) (Nat.le_refl k) fun _ _ => settle vregs
  · rw [if_neg holds] at there
    simp only [if_neg holds]
    exact (secondPath e k there).mono (Nat.le_refl 0) (Nat.le_refl k) fun _ _ => settle vregs'

def Context.tree (ctx : Context) (host : Host) (base : Word) : Tree.Context :=
  ⟨host, ctx.structs, ctx.function.locals, base⟩

variable {ctx : Context}

theorem place_follows (made : access want ty ⟨b.nextVReg⟩ (b.define i) = some (s, b'))
    (h : Within b' f) (straight : (i ⟨b.nextVReg⟩).isTerminator = false)
    (writes : (i ⟨b.nextVReg⟩).def? = some ⟨b.nextVReg⟩)
    (computes : ∀ regs w, operation host base regs (i ⟨b.nextVReg⟩) w = .ok a w)
    (legal : (i ⟨b.nextVReg⟩).Legal) :
    Computing host base f b b' s (host.access want ty a) := by
  intro c k here
  obtain ⟨d, steps, world, computed⟩ :=
    steps_define host base (h.of_access made) here straight writes (computes c.regs c.world)
  refine .afterSome steps ?_
  rw [← world]
  exact access_follows made h (grows_define legal) computed

theorem displace_follows {offset : UInt32} (made : displace r offset b = some (s, b'))
    (h : Within b' f) (grows : b₀.Grows b) (lt : r.index < b.nextVReg)
    (computed : Computed b₀ c₀ b r a c) :
    ∃ n d, (machine host base f).Steps n c d ∧ d.world = c.world ∧
      Computed b₀ c₀ b' s (a + .ofNat 64 offset.toNat) d := by
  unfold displace at made
  split at made
  next zero =>
    obtain ⟨rfl, rfl⟩ := pure_eq_some.mp made
    refine ⟨0, c, .refl c, rfl, ?_⟩
    subst zero
    simpa using computed
  next =>
    simp only [imm_bind, define_eq_some] at made
    obtain ⟨rfl, rfl⟩ := made
    obtain ⟨d, number, world, numbered⟩ :=
      steps_define host base h.of_define computed.here rfl rfl rfl
    obtain ⟨e, add, world', added⟩ := steps_define host base h numbered.here rfl rfl rfl
    refine ⟨_, e, number.trans add, world'.trans world, ?_⟩
    have sum : Word.cut .qword (d.regs r + d.regs ⟨b.nextVReg⟩) = a + .ofNat 64 offset.toNat := by
      rw [Word.cut_qword, numbered.keeps r lt, computed.value, numbered.value]
      rfl
    rw [← sum]
    exact computed.trans grows (numbered.trans (grows_define trivial) added)

theorem unary_unaryWidth (op : UnOp) (ty : CType) (v : Word) :
    Word.unary op (unaryWidth op ty) v = Word.unary op (.arithmetic ty) v := by
  cases op <;> rfl

mutual
/-- The blocks of an expression follow it, by induction over the tree. -/
theorem expr_follows : (e : Expr) → (want : Want) → e.Formed ctx.function.locals.length →
    ∀ {b b' : Build} {r : VReg}, expr ctx want e b = some (r, b') → Within b' f →
    Computing host base f b b' r (Tree.expr (ctx.tree host base) want e)
  | .num _ value, want, formed | .sizeof _ operand, want, formed => fun made h c k here => by
    obtain ⟨rfl, rfl⟩ := imm_eq_some.mp made
    exact follows_define h here rfl rfl (by rw [Tree.expr]; rfl)
  | .str note index, want, formed | .global note name, want, formed => fun made h => by
    simp only [expr, define_bind] at made
    rw [Tree.expr]
    exact place_follows made h rfl rfl (fun _ _ => rfl) trivial
  | .var note index, want, formed => fun made h => by
    simp only [expr, bind_eq_some, lift_eq_some, define_bind] at made
    obtain ⟨v, _, ⟨found, rfl⟩, made⟩ := made
    simp only [Tree.expr, Context.tree, found]
    exact place_follows made h rfl rfl (fun _ _ => rfl) trivial
  | .deref note pointer, want, formed => fun made h c k here => by
    simp only [expr, bind_eq_some] at made
    obtain ⟨p, b₁, pointed, made⟩ := made
    have grows := ((expr_made pointer .value formed _).of_eq_some pointed).1
    rw [Tree.expr]
    refine (expr_follows pointer .value formed pointed (h.of_access made) c k here).bind ?_
    rintro a d _ rfl computed
    exact access_follows made h grows computed
  | .member note base' _ offset, want, formed => fun made h c k here => by
    simp only [expr, bind_eq_some] at made
    obtain ⟨r, b₁, based, s, b₂, displaced, made⟩ := made
    obtain ⟨grows, based'⟩ := (expr_made base' .address formed _).of_eq_some based
    have grows' := ((displace_made offset based' grows).of_eq_some displaced).1
    have within₂ := h.of_access made
    rw [Tree.expr]
    refine (expr_follows base' .address formed based (within₂.mono grows') c k here).bind ?_
    rintro a d _ rfl computed
    obtain ⟨n, e, steps, world, moved⟩ :=
      displace_follows displaced within₂ grows based'.lt computed
    refine .afterSome steps ?_
    rw [← world]
    exact access_follows made h (grows.trans grows') moved
  | .binary note op scaled lhs rhs, want, ⟨left, right⟩ => fun made h => by
    by_cases skips : op = .logAnd ∨ op = .logOr
    · rw [expr_logical skips] at made
      simp only [bind_eq_some, vreg_bind, newBlock_bind, emit_bind, start_bind, imm_bind,
        pure_eq_some] at made
      obtain ⟨l, b₁, madeL, r, b₂, madeR, rfl, rfl⟩ := made
      obtain ⟨growsL, boundsL⟩ := (expr_made lhs .value left _).of_eq_some madeL
      obtain ⟨growsR, boundsR⟩ := (expr_made rhs .value right _).of_eq_some madeR
      have shortWithin := h.of_start.of_emit
      have jumpWithin := shortWithin.of_start
      have rhsWithin := jumpWithin.of_emit.of_emit.of_define
      have rightWithin := rhsWithin.mono growsR
      have branchWithin := rightWithin.of_start
      have question := expr_follows lhs .value left madeL branchWithin.of_emit
      have truth := fun c k here => truth_follows (k := k) (c := c)
        (expr_follows rhs .value right madeR rhsWithin) growsR.nextVReg_le boundsR.lt jumpWithin
        h.entry_start here
      have skip := fun c k here => skip_follows host base (k := k) (c := c) h here
      have vregs := growsR.nextVReg_le
      rw [nextVReg_start, nextVReg_emit] at vregs
      rcases skips with rfl | rfl
      · rw [Tree.expr]
        have := fork_follows question growsL branchWithin rightWithin (by simp) shortWithin
          (by simp; omega) truth skip
        simp only [ite_not] at this
        exact this
      · rw [Tree.expr]
        exact fork_follows question growsL branchWithin shortWithin (by simp; omega) rightWithin
          (by simp) skip truth
    · rw [expr, if_neg skips] at made
      simp only [bind_eq_some, define_eq_some] at made
      obtain ⟨l, b₁, madeL, r, b₂, madeR, rfl, rfl⟩ := made
      obtain ⟨growsL, boundsL⟩ := (expr_made lhs .value left _).of_eq_some madeL
      have growsR := ((expr_made rhs .value right _).of_eq_some madeR).1
      have within₂ := h.of_define
      intro c k here
      rw [Tree.expr_binary _ skips]
      refine (expr_follows lhs .value left madeL (within₂.mono growsR) c k here).bind ?_
      rintro a d _ rfl computedL
      refine (expr_follows rhs .value right madeR within₂ d k computedL.here).bind ?_
      rintro v e _ rfl computedR
      refine (follows_define h computedR.here rfl rfl ?_).mono (Nat.le_refl 0) (Nat.le_refl k)
        fun _ _ => (computedL.trans growsL computedR).trans (growsL.trans growsR)
      rw [operation, computedR.keeps l boundsL.lt, computedL.value, computedR.value]
  | .assign _ lhs rhs, want, ⟨left, right⟩ => fun made h c k here => by
    simp only [expr, bind_eq_some, emit_bind] at made
    obtain ⟨a, b₁, madeA, v, b₂, madeV, made⟩ := made
    obtain ⟨growsA, boundsA⟩ := (expr_made lhs .address left _).of_eq_some madeA
    obtain ⟨growsV, boundsV⟩ := (expr_made rhs .value right _).of_eq_some madeV
    have storeWithin : Within (b₂.emit (.store (.ofType lhs.ty) a v)) f := by
      split at made
      · obtain ⟨rfl, rfl⟩ := pure_eq_some.mp made
        exact h
      · obtain ⟨rfl, rfl⟩ := define_eq_some.mp made
        exact h.of_define
    rw [Tree.expr]
    refine (expr_follows lhs .address left madeA (storeWithin.of_emit.mono growsV) c k here).bind ?_
    rintro x d _ rfl computedA
    refine (expr_follows rhs .value right madeV storeWithin.of_emit d k computedA.here).bind ?_
    rintro y e _ rfl computedV
    have stores : (do host.write (.ofType lhs.ty) x y; return y.cut (.ofType lhs.ty) : Eval Word) =
        operation host base e.regs (.store (.ofType lhs.ty) a v) >>= fun _ =>
          pure (y.cut (.ofType lhs.ty)) := by
      simp only [operation, computedV.value, computedV.keeps a boundsA.lt, computedA.value,
        bind_assoc, pure_bind]
    change (machine host base f).Follows 0 k e
      ((do host.write (.ofType lhs.ty) x y; return y.cut (.ofType lhs.ty) : Eval Word) e.world) _
    rw [stores]
    refine ((follows_emit storeWithin computedV.here rfl).mono (Nat.zero_le 1) (Nat.le_refl k)
      fun _ _ h => h).bind ?_
    rintro _ g _ rfl ⟨there, regs⟩
    rw [Instruction.def?, update_none] at regs
    have stored := (computedA.trans growsA computedV).goesTo there regs
    split at made
    next whole =>
      obtain ⟨rfl, rfl⟩ := pure_eq_some.mp made
      have cut : y.cut (.ofType lhs.ty) = y := by rw [whole, Word.cut_qword]
      rw [cut]
      exact .pure rfl stored
    next =>
      obtain ⟨rfl, rfl⟩ := define_eq_some.mp made
      refine (follows_define h stored.here rfl rfl ?_).mono (Nat.le_refl 0) (Nat.le_refl k)
        fun _ _ => stored.trans ((growsA.trans growsV).tail (.emit _ trivial))
      rw [operation, stored.value]
  | .comma _ lhs rhs, want, ⟨left, right⟩ => fun made h c k here => by
    simp only [expr, bind_eq_some] at made
    obtain ⟨l, b₁, madeL, made⟩ := made
    have growsL := ((expr_made lhs .value left _).of_eq_some madeL).1
    have growsR := ((expr_made rhs want right _).of_eq_some made).1
    rw [Tree.expr]
    refine (expr_follows lhs .value left madeL (h.mono growsR) c k here).bind ?_
    rintro a d _ rfl computed
    refine (expr_follows rhs want right made h d k computed.here).mono (Nat.le_refl 0)
      (Nat.le_refl k) fun _ _ => computed.trans growsL
  | .cond _ test yes no, want, ⟨first, second, third⟩ => fun made h => by
    simp only [expr, joinWith, bind_eq_some, vreg_bind, newBlock_bind, emit_bind, emit_eq_some,
      start_bind, pure_eq_some] at made
    obtain ⟨q, b₁, madeQ, _, _, ⟨y, b₂, madeY, rfl⟩, _, _, ⟨n, b₃, madeN, rfl⟩, rfl, rfl⟩ := made
    have growsQ := ((expr_made test .value first _).of_eq_some madeQ).1
    have growsY := ((expr_made yes .value second _).of_eq_some madeY).1
    have growsN := ((expr_made no .value third _).of_eq_some madeN).1
    have noEnd := h.of_start
    have noWithin := noEnd.of_emit.of_emit.mono growsN
    have yesEnd := noWithin.of_start
    have yesWithin := yesEnd.of_emit.of_emit.mono growsY
    have vregs := growsY.nextVReg_le
    simp only [nextVReg_start, nextVReg_emit] at vregs
    rw [Tree.expr]
    exact fork_follows (expr_follows test .value first madeQ yesWithin.of_start.of_emit) growsQ
      yesWithin.of_start yesWithin (by simp) noWithin (by simp; omega)
      (fun c k here => move_follows (expr_follows yes .value second madeY yesEnd.of_emit.of_emit)
        yesEnd h.entry_start here)
      (fun c k here => move_follows (expr_follows no .value third madeN noEnd.of_emit.of_emit)
        noEnd h.entry_start here)
  | .unary note op operand, want, formed => fun made h c k here => by
    simp only [expr, bind_eq_some, define_eq_some] at made
    obtain ⟨s, b₁, madeS, rfl, rfl⟩ := made
    have grows := ((expr_made operand .value formed _).of_eq_some madeS).1
    rw [Tree.expr]
    refine (expr_follows operand .value formed madeS h.of_define c k here).bind ?_
    rintro a d _ rfl computed
    refine (follows_define h computed.here rfl rfl ?_).mono (Nat.le_refl 0) (Nat.le_refl k)
      fun _ _ => computed.trans grows
    rw [operation, computed.value, unary_unaryWidth]
  | .addr _ operand, want, formed => fun made h => by
    rw [expr] at made
    rw [Tree.expr]
    exact expr_follows operand .address formed made h
  | .call note callee args, want, ⟨count, formed⟩ => fun made h c k here => by
    simp only [expr, bind_eq_some, define_eq_some] at made
    obtain ⟨rs, b₁, madeA, rfl, rfl⟩ := made
    have grows := ((arguments_made args formed _).of_eq_some madeA).1
    rw [Tree.expr]
    refine (arguments_follow args formed madeA h.of_define c k here).bind ?_
    rintro vs d _ rfl ⟨there, values, keeps⟩
    refine (follows_define h there rfl rfl ?_).mono (Nat.le_refl 0) (Nat.le_refl k) ?_
    · rw [operation, values]
      rfl
    · intro v e computed
      refine ⟨computed.here, computed.value, fun u old => ?_⟩
      rw [computed.keeps u (Nat.lt_of_lt_of_le old grows.nextVReg_le), keeps u old]
  | .cast _ target operand, want, formed => fun made h c k here => by
    simp only [expr, bind_eq_some] at made
    obtain ⟨s, b₁, madeS, made⟩ := made
    have grows := ((expr_made operand .value formed _).of_eq_some madeS).1
    rw [Tree.expr]
    by_cases whole : Width.ofType target = .qword
    · rw [whole] at made ⊢
      obtain ⟨rfl, rfl⟩ := pure_eq_some.mp made
      refine (expr_follows operand .value formed madeS h c k here).bind ?_
      rintro a d _ rfl computed
      rw [Word.cut_qword]
      exact .pure rfl computed
    · rename_i _ b' r _
      have made : define (.cast (Width.ofType target) · s) b₁ = some (r, b') := by
        cases width : Width.ofType target with
        | qword => exact absurd width whole
        | byte => simpa only [width] using made
        | dword => simpa only [width] using made
      obtain ⟨rfl, rfl⟩ := define_eq_some.mp made
      refine (expr_follows operand .value formed madeS h.of_define c k here).bind ?_
      rintro a d _ rfl computed
      refine (follows_define h computed.here rfl rfl ?_).mono (Nat.le_refl 0) (Nat.le_refl k)
        fun _ _ => computed.trans grows
      rw [operation, computed.value]
theorem arguments_follow : (args : List Expr) →
    Expr.AllFormed ctx.function.locals.length args → ∀ {b b' : Build} {rs : List VReg},
    arguments ctx args b = some (rs, b') → Within b' f → ∀ c k, At b c →
    (machine host base f).Follows 0 k c (Tree.arguments (ctx.tree host base) args c.world)
      fun vs d => At b' d ∧ rs.map d.regs = vs ∧
        ∀ u : VReg, u.index < b.nextVReg → d.regs u = c.regs u
  | [], formed => fun made h c k here => by
    simp only [arguments, pure_eq_some] at made
    obtain ⟨rfl, rfl⟩ := made
    rw [Tree.arguments]
    exact .pure rfl ⟨here, rfl, fun _ _ => rfl⟩
  | arg :: args, ⟨first, rest⟩ => fun made h c k here => by
    simp only [arguments, bind_eq_some, pure_eq_some] at made
    obtain ⟨r, b₁, madeR, rs, b₂, madeRs, rfl, rfl⟩ := made
    obtain ⟨growsR, boundsR⟩ := (expr_made arg .value first _).of_eq_some madeR
    have growsRs := ((arguments_made args rest _).of_eq_some madeRs).1
    rw [Tree.arguments]
    refine (expr_follows arg .value first madeR (h.mono growsRs) c k here).bind ?_
    rintro v d _ rfl computed
    refine (arguments_follow args rest madeRs h d k computed.here).bind ?_
    rintro vs e _ rfl ⟨there, values, keeps⟩
    refine .pure rfl ⟨there, ?_, fun u old => ?_⟩
    · rw [map_cons, values, keeps r boundsR.lt, computed.value]
    · rw [keeps u (Nat.lt_of_lt_of_le old growsR.nextVReg_le), computed.keeps u old]
end

/-! ## Statements -/

theorem value_computes {e : Expr} (formed : e.Formed ctx.function.locals.length)
    (made : value ctx e b = some (r, b')) (h : Within b' f) :
    (machine host base f).Computes 0 (At b) (Tree.expr (ctx.tree host base) .value e)
      fun v c => At b' c ∧ c.regs r = v := by
  rintro c _ k rfl here
  exact (expr_follows e .value formed made h c k here).mono (Nat.le_refl 0) (Nat.le_refl k)
    fun _ _ computed => ⟨computed.here, computed.value⟩

theorem branch_computes {e : Expr} (formed : e.Formed ctx.function.locals.length)
    (made : branch ctx e yes no b = some (u, b')) (h : Within b' f)
    (first : Within (b₁.start yes) f) (second : Within (b₂.start no) f) :
    (machine host base f).Computes 1 (At b) (holds (ctx.tree host base) (some e))
      fun t => if t then At (b₁.start yes) else At (b₂.start no) := by
  simp only [branch, bind_eq_some, emit_eq_some] at made
  obtain ⟨r, b₃, made, rfl⟩ := made
  rintro c _ k rfl here
  refine (value_computes formed made h.of_emit c c.world k rfl here).bindCounted (j := 1) ?_
    (Nat.le_refl 1) (Nat.le_refl k) (Nat.le_add_left k 0)
  rintro v d _ rfl ⟨there, rfl⟩
  obtain ⟨e, branch, world, -, reached⟩ := steps_branch h there first second
  refine ⟨1, e, Nat.le_refl 1, branch, world, ?_⟩
  by_cases holds : d.regs r ≠ 0
  · rw [if_pos holds] at reached
    rw [decide_eq_true holds]
    exact reached
  · rw [if_neg holds] at reached
    rw [decide_eq_false holds]
    exact reached

theorem leads_of_steps {p : Config → Prop}
    (h : ∀ c, p c → ∃ n d, (machine host base f).Steps n c d ∧ d.world = c.world ∧ q d) :
    (machine host base f).Leads p q := by
  rintro c _ rfl hp
  exact h c hp

theorem leads_start (h : Within (b.start id) f) :
    (machine host base f).Leads (At b) (At (b.start id)) :=
  leads_of_steps fun _ here => ⟨1, _, steps_start host base h here, rfl, rfl, rfl⟩

theorem leads_block (h : Within (b.start id) f) :
    (machine host base f).Leads (AtBlock f id) (At (b.start id)) :=
  .of_imp fun _ => h.at_start

theorem leads_jump (h : Within (b.emit (.jump id)) f) (target : Within (b₁.start id) f) :
    (machine host base f).Leads (At b) (At (b₁.start id)) :=
  leads_of_steps fun _ here =>
    ⟨1, _, steps_jump host base h here target.entry_start, rfl, rfl, rfl⟩

theorem compare_follows {value : VReg} {constant : Int64}
    (h : Within ((((b.define (.imm · constant)).define
      (.binary .eq .qword · value ⟨b.nextVReg⟩)).withBlock.emit
      (.branch ⟨(b.define (.imm · constant)).nextVReg⟩ target next)).start next) f)
    (entry : f.entry target = some pc) (old : value.index < b.nextVReg) (here : At b c) :
    ∃ n d, (machine host base f).Steps n c d ∧ d.world = c.world ∧ d.regs value = c.regs value ∧
      if c.regs value = constant.toBitVec then d.pc = pc
      else At ((((b.define (.imm · constant)).define
        (.binary .eq .qword · value ⟨b.nextVReg⟩)).withBlock.emit
        (.branch ⟨(b.define (.imm · constant)).nextVReg⟩ target next)).start next) d := by
  have branchWithin := h.of_start
  have defined := branchWithin.of_emit.of_withBlock
  obtain ⟨d₁, number, world₁, numbered⟩ :=
    steps_define host base defined.of_define here rfl rfl rfl
  obtain ⟨d₂, compare, world₂, compared⟩ :=
    steps_define host base defined numbered.here rfl rfl rfl
  have kept : d₂.regs value = c.regs value := by
    rw [compared.keeps value (by rw [nextVReg_define]; omega), numbered.keeps value old]
  have matched : d₂.regs ⟨(b.define (.imm · constant)).nextVReg⟩ =
      Word.ofBool (c.regs value = constant.toBitVec) := by
    refine compared.value.trans ?_
    rw [numbered.keeps value old, numbered.value, Word.low_qword, Word.low_qword]
    congr 1
    rw [decide_eq_decide, BitVec.toInt_inj]
  have fetch := branchWithin.fetch (c := d₂) ⟨compared.here.isOpen, compared.here.pc⟩
  have world := world₂.trans world₁
  by_cases same : c.regs value = constant.toBitVec
  · have found : f.entry (if d₂.regs ⟨(b.define (.imm · constant)).nextVReg⟩ ≠ 0 then target
        else next) = some pc := by
      rw [matched, decide_eq_true same, if_pos (by decide), entry]
    refine ⟨_, _, (number.trans compare).trans (.one (step_branch fetch found)), world, kept, ?_⟩
    rw [if_pos same]
  · have missed : f.entry (if d₂.regs ⟨(b.define (.imm · constant)).nextVReg⟩ ≠ 0 then target
        else next) = f.entry next := by
      rw [matched, decide_eq_false same, if_neg (by decide)]
    refine ⟨_, _, (number.trans compare).trans
      (.one (step_branch fetch (missed.trans h.entry_start))), world, kept, ?_⟩
    rw [if_neg same]
    exact ⟨rfl, rfl⟩

/-- Comparisons lead to the block of the case that matches, or past them all. -/
theorem dispatch_follows {value : VReg} (cases : List CaseLabel) :
    ∀ {fallback target : BlockId} {b b' : Build} {c : Config}, (cases.map (·.label)).Nodup →
    dispatch value fallback cases b = some (target, b') → Within b' f →
    value.index < b.nextVReg → At b c → c.regs value = v →
    ∃ n d, (machine host base f).Steps n c d ∧ d.world = c.world ∧
      ((∃ l ∈ cases, l.value = some (.ofBitVec v) ∧
        ∃ id, b'.cases.lookup l.label = some id ∧ AtBlock f id d) ∨
      ((∀ l ∈ cases, l.value ≠ some (.ofBitVec v)) ∧ At b' d)) := by
  induction cases with
  | nil =>
    intro fallback target b b' c _ made h _ here _
    obtain ⟨rfl, rfl⟩ := pure_eq_some.mp made
    exact ⟨0, c, .refl c, rfl, .inr ⟨fun _ mem => absurd mem not_mem_nil, here⟩⟩
  | cons case rest ih =>
    intro fallback target b b' c distinct made h old here held
    rw [map_cons, nodup_cons] at distinct
    obtain ⟨key, label⟩ := case
    cases key with
    | none =>
      simp only [dispatch, newBlock_bind, case_bind] at made
      obtain ⟨n, d, steps, world, reached⟩ :=
        ih distinct.2 made h old ⟨here.isOpen, here.pc⟩ held
      refine ⟨n, d, steps, world, reached.imp ?_ ?_⟩
      · rintro ⟨l, mem, found⟩
        exact ⟨l, mem_cons_of_mem _ mem, found⟩
      · rintro ⟨none, there⟩
        exact ⟨forall_mem_cons.mpr ⟨(Option.some_ne_none _).symm, none⟩, there⟩
    | some constant =>
      simp only [dispatch, newBlock_bind, case_bind, imm_bind, define_bind, emit_bind,
        start_bind] at made
      obtain ⟨grows, -, cases⟩ := (dispatch_made value rest distinct.2 fallback _).of_eq_some made
      have nextWithin := h.mono grows
      obtain ⟨pc, entry⟩ := nextWithin.of_start.of_emit.of_withBlock.of_define.of_define.named
        ⟨b.nextBlock⟩ (Nat.lt_succ_self _)
      obtain ⟨n, d, steps, world, kept, reached⟩ :=
        compare_follows nextWithin entry old ⟨here.isOpen, here.pc⟩
      rw [held] at kept reached
      by_cases same : v = constant.toBitVec
      · rw [if_pos same] at reached
        refine ⟨n, d, steps, world, .inl ⟨_, mem_cons_self, ?_, ⟨b.nextBlock⟩, ?_, ?_⟩⟩
        · rw [same]
          rfl
        · rw [cases label distinct.1]
          simp
        · rw [AtBlock, entry, reached]
      · rw [if_neg same] at reached
        obtain ⟨m, e, more, world', reached⟩ :=
          ih distinct.2 made h (by simp; omega) reached kept
        refine ⟨_, e, steps.trans more, world'.trans world, reached.imp ?_ ?_⟩
        · rintro ⟨l, mem, found⟩
          exact ⟨l, mem_cons_of_mem _ mem, found⟩
        · rintro ⟨none, there⟩
          refine ⟨forall_mem_cons.mpr ⟨fun equal => same ?_, none⟩, there⟩
          rw [Option.some.inj equal]
          rfl

/-- Every case has its block, and the last default is where no case matches. -/
theorem dispatch_cases {value : VReg} (cases : List CaseLabel) :
    ∀ {fallback target : BlockId} {b b' : Build}, (cases.map (·.label)).Nodup →
    dispatch value fallback cases b = some (target, b') →
    (∀ l ∈ cases, ∃ id, b'.cases.lookup l.label = some id ∧ id.index < b'.nextBlock) ∧
    ((target = fallback ∧ ∀ l ∈ cases, l.value ≠ none) ∨
      ∃ l ∈ cases, l.value = none ∧ b'.cases.lookup l.label = some target) := by
  induction cases with
  | nil =>
    intro fallback target b b' _ made
    obtain ⟨rfl, rfl⟩ := pure_eq_some.mp made
    exact ⟨fun _ mem => absurd mem not_mem_nil, .inl ⟨rfl, fun _ mem => absurd mem not_mem_nil⟩⟩
  | cons case rest ih =>
    intro fallback target b b' distinct made
    rw [map_cons, nodup_cons] at distinct
    obtain ⟨key, label⟩ := case
    have settle : ∀ {c : Build} {next : BlockId}, dispatch value next rest c = some (target, b') →
        c.cases = (label, ⟨b.nextBlock⟩) :: b.cases → b.nextBlock < c.nextBlock →
        b'.cases.lookup label = some ⟨b.nextBlock⟩ ∧ b.nextBlock < b'.nextBlock := by
      intro c next made cases lt
      obtain ⟨grows, -, others⟩ := (dispatch_made value rest distinct.2 next c).of_eq_some made
      rw [others label distinct.1, cases, lookup_cons_self]
      exact ⟨rfl, Nat.lt_of_lt_of_le lt grows.nextBlock_le⟩
    cases key with
    | none =>
      simp only [dispatch, newBlock_bind, case_bind] at made
      obtain ⟨blocks, others⟩ := ih distinct.2 made
      obtain ⟨found, lt⟩ := settle made rfl (Nat.lt_succ_self _)
      refine ⟨forall_mem_cons.mpr ⟨⟨_, found, lt⟩, blocks⟩, .inr ?_⟩
      rcases others with ⟨rfl, _⟩ | ⟨l, mem, default⟩
      · exact ⟨_, mem_cons_self, rfl, found⟩
      · exact ⟨l, mem_cons_of_mem _ mem, default⟩
    | some constant =>
      simp only [dispatch, newBlock_bind, case_bind, imm_bind, define_bind, emit_bind,
        start_bind] at made
      obtain ⟨blocks, others⟩ := ih distinct.2 made
      obtain ⟨found, lt⟩ := settle made (by simp) (by
        simp only [nextBlock_start, nextBlock_emit, nextBlock_withBlock, Build.define,
          nextBlock_withVReg, nextBlock_withCase]
        omega)
      refine ⟨forall_mem_cons.mpr ⟨⟨_, found, lt⟩, blocks⟩, others.imp ?_ ?_⟩
      · rintro ⟨rfl, none⟩
        exact ⟨rfl, forall_mem_cons.mpr ⟨Option.some_ne_none _, none⟩⟩
      · rintro ⟨l, mem, default⟩
        exact ⟨l, mem_cons_of_mem _ mem, default⟩

def exits (f : Function) (targets : Targets) (b' : Build) : Exits Config where
  done := At b'
  exit c := ∃ id, targets.exit = some id ∧ AtBlock f id c
  next c := ∃ id, targets.next = some id ∧ AtBlock f id c
  ret := Returns f

/-- `break` and `continue` have somewhere to lead where they may stand. -/
structure Leaving (f : Function) (targets : Targets) (inside : Typing.Inside) : Prop where
  exit : inside.breakable → ∃ id k, targets.exit = some id ∧ f.entry id = some k
  next : inside.loop → ∃ id k, targets.next = some id ∧ f.entry id = some k

def Labelled (f : Function) (b : Build) (own : List CaseLabel)
    (labels : Option Int64 → Config → Prop) : Prop :=
  ∀ l ∈ own, ∃ id, b.cases.lookup l.label = some id ∧ ∀ c, labels l.value c → AtBlock f id c

theorem leads_leaveTo {target : Option BlockId} (made : leaveTo target b = some (u, b'))
    (h : Within b' f) (known : ∃ id k, target = some id ∧ f.entry id = some k) :
    (machine host base f).Leads (At b) fun c => ∃ id, target = some id ∧ AtBlock f id c := by
  obtain ⟨id, k, rfl, entry⟩ := known
  obtain rfl := emit_eq_some.mp made
  exact leads_of_steps fun c here => ⟨1, _, steps_jump host base h here entry, rfl, id, rfl, entry⟩

theorem At.withBlock (h : At b c) : At b.withBlock c := ⟨h.isOpen, h.pc⟩

theorem Labelled.of_cases (h : Labelled f b own labels)
    (same : ∀ l ∈ own, b'.cases.lookup l.label = b.cases.lookup l.label) :
    Labelled f b' own labels := by
  intro l mem
  rw [same l mem]
  exact h l mem

theorem Labelled.append
    (h : Labelled f b (first ++ rest) labels) : Labelled f b first labels ∧ Labelled f b rest labels :=
  ⟨fun l mem => h l (mem_append_left _ mem), fun l mem => h l (mem_append_right _ mem)⟩

theorem Labelled.after {numbers numbers' : List Nat} (h : Labelled f b rest labels)
    (placed : Placed first numbers b b') (numbered : ∀ l ∈ rest, l.label ∈ numbers')
    (distinct : (numbers ++ numbers').Nodup) : Labelled f b' rest labels :=
  h.of_cases fun l mem => placed.cases _ fun inFirst =>
    disjoint_of_nodup_append distinct inFirst (numbered l mem)

theorem loop_wires {targets : Targets} {again : Config → Prop}
    (done : (machine host base f).Leads (At b₁) again)
    (goesOn : (machine host base f).Leads (AtBlock f next) again)
    (leaves : (machine host base f).Leads (AtBlock f exit) (At b')) :
    (exits f targets b').Loop (machine host base f) (exits f ⟨some exit, some next⟩ b₁) again := by
  refine ⟨done, ?_, ?_, rfl⟩
  · refine goesOn.comp fun c => ?_
    rintro ⟨id, same, there⟩
    cases same
    exact there
  · refine leaves.comp fun c => ?_
    rintro ⟨id, same, there⟩
    cases same
    exact there

theorem optionalBranch_computes {test : Option Expr}
    (formed : Expr.OptionalFormed ctx.function.locals.length test)
    (made : optionalBranch ctx test yes no b = some (u, b')) (h : Within (b'.start yes) f)
    (second : Within (b₁.start no) f) :
    (machine host base f).Computes 0 (At b) (holds (ctx.tree host base) test)
      fun t => if t then At (b'.start yes) else At (b₁.start no) := by
  cases test with
  | none =>
    obtain ⟨-, rfl⟩ := pure_eq_some.mp made
    rintro c _ k rfl here
    exact .afterSome (steps_start host base h here) (.pure rfl ⟨rfl, rfl⟩)
  | some e =>
    exact (branch_computes formed made h.of_start h second).mono (Nat.zero_le 1) (fun _ h => h)
      fun _ _ h => h

theorem effect_computes {e : Option Expr} {head : BlockId}
    (formed : Expr.OptionalFormed ctx.function.locals.length e)
    (made : effect ctx e b = some (u, b')) (h : Within (b'.emit (.jump head)) f)
    (target : Within (b₁.start head) f) :
    (machine host base f).Computes 1 (At b) (andThen (ctx.tree host base) e)
      fun t => if t then At (b₁.start head) else q := by
  have jump : ∀ (c : Config) (k : Nat), At b' c → (machine host base f).Follows 1 k c
      ((pure true : Eval Bool) c.world) fun t => if t then At (b₁.start head) else q :=
    fun c k here => ⟨1, _, Nat.le_refl 1, steps_jump host base h here target.entry_start, rfl,
      rfl, rfl⟩
  rintro c _ k rfl here
  cases e with
  | none =>
    obtain ⟨-, rfl⟩ := pure_eq_some.mp made
    exact jump c k here
  | some e =>
    simp only [effect, bind_eq_some, pure_eq_some] at made
    obtain ⟨r, _, made, -, rfl⟩ := made
    refine (value_computes formed made h.of_emit c c.world k rfl here).bindCounted (j := 1) ?_
      (Nat.le_refl 1) (Nat.le_refl k) (Nat.le_add_left k 0)
    rintro v d _ rfl ⟨there, -⟩
    exact jump d k there

theorem leads_ret {src : Option VReg} (h : Within (b.emit (.ret src)) f) (value : Option Word) :
    (machine host base f).Leads (fun c => At b c ∧ src.map c.regs = value) (Returns f value) :=
  .of_imp fun _ here => ⟨src, h.fetch here.1, here.2⟩

theorem enter_wires {key : Option Int64} {label : Nat}
    (labelled : Labelled f b (⟨key, label⟩ :: own) labels) (h : Within (b.enter (some label)) f) :
    (machine host base f).Leads (At b) (At (b.enter (some label))) ∧
    (machine host base f).Leads (labels key) (At (b.enter (some label))) ∧
    Labelled f (b.enter (some label)) own labels := by
  obtain ⟨id, found, entered⟩ := labelled _ mem_cons_self
  have same : b.enter (some label) = b.start id := by simp [enter, found]
  rw [same] at h ⊢
  refine ⟨leads_start h, (leads_block h).comp entered, fun l mem => ?_⟩
  rw [cases_start]
  exact labelled l (mem_cons_of_mem _ mem)

/-- The points where the labels of a `switch` are entered, once its cases have blocks. -/
def caseEntries (f : Function) (b : Build) (cases : List CaseLabel) (value : Option Int64)
    (c : Config) : Prop :=
  ∃ l ∈ cases, l.value = value ∧ ∃ id, b.cases.lookup l.label = some id ∧ AtBlock f id c

theorem dispatch_leads {value : VReg} (distinct : (cases.map (·.label)).Nodup)
    (made : dispatch value exit cases b = some (target, b')) (h : Within (b'.emit (.jump target)) f)
    (old : value.index < b.nextVReg) (leaves : Within (b₁.start exit) f) :
    (machine host base f).Leads (fun c => At b c ∧ c.regs value = v)
      ((select cases v).elim (At (b₁.start exit)) (caseEntries f b' cases)) := by
  refine leads_of_steps fun c here => ?_
  obtain ⟨n, d, steps, world, reached⟩ :=
    dispatch_follows cases distinct made h.of_emit old here.1 here.2
  rcases reached with ⟨l, mem, matched, entered⟩ | ⟨none, there⟩
  · have selected : select cases v = some (some (.ofBitVec v)) := by
      unfold select
      rw [if_pos (any_eq_true.mpr ⟨l, mem, decide_eq_true matched⟩)]
    rw [selected]
    exact ⟨n, d, steps, world, l, mem, matched, entered⟩
  · have unmatched : ¬ cases.any (·.value = some (.ofBitVec v)) := by
      simpa using none
    obtain ⟨blocks, others⟩ := dispatch_cases cases distinct made
    rcases others with ⟨rfl, valued⟩ | ⟨l, mem, isDefault, found⟩
    · have selected : select cases v = Option.none := by
        unfold select
        rw [if_neg unmatched, if_neg (by simpa using valued)]
      rw [selected]
      exact ⟨_, _, steps.trans (steps_jump host base h there leaves.entry_start), world, rfl, rfl⟩
    · have selected : select cases v = some Option.none := by
        unfold select
        rw [if_neg unmatched, if_pos (any_eq_true.mpr ⟨l, mem, decide_eq_true isDefault⟩)]
      rw [selected]
      obtain ⟨id, found', lt⟩ := blocks l mem
      cases found.symm.trans found'
      obtain ⟨k, entry⟩ := h.of_emit.named target lt
      exact ⟨_, _, steps.trans (steps_jump host base h there entry), world, l, mem, isDefault,
        target, found, entry⟩

theorem caseEntries_labelled {value : VReg} (distinct : (cases.map (·.label)).Nodup)
    (values : (cases.map (·.value)).Nodup)
    (made : dispatch value exit cases b = some (target, b')) :
    Labelled f b' cases (caseEntries f b' cases) := by
  intro l mem
  obtain ⟨id, found, -⟩ := (dispatch_cases cases distinct made).1 l mem
  refine ⟨id, found, ?_⟩
  rintro c ⟨l', mem', same, id', found', entered⟩
  cases inj_on_of_nodup_map values mem' mem same
  cases found.symm.trans found'
  exact entered

mutual
/-- The blocks of a statement are wired as it says, by induction over the tree. -/
theorem stmt_wired : (s : Stmt) → (targets : Targets) → {inside : Typing.Inside} →
    s.Formed ctx.function.locals.length inside → s.numbers.Nodup →
    ∀ ⦃b b' : Build⦄ ⦃u : Unit⦄ ⦃labels : Option Int64 → Config → Prop⦄,
    stmt ctx targets s b = some (u, b') → Within b' f → Leaving f targets inside →
    Labelled f b s.labels labels →
    Wired (machine host base f) (ctx.tree host base) labels (At b) (exits f targets b') s
  | .expr _ e, targets, _, formed, _ => by
    intro b b' u labels made h _ _
    simp only [stmt, effect, bind_eq_some, pure_eq_some] at made
    obtain ⟨r, _, made, -, rfl⟩ := made
    exact (value_computes formed made h).mono (Nat.le_refl 0) (fun _ h => h) fun _ _ h => h.1
  | .ret _ none, targets, _, _, _ => by
    intro b b' u labels made h _ _
    obtain rfl := emit_eq_some.mp made
    exact (leads_ret h none).comp fun c here => ⟨here, rfl⟩
  | .ret _ (some e), targets, _, formed, _ => by
    intro b b' u labels made h _ _
    simp only [stmt, bind_eq_some, emit_eq_some] at made
    obtain ⟨r, b₁, made, rfl⟩ := made
    rintro c _ k rfl here
    refine (value_computes formed made h.of_emit c c.world k rfl here).leads fun v => ?_
    exact (leads_ret h (some v)).comp fun d there => ⟨there.1, congrArg some there.2⟩
  | .branch _ test yes none, targets, _, ⟨first, second, _⟩, distinct => by
    intro b b' u labels made h leaving labelled
    simp only [stmt, bind_eq_some, newBlock_bind, start_bind, start_eq_some] at made
    obtain ⟨_, b₁, madeB, _, b₂, madeY, rfl⟩ := made
    rw [Stmt.numbers, Stmt.optionalNumbers, append_nil] at distinct
    rw [Stmt.labels, Stmt.optionalLabels, append_nil] at labelled
    obtain ⟨-, quiet⟩ := (branch_quiet first _ _ _).of_eq_some madeB
    obtain ⟨grows, -⟩ := (stmt_made yes targets second distinct _).of_eq_some madeY
    have yesWithin := h.of_start.mono grows
    refine ⟨At (b₁.start ⟨b.nextBlock⟩), At (b₂.start _), At b₂, At (b₂.start _), ?_, ?_,
      leads_start h, .refl _, .refl _⟩
    · exact (branch_computes first madeB yesWithin.of_start yesWithin h).mono (Nat.zero_le 1)
        (fun _ here => here.withBlock.withBlock) fun _ _ h => h
    · exact stmt_wired yes targets second distinct madeY h.of_start leaving
        (labelled.of_cases fun l _ => by simp [quiet.cases])
  | .branch _ test yes (some no), targets, _, ⟨first, second, third⟩, distinct => by
    intro b b' u labels made h leaving labelled
    simp only [stmt, bind_eq_some, newBlock_bind, start_bind, start_eq_some, emit_bind] at made
    obtain ⟨_, b₁, madeB, _, b₂, madeY, _, b₃, madeN, rfl⟩ := made
    have parts := nodup_append.mp distinct
    obtain ⟨labelledY, labelledN⟩ := labelled.append
    obtain ⟨-, quiet⟩ := (branch_quiet first _ _ _).of_eq_some madeB
    obtain ⟨growsY, placed⟩ := (stmt_made yes targets second parts.1 _).of_eq_some madeY
    obtain ⟨growsN, -⟩ := (stmt_made no targets third parts.2.1 _).of_eq_some madeN
    have noWithin := h.of_start.mono growsN
    have yesWithin := noWithin.of_start.of_emit.mono growsY
    have same : (b₁.start ⟨b.nextBlock⟩).cases = b.cases := by simp [quiet.cases]
    refine ⟨At (b₁.start ⟨b.nextBlock⟩), At ((b₂.emit (.jump ⟨b.nextBlock + 1⟩)).start
      ⟨b.nextBlock + 1 + 1⟩), At b₂, At b₃, ?_, ?_, leads_jump noWithin.of_start h, ?_, leads_start h⟩
    · exact (branch_computes first madeB yesWithin.of_start yesWithin noWithin).mono
        (Nat.zero_le 1) (fun _ here => here.withBlock.withBlock.withBlock) fun _ _ h => h
    · exact stmt_wired yes targets second parts.1 madeY noWithin.of_start.of_emit leaving
        (labelledY.of_cases fun l _ => by rw [same])
    · refine stmt_wired no targets third parts.2.1 madeN h.of_start leaving ?_
      exact ((labelledN.of_cases fun l _ => by rw [same]).after placed label_mem_numbers
        distinct).of_cases fun l _ => by simp
  | .whileLoop _ test body, targets, _, ⟨first, second⟩, distinct => by
    intro b b' u labels made h leaving labelled
    simp only [stmt, bind_eq_some, newBlock_bind, start_bind, start_eq_some, emit_bind] at made
    obtain ⟨_, b₁, madeB, _, b₂, madeR, rfl⟩ := made
    obtain ⟨growsB, quiet⟩ := (branch_quiet first _ _ _).of_eq_some madeB
    obtain ⟨growsR, -⟩ := (stmt_made body _ second distinct _).of_eq_some madeR
    have roundWithin := h.of_start.of_emit.mono growsR
    have headWithin := roundWithin.of_start.mono growsB
    refine ⟨At (b.withBlock.withBlock.withBlock.start _), At (b₁.start _), exits f _ b₂,
      (leads_start headWithin).comp fun _ here => here.withBlock.withBlock.withBlock,
      branch_computes first madeB roundWithin.of_start roundWithin h, ?_,
      loop_wires (leads_jump h.of_start headWithin) (leads_block headWithin) (leads_block h)⟩
    exact stmt_wired body _ second distinct madeR h.of_start.of_emit
      ⟨fun _ => ⟨_, _, rfl, h.entry_start⟩, fun _ => ⟨_, _, rfl, headWithin.entry_start⟩⟩
      (labelled.of_cases fun l _ => by simp [quiet.cases])
  | .doLoop _ body test, targets, _, ⟨first, second⟩, distinct => by
    intro b b' u labels made h leaving labelled
    simp only [stmt, bind_eq_some, newBlock_bind, start_bind, start_eq_some] at made
    obtain ⟨_, b₁, madeR, _, b₂, madeB, rfl⟩ := made
    obtain ⟨growsR, -⟩ := (stmt_made body _ second distinct _).of_eq_some madeR
    obtain ⟨growsB, -⟩ := (branch_quiet first _ _ _).of_eq_some madeB
    have nextWithin := h.of_start.mono growsB
    have roundWithin := nextWithin.of_start.mono growsR
    refine ⟨At (b.withBlock.withBlock.withBlock.start _), At (b₁.start _), exits f _ b₁,
      (leads_start roundWithin).comp fun _ here => here.withBlock.withBlock.withBlock, ?_,
      loop_wires (leads_start nextWithin) (leads_block nextWithin) (leads_block h),
      branch_computes first madeB h.of_start roundWithin h⟩
    exact stmt_wired body _ second distinct madeR nextWithin.of_start
      ⟨fun _ => ⟨_, _, rfl, h.entry_start⟩, fun _ => ⟨_, _, rfl, nextWithin.entry_start⟩⟩
      (labelled.of_cases fun l _ => by simp)
  | .forLoop _ init test step body, targets, _, ⟨first, second, third, fourth⟩, distinct => by
    intro b b' u labels made h leaving labelled
    simp only [stmt_forLoop, bind_eq_some, newBlock_bind, start_bind, start_eq_some, emit_bind] at made
    obtain ⟨_, b₁, madeI, _, b₂, madeB, _, b₃, madeR, _, b₄, madeS, rfl⟩ := made
    have parts := nodup_append.mp distinct
    obtain ⟨labelledI, labelledR⟩ := labelled.append
    obtain ⟨growsI, placed⟩ := (optionalStmt_made init targets first parts.1 b).of_eq_some madeI
    obtain ⟨growsB, quiet⟩ := (optionalBranch_quiet second _ _ _).of_eq_some madeB
    obtain ⟨growsR, -⟩ := (stmt_made body _ fourth parts.2.1 _).of_eq_some madeR
    obtain ⟨growsS, -⟩ := (effect_quiet third _).of_eq_some madeS
    have nextWithin := h.of_start.of_emit.mono growsS
    have roundWithin := nextWithin.of_start.mono growsR
    have headWithin := roundWithin.of_start.mono growsB
    refine ⟨At b₁, At (b₁.withBlock.withBlock.withBlock.withBlock.start _), At (b₂.start _),
      At (b₃.start _), exits f _ b₃, ?_,
      (leads_start headWithin).comp fun _ here => here.withBlock.withBlock.withBlock.withBlock,
      optionalBranch_computes second madeB roundWithin h, ?_,
      loop_wires (leads_start nextWithin) (leads_block nextWithin) (leads_block h),
      effect_computes third madeS h.of_start headWithin⟩
    · exact optionalStmt_wired init targets first parts.1 madeI
        headWithin.of_start.of_withBlock.of_withBlock.of_withBlock.of_withBlock leaving labelledI
    · refine stmt_wired body _ fourth parts.2.1 madeR nextWithin.of_start
        ⟨fun _ => ⟨_, _, rfl, h.entry_start⟩, fun _ => ⟨_, _, rfl, nextWithin.entry_start⟩⟩ ?_
      exact (labelledR.after placed label_mem_numbers distinct).of_cases fun l _ => by
        simp [quiet.cases]
  | .switch _ e body cases, targets, _, ⟨first, second, same, values⟩, distinct => by
    intro b b' u labels made h leaving labelled
    simp only [stmt, bind_eq_some, newBlock_bind, start_eq_some, emit_bind] at made
    obtain ⟨r, b₁, madeE, target, b₂, madeD, _, b₃, madeR, rfl⟩ := made
    subst same
    have numbered := body.labels_sublist.nodup distinct
    obtain ⟨-, computed⟩ := (expr_made e .value first b).of_eq_some madeE
    obtain ⟨growsD, -⟩ := (dispatch_made r body.labels numbered _ _).of_eq_some madeD
    obtain ⟨growsR, -⟩ := (stmt_made body _ second distinct _).of_eq_some madeR
    have jumpWithin := h.of_start.mono growsR
    have valueWithin := (jumpWithin.of_emit.mono growsD).of_withBlock
    refine ⟨caseEntries f b₂ body.labels, At (b₂.emit (.jump target)), At (b₃.start _),
      exits f { targets with exit := some ⟨b₁.nextBlock⟩ } b₃, ?_, .refl _, ?_, leads_start h, ?_,
      rfl, rfl⟩
    · intro c w k shown here
      refine (value_computes first madeE valueWithin c w k shown here).leads fun v => ?_
      exact (dispatch_leads numbered madeD jumpWithin computed.lt h).comp
        fun d there => ⟨there.1.withBlock, there.2⟩
    · refine stmt_wired body _ second distinct madeR h.of_start
        ⟨fun _ => ⟨_, _, rfl, h.entry_start⟩, leaving.next⟩ ?_
      exact (caseEntries_labelled numbered values madeD).of_cases fun l _ => by simp
    · refine (leads_block h).comp fun c => ?_
      rintro ⟨id, same, there⟩
      cases same
      exact there
  | .case _ value none body, targets, _, ⟨known, _⟩, _ => absurd known nofun
  | .case _ value (some label) body, targets, _, ⟨_, formed⟩, distinct
  | .default _ (some label) body, targets, _, ⟨_, formed⟩, distinct => by
    intro b b' u labels made h leaving labelled
    simp only [stmt, bind_eq_some, startCase_eq_some] at made
    obtain ⟨_, _, rfl, made⟩ := made
    have rest := (nodup_append.mp distinct).2.1
    obtain ⟨grows, -⟩ := (stmt_made body targets formed rest _).of_eq_some made
    obtain ⟨first, jumped, own⟩ := enter_wires labelled (h.mono grows)
    exact ⟨At (b.enter (some label)), first, fun _ => jumped,
      stmt_wired body targets formed rest made h leaving own⟩
  | .default _ none body, targets, _, ⟨known, _⟩, _ => absurd known nofun
  | .exit _, targets, _, inside, _ => by
    intro b b' u labels made h leaving _
    rw [stmt] at made
    exact leads_leaveTo made h (leaving.exit inside)
  | .next _, targets, _, inside, _ => by
    intro b b' u labels made h leaving _
    rw [stmt] at made
    exact leads_leaveTo made h (leaving.next inside)
  | .block _ body, targets, _, formed, distinct => by
    intro b b' u labels made h leaving labelled
    rw [stmt] at made
    exact stmts_wired body targets formed distinct made h leaving labelled
  | .null _, targets, _, _, _ => by
    intro b b' u labels made _ _ _
    obtain ⟨-, rfl⟩ := pure_eq_some.mp made
    exact .refl _
theorem optionalStmt_wired : (s : Option Stmt) → (targets : Targets) → {inside : Typing.Inside} →
    Stmt.OptionalFormed ctx.function.locals.length inside s → (Stmt.optionalNumbers s).Nodup →
    ∀ ⦃b b' : Build⦄ ⦃u : Unit⦄ ⦃labels : Option Int64 → Config → Prop⦄,
    optionalStmt ctx targets s b = some (u, b') → Within b' f → Leaving f targets inside →
    Labelled f b (Stmt.optionalLabels s) labels →
    WiredOptional (machine host base f) (ctx.tree host base) labels (At b) (exits f targets b') s
  | none, targets, _, _, _ => by
    intro b b' u labels made _ _ _
    obtain ⟨-, rfl⟩ := pure_eq_some.mp made
    exact .refl _
  | some s, targets, _, formed, distinct => by
    intro b b' u labels made h leaving labelled
    rw [optionalStmt] at made
    exact stmt_wired s targets formed distinct made h leaving labelled
theorem stmts_wired : (body : List Stmt) → (targets : Targets) → {inside : Typing.Inside} →
    Stmt.AllFormed ctx.function.locals.length inside body → (Stmt.allNumbers body).Nodup →
    ∀ ⦃b b' : Build⦄ ⦃u : Unit⦄ ⦃labels : Option Int64 → Config → Prop⦄,
    stmts ctx targets body b = some (u, b') → Within b' f → Leaving f targets inside →
    Labelled f b (Stmt.allLabels body) labels →
    WiredAll (machine host base f) (ctx.tree host base) labels (At b) (exits f targets b') body
  | [], targets, _, _, _ => by
    intro b b' u labels made _ _ _
    obtain ⟨-, rfl⟩ := pure_eq_some.mp made
    exact .refl _
  | s :: rest, targets, _, ⟨first, second⟩, distinct => by
    intro b b' u labels made h leaving labelled
    simp only [stmts, bind_eq_some] at made
    obtain ⟨_, b₁, madeS, madeR⟩ := made
    have parts := nodup_append.mp distinct
    obtain ⟨labelledS, labelledR⟩ := labelled.append
    obtain ⟨-, placed⟩ := (stmt_made s targets first parts.1 b).of_eq_some madeS
    obtain ⟨grows, -⟩ := (stmts_made rest targets second parts.2.1 b₁).of_eq_some madeR
    refine ⟨At b₁, stmt_wired s targets first parts.1 madeS (h.mono grows) leaving labelledS, ?_⟩
    exact stmts_wired rest targets second parts.2.1 madeR h leaving
      (labelledR.after placed (fun l mem =>
        (Stmt.allLabels_sublist rest).subset (mem_map_of_mem mem)) distinct)
end

/-! ## Functions -/

/-- A build that owes no block is the text of its function. -/
theorem within_of_owed (blocks : f.blocks = b.blocks) (paid : ∀ id, b.owed id = 0) :
    Within b f := by
  have places : f.places = b.places := by
    rw [Function.places, blocks]
    rfl
  have count : ∀ id, ((b.places.map (·.1)).count id : Int) =
      if id.index < b.nextBlock then 1 else 0 := by
    intro id
    have := paid id
    rw [Build.owed] at this
    omega
  have unique : (f.places.map (·.1)).Nodup := by
    rw [places]
    refine nodup_iff_count_le_one.mpr fun id => ?_
    have once := count id
    split at once <;> omega
  refine ⟨?_, ?_, fun id lt => ?_, unique⟩
  · rw [Function.instructions, blocks]
    exact prefix_refl _
  · rw [places]
  · have once := count id
    rw [if_pos lt] at once
    have mem : id ∈ b.places.map (·.1) := count_pos_iff.mp (by omega)
    obtain ⟨⟨_, k⟩, placed, rfl⟩ := mem_map.mp mem
    rw [← places] at placed
    exact ⟨k, lookup_eq_some_of_mem unique placed⟩

/-- Every parameter is stored in its slot. -/
theorem spill_follows (params : List Nat) :
    ∀ ⦃b b' : Build⦄ ⦃arrived : List VReg⦄ ⦃c : Config⦄,
    (∀ p ∈ params, p < ctx.function.locals.length) →
    spill ctx.function params b = some (arrived, b') → Within b' f → At b c →
    (machine host base f).Follows 0 k c
      (Tree.spill (ctx.tree host base) params (arrived.map c.regs) c.world) fun _ => At b' := by
  induction params with
  | nil =>
    intro b b' arrived c _ made h here
    obtain ⟨rfl, rfl⟩ := pure_eq_some.mp made
    exact .pure rfl here
  | cons param rest ih =>
    intro b b' arrived c known made h here
    simp only [spill, bind_eq_some, lift_eq_some, vreg_bind, define_bind, emit_bind,
      pure_eq_some] at made
    obtain ⟨x, _, ⟨found, rfl⟩, rs, _, made, rfl, rfl⟩ := made
    have others : ∀ p ∈ rest, p < ctx.function.locals.length :=
      fun p mem => known p (mem_cons_of_mem _ mem)
    obtain ⟨grows, spilled⟩ := (spill_made rest others _).of_eq_some made
    have storeWithin := h.mono grows
    have addrWithin := storeWithin.of_emit
    obtain ⟨d, steps, there, regs, world⟩ :=
      steps_emit host base addrWithin ⟨here.isOpen, here.pc⟩ rfl rfl
    have addr : d.regs ⟨b.nextVReg + 1⟩ = (ctx.tree host base).place x := by
      rw [regs]
      exact update_self _ _ _
    have kept : ∀ r : VReg, r ≠ ⟨b.nextVReg + 1⟩ → d.regs r = c.regs r := by
      intro r other
      rw [regs]
      exact update_of_ne _ other
    have later : ∀ r ∈ rs, b.nextVReg + 2 ≤ r.index := fun r mem => by
      simpa only [nextVReg_emit, nextVReg_define, nextVReg_withVReg] using spilled.fresh r mem
    have args : rs.map c.regs = rs.map d.regs := by
      refine map_congr_left fun r mem => (kept r ?_).symm
      rintro rfl
      exact absurd (later _ mem) (by simp)
    have run : Tree.spill (ctx.tree host base) (param :: rest)
        ((⟨b.nextVReg⟩ :: rs).map c.regs) = (do
          let _ ← operation host base d.regs
            (.store (.ofType x.ty) ⟨b.withVReg.nextVReg⟩ ⟨b.nextVReg⟩)
          Tree.spill (ctx.tree host base) rest (rs.map d.regs)) := by
      have local? : (ctx.tree host base).locals[param]? = some x := found
      rw [map_cons, Tree.spill, local?, operation, args, bind_assoc]
      simp only [pure_bind, nextVReg_withVReg, addr, kept ⟨b.nextVReg⟩ (by simp)]
      rfl
    rw [run, ← world]
    refine .afterSome steps (.bind ((follows_emit storeWithin there rfl).mono (Nat.zero_le 1)
      (Nat.le_refl k) fun _ _ h => h) ?_)
    rintro v e _ rfl ⟨behind, regs'⟩
    have same : e.regs = d.regs := regs'
    rw [← same]
    exact ih others made h behind

variable (ctx) in
/-- The blocks of a function follow its body. -/
theorem body_follows {code : Stmt} {params : List VReg} {built : Build} (n : Nat)
    (h : ctx.function.Formed code) (made : body ctx code {} = some (params, built))
    (within : Within built f) :
    (machine host base f).Follows 0 n ⟨0, regs, w⟩
      (ctx.function.eval host ctx.structs base code (params.map regs) n w) (Returns f) := by
  rw [body_eq] at made
  simp only [bind_eq_some, newBlock_bind, start_bind, pure_eq_some] at made
  obtain ⟨_, b₁, madeS, _, b₂, madeC, _, _, madeF, rfl, rfl⟩ := made
  obtain ⟨growsF, rfl⟩ := (makes_finish b₂).of_eq_some madeF
  obtain ⟨growsC, -⟩ := (stmt_made code {} h.formed h.numbers b₁).of_eq_some madeC
  have codeWithin := within.mono growsF
  refine (spill_follows (c := ⟨0, regs, w⟩) _ h.params madeS (codeWithin.mono growsC)
    ⟨rfl, rfl⟩).bind ?_
  rintro _ d _ rfl there
  have wired : Wired (machine host base f) (ctx.tree host base) (fun _ _ => False) (At b₁)
      (exits f {} b₂) code :=
    stmt_wired code {} h.formed h.numbers madeC codeWithin ⟨nofun, nofun⟩
      (by rw [h.labels]; exact nofun)
  refine (wired.follows code n .start d d.world rfl rfl there).bind ?_
  rintro flow e _ rfl ended
  cases flow with
  | done =>
    have reached : At b₂ e := ended
    rw [Build.finish, if_pos reached.isOpen] at within
    obtain ⟨e', steps, world, computed⟩ :=
      steps_define host base within.of_emit reached rfl rfl rfl
    exact .afterSome steps (.pure world ⟨_, within.fetch computed.here, congrArg some computed.value⟩)
  | broke => exact absurd ended nofun
  | continued => exact absurd ended nofun
  | returned v => exact .pure rfl ended

end MiniC.Ir.Lowering
