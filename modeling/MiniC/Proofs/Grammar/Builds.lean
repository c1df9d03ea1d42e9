import MiniC.Proofs.Grammar.Raw

/-!
# What a parse builds

Every rule of the grammar moves, keeps what it has to keep at its place, and builds types and trees
as `Raw` describes them. The rules of expressions and types do so at every place, since they declare
no local; declarations and statements do in the body of a function.
-/

namespace MiniC

open List

open ParseState (Reaches Change)

namespace Parse

variable {α β : Type} {κ : Outlook}

/-- A step moves. If it succeeds, it keeps what it has to keep at its place. If it also ends within
the outlook, it starts there; and if `P` holds, it keeps what is built, and `Q` holds of its
answer. -/
structure Builds (κ : Outlook) (P : Prop) (x : Parse α) (Q : α → Prop) : Prop where
  moves : Moves x
  keeps {s t a} : x s = .ok a t → ∀ ℓ ∈ κ.layer, s.Keeps ℓ t
  within {s t a} : x s = .ok a t → t.Within κ → s.Within κ
  built {s t a} : x s = .ok a t → t.Within κ → P → (κ.sound → s.Built κ) →
    (κ.sound → t.Built κ) ∧ Q a

namespace Builds

variable {P P' : Prop} {x y : Parse α} {Q : α → Prop} {R : β → Prop}

variable {a : α} {c : Prop} {error : SyntaxError} {loc : Location} {f : ParseState → α × ParseState}

theorem pure (h : P → Q a) : Builds κ P (Pure.pure a) Q where
  moves := Leads.pure fun _ _ => trivial
  keeps run ℓ _ := by
    cases run
    exact .refl ℓ _
  within run inside := by
    cases run
    exact inside
  built run _ known built := by
    cases run
    exact ⟨built, h known⟩

theorem bind {f : α → Parse β} (first : Builds κ P x Q)
    (rest : ∀ a, Builds κ (P ∧ Q a) (f a) R) : Builds κ P (x >>= f) R where
  moves := first.moves.bind fun a => (rest a).moves
  keeps run ℓ mem := by
    obtain ⟨a, t, run, run'⟩ := bind_ran.mp run
    exact (first.keeps run ℓ mem).trans ((rest a).keeps run' ℓ mem)
  within run inside := by
    obtain ⟨a, t, run, run'⟩ := bind_ran.mp run
    exact first.within run ((rest a).within run' inside)
  built run inside known built := by
    obtain ⟨a, t, run, run'⟩ := bind_ran.mp run
    obtain ⟨built, answer⟩ := first.built run ((rest a).within run' inside) known built
    exact (rest a).built run' inside ⟨known, answer⟩ built

theorem weaken (weaker : P → P') (h : Builds κ P' x Q) : Builds κ P x Q :=
  ⟨h.moves, h.keeps, h.within, fun run inside known => h.built run inside (weaker known)⟩

theorem mono {Q' : α → Prop} (h : Builds κ P x Q) (weaker : ∀ a, Q a → Q' a) : Builds κ P x Q' :=
  ⟨h.moves, h.keeps, h.within,
    fun run inside known built => (h.built run inside known built).imp id (weaker _)⟩

theorem andThen {f : α → Parse β} (first : Builds κ P x fun _ => True)
    (rest : ∀ a, Builds κ P (f a) R) : Builds κ P (x >>= f) R :=
  first.bind fun a => (rest a).weaken And.left

theorem ite [Decidable c] (yes : Builds κ P x Q) (no : Builds κ P y Q) :
    Builds κ P (if c then x else y) Q := by
  split
  · exact yes
  · exact no

theorem fail (plain : error.isPlain = true := by rfl) :
    Builds κ P (Parse.fail error loc) Q :=
  ⟨Leads.fail plain, nofun, nofun, nofun⟩

theorem check [Decidable c] {rest : Unit → Parse α} (h : c → Builds κ P (rest ()) Q)
    (plain : error.isPlain = true := by rfl) :
    Builds κ P (if c then rest () else Parse.fail error loc >>= rest) Q := by
  split
  · exact h (by assumption)
  · exact ⟨Leads.bind (Q := fun _ _ => False) (.fail plain) fun _ _ known => known.elim,
      nofun, nofun, nofun⟩

theorem get : Builds κ P MonadState.get fun s => s.Within κ ∧ (κ.sound → s.Built κ) where
  moves := Leads.get.moves
  keeps run ℓ _ := by
    cases run
    exact .refl ℓ _
  within run inside := by
    cases run
    exact inside
  built run inside _ built := by
    cases run
    exact ⟨built, inside, built⟩

theorem look {f : ParseState → Parse β} (rest : ∀ s, Builds κ P (f s) R) :
    Builds κ P (MonadState.get >>= f) R :=
  .andThen (get.mono fun _ _ => trivial) rest

theorem modifyGet (changed : ∀ s, Reaches s (f s).2)
    (kept : ∀ s : ParseState, ∀ ℓ ∈ κ.layer, s.Keeps ℓ (f s).2)
    (within : ∀ s, (f s).2.Within κ → s.Within κ)
    (built : ∀ s, (f s).2.Within κ → P → (κ.sound → s.Built κ) →
      (κ.sound → (f s).2.Built κ) ∧ Q (f s).1) :
    Builds κ P (MonadStateOf.modifyGet f) Q where
  moves := .modifyGet changed
  keeps run := by
    cases run
    exact kept _
  within run := by
    cases run
    exact within _
  built run := by
    cases run
    exact built _

theorem quiet (changed : ∀ s, Reaches s (f s).2)
    (same : ∀ s, ∃ tokens last strings, (f s).2 = { s with tokens, last, strings } ∧
      tokens <:+ s.tokens ∧ s.strings <+: strings ∧ (s.strings.Nodup → strings.Nodup)) :
    Builds κ P (MonadStateOf.modifyGet f) fun _ => True := by
  refine .modifyGet changed (fun s ℓ _ => ?_) (fun s inside => ?_) fun s _ _ built => ⟨fun sound => ?_, trivial⟩
  all_goals obtain ⟨tokens, last, strings, same, fewer, more, distinct⟩ := same s
  · rw [same]
    exact .plain (.refl _) rfl rfl rfl rfl
  · rw [same] at inside
    exact { inside with strings := more.trans inside.strings }
  · have h := built sound
    rw [same]
    exact { h with tokens := fewer.trans h.tokens, distinct := distinct h.distinct }

theorem modified {f : ParseState → ParseState} (changed : ∀ s, Reaches s (f s))
    (kept : ∀ s : ParseState, ∀ ℓ ∈ κ.layer, s.Keeps ℓ (f s))
    (within : ∀ s, (f s).Within κ → s.Within κ)
    (built : ∀ s, (f s).Within κ → P → s.Built κ → κ.sound → (f s).Built κ) :
    Builds κ P (modify f) fun _ => True :=
  .modifyGet changed kept within fun s inside known before =>
    ⟨fun sound => built s inside known (before sound) sound, trivial⟩

theorem phrase (h : Builds (.blind .phrase) True x Q) {s t : ParseState}
    (run : x s = .ok a t) : s.Keeps .phrase t := h.keeps run .phrase rfl

theorem leads {Q : Structs → α → Prop} (h : ∀ κ : Outlook, Builds κ True x (Q κ.structs)) :
    Leads (fun _ => True) x fun a t => Q t.structs a := by
  intro s _
  have moves := (h (.blind .phrase)).moves
  refine ⟨moves.reaches s, fun a t run => ?_, fun e t => moves.traced⟩
  have inside : t.Within ⟨⟨t.structs, t.enums.map (·.2)⟩, ⟨[], t.strings⟩, none, none, 0, False⟩ :=
    ⟨.refl _, fun entry mem => mem_map_of_mem mem, nofun, prefix_refl _⟩
  exact ((h _).built run inside trivial False.elim).2

end Builds

/-! ## Tokens -/

variable {P : Prop}

theorem ofExcept_builds {r : Except (Located SyntaxError) α} (plain : Plain r) :
    Builds κ P (ofExcept r) fun a => r = .ok a := by
  cases r with
  | ok a => exact .pure fun _ => rfl
  | error e => exact ⟨ofExcept_moves plain, nofun, nofun, nofun⟩

variable {Q : α → Prop}

theorem stop_builds {error : SyntaxError} (plain : error.isPlain = true) :
    Builds κ P (stop error) Q :=
  .look fun _ => .fail plain

theorem peek?_builds : Builds κ P peek? fun _ => True := .look fun _ => .pure fun _ => trivial

/-- A step that goes by the front token, with an answer that the token tells more of. -/
theorem Builds.seen {f : Option TokenKind → Parse α} (rest : ∀ token, Builds κ P (f token) fun _ => True)
    (answer : ∀ token {s t a}, s.peekAt? 0 = token → f token s = .ok a t → t.Within κ → P →
      (κ.sound → s.Built κ) → Q a) :
    Builds κ P (peek? >>= f) Q :=
  have base := peek?_builds.andThen rest
  ⟨base.moves, base.keeps, base.within, fun run inside known built =>
    ⟨(base.built run inside known built).1, answer _ rfl run inside known built⟩⟩

theorem isAt_builds (mark : Punct) : Builds κ P (isAt mark) fun _ => True :=
  peek?_builds.andThen fun _ => .pure fun _ => trivial

theorem advance_builds : Builds κ P advance fun _ => True := by
  refine .quiet (fun s => ?_) fun s => ?_
  · dsimp only
    cases tokens : s.tokens with
    | nil => exact .refl s
    | cons token rest => exact .single (.take tokens)
  · dsimp only
    cases tokens : s.tokens with
    | nil =>
      exact ⟨s.tokens, s.last, s.strings, rfl, tokens ▸ suffix_refl _, prefix_refl _, id⟩
    | cons token rest =>
      exact ⟨rest, token.loc, s.strings, rfl, suffix_cons _ _, prefix_refl _, id⟩

/-- A rule goes on after a token that it has looked at. -/
theorem Builds.advance {x : Parse α} (rest : Builds κ P x Q) :
    Builds κ P (advance >>= fun _ => x) Q :=
  advance_builds.andThen fun _ => rest

theorem eatKind_builds (kind : TokenKind) : Builds κ P (eatKind kind) fun _ => True :=
  peek?_builds.andThen fun _ => .ite (advance_builds.andThen fun _ => .pure fun _ => trivial)
    (.pure fun _ => trivial)

theorem eat_builds (mark : Punct) : Builds κ P (eat mark) fun _ => True := eatKind_builds _

/-- A mark decides how a rule goes on. -/
theorem Builds.eat {mark : Punct} {x y : Parse α} (yes : Builds κ P x Q) (no : Builds κ P y Q) :
    Builds κ P (eat mark >>= fun found => if found then x else y) Q :=
  (eat_builds mark).andThen fun _ => .ite yes no

theorem unexpected_builds (expected : String) :
    Builds κ P (unexpected expected) Q := by
  refine .look fun s => ?_
  cases s.tokens with
  | nil => exact stop_builds rfl
  | cons => exact .fail

theorem expect_builds (mark : Punct) : Builds κ P (expect mark) fun _ => True :=
  .eat (.pure fun _ => trivial) (unexpected_builds _)

/-- A rule goes on after a mark that it needs. -/
theorem Builds.expect {mark : Punct} {x : Parse α} (rest : Builds κ P x Q) :
    Builds κ P (expect mark >>= fun _ => x) Q :=
  (expect_builds mark).andThen fun _ => rest

theorem expectKeyword_builds (word : Keyword) : Builds κ P (expectKeyword word) fun _ => True :=
  (eatKind_builds _).andThen fun _ => .ite (.pure fun _ => trivial) (unexpected_builds _)

theorem next_builds : Builds κ P next fun token => κ.sound → token ∈ κ.tokens := by
  refine Builds.get.bind fun s => ?_
  cases tokens : s.tokens with
  | nil => exact stop_builds rfl
  | cons token rest =>
    refine .advance <| .pure fun known sound => ?_
    exact (known.2.2 sound).tokens.subset (tokens ▸ mem_cons_self)

theorem identifier_builds : Builds κ P identifier fun _ => True := by
  refine next_builds.bind fun token => ?_
  split
  · exact .pure fun _ => trivial
  · exact .fail

theorem identifier?_builds : Builds κ P identifier? fun _ => True := by
  refine peek?_builds.andThen fun token => ?_
  split
  · exact identifier_builds.andThen fun _ => .pure fun _ => trivial
  · exact .pure fun _ => trivial

theorem here_builds : Builds κ P here fun _ => True := .look fun _ => .pure fun _ => trivial

theorem spanFrom_builds (start : Location) : Builds κ P (spanFrom start) fun _ => True :=
  .look fun _ => .pure fun _ => trivial

theorem inBlock_builds {x : Parse α} (h : Builds κ P x Q) :
    Builds κ P (inBlock x) Q where
  moves := inBlock_moves h.moves
  keeps run ℓ mem := by
    obtain ⟨t, ran, rfl⟩ := inBlock_eq_ok run
    exact (h.keeps ran ℓ mem).leave
  within run inside := by
    obtain ⟨t, ran, rfl⟩ := inBlock_eq_ok run
    exact { h.within ran { inside with } with }
  built run inside known built := by
    obtain ⟨t, ran, rfl⟩ := inBlock_eq_ok run
    obtain ⟨built, answer⟩ := h.built ran { inside with } known
      fun sound => (built sound).enter
    exact ⟨fun sound => (built sound).leave, answer⟩

theorem iterate_builds {step : α → Parse (Round α β)} {P : α → Prop} {Q : β → Prop}
    (round : ∀ a, Builds κ (P a) (step a) (Round.Holds P Q)) {stuck : SyntaxError}
    (plain : stuck.isPlain = true) (rounds : Nat) :
    ∀ a, Builds κ (P a) (iterate stuck rounds step a) Q := by
  induction rounds with
  | zero => exact fun _ => stop_builds plain
  | succ rounds ih =>
    intro a
    refine (round a).bind fun r => ?_
    cases r with
    | more a => exact (ih a).weaken And.right
    | done b => exact .pure And.right

end Parse

/-- The rules for nested phrases build well. -/
structure Below.Builds (below : Below) : Prop where
  plain : below.stuck.isPlain = true
  expr {κ : Outlook} {P : Prop} : Parse.Builds κ P below.expr (Expr.Fits κ)
  assign {κ : Outlook} {P : Prop} : Parse.Builds κ P below.assign (Expr.Fits κ)
  conditional {κ : Outlook} {P : Prop} : Parse.Builds κ P below.conditional (Expr.Fits κ)
  cast {κ : Outlook} {P : Prop} : Parse.Builds κ P below.cast (Expr.Fits κ)
  unary {κ : Outlook} {P : Prop} : Parse.Builds κ P below.unary (Expr.Fits κ)
  declSpec {κ : Outlook} {P : Prop} : Parse.Builds κ P below.declSpec fun spec => κ.Checks spec.ty

namespace Grammar

open Parse

variable {α β : Type} {κ : Outlook} {P : Prop} {below : Below} (h : below.Builds)
include h

variable {step : α → Parse (Round α β)} {a : α} {σ : Structs} {items : List Init}

theorem loop_builds (P : α → Prop) {Q : β → Prop}
    (round : ∀ a, Builds κ (P a) (step a) (Round.Holds P Q)) :
    Builds κ (P a) (loop below step a) Q :=
  iterate_builds round h.plain _ a

theorem loop_silent
    (round : ∀ a, Builds κ True (step a) fun _ => True) : Builds κ P (loop below step a) fun _ => True := by
  refine .weaken (fun _ => trivial) (loop_builds h (fun _ => True) fun a => (round a).mono fun r _ => ?_)
  cases r <;> trivial

/-! ## Types -/

theorem pointers_builds (ty : CType) : Builds κ (κ.Checks ty) (pointers below ty) κ.Checks := by
  refine loop_builds h κ.Checks fun ty => .eat ?_ (.pure id)
  exact .pure fun _ _ => trivial

theorem arrayLength_builds : Builds κ P (arrayLength below) fun _ => True := by
  refine (isAt_builds _).andThen fun _ => .ite (.pure fun _ => trivial) (h.conditional.bind fun e => ?_)
  exact (ofExcept_builds (Constant.eval_plain e)).bind fun _ => .ite (.pure fun _ => trivial) .fail

omit h in
theorem arrayType_builds (element : CType) (start : Location) (length : UInt32) :
    Builds κ (κ.Checks element) (arrayType element start length) κ.Checks := by
  refine Builds.get.bind fun s => ?_
  split
  · rename_i ty checked
    exact .pure fun known sound => (known.1 sound).array known.2.1.structs checked
  · exact (spanFrom_builds start).andThen fun _ => .fail

theorem typeSuffix_builds (ty : CType) :
    Builds κ (κ.Checks ty) (typeSuffix below ty) κ.Checks := by
  refine .andThen (loop_silent h fun lengths => ?_) fun lengths => ?_
  · refine .eat ?_ (.pure fun _ => trivial)
    refine here_builds.andThen fun start => (arrayLength_builds h).andThen fun length => ?_
    exact .expect <| .pure fun _ => trivial
  · induction lengths generalizing ty with
    | nil => exact .pure id
    | cons length rest ih =>
      exact (arrayType_builds ty _ _).bind fun ty => (ih ty).weaken And.right

theorem declarator_builds (base : CType) :
    Builds κ (κ.Checks base) (declarator below base) fun named => κ.Checks named.2 :=
  (pointers_builds h base).bind fun ty => identifier_builds.andThen fun _ =>
    .bind (.weaken And.right (typeSuffix_builds h ty)) fun _ => .pure And.right

omit h in
theorem declareStruct_builds (tag : Option (Located String)) :
    Builds κ P (declareStruct tag) fun _ => True := by
  have larger := fun s : ParseState => Structs.extends_declare s.structs (tag.map (·.value))
  refine .modifyGet (fun s => ?_) (fun s ℓ _ => ?_) (fun s inside => ?_) fun s _ _ built =>
    ⟨fun sound => ?_, trivial⟩
  · have declared := Reaches.single (Change.declareStruct (s := s) (tag.map (·.value)))
    cases tag <;> exact declared
  · cases tag <;> exact .plain (larger s) rfl rfl rfl rfl
  · exact { inside with structs := (larger s).trans inside.structs }
  · have b := built sound
    cases tag with
    | none => exact { b with }
    | some name =>
      exact { b.addTag name.value
        (show κ.structs.Checked (.struct (s.structs.declare (some name.value)).1) from trivial) with }

omit h in
theorem structTarget_builds (tag : Option (Located String)) :
    Builds κ P (structTarget tag) fun _ => True := by
  unfold structTarget
  split
  · exact declareStruct_builds none
  · refine .look fun s => ?_
    split
    · exact .ite .fail (.pure fun _ => trivial)
    · exact declareStruct_builds _

def MembersFit (κ : Outlook) (members : List (String × CType)) : Prop :=
  ∀ member ∈ members, κ.structs.isComplete member.2 ∧ κ.Checks member.2

theorem memberDeclarators_builds (ty : CType) (members : List (String × CType)) :
    Builds κ (κ.Checks ty ∧ MembersFit κ members) (memberDeclarators below ty members)
      (MembersFit κ) := by
  refine loop_builds h (fun members => κ.Checks ty ∧ MembersFit κ members) fun members => ?_
  refine .bind (.weaken And.left (declarator_builds h ty)) fun (name, ty') => ?_
  refine Builds.get.bind fun s => .check fun complete => ?_
  -- the declarator that was read is complete in the state it was read in
  have more : ((κ.Checks ty ∧ MembersFit κ members) ∧ κ.Checks ty') ∧ s.Within κ ∧
      (κ.sound → s.Built κ) → MembersFit κ ((name.value, ty') :: members) :=
    fun ⟨⟨known, checked⟩, inside, _⟩ =>
      forall_mem_cons.mpr ⟨⟨(inside.structs.same complete).1, checked⟩, known.2⟩
  refine .eat ?_ (.pure more)
  exact .pure fun known => ⟨known.1.1.1, more known⟩

theorem structMembers_builds : Builds κ P (structMembers below) (MembersFit κ) := by
  refine .weaken (fun _ => nofun) (loop_builds h (MembersFit κ) fun members => ?_)
  refine .eat ?_ ?_
  · exact .pure fun known member mem => known member (mem_reverse.mp mem)
  · refine h.declSpec.bind fun spec => ?_
    refine .bind (.weaken And.symm (memberDeclarators_builds h _ _)) fun members => ?_
    exact .expect <| .pure And.right

omit h in
theorem structBody_eq_ok {tag : Option (Located String)} {start : Location} {ty : CType}
    {s t : ParseState} (run : structBody below tag start s = .ok ty t) :
    ∃ ref u members v layout, structTarget tag s = .ok ref u ∧
      structMembers below u = .ok members v ∧ Layout.compute v.structs members = some layout ∧
      ty = .struct ref ∧ t = { v with structs := (v.structs.complete ref layout).2 } := by
  obtain ⟨ref, u, chosen, run⟩ := bind_ran.mp run
  obtain ⟨members, v, read, run⟩ := bind_ran.mp run
  rw [get_bind] at run
  cases computed : Layout.compute v.structs members with
  | none =>
    rw [computed] at run
    cases run
  | some layout =>
    rw [computed] at run
    cases run
    exact ⟨ref, u, members, v, layout, chosen, read, computed, rfl, rfl⟩

theorem structBody_moves (tag : Option (Located String)) (start : Location) :
    Moves (structBody below tag start) := by
  intro s _
  unfold structBody
  rcases structTarget_target tag s with ⟨e, failed, plain⟩ | ⟨ref, t, chosen, target⟩
  · rw [final_error (bind_error failed), bind_error failed]
    refine ⟨.refl s, fun _ _ _ => trivial, fun e' t same => ?_⟩
    cases same
    exact .of_plain plain
  · rw [final, bind_ok chosen]
    have members : Leads (fun _ => True) (structMembers below)
        fun members u => ∀ member ∈ members, u.structs.isComplete member.2 :=
      Builds.leads (Q := fun σ members => ∀ member ∈ members, σ.isComplete member.2) fun κ =>
        (structMembers_builds h).mono fun _ fit member mem => (fit member mem).1
    obtain ⟨reached, complete, traced⟩ := members t trivial
    cases run : structMembers below t with
    | error e u =>
      rw [final_error run] at reached
      rw [bind_error run]
      refine ⟨target.reaches.trans reached, fun _ _ _ => trivial, fun e' u' same => ?_⟩
      cases same
      exact traced e u run
    | ok members u =>
      rw [final_ok run] at reached
      rw [bind_ok run, get_bind]
      cases computed : Layout.compute u.structs members with
      | none =>
        refine ⟨target.reaches.trans reached, fun _ _ _ => trivial, fun e' u' same => ?_⟩
        cases same
        exact .of_plain rfl
      | some layout =>
        have body := (Reaches.refl s).body target reached (complete members u run) computed
        exact ⟨body, fun _ _ _ => trivial, Traced.of_ok rfl⟩

/-- The body of a struct gives a checked type. -/
theorem structBody_builds (tag : Option (Located String)) (start : Location) :
    Builds κ P (structBody below tag start) κ.Checks where
  moves := structBody_moves h tag start
  keeps run ℓ mem := by
    obtain ⟨ref, u, members, v, layout, chosen, read, -, -, rfl⟩ := structBody_eq_ok run
    have first := (structTarget_builds (P := True) tag).keeps chosen ℓ mem
    have second := (structMembers_builds (P := True) h).keeps read ℓ mem
    exact (first.trans second).trans (.plain (Structs.extends_complete _ _ _) rfl rfl rfl rfl)
  within run inside := by
    obtain ⟨ref, u, members, v, layout, chosen, read, -, -, rfl⟩ := structBody_eq_ok run
    have before : v.Within κ :=
      { inside with structs := (Structs.extends_complete _ _ _).trans inside.structs }
    exact (structTarget_builds (P := True) tag).within chosen
      ((structMembers_builds (P := True) h).within read before)
  built run inside _ built := by
    obtain ⟨ref, u, members, v, layout, chosen, read, computed, rfl, rfl⟩ := structBody_eq_ok run
    have before : v.Within κ :=
      { inside with structs := (Structs.extends_complete _ _ _).trans inside.structs }
    have between := (structMembers_builds (P := True) h).within read before
    obtain ⟨built, -⟩ := (structTarget_builds tag).built chosen between trivial built
    obtain ⟨built, fit⟩ := (structMembers_builds h).built read before trivial built
    refine ⟨fun sound => ?_, fun _ => trivial⟩
    have b := built sound
    refine { b with fields := fun entry mem => ?_ }
    change entry ∈ (v.structs.complete ref layout).2.layouts at mem
    unfold Structs.complete at mem
    split at mem
    · exact b.fields entry mem
    · rcases mem_cons.mp mem with rfl | mem
      · intro field inside
        have member : (field.name, field.ty) ∈ members := by
          rw [← Layout.compute_members computed]
          exact mem_map_of_mem inside
        exact (fit _ member).2 sound
      · exact b.fields entry mem

theorem structType_builds : Builds κ P (structType below) κ.Checks := by
  refine .look fun s => identifier?_builds.andThen fun tag => ?_
  refine .eat (structBody_builds h tag _) ?_
  split
  · exact unexpected_builds _
  · refine Builds.get.bind fun s => ?_
    split
    · exact .pure fun known sound => (known.2.2 sound).tag? (by assumption)
    · exact (declareStruct_builds _).andThen fun _ => .pure fun _ _ => trivial

theorem enumerators_builds : Builds κ P (enumerators below) fun _ => True := by
  refine loop_silent h fun next => identifier_builds.andThen fun name => ?_
  refine (eat_builds _).andThen fun assigned => ?_
  extract_lets goesOn
  have rest : ∀ (P : Prop) value, Builds κ P (goesOn value) fun _ => True := by
    intro P value
    refine .andThen (.modified (fun s => .single (.constant _ _)) (fun s ℓ _ => ?_) (fun s inside => ?_)
      fun s _ _ b _ => ?_) fun _ => ?_
    · exact .plain (.refl _) rfl rfl rfl rfl
    · exact { inside with
        constants := fun entry mem => inside.constants entry (mem_cons_of_mem _ mem) }
    · exact { b with }
    · refine .eat ?_ ?_
      · exact .eat (.pure fun _ => trivial) (.pure fun _ => trivial)
      · exact .expect <| .pure fun _ => trivial
  refine .ite (h.conditional.bind fun e => ?_) (rest _ next)
  exact (ofExcept_builds (Constant.eval_plain e)).bind fun value => rest _ value

omit h in
theorem addName_builds {names : ParseState → Names}
    (changed : ∀ s : ParseState, s.Reaches { s with scope := ⟨names s, s.scope.outer⟩ })
    (built : ∀ s : ParseState, P → s.Built κ → κ.sound →
      ParseState.Built κ { s with scope := ⟨names s, s.scope.outer⟩ }) :
    Builds κ P (modify fun s => { s with scope := ⟨names s, s.scope.outer⟩ }) fun _ => True :=
  .modified changed (fun _ _ _ => .plain (.refl _) rfl rfl rfl rfl)
    (fun _ inside => { inside with }) fun s _ => built s

theorem enumType_builds : Builds κ P (enumType below) κ.Checks := by
  refine identifier?_builds.andThen fun tag => .eat ?_ ?_
  · refine (enumerators_builds h).andThen fun _ => ?_
    cases tag with
    | none => exact .pure fun _ _ => trivial
    | some name =>
      refine .andThen (addName_builds (fun s => .single (.enumTag _)) fun s _ b _ => ?_) fun _ =>
        .pure fun _ _ => trivial
      exact b.addTag name.value trivial
  · cases tag with
    | some _ => exact .pure fun _ _ => trivial
    | none => exact unexpected_builds _

def WordsChecked (κ : Outlook) (words : SpecWords) : Prop :=
  ∀ ty, words.base = some ty → κ.Checks ty

omit h in
theorem WordsChecked.withBase (words : SpecWords) {ty : CType} (checked : κ.Checks ty) :
    WordsChecked κ { words with base := some ty } := by
  rintro _ ⟨⟩
  exact checked

theorem specWord_builds (words : SpecWords) :
    Builds κ (WordsChecked κ words) (specWord below words)
      (Round.Holds (WordsChecked κ) (WordsChecked κ)) := by
  refine peek?_builds.andThen fun token => ?_
  split
  · split
    all_goals first
      | exact .advance <| .pure id
      | exact .advance <| .pure fun _ => WordsChecked.withBase _ fun _ => trivial
      | exact .advance <| (structType_builds h).bind fun _ =>
          .pure fun known => WordsChecked.withBase _ known.2
      | exact .advance <| (enumType_builds h).bind fun _ =>
          .pure fun known => WordsChecked.withBase _ known.2
      | exact .pure id
  · refine .ite (Builds.get.bind fun s => ?_) (.pure id)
    split
    · rename_i ty found
      exact .advance <| .pure fun known =>
        WordsChecked.withBase _ fun sound => (known.2.2 sound).typedef? found
    · exact .pure And.left
  · exact .pure id

omit h in
theorem WordsChecked.type? {words : SpecWords} (checked : WordsChecked κ words) {ty : CType}
    (found : words.type? = some ty) : κ.Checks ty := by
  unfold SpecWords.type? at found
  split at found
  · rename_i base _ _
    cases found
    exact checked _ base
  all_goals cases found <;> exact fun _ => trivial

theorem declSpec_builds : Builds κ P (declSpec below) fun spec => κ.Checks spec.ty := by
  refine here_builds.andThen fun start => ?_
  refine .bind (.weaken (fun _ => nofun) (loop_builds h (WordsChecked κ) (specWord_builds h)))
    fun words => ?_
  split
  · rename_i ty found
    exact .pure fun known => known.2.type? found
  · exact .fail

theorem typeName_builds : Builds κ P (typeName below) κ.Checks :=
  (declSpec_builds h).bind fun _ => .bind (.weaken And.right (pointers_builds h _)) fun ty =>
    .weaken And.right (typeSuffix_builds h ty)

/-! ## Expressions -/

theorem stringLiteral_builds : Builds κ P (stringLiteral below) fun _ => True := by
  refine here_builds.andThen fun start => .andThen (loop_silent h fun bytes => ?_) fun bytes => ?_
  · refine peek?_builds.andThen fun token => ?_
    split
    · exact .advance <| .pure fun _ => trivial
    · exact .pure fun _ => trivial
  · exact (spanFrom_builds start).andThen fun _ => .pure fun _ => trivial

theorem arguments_builds : Builds κ P (arguments below) fun args => ∀ e ∈ args, e.Fits κ := by
  refine .eat (.pure fun _ => forall_mem_nil _) ?_
  refine .weaken (fun _ => forall_mem_nil (Expr.Fits κ))
    (loop_builds h (fun args : List Expr => ∀ e ∈ args, e.Fits κ) fun args => ?_)
  refine h.assign.bind fun arg => .eat ?_ ?_
  · exact .pure fun known => forall_mem_cons.mpr ⟨known.2, known.1⟩
  · refine .expect <| .pure fun known e mem => ?_
    exact forall_mem_cons.mpr ⟨known.2, known.1⟩ e (mem_reverse.mp mem)

omit h in
theorem intern_builds (bytes : List UInt8) :
    Builds κ P (modifyGet (·.intern bytes)) fun _ => True := by
  refine .quiet (fun s => .single (.intern bytes)) fun s => ?_
  unfold ParseState.intern
  split
  · exact ⟨_, _, _, rfl, suffix_refl _, prefix_refl _, id⟩
  next missing =>
    have new : bytes ∉ s.strings := fun mem =>
      absurd (List.findIdx?_eq_none_iff.mp missing bytes mem) (by simp)
    refine ⟨_, _, _, rfl, suffix_refl _, prefix_append _ _, fun distinct => ?_⟩
    rw [← concat_eq_append]
    exact distinct.concat new

theorem primaryToken_builds (token : Lexed) :
    Builds κ (κ.sound → token ∈ κ.tokens) (primaryToken below token) (Expr.Fits κ) := by
  unfold primaryToken
  split
  · exact h.expr.bind fun _ => .expect <| .pure And.right
  · exact .pure fun _ => .numAt _ _
  · rename_i name named
    refine .eat ?_ (Builds.get.bind fun s => ?_)
    · exact (arguments_builds h).bind fun args => (spanFrom_builds _).andThen fun _ =>
        .pure fun known => .call _ _ known.2
    · split
      · exact .pure fun known => known.2.1.lookup? known.2.2
          (fun sound => ⟨token, known.1 sound, named⟩) (by assumption)
      · exact .fail
  · exact .fail

omit h in
theorem stringPart_eq_ok {bytes : List UInt8} {r : Round (List UInt8) (List UInt8)}
    (run : stringPart bytes s = .ok r t) :
    (∃ token rest text, s.tokens = token :: rest ∧ token.value.kind = .str text ∧
      r = .more (bytes ++ literalBytes text) ∧ t = { s with tokens := rest, last := token.loc }) ∨
    r = .done bytes ∧ t = s ∧ ∀ text, s.tokens.head?.map (·.value.kind) ≠ some (.str text) := by
  obtain ⟨front, _, peeked, run⟩ := bind_ran.mp run
  cases peeked
  cases tokens : s.tokens with
  | nil =>
    simp only [ParseState.peekAt?, tokens] at run
    cases run
    exact .inr ⟨rfl, rfl, nofun⟩
  | cons token rest =>
    simp only [ParseState.peekAt?, tokens, List.getElem?_cons_zero, Option.map_some] at run
    cases kind : token.value.kind with
    | str text =>
      rw [kind] at run
      obtain ⟨_, _, taken, run⟩ := bind_ran.mp run
      cases taken
      cases run
      refine .inl ⟨token, rest, text, rfl, kind, rfl, ?_⟩
      simp only [tokens]
    | _ =>
      rw [kind] at run
      cases run
      refine .inr ⟨rfl, rfl, fun text same => ?_⟩
      cases kind.symm.trans (Option.some.inj same)

omit h in
/-- Literals are read up to a token that is none, and their bytes put together. -/
theorem stringParts_eq_ok {stuck : SyntaxError} (rounds : Nat) {bytes bytes' : List UInt8}
    (ran : iterate stuck rounds stringPart bytes s = .ok bytes' t) :
    ∃ (literals : List Lexed) (texts : List String), s.tokens = literals ++ t.tokens ∧
      literals.map (·.value.kind) = texts.map .str ∧
      (∀ text, t.tokens.head?.map (·.value.kind) ≠ some (.str text)) ∧
      t.last = literals.getLast?.elim s.last (·.loc) ∧
      bytes' = bytes ++ texts.flatMap literalBytes := by
  induction rounds generalizing s bytes with
  | zero => cases ran
  | succ rounds ih =>
    obtain ⟨round, u, first, run⟩ := bind_ran.mp ran
    clear ran
    rcases stringPart_eq_ok first with ⟨token, rest, text, tokens, kind, rfl, rfl⟩ | ⟨rfl, rfl, other⟩
    · obtain ⟨literals, texts, same, kinds, stops, last, bytes⟩ := ih run
      refine ⟨token :: literals, text :: texts, ?_, ?_, stops, ?_, ?_⟩
      · rw [tokens, cons_append, ← same]
      · rw [map_cons, map_cons, kinds, kind]
      · rw [last, List.getLast?_cons]
        cases literals.getLast? <;> rfl
      · rw [bytes, flatMap_cons, append_assoc]
    · cases run
      exact ⟨[], [], rfl, rfl, other, rfl, (append_nil _).symm⟩

omit h in
theorem stringLiteral_eq_ok {text : String} {literal : Location × List UInt8}
    (front : s.peekAt? 0 = some (.str text)) (run : stringLiteral below s = .ok literal t) :
    Literals s.tokens literal.1 literal.2 := by
  obtain ⟨start, _, got, run⟩ := bind_ran.mp run
  cases got
  obtain ⟨bytes, u, ran, run⟩ := bind_ran.mp run
  cases run
  obtain ⟨literals, texts, same, kinds, stops, last, rfl⟩ := stringParts_eq_ok _ ran
  rw [ParseState.peekAt?, ← List.head?_eq_getElem?] at front
  cases literals with
  | nil =>
    rw [same] at front
    exact absurd front (stops text)
  | cons first rest =>
    refine ⟨[], first :: rest, t.tokens, texts, same, kinds, stops, ⟨first, rfl, ?_⟩, rfl⟩
    rw [List.getLast?_cons] at last ⊢
    refine ⟨_, rfl, ?_⟩
    rw [last, ParseState.here, same]
    rfl

omit h in
theorem intern_getElem? (s : ParseState) (bytes : List UInt8) :
    (s.intern bytes).2.strings[(s.intern bytes).1]? = some bytes := by
  unfold ParseState.intern
  split
  next index found =>
    obtain ⟨inside, same, -⟩ := List.findIdx?_eq_some_iff_getElem.mp found
    exact (List.getElem?_eq_getElem inside).trans (congrArg some (beq_iff_eq.mp same))
  next => exact List.getElem?_concat_length

/-- A primary expression fits, strings with their bytes among those of the program. -/
theorem primary_builds : Builds κ P (primary below) (Expr.Fits κ) := by
  have other : ∀ P, Builds κ P (next >>= primaryToken below) (Expr.Fits κ) := fun P =>
    next_builds.bind fun token => .weaken And.right (primaryToken_builds h token)
  refine .seen (fun token => ?_) fun token {s t e} front run inside known built => ?_
  · split
    · exact (stringLiteral_builds h).andThen fun _ => (intern_builds _).andThen fun _ =>
        .pure fun _ => trivial
    · exact (other P).mono fun _ _ => trivial
  rcases token with _ | kind
  · exact ((other P).built run inside known built).2
  cases kind with
  | str text =>
    obtain ⟨literal, u, read, run⟩ := bind_ran.mp run
    obtain ⟨_, _, interned, run⟩ := bind_ran.mp run
    cases interned
    cases run
    refine ⟨trivial, fun _ => trivial, fun sound => forall_mem_singleton.mpr ?_⟩
    refine ⟨literal.2, (stringLiteral_eq_ok front read).of_suffix (built sound).tokens, ?_⟩
    obtain ⟨below, same⟩ := List.getElem?_eq_some_iff.mp (intern_getElem? u literal.2)
    exact (prefix_iff_getElem?.mp inside.strings _ below).trans (congrArg some same)
  | _ => exact ((other P).built run inside known built).2

theorem postfixPart_builds (e : Expr) : Builds κ (e.Fits κ) (postfixPart below e)
    (Round.Holds (Expr.Fits κ) (Expr.Fits κ)) := by
  refine .eat ?_ (.eat ?_ (.eat ?_ (.eat ?_ (.eat ?_ (.pure id)))))
  · refine h.expr.bind fun index => .expect <| ?_
    exact (spanFrom_builds _).andThen fun loc =>
      .pure fun known => { (known.1.binary .add known.2).deref with }
  · exact identifier_builds.andThen fun name => (spanFrom_builds _).andThen fun loc =>
      .pure fun known => { known.member name.value with }
  · exact identifier_builds.andThen fun name => (spanFrom_builds _).andThen fun loc =>
      .pure fun known => { known.deref.member name.value with }
  · exact (spanFrom_builds _).andThen fun _ => .pure fun known => { known with }
  · exact (spanFrom_builds _).andThen fun _ => .pure fun known => { known with }

theorem postfixExpr_builds : Builds κ P (postfixExpr below) (Expr.Fits κ) :=
  (primary_builds h).bind fun _ =>
    .weaken And.right (loop_builds h (Expr.Fits κ) (postfixPart_builds h))

theorem prefixNode_builds (start : Location) {node : Note → Expr → Expr}
    (kept : ∀ note e, e.Fits κ → (node note e).Fits κ) :
    Builds κ P (prefixNode below start node) (Expr.Fits κ) :=
  h.cast.bind fun e => (spanFrom_builds start).andThen fun _ => .pure fun known => kept _ e known.2

theorem prefixUpdate_builds (op : BinOp) :
    Builds κ P (prefixUpdate below op) (Expr.Fits κ) :=
  h.unary.bind fun _ => .pure fun known => known.2.assign (known.2.binary op (.numAt _ _))

theorem sizeofExpr_builds (start : Location) :
    Builds κ P (sizeofExpr below start) (Expr.Fits κ) := by
  refine (isAt_builds _).andThen fun _ => .look fun s => .ite ?_ ?_
  · refine .advance <| (typeName_builds h).bind fun ty => ?_
    refine .expect <| .look fun s => .ite ?_ .fail
    exact (spanFrom_builds start).andThen fun _ =>
      .pure fun _ => .num (.inr (.inl rfl))
  · exact h.unary.bind fun e => (spanFrom_builds start).andThen fun _ =>
      .pure fun known => { known.2 with }

theorem alignofExpr_builds (start : Location) :
    Builds κ P (alignofExpr below start) (Expr.Fits κ) := by
  refine .expect <| (typeName_builds h).bind fun ty => ?_
  refine .expect <| (spanFrom_builds start).andThen fun _ => ?_
  exact .look fun s => .pure fun _ => .num (.inr (.inl rfl))

theorem unary_builds : Builds κ P (unary below) (Expr.Fits κ) := by
  refine here_builds.andThen fun start => peek?_builds.andThen fun token => ?_
  split
  · exact .advance <| sizeofExpr_builds h start
  · exact .advance <| alignofExpr_builds h start
  · exact .advance <| h.cast
  iterate 5
    exact .advance <| prefixNode_builds h start fun _ _ fits => { fits with }
  · exact .advance <| prefixUpdate_builds h _
  · exact .advance <| prefixUpdate_builds h _
  · exact postfixExpr_builds h

theorem cast_builds : Builds κ P (cast below) (Expr.Fits κ) := by
  refine (isAt_builds _).andThen fun _ => .look fun s => .ite ?_ (unary_builds h)
  refine here_builds.andThen fun start => .advance <| ?_
  refine (typeName_builds h).bind fun target => .expect <| ?_
  exact h.cast.bind fun _ => .pure fun known => { known.2 with }

omit h in
theorem operator?_builds (level : List Operator) :
    Builds κ P (operator? level) fun _ => True := by
  refine peek?_builds.andThen fun token => ?_
  split
  · split
    · exact .advance <| .pure fun _ => trivial
    · exact .pure fun _ => trivial
  · exact .pure fun _ => trivial

theorem binary_builds (levels : List (List Operator)) :
    ∀ {P : Prop}, Builds κ P (binary below levels) (Expr.Fits κ) := by
  induction levels with
  | nil => exact cast_builds h
  | cons level tighter ih =>
    intro P
    refine ih.bind fun first => .weaken And.right (loop_builds h (Expr.Fits κ) fun lhs => ?_)
    refine (operator?_builds level).andThen fun operator => ?_
    cases operator with
    | none => exact .pure id
    | some operator =>
      refine ih.bind fun rhs => .ite ?_ ?_
      · exact .pure fun known => known.2.binary _ known.1
      · exact .pure fun known => known.1.binary _ known.2

theorem conditional_builds : Builds κ P (conditional below) (Expr.Fits κ) := by
  refine (binary_builds h _).bind fun test => .eat ?_ (.pure And.right)
  refine h.expr.bind fun yes => .expect <| h.conditional.bind fun no => ?_
  exact .pure fun ⟨⟨⟨_, first⟩, second⟩, third⟩ => ⟨⟨first.raw, second.raw, third.raw⟩,
    fun sees => ⟨first.bound sees, second.bound sees, third.bound sees⟩,
    fun sound => forall_mem_append.mpr ⟨first.known sound, second.known_pair third sound⟩⟩

theorem assign_builds : Builds κ P (assign below) (Expr.Fits κ) := by
  refine (conditional_builds h).bind fun lhs => peek?_builds.andThen fun token => ?_
  split
  · split
    · exact .pure And.right
    · refine .advance <| h.assign.bind fun rhs => ?_
      split
      · exact .pure fun ⟨⟨_, left⟩, right⟩ => left.assign right
      · exact .pure fun ⟨⟨_, left⟩, right⟩ => left.assign (left.binary _ right)
  · exact .pure And.right

theorem expr_builds : Builds κ P (expr below) (Expr.Fits κ) := by
  refine (assign_builds h).bind fun first =>
    .weaken And.right (loop_builds h (Expr.Fits κ) fun e => ?_)
  refine .eat ?_ (.pure id)
  exact (assign_builds h).bind fun rhs => .pure fun known => known.1.comma known.2

omit h in
theorem upTo_builds (k : Nat) : (Below.upTo k).Builds := by
  induction k with
  | zero =>
    exact ⟨rfl, stop_builds rfl, stop_builds rfl, stop_builds rfl, stop_builds rfl, stop_builds rfl,
      stop_builds rfl⟩
  | succ k ih =>
    exact ⟨ih.plain, expr_builds ih, assign_builds ih, conditional_builds ih, cast_builds ih,
      unary_builds ih, declSpec_builds ih⟩

/-! ## Initializers -/

/-- The items so far, the last one first, fit and suit the type of the list. -/
structure ItemsFit (κ : Outlook) (ty : CType) (items : List Init) : Prop where
  fits : ∀ item ∈ items, item.Fits κ
  suits : Init.AllSuit κ.structs ty 0 items.reverse

omit h in
theorem ItemsFit.cons {ty : CType} {init : Init} (h : ItemsFit κ ty items)
    (larger : σ.Extends κ.structs) (fits : init.Fits κ)
    (suits : init.Suits κ.structs (Init.itemType σ ty items.length)) :
    ItemsFit κ ty (init :: items) := by
  refine ⟨forall_mem_cons.mpr ⟨fits, h.fits⟩, ?_⟩
  rw [reverse_cons]
  refine Init.allSuit_snoc h.suits ?_
  rw [length_reverse, Nat.zero_add]
  exact suits.of_itemType larger

omit h in
theorem ItemsFit.list {ty : CType} (h : ItemsFit κ ty items) (loc : Location) :
    (Init.list items.reverse loc).Fits κ ∧ (Init.list items.reverse loc).Suits κ.structs ty :=
  ⟨Init.list_fits_iff.mpr fun item mem => h.fits item (mem_reverse.mp mem), h.suits⟩

theorem initializerItems_builds {item : CType → Parse Init} (ty : CType)
    (each : ∀ {P : Prop} ty, Builds κ P (item ty) fun init => init.Fits κ ∧ init.Suits κ.structs ty) :
    Builds κ P (initializerItems below item ty) fun items =>
      ∀ loc, (Init.list items loc).Fits κ ∧ (Init.list items loc).Suits κ.structs ty := by
  refine .weaken (fun _ => (⟨forall_mem_nil _, trivial⟩ : ItemsFit κ ty []))
    (loop_builds h (ItemsFit κ ty) fun items => ?_)
  refine .eat (.pure ItemsFit.list) ?_
  refine Builds.get.bind fun s => (each _).bind fun init => ?_
  -- the item is read for the type it has now, and suits the one it has in the end
  have more : ((ItemsFit κ ty items ∧ s.Within κ ∧ (κ.sound → s.Built κ)) ∧ init.Fits κ ∧
      init.Suits κ.structs (Init.itemType s.structs ty items.length)) → ItemsFit κ ty (init :: items) :=
    fun known => known.1.1.cons known.1.2.1.structs known.2.1 known.2.2
  refine .eat (.pure more) ?_
  exact .expect <| .pure fun known => (more known).list

theorem initializer_builds (depth : Nat) : ∀ {P : Prop} ty, Builds κ P (initializer below depth ty)
    fun init => init.Fits κ ∧ init.Suits κ.structs ty := by
  induction depth with
  | zero => exact fun _ => stop_builds h.plain
  | succ depth ih =>
    intro P ty
    have value : Builds κ P (do return Init.expr (← assign below))
        fun init => init.Fits κ ∧ init.Suits κ.structs ty :=
      (assign_builds h).bind fun _ => .pure fun known => ⟨forall_mem_singleton.mpr known.2, trivial⟩
    refine .eat ?_ (peek?_builds.andThen fun token => ?_)
    · refine .look fun s => (initializerItems_builds h ty ih).bind fun items => ?_
      exact (spanFrom_builds _).andThen fun _ => .pure fun known => known.2 _
    · split
      · split
        · rename_i char
          exact (stringLiteral_builds h).andThen fun _ => .pure fun _ => ⟨forall_mem_nil _, char⟩
        · exact value
      · exact value

theorem initializer?_builds (ty : CType) : Builds κ P (initializer? below ty)
    fun init => ∀ i ∈ init, i.Fits κ ∧ i.Suits κ.structs ty := by
  refine .eat ((initializer_builds h _ ty).bind fun init => ?_)
    (.pure fun _ => nofun)
  refine .pure fun known i same => ?_
  cases same
  exact known.2

omit h in
theorem inferLength_checked {structs : Structs} {ty ty' : CType} {init : Option Init}
    (checked : σ.Checked ty) (larger : structs.Extends σ)
    (inferred : Init.inferLength structs ty init = .ok ty') : σ.Checked ty' := by
  have sized : ∀ {element : CType} {length : Nat} {loc : Location}, σ.Checked element →
      Init.inferLength.sized structs element length loc = .ok ty' → σ.Checked ty' := by
    intro element length loc checked made
    unfold Init.inferLength.sized at made
    dsimp only at made
    split at made
    · rename_i ty found
      cases made
      split at found
      · exact checked.array larger found
      · cases found
    · cases made
  unfold Init.inferLength at inferred
  split at inferred
  · exact sized checked.1 inferred
  · exact sized checked.1 inferred
  · cases inferred
    exact checked

/-! ## Declarations -/

theorem typedefNames_builds (base : CType) :
    Builds κ (κ.Checks base) (typedefNames below base) fun _ => True := by
  refine .eat (.pure fun _ => trivial) ?_
  refine loop_builds h (a := ()) (fun _ => κ.Checks base) fun _ => ?_
  refine (declarator_builds h base).bind fun (name, ty) => ?_
  refine .andThen (addName_builds (fun s => .single (.typedef _ _)) fun s known b sound => ?_) fun _ => ?_
  · exact b.addTypedef name.value (known.2 sound)
  · refine .eat (.pure And.left) ?_
    exact .expect <| .pure fun _ => trivial

omit h in
theorem declareLocal_builds (declares : κ.layer ≠ some .phrase) (inside : κ.locals ≠ none)
    (name : Located String) (ty : CType) :
    Builds κ (κ.Checks ty ∧ κ.Admits ty) (modifyGet (·.declareLocal name ty))
      fun index => ∀ {n}, κ.Sees n → index < n := by
  refine .modifyGet (fun s => .single (.declareLocal name ty)) (fun s ℓ mem => ?_) (fun s within => ?_)
    fun s within known built => ⟨fun sound => ?_, fun sees => ?_⟩
  · refine ⟨.refl _, ?_, rfl, rfl, rfl⟩
    rw [if_neg fun same : ℓ = .phrase => declares (same ▸ mem)]
    exact prefix_append _ _
  · refine { within with locals := fun n mem => ?_ }
    exact Nat.le_trans (prefix_append _ _).length_le (within.locals n mem)
  · exact (built sound).declareLocal name (known.1 sound) known.2 inside
  · have count := within.locals _ sees.2
    rw [ParseState.declareLocal, length_append] at count
    exact count

variable (place : κ.InBody)
include place

theorem localVariable_builds (base : CType) : Builds κ (κ.Checks base) (localVariable below base)
    fun s => ∀ s' ∈ s, s'.Fits κ := by
  refine (declarator_builds h base).bind fun (name, ty) => ?_
  refine (initializer?_builds h ty).bind fun init => Builds.get.bind fun s => ?_
  refine (ofExcept_builds (Init.inferLength_plain _ _ _)).bind fun ty' => .check fun whole => ?_
  have declares : κ.layer ≠ some .phrase := by
    rw [place.layer]
    decide
  refine .bind (.weaken ?_ (declareLocal_builds declares place.locals name ty')) fun number => ?_
  · rintro ⟨⟨⟨⟨_, checked⟩, _⟩, within, _⟩, inferred⟩
    refine ⟨fun sound => inferLength_checked (checked sound) within.structs inferred, ?_⟩
    rw [Outlook.Admits, place.layer]
    exact (within.structs.same whole).1
  · cases init with
    | none => exact .pure fun _ => nofun
    | some init =>
      refine (ofExcept_builds (Init.toExpr?_plain _ _ _ _)).bind fun chain => .pure ?_
      rintro ⟨⟨⟨⟨⟨_, known⟩, _⟩, _⟩, index⟩, made⟩ s mem
      cases chain with
      | none => cases mem
      | some e =>
        cases mem
        have target : (Expr.var ⟨.void, name.loc⟩ number).Fits κ :=
          ⟨trivial, index, fun _ => forall_mem_singleton.mpr trivial⟩
        exact .plain (Init.toExpr?_fits target (known init rfl).1 made) _

theorem declaration_builds :
    Builds κ P (declaration below) fun stmts => ∀ s ∈ stmts, s.Fits κ := by
  refine here_builds.andThen fun start => (declSpec_builds h).bind fun spec => .ite ?_ (.ite .fail ?_)
  · exact .andThen (.weaken And.right (typedefNames_builds h _)) fun _ => .pure fun _ => nofun
  · refine .eat (.pure fun _ => nofun) ?_
    refine .weaken (fun known => ⟨known.2, nofun⟩) (loop_builds h
      (fun stmts : List Stmt => κ.Checks spec.ty ∧ ∀ s ∈ stmts, s.Fits κ) fun stmts => ?_)
    refine .bind (.weaken And.left (localVariable_builds h place _)) fun s => ?_
    have more : (∀ s ∈ stmts, s.Fits κ) → (∀ s' ∈ s, s'.Fits κ) →
        ∀ s' ∈ stmts ++ s.toList, s'.Fits κ := fun before new =>
      forall_mem_append.mpr ⟨before, fun t mem => new t (Option.mem_toList.mp mem)⟩
    refine .eat ?_ ?_
    · exact .pure fun known => ⟨known.1.1, more known.1.2 known.2⟩
    · exact .expect <| .pure fun known => more known.1.2 known.2

/-! ## Statements -/

omit place in
theorem parenthesized_builds : Builds κ P (parenthesized below) (Expr.Fits κ) :=
  .expect <| (expr_builds h).bind fun _ =>
    .expect <| .pure And.right

omit place in
theorem exprBefore?_builds (mark : Punct) :
    Builds κ P (exprBefore? below mark) fun e => ∀ x ∈ e, x.Fits κ := by
  refine (isAt_builds mark).andThen fun _ => .ite (.pure fun _ => nofun) ?_
  refine (expr_builds h).bind fun e => .pure fun known x mem => ?_
  cases mem
  exact known.2

theorem forInit_builds : Builds κ P (forInit below) fun s => ∀ x ∈ s, x.Fits κ := by
  have one : ∀ {s : Stmt}, s.Fits κ → ∀ x ∈ some s, x.Fits κ := by
    rintro s fits x ⟨⟩
    exact fits
  refine here_builds.andThen fun start => .look fun s => .ite ?_ ?_
  · exact (declaration_builds h place).bind fun _ => .pure fun known => one (.block known.2 _)
  · refine .eat (.pure fun _ => nofun) ?_
    exact (expr_builds h).bind fun _ => .expect <|
      .pure fun known => one (.plain known.2 _)

omit place in
theorem plainStatement_builds :
    Builds κ P (plainStatement below) fun node => ∀ loc, (node loc).Fits κ := by
  refine .eat (.pure fun _ _ => ⟨nofun, fun _ => trivial⟩) ?_
  exact (expr_builds h).bind fun _ => .expect <|
    .pure fun known => .plain known.2

variable {nested : Parse Stmt} (inner : ∀ {P : Prop}, Builds κ P nested (Stmt.Fits κ))
include inner

theorem blockRest_builds (start : Location) :
    Builds κ P (blockRest below nested start) (Stmt.Fits κ) := by
  refine .bind (Q := fun stmts => ∀ s ∈ stmts, s.Fits κ) (.weaken (fun _ => nofun)
    (loop_builds h (fun stmts : List Stmt => ∀ s ∈ stmts, s.Fits κ) fun stmts => ?_)) fun stmts => ?_
  · refine .eat (.pure id) (.look fun s => .ite ?_ ?_)
    · exact (declaration_builds h place).bind fun rest => .pure forall_mem_append.mpr
    · exact inner.bind fun s => .pure fun known =>
        forall_mem_append.mpr ⟨known.1, forall_mem_singleton.mpr known.2⟩
  · exact (spanFrom_builds _).andThen fun _ => .pure fun known => .block known.2 _

theorem compound_builds : Builds κ P (compound below nested) (Stmt.Fits κ) :=
  .expect <| .look fun _ => inBlock_builds (blockRest_builds h place inner _)

theorem forRest_builds (start : Location) :
    Builds κ P (forRest below nested start) (Stmt.Fits κ) := by
  refine (forInit_builds h place).bind fun init => (exprBefore?_builds h _).bind fun test => ?_
  refine .expect <| (exprBefore?_builds h _).bind fun step => ?_
  refine .expect <| inner.bind fun body => ?_
  refine (spanFrom_builds _).andThen fun _ => .pure ?_
  rintro ⟨⟨⟨⟨_, first⟩, second⟩, third⟩, fourth⟩
  exact .forLoop first second third fourth _

theorem forStatement_builds : Builds κ P (forStatement below nested) (Stmt.Fits κ) := by
  refine here_builds.andThen fun start => .advance <| ?_
  exact .expect <| inBlock_builds (forRest_builds h place inner start)

omit place in
theorem keywordStatement?_builds {word : Keyword} {rest : Parse (Location → Stmt)}
    (found : keywordStatement? below nested word = some rest) :
    Builds κ P rest fun node => ∀ loc, (node loc).Fits κ := by
  unfold keywordStatement? at found
  split at found
  all_goals cases found
  · refine .eat (.pure fun _ => .ret nofun) ?_
    refine (expr_builds h).bind fun e => .expect <| .pure fun known => .ret ?_
    rintro _ ⟨⟩
    exact known.2
  · refine (parenthesized_builds h).bind fun test => inner.bind fun yes => ?_
    refine (eatKind_builds _).andThen fun _ => .ite (inner.bind fun no => ?_) ?_
    · refine .pure fun ⟨⟨⟨_, first⟩, second⟩, third⟩ => .branch first second ?_
      rintro _ ⟨⟩
      exact third
    · exact .pure fun ⟨⟨_, first⟩, second⟩ => .branch first second nofun
  · refine (parenthesized_builds h).bind fun test => inner.bind fun body => ?_
    exact .pure fun ⟨⟨_, first⟩, second⟩ => .whileLoop first second
  · refine inner.bind fun body => (expectKeyword_builds _).andThen fun _ => ?_
    refine (parenthesized_builds h).bind fun test => .expect <| ?_
    exact .pure fun ⟨⟨_, second⟩, first⟩ => .doLoop first second
  · refine (parenthesized_builds h).bind fun value => inner.bind fun body => ?_
    exact .pure fun ⟨⟨_, first⟩, second⟩ => .switch first second
  · refine (conditional_builds h).bind fun e => (ofExcept_builds (Constant.eval_plain e)).bind fun value => ?_
    exact .expect <| inner.bind fun body => .pure fun known => .case value known.2
  · exact .expect <| inner.bind fun body => .pure fun known => .default known.2
  · exact .expect <| .pure fun _ _ => ⟨nofun, fun _ => trivial⟩
  · exact .expect <| .pure fun _ _ => ⟨nofun, fun _ => trivial⟩

theorem statementOver_builds : Builds κ P (statementOver below nested) (Stmt.Fits κ) := by
  refine here_builds.andThen fun start => peek?_builds.andThen fun token => ?_
  have plain : Builds κ P (do
      let node ← plainStatement below
      return node (← spanFrom start)) (Stmt.Fits κ) :=
    (plainStatement_builds h).bind fun _ => (spanFrom_builds start).andThen fun _ =>
      .pure fun known => known.2 _
  split
  · exact compound_builds h place inner
  · exact forStatement_builds h place inner
  · split
    · rename_i found
      refine .advance <| (keywordStatement?_builds h inner found).bind fun node => ?_
      exact (spanFrom_builds start).andThen fun _ => .pure fun known => known.2 _
    · exact plain
  · exact plain

omit inner in
theorem statement_builds (depth : Nat) :
    ∀ {P : Prop}, Builds κ P (statement below depth) (Stmt.Fits κ) := by
  induction depth with
  | zero => exact stop_builds h.plain
  | succ depth ih => exact statementOver_builds h place ih

omit inner in
theorem functionBody_builds (name : Located String) :
    Builds κ P (functionBody below name) fun body => ∀ s ∈ body, s.Fits κ := by
  refine .eat (.pure fun _ => nofun) (.look fun s => .ite .fail ?_)
  refine (compound_builds h place (statement_builds h place _)).bind fun s => .pure fun known s' mem => ?_
  cases mem
  exact known.2

end Grammar

end MiniC
