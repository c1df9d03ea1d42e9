import MiniC.Compiler
import MiniC.Proofs.Typing.Rules

/-!
# Typing forms trees

Typing turns parsed trees into well-formed ones. For expressions this is a matter of each
node; for statements the walk over them is described by what it does to the labels: the
numbers of a statement are new, and its own case labels are added in order to those of the
`switch` around it, with values that are all different.
-/

namespace MiniC

open List

theorem exists_of_forall₂ {α β : Type} {R : α → β → Prop} {as : List α} {bs : List β} {b : β}
    (h : List.Forall₂ R as bs) (mem : b ∈ bs) : ∃ a ∈ as, R a b := by
  induction h with
  | nil => cases mem
  | cons first _ ih =>
    rcases mem_cons.mp mem with rfl | mem
    · exact ⟨_, mem_cons_self, first⟩
    · obtain ⟨a, listed, related⟩ := ih mem
      exact ⟨a, mem_cons_of_mem _ listed, related⟩

namespace Typing

variable {α : Type} {op : BinOp} {scaled : Bool} {l m r : Labels} {numbers : List Nat} {u : Unit}

/-! ## Expressions -/

variable {Γ : Context} {n : Nat} {loc : Location} {e e' lhs rhs : Expr}

theorem num_formed (note : Note) (value : Int64) : (num note value).Formed n := by
  unfold num
  split <;> trivial

theorem scale_formed (size : UInt32) (h : e.Formed n) : (scale size e).Formed n := by
  unfold scale
  split
  · exact h
  · exact ⟨h, trivial⟩

theorem shift_formed (left : lhs.Formed n) (right : rhs.Formed n)
    (h : shift Γ loc op scaled lhs rhs = .ok e) : e.Formed n := by
  simp only [shift, bind_eq_ok] at h
  obtain ⟨size, -, h⟩ := h
  split at h
  · cases h
    exact ⟨left, right⟩
  · split at h
    · cases h
      exact ⟨left, scale_formed size right⟩
    · cases h
      exact ⟨scale_formed size left, right⟩

theorem difference_formed (left : lhs.Formed n) (right : rhs.Formed n)
    (h : difference Γ loc scaled lhs rhs = .ok e) : e.Formed n := by
  simp only [difference, bind_eq_ok] at h
  obtain ⟨size, -, h⟩ := h
  split at h
  · cases h
    exact ⟨left, right⟩
  · cases h
    exact ⟨⟨left, right⟩, trivial⟩

theorem binary_formed (left : lhs.Formed n) (right : rhs.Formed n)
    (h : binary Γ loc op scaled lhs rhs = .ok e) : e.Formed n := by
  simp only [binary, bind_eq_ok] at h
  obtain ⟨-, -, -, -, h⟩ := h
  split at h
  · cases h
  · cases h
  · exact difference_formed left right h
  · exact shift_formed left right h
  · exact shift_formed left right h
  · exact shift_formed left right h
  · cases h
    exact ⟨left, right⟩

theorem update_formed {dir : Update} (inner : e.Formed n) (h : update Γ loc dir e = .ok e') :
    e'.Formed n := by
  simp only [update, bind_eq_ok, pure_eq_ok] at h
  obtain ⟨updated, hu, stored, hs, undone, hd, previous, hp, rfl⟩ := h
  obtain rfl := assign_eq_ok hs
  obtain rfl := cast_eq_ok hp
  have one := num_formed (n := n) ⟨.void, loc⟩ 1
  exact ⟨⟨inner, binary_formed inner one hu⟩, (binary_formed inner one hd :)⟩

mutual
theorem Makes.formed {e e' : Expr} : Makes Γ e e' → e.Scoped n → e'.Formed n
  | .num, _ => num_formed _ _
  | .str, _ | .global _, _ | .sizeof _ _, _ => trivial
  | .var, known => known
  | .binary left right rule, ⟨first, second⟩ =>
    binary_formed (left.formed first) (right.formed second) rule
  | .assign left right _, ⟨first, second⟩ | .comma left right, ⟨first, second⟩ =>
    ⟨left.formed first, right.formed second⟩
  | .cond test _ yes no _, ⟨first, second, third⟩ =>
    ⟨test.formed first, yes.formed second, no.formed third⟩
  | .unary inner _, known | .addr inner _, known | .deref inner _, known | .member inner _, known
  | .cast inner _, known => (inner.formed known :)
  | .call inner few _, known => ⟨few, inner.formed known⟩
  | .update inner rule, known => update_formed (inner.formed known) rule
theorem MakesAll.formed {es es' : List Expr} : MakesAll Γ es es' → Expr.AllScoped n es →
    Expr.AllFormed n es'
  | .nil, _ => trivial
  | .cons first _ rest, ⟨known, others⟩ => ⟨first.formed known, rest.formed others⟩
end

theorem expr_formed (known : e.Scoped n) (h : expr Γ e = .ok e') : e'.Formed n :=
  (expr_makes e h).formed known

theorem condition_formed (known : e.Scoped n) (h : condition Γ e = .ok e') : e'.Formed n := by
  simp only [condition, bind_eq_ok, pure_eq_ok] at h
  obtain ⟨e, he, -, -, rfl⟩ := h
  exact expr_formed known he

theorem returned_formed (known : e.Scoped n) (h : returned Γ e = .ok e') : e'.Formed n := by
  simp only [returned, bind_eq_ok] at h
  obtain ⟨e, he, h⟩ := h
  split at h
  · cases h
  · split at h
    · cases h
    · cases h
      exact expr_formed known he

theorem optional_formed {type : Expr → Result Expr}
    (forms : ∀ e e' : Expr, e.Scoped n → type e = .ok e' → e'.Formed n)
    {e e' : Option Expr} (known : Expr.OptionalScoped n e) (h : optional type e = .ok e') :
    Expr.OptionalFormed n e' := by
  cases e with
  | none =>
    cases h
    trivial
  | some e =>
    simp only [optional, bind_eq_ok, pure_eq_ok] at h
    obtain ⟨e, he, rfl⟩ := h
    exact forms _ _ known he

/-! ## Labels -/

/-- What the walk over a statement does to the labels, if `own` are the labels that it adds to
the `switch` around it and `numbers` are all the numbers in it. -/
structure Walked (before : Labels) (own : List CaseLabel) (numbers : List Nat) (after : Labels) :
    Prop where
  le : before.next ≤ after.next
  bounds : ∀ k ∈ numbers, before.next ≤ k ∧ k < after.next
  distinct : numbers.Nodup
  cases : after.cases = before.cases.map (· ++ own)
  stray : before.cases = none → own = []
  values : ∀ cases, before.cases = some cases → (cases.map (·.value)).Nodup →
    ((cases ++ own).map (·.value)).Nodup

theorem Walked.refl (l : Labels) : Walked l [] [] l where
  le := Nat.le_refl _
  bounds := nofun
  distinct := .nil
  cases := by simp
  stray _ := rfl
  values cases _ h := by rwa [append_nil]

theorem Walked.trans {first rest : List CaseLabel} {numbers' : List Nat}
    (h : Walked l first numbers m) (h' : Walked m rest numbers' r) :
    Walked l (first ++ rest) (numbers ++ numbers') r where
  le := h.le.trans h'.le
  bounds k mem := by
    have := h.le
    have := h'.le
    rcases mem_append.mp mem with mem | mem
    · have := h.bounds k mem
      omega
    · have := h'.bounds k mem
      omega
  distinct := by
    refine nodup_append.mpr ⟨h.distinct, h'.distinct, fun k mem k' mem' => ?_⟩
    have := h.bounds k mem
    have := h'.bounds k' mem'
    omega
  cases := by
    rw [h'.cases, h.cases, Option.map_map]
    congr 1
    funext cases
    exact append_assoc cases first rest
  stray none := by
    rw [h.stray none, h'.stray (by rw [h.cases, none]; rfl)]
    rfl
  values cases here nodup := by
    rw [← append_assoc]
    exact h'.values _ (by rw [h.cases, here]; rfl) (h.values cases here nodup)

theorem register_eq_ok {case : CaseLabel}
    (h : register loc case l = .ok (u, l')) : ∃ cases, l.cases = some cases ∧
      case.value ∉ cases.map (·.value) ∧ l' = { l with cases := some (cases ++ [case]) } := by
  simp only [register, walk_bind_eq_ok] at h
  obtain ⟨_, _, same, h⟩ := h
  cases same
  cases here : l.cases with
  | none =>
    rw [here] at h
    cases h
  | some cases =>
    simp only [here] at h
    by_cases old : cases.any (·.value == case.value)
    · rw [if_pos old] at h
      cases value : case.value with
      | none =>
        rw [value] at h
        cases h
      | some value' =>
        rw [value] at h
        cases h
    · rw [if_neg old] at h
      cases h
      refine ⟨cases, rfl, fun mem => old ?_, rfl⟩
      obtain ⟨other, mem, same⟩ := mem_map.mp mem
      exact any_eq_true.mpr ⟨other, mem, beq_iff_eq.mpr same⟩

theorem label_walked {value : Option Int64} {k : Nat} (numbered : number none l = .ok (k, m))
    (registered : register loc ⟨value, k⟩ m = .ok (u, r)) :
    Walked l [⟨value, k⟩] [k] r := by
  cases numbered
  obtain ⟨cases, found, new, rfl⟩ := register_eq_ok registered
  have here : l.cases = some cases := found
  refine ⟨Nat.le_succ _, ?_, nodup_singleton _, ?_, ?_, ?_⟩
  · intro k mem
    cases mem_singleton.mp mem
    exact ⟨Nat.le_refl _, Nat.lt_succ_self _⟩
  · rw [here]
    rfl
  · rw [here]
    exact nofun
  · intro cases' found' nodup
    cases here.symm.trans found'
    rw [map_append]
    refine nodup_append.mpr ⟨nodup, nodup_singleton _, fun a mem b mem' => ?_⟩
    cases mem_singleton.mp mem'
    rintro rfl
    exact new mem

theorem Walked.inSwitch {own : List CaseLabel} (h : Walked ⟨l.next, some []⟩ own numbers m) :
    m.cases.getD [] = own ∧ (own.map (·.value)).Nodup ∧
      Walked l [] numbers { m with cases := l.cases } := by
  refine ⟨?_, ?_, h.le, h.bounds, h.distinct, ?_, fun _ => rfl, ?_⟩
  · rw [h.cases]
    rfl
  · exact h.values [] rfl .nil
  · simp
  · intro cases _ nodup
    rwa [append_nil]

/-! ## Statements -/

mutual
/-- A typed statement is formed, and its labels have numbers of their own. -/
theorem Walks.formed {inside : Inside} {s s' : Stmt} {l l' : Labels} : Walks Γ inside s l s' l' →
    s.Scoped n → s'.Formed n inside ∧ Walked l s'.labels s'.numbers l'
  | .expr typed, known => ⟨expr_formed known typed, .refl _⟩
  | .ret typed, known => ⟨optional_formed (fun _ _ => returned_formed) known typed, .refl _⟩
  | .branch test yes no, ⟨first, second, third⟩ =>
    have ⟨yesFormed, yesWalked⟩ := yes.formed second
    have ⟨noFormed, noWalked⟩ := no.formed third
    ⟨⟨condition_formed first test, yesFormed, noFormed⟩, yesWalked.trans noWalked⟩
  | .whileLoop test body, ⟨first, second⟩ | .doLoop test body, ⟨first, second⟩ =>
    have ⟨formed, walked⟩ := body.formed second
    ⟨⟨condition_formed first test, formed⟩, walked⟩
  | .forLoop init test step body, ⟨first, second, third, fourth⟩ =>
    have ⟨initFormed, initWalked⟩ := init.formed first
    have ⟨bodyFormed, bodyWalked⟩ := body.formed fourth
    ⟨⟨initFormed, optional_formed (fun _ _ => condition_formed) second test,
      optional_formed (fun _ _ => expr_formed) third step, bodyFormed⟩, initWalked.trans bodyWalked⟩
  | .switch value body, ⟨first, second⟩ => by
    obtain ⟨formed, walked⟩ := body.formed second
    obtain ⟨own, values, outside⟩ := walked.inSwitch
    rw [own]
    exact ⟨⟨condition_formed first value, formed, rfl, values⟩, outside⟩
  | .case numbered listed body, ⟨unnumbered, known⟩
  | .default numbered listed body, ⟨unnumbered, known⟩ => by
    subst unnumbered
    obtain ⟨formed, walked⟩ := body.formed known
    exact ⟨⟨rfl, formed⟩, (label_walked numbered listed).trans walked⟩
  | .exit allowed, _ | .next allowed, _ => ⟨allowed, .refl _⟩
  | .block body, known => body.formed known
  | .null, _ => ⟨trivial, .refl _⟩
theorem WalksOptional.formed {inside : Inside} {s s' : Option Stmt} {l l' : Labels} :
    WalksOptional Γ inside s l s' l' → Stmt.OptionalScoped n s → Stmt.OptionalFormed n inside s' ∧
      Walked l (Stmt.optionalLabels s') (Stmt.optionalNumbers s') l'
  | .none, _ => ⟨trivial, .refl _⟩
  | .some body, known => body.formed known
theorem WalksAll.formed {inside : Inside} {ss ss' : List Stmt} {l l' : Labels} :
    WalksAll Γ inside ss l ss' l' → Stmt.AllScoped n ss →
      Stmt.AllFormed n inside ss' ∧ Walked l (Stmt.allLabels ss') (Stmt.allNumbers ss') l'
  | .nil, _ => ⟨trivial, .refl _⟩
  | .cons first rest, ⟨known, others⟩ =>
    have ⟨formed, walked⟩ := first.formed known
    have ⟨restFormed, restWalked⟩ := rest.formed others
    ⟨⟨formed, restFormed⟩, walked.trans restWalked⟩
end

/-! ## Programs -/

theorem place_settled {σ : Structs} (vars : List Var) : ∀ ⦃offset last : UInt32⦄ ⦃placed : List Var⦄,
    Frame.place σ offset vars = some (placed, last) →
      Frame.place σ offset placed = some (placed, last) ∧ placed.map (·.ty) = vars.map (·.ty) := by
  induction vars with
  | nil =>
    intro offset last placed h
    cases h
    exact ⟨rfl, rfl⟩
  | cons v rest ih =>
    intro offset last placed h
    rw [Frame.place] at h
    split at h
    next fits =>
      simp only [do_eq_some] at h
      obtain ⟨⟨rest', last'⟩, found, same⟩ := h
      cases same
      obtain ⟨again, types⟩ := ih found
      refine ⟨?_, by rw [map_cons, map_cons, types]⟩
      rw [Frame.place, if_pos fits]
      simp only [again]
      rfl
    next => cases h

variable {f f' : Function}

/-- Typing changes the frame and the body of a function. -/
theorem function_eq_ok : function Γ f = .ok f' ↔ ∃ locals last body,
    ¬ f.params.length > maxArguments ∧ ¬ passesStruct f ∧
    Frame.place Γ.structs 0 f.locals = some (locals, last) ∧
    Option.Rel (fun code code' => ∃ l, Walks { Γ with locals } {} code {} code' l) f.body body ∧
    f' = { f with locals, stackSize := alignTo last 16, body } := by
  rw [function]
  split
  next many => exact ⟨nofun, fun ⟨_, _, _, few, _⟩ => absurd many few⟩
  next few =>
    split
    next passed => exact ⟨nofun, fun ⟨_, _, _, _, plain, _⟩ => absurd passed plain⟩
    next plain =>
      rw [Frame.layout]
      cases Frame.place Γ.structs 0 f.locals with
      | none => exact ⟨nofun, nofun⟩
      | some laid =>
        obtain ⟨locals, last⟩ := laid
        obtain ⟨_, _, _, _, _ | code, _⟩ := f
        · constructor
          · rintro ⟨⟩
            exact ⟨locals, last, none, few, plain, rfl, .none, rfl⟩
          · rintro ⟨_, _, _, -, -, ⟨⟩, ⟨⟩, rfl⟩
            rfl
        · refine bind_eq_ok.trans ⟨?_, ?_⟩
          · rintro ⟨⟨code', l⟩, typed, ⟨⟩⟩
            exact ⟨locals, last, code', few, plain, rfl, .some ⟨l, stmt_walks code typed⟩, rfl⟩
          · rintro ⟨_, _, _, -, -, ⟨⟩, ⟨l, walks⟩, rfl⟩
            exact ⟨(_, l), walks.eq_ok, rfl⟩

theorem function_formed {code : Stmt} (known : f.Scoped) (h : function Γ f = .ok f')
    (defined : f'.body = some code) : f'.Formed code := by
  obtain ⟨locals, last, body, few, plain, placed, walked, rfl⟩ := function_eq_ok.mp h
  have types := (place_settled _ placed).2
  have length : locals.length = f.locals.length := by simpa using congrArg List.length types
  obtain ⟨params, bound⟩ := known
  rw [← length] at params bound
  cases defined
  generalize f.body = parsed at bound walked
  obtain ⟨l, walks⟩ := walked
  obtain ⟨formed, walked⟩ := walks.formed bound
  exact ⟨Nat.le_of_not_lt few, params, formed, walked.distinct, walked.stray rfl⟩

/-- The functions of a program are typed one by one: their contexts differ in the functions known. -/
theorem functions_typed (fs : List Function) : ∀ ⦃Γ : Context⦄ ⦃fs' : List Function⦄,
    functions Γ fs = .ok fs' →
      List.Forall₂ (fun f f' => ∃ known, function { Γ with functions := known } f = .ok f') fs fs' := by
  induction fs with
  | nil =>
    intro Γ fs' h
    cases h
    exact .nil
  | cons f rest ih =>
    intro Γ fs' h
    simp only [functions, bind_eq_ok, pure_eq_ok] at h
    obtain ⟨f', hf, rest', hr, rfl⟩ := h
    have later := ih hr
    exact .cons ⟨_, hf⟩ later

theorem program_eq {implicitDecls : Bool} {p q : Program} (h : program implicitDecls p = .ok q) :
    q = { p with functions := q.functions } ∧ List.Forall₂ (fun f f' => ∃ known, function
      ⟨p.structs, known, p.globals, p.strings, [], implicitDecls⟩ f = .ok f') p.functions q.functions := by
  simp only [program, bind_eq_ok, pure_eq_ok] at h
  obtain ⟨fs, hf, rfl⟩ := h
  exact ⟨rfl, functions_typed _ hf⟩

theorem program_formed {implicitDecls : Bool} {p q : Program} (known : ∀ f ∈ p.functions, f.Scoped)
    (h : program implicitDecls p = .ok q) :
    ∀ f ∈ q.functions, ∀ code, f.body = some code → f.Formed code := by
  intro f listed code defined
  obtain ⟨f₀, listed₀, _, typed⟩ := exists_of_forall₂ (program_eq h).2 listed
  exact function_formed (known f₀ listed₀) typed defined

end Typing

theorem analyze_eq_ok {implicitDecls : Bool} {p q : Program} :
    analyze implicitDecls p = .ok q ↔ Typing.program implicitDecls p = .ok q :=
  mapError_eq_ok

end MiniC
