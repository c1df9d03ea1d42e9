import MiniC.Proofs.Semantics.Assembly

/-!
# Stretches of a text

What a stretch of lines does when control comes to its first line. `Crosses` follows the machine
until it is at none of the lines; `cross` computes the same from the lines alone, because the
jumps of a stretch that sets no label lead out of it (`crosses_iff`).
-/

namespace MiniC.Asm

open List

/-- Control goes through the lines from `lo` up to `hi`, until it is at none of them. -/
inductive Crosses (m : Machine Config) (lo hi : Nat) : Config → Config → Prop where
  | out {c : Config} : (lo ≤ c.pc → hi ≤ c.pc) → Crosses m lo hi c c
  | next {c d e : Config} : lo ≤ c.pc → c.pc < hi → m.step c = some d → Crosses m lo hi d e →
    Crosses m lo hi c e

def Instruction.exit? (s : State) : Instruction → Option Label
  | .jmp label => some label
  | .jcc cond label => if s.flags.any fun (a, b) => cond.holds a b then some label else none
  | _ => none

/-- What lines do to a state, and the label that they jump to, if they do not run to their end.
There is no result if an instruction cannot be carried out. -/
def cross (host : Host) (scratch : State → Reg → Word) (s : State) :
    List Line → Option (Option Label × State)
  | [] => some (none, s)
  | .code i :: rest =>
    match operate host scratch s i with
    | .error _ => none
    | .ok t => if (i.exit? t).isSome then some (i.exit? t, t) else cross host scratch t rest
  | _ :: rest => cross host scratch s rest

variable {host : Host} {scratch : State → Reg → Word} {hidden : Word → Prop} {text code : List Line}
  {lo hi k : Nat} {s t : State} {c d : Config}

theorem crosses_out (m : Machine Config) (out : lo ≤ c.pc → hi ≤ c.pc) :
    Crosses m lo hi c d ↔ d = c := by
  constructor
  · intro h
    cases h with
    | out => rfl
    | next le lt => exact absurd (out le) (Nat.not_le.mpr lt)
  · rintro rfl
    exact .out out

theorem crosses_in {m : Machine Config} (le : lo ≤ c.pc) (lt : c.pc < hi) :
    Crosses m lo hi c d ↔ ∃ e, m.step c = some e ∧ Crosses m lo hi e d := by
  constructor
  · intro h
    cases h with
    | out out => exact absurd (out le) (Nat.not_le.mpr lt)
    | next _ _ first rest => exact ⟨_, first, rest⟩
  · rintro ⟨e, first, rest⟩
    exact .next le lt first rest

theorem cross_append {first rest : List Line} (ran : cross host scratch s first = some (none, t)) :
    cross host scratch s (first ++ rest) = cross host scratch t rest := by
  induction first generalizing s with
  | nil =>
    cases ran
    rfl
  | cons line first ih =>
    cases line with
    | label | directive => exact ih ran
    | code i =>
      rw [cons_append, cross]
      rw [cross] at ran
      cases done : operate host scratch s i with
      | error => simp [done] at ran
      | ok u =>
        simp only [done] at ran ⊢
        split at ran
        · next leaves =>
          rw [(Prod.mk.inj (Option.some.inj ran)).1] at leaves
          cases leaves
        · next stays =>
          rw [if_neg stays]
          exact ih ran

theorem cross_exit {exit? : Option Label} (straight : ∀ i, Line.code i ∈ code → i.targets = [])
    (ran : cross host scratch s code = some (exit?, t)) : exit? = none := by
  induction code generalizing s with
  | nil =>
    cases ran
    rfl
  | cons line rest ih =>
    have later := fun u => ih (s := u) fun i mem => straight i (mem_cons_of_mem _ mem)
    cases line with
    | label | directive => exact later s ran
    | code i =>
      have none : ∀ u, i.exit? u = none := by
        have targets := straight i mem_cons_self
        cases i with
        | jmp | jcc => cases targets
        | _ => exact fun _ => rfl
      rw [cross] at ran
      cases done : operate host scratch s i with
      | error => simp [done] at ran
      | ok u => exact later u (by simpa [done, none] using ran)

theorem target_eq {i : Instruction} (h : i ≠ .ret) :
    target text t k i = (i.exit? t).elim (some (k + 1)) (position text) := by
  cases i with
  | ret => exact absurd rfl h
  | jcc cond label =>
    simp only [target, Instruction.exit?]
    split <;> rfl
  | _ => rfl

theorem step_cases (stepped : (machine host scratch hidden text).step c = some d) :
    (∃ i, text[c.pc]? = some (.code i) ∧ operate host scratch c.state i = .ok d.state ∧
      target text d.state c.pc i = some d.pc) ∨
    ∃ line, text[c.pc]? = some line ∧ (∀ i, line ≠ .code i) ∧ d = ⟨c.pc + 1, c.state⟩ := by
  cases here : text[c.pc]? with
  | none => simp [machine, step, here] at stepped
  | some line =>
    cases line with
    | label | directive =>
      refine .inr ⟨_, rfl, fun i same => Line.noConfusion same, ?_⟩
      simpa [machine, step, here, eq_comm] using stepped
    | code i =>
      refine .inl ⟨i, rfl, ?_⟩
      cases done : operate host scratch c.state i with
      | error => simp [machine, step, here, done] at stepped
      | ok s =>
        cases leads : target text s c.pc i with
        | none => simp [machine, step, here, done, leads] at stepped
        | some j =>
          obtain rfl : ⟨j, s⟩ = d := by simpa [machine, step, here, done, leads] using stepped
          exact ⟨rfl, leads⟩

theorem sits_of_eq {pre : List Line} (split : text = pre ++ code) : Sits text pre.length code := by
  rw [split, Sits, drop_left]

theorem Sits.mem {line : Line} (h : Sits text lo code) (le : lo ≤ k) (lt : k < lo + code.length)
    (here : text[k]? = some line) : line ∈ code := by
  obtain ⟨more, same⟩ := h
  have inside : (text.drop lo)[k - lo]? = some line := by
    rw [List.getElem?_drop, Nat.add_sub_cancel' le, here]
  rw [← same, List.getElem?_append_left (by omega)] at inside
  exact mem_of_getElem? inside

/-- Control goes through lines as `cross` says. -/
theorem crosses_rest (outside : ∀ label j, position text label = some j → lo ≤ j → hi ≤ j)
    (sits : Sits text k code) (le : lo ≤ k) (size : k + code.length = hi)
    (stays : Line.code .ret ∉ code) :
    Crosses (machine host scratch hidden text) lo hi ⟨k, s⟩ d ↔
      ∃ exit?, cross host scratch s code = some (exit?, d.state) ∧
        exit?.elim (some hi) (position text) = some d.pc := by
  induction code generalizing k s with
  | nil =>
    rw [crosses_out _ fun _ => size.ge]
    constructor
    · rintro rfl
      exact ⟨none, rfl, congrArg some size.symm⟩
    · rintro ⟨exit?, same, there⟩
      cases same
      cases d
      cases there
      cases size
      rfl
  | cons line rest ih =>
    rw [length_cons] at size
    obtain ⟨here, sits⟩ := sits_cons.mp sits
    obtain ⟨notRet, stays⟩ := not_or.mp (mt mem_cons.mpr stays)
    have later := fun t => ih (s := t) sits (le.trans (Nat.le_succ k)) (by omega) stays
    rw [crosses_in le (show k < hi by omega)]
    cases line with
    | label | directive => simpa [machine, step, here, cross] using later s
    | code i =>
      have continues : i ≠ .ret := fun same => notRet (same ▸ rfl)
      cases done : operate host scratch s i with
      | error => simp [machine, step, here, cross, done]
      | ok t =>
        cases leads : i.exit? t with
        | none => simpa [machine, step, here, cross, done, target_eq continues, leads] using later t
        | some label =>
          cases found : position text label with
          | none => simp [machine, step, here, cross, done, target_eq continues, leads, found]
          | some j =>
            obtain ⟨pc, state⟩ := d
            have leaves : Crosses (machine host scratch hidden text) lo hi ⟨j, t⟩ ⟨pc, state⟩ ↔
                t = state ∧ j = pc := by
              rw [crosses_out _ (outside label j found), Config.mk.injEq, and_comm, eq_comm,
                eq_comm (a := pc)]
            rw [machine] at leaves
            simp [machine, step, here, cross, done, target_eq continues, leads, found, leaves]

theorem crosses_iff (sits : Sits text k code) (plain : ∀ label, Line.label label ∉ code)
    (stays : Line.code .ret ∉ code) :
    Crosses (machine host scratch hidden text) k (k + code.length) ⟨k, s⟩ d ↔
      ∃ exit?, cross host scratch s code = some (exit?, d.state) ∧
        exit?.elim (some (k + code.length)) (position text) = some d.pc := by
  refine crosses_rest (fun label j found le => ?_) sits (Nat.le_refl k) rfl stays
  by_contra lt
  exact plain label (sits.mem le (Nat.not_le.mp lt) (getElem?_of_position found))

end MiniC.Asm
