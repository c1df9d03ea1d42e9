import MiniC.Proofs.Semantics.Tree

/-!
# Machines that follow a tree

A `Machine` takes steps and shows a world in each of its configurations. It *follows* a
computation from a configuration if it gets to where the result of the computation says:
to a configuration that shows the same world, after a result; to one in which it stops
for the same reason, after a stop; and past any given number of steps, after a loop that
was cut off.

`Wired` says of a statement how a machine gets from one point of its code to the next,
construct by construct and without any rounds: where the test of a loop leads, and what
its body leads back to. `Wired.follows` is the one induction over rounds and entries: a
machine that is wired for a statement follows it from every entry. What remains for each
kind of code is to show that it is wired.
-/

namespace MiniC

open MiniC.Tree

/-- A machine: its steps, why it stops, and the world that it shows. -/
structure Machine (C : Type) where
  step : C → Option C
  stops : C → Stop → Prop
  shows : C → World → Prop

namespace Machine

variable {C α β : Type} (m : Machine C)

/-- So many steps lead from one configuration to another. -/
inductive Steps : Nat → C → C → Prop where
  | refl (c : C) : Steps 0 c c
  | next {n : Nat} {c d e : C} (first : m.step c = some d) (rest : Steps n d e) :
    Steps (n + 1) c e

/-- The machine gets from a configuration to where the result of a computation says: with
a result, after `least` steps at the least; and past `cut` steps, if a loop was cut off. -/
def Follows (least cut : Nat) (c : C) (result : EStateM.Result Stop World α) (Q : α → C → Prop) :
    Prop :=
  match result with
  | .ok a w => ∃ n d, least ≤ n ∧ m.Steps n c d ∧ m.shows d w ∧ Q a d
  | .error .rounds w => ∃ n d, cut ≤ n ∧ m.Steps n c d ∧ m.shows d w
  | .error .untyped _ => False
  | .error stop w => ∃ n d, m.Steps n c d ∧ m.shows d w ∧ m.stops d stop

def Ends (d : C) (result : EStateM.Result Stop World α) (Q : α → C → Prop) : Prop :=
  match result with
  | .ok a w => m.shows d w ∧ Q a d
  | .error stop w => m.shows d w ∧ m.stops d stop

def Leads (p q : C → Prop) : Prop :=
  ∀ c w, m.shows c w → p c → ∃ n d, m.Steps n c d ∧ m.shows d w ∧ q d

def Computes (least : Nat) (p : C → Prop) (x : Eval α) (q : α → C → Prop) : Prop :=
  ∀ c w cut, m.shows c w → p c → m.Follows least cut c (x w) q

variable {m}

variable {c d e : C} {i j k : Nat} {r : EStateM.Result Stop World α} {Q Q' : α → C → Prop}
  {w : World} {x : Eval α} {f : α → Eval β} {p p' q : C → Prop}

theorem Steps.one (h : m.step c = some d) : m.Steps 1 c d := .next h (.refl d)

theorem Steps.trans (first : m.Steps i c d) (rest : m.Steps j d e) :
    m.Steps (i + j) c e := by
  induction first with
  | refl c => rwa [Nat.zero_add]
  | next h _ ih => rw [Nat.succ_add_eq_add_succ]; exact .next h (ih rest)

theorem Steps.continues (first : m.Steps i c d) (other : m.Steps j c e)
    (le : i ≤ j) : m.Steps (j - i) d e := by
  induction first generalizing j with
  | refl c => exact other
  | @next n c d e' h _ ih =>
    cases other with
    | refl => cases le
    | next h' rest' =>
      rw [h] at h'
      cases h'
      rw [Nat.add_sub_add_right]
      exact ih rest' (Nat.le_of_succ_le_succ le)

theorem Steps.length_le (run : m.Steps i c d) (halted : m.step d = none)
    (other : m.Steps j c e) : j ≤ i := by
  by_contra longer
  have rest := run.continues other (by omega)
  obtain ⟨n, hn⟩ : ∃ n, j - i = n + 1 := ⟨j - i - 1, by omega⟩
  rw [hn] at rest
  cases rest with
  | next first _ => rw [halted] at first; cases first

theorem Steps.unique (run : m.Steps i c d) (halted : m.step d = none) (other : m.Steps j c e)
    (halted' : m.step e = none) : d = e := by
  have le := other.length_le halted' run
  have rest := run.continues other le
  rw [Nat.sub_eq_zero_of_le (run.length_le halted other)] at rest
  cases rest
  rfl

theorem Steps.take (run : m.Steps i c d) : ∀ j ≤ i, ∃ e, m.Steps j c e := by
  induction run with
  | refl c =>
    intro j le
    cases Nat.le_zero.mp le
    exact ⟨c, .refl c⟩
  | @next n c d e first rest ih =>
    intro j le
    cases j with
    | zero => exact ⟨c, .refl c⟩
    | succ j =>
      obtain ⟨e, run⟩ := ih j (Nat.le_of_succ_le_succ le)
      exact ⟨e, .next first run⟩

/-! ## Following -/

theorem Follows.mono {j' k' : Nat} (h : m.Follows j k c r Q) (least : j' ≤ j) (cut : k' ≤ k)
    (weaker : ∀ a d, Q a d → Q' a d) : m.Follows j' k' c r Q' := by
  match r, h with
  | .ok a w, ⟨n, d, hn, steps, shown, hd⟩ =>
    exact ⟨n, d, least.trans hn, steps, shown, weaker a d hd⟩
  | .error .rounds w, ⟨n, d, hn, rest⟩ => exact ⟨n, d, cut.trans hn, rest⟩
  | .error .division w, h => exact h
  | .error .access w, h => exact h

theorem Follows.after (first : m.Steps i c d)
    (h : m.Follows j k d r Q) : m.Follows (i + j) (i + k) c r Q := by
  match r, h with
  | .ok a w, ⟨n, e, hn, steps, rest⟩ => exact ⟨i + n, e, by omega, first.trans steps, rest⟩
  | .error .rounds w, ⟨n, e, hn, steps, rest⟩ => exact ⟨i + n, e, by omega, first.trans steps, rest⟩
  | .error .division w, ⟨n, e, steps, rest⟩ => exact ⟨i + n, e, first.trans steps, rest⟩
  | .error .access w, ⟨n, e, steps, rest⟩ => exact ⟨i + n, e, first.trans steps, rest⟩

theorem Follows.afterSome (first : m.Steps i c d) (h : m.Follows 0 k d r Q) :
    m.Follows 0 k c r Q :=
  (h.after first).mono (Nat.zero_le _) (Nat.le_add_left _ _) fun _ _ h => h

theorem Follows.bindCounted {k₁ k₂ l : Nat} {Q' : β → C → Prop} (first : m.Follows i k₁ c (x w) Q)
    (rest : ∀ a d w', m.shows d w' → Q a d → m.Follows j k₂ d (f a w') Q') (least : l ≤ i + j)
    (cutFirst : k ≤ k₁) (cutRest : k ≤ i + k₂) :
    m.Follows l k c ((x >>= f) w) Q' := by
  change m.Follows l k c (EStateM.bind x f w) Q'
  unfold EStateM.bind
  match h : x w, first with
  | .ok a w', ⟨n, d, hn, steps, shown, hd⟩ =>
    exact ((rest a d w' shown hd).after steps).mono (by omega) (by omega) fun _ _ h => h
  | .error .rounds w', ⟨n, d, hn, found⟩ => exact ⟨n, d, cutFirst.trans hn, found⟩
  | .error .division w', found => exact found
  | .error .access w', found => exact found

theorem Follows.bind {Q' : β → C → Prop} (first : m.Follows 0 k c (x w) Q)
    (rest : ∀ a d w', m.shows d w' → Q a d → m.Follows 0 k d (f a w') Q') :
    m.Follows 0 k c ((x >>= f) w) Q' :=
  first.bindCounted rest (Nat.zero_le _) (Nat.le_refl k) (Nat.le_add_left _ _)

theorem Follows.pure {a : α} (shown : m.shows c w)
    (h : Q a c) : m.Follows 0 k c ((Pure.pure a : Eval α) w) Q :=
  ⟨0, c, Nat.le_refl 0, .refl c, shown, h⟩

theorem Follows.leads (h : m.Follows j k c r Q)
    (leads : ∀ a, m.Leads (Q a) (Q' a)) : m.Follows j k c r Q' := by
  match r, h with
  | .ok a w, ⟨n, d, hn, steps, shown, hd⟩ =>
    obtain ⟨n', d', steps', shown', hd'⟩ := leads a d w shown hd
    exact ⟨n + n', d', by omega, steps.trans steps', shown', hd'⟩
  | .error .rounds w, h => exact h
  | .error .division w, h => exact h
  | .error .access w, h => exact h

theorem Computes.mono {q q' : α → C → Prop} (h : m.Computes i p x q) (least : j ≤ i)
    (stronger : ∀ c, p' c → p c) (weaker : ∀ a c, q a c → q' a c) : m.Computes j p' x q' :=
  fun c w cut shown hp => (h c w cut shown (stronger c hp)).mono least (Nat.le_refl cut) weaker

theorem Leads.refl (p : C → Prop) : m.Leads p p := fun c _ shown h => ⟨0, c, .refl c, shown, h⟩

theorem Leads.of_imp (h : ∀ c, p c → q c) : m.Leads p q :=
  fun c _ shown hp => ⟨0, c, .refl c, shown, h c hp⟩

theorem Leads.comp (h : m.Leads p q) (stronger : ∀ c, p' c → p c) :
    m.Leads p' q := fun c w shown hp => h c w shown (stronger c hp)

theorem Follows.halts (h : m.Follows 0 k c r Q) (run : m.Steps i c d) (halted : m.step d = none)
    (more : i < k) (results : ∀ a e, Q a e → m.step e = none)
    (stops : ∀ stop e, m.stops e stop → m.step e = none) : m.Ends d r Q := by
  match r, h with
  | .ok a w, ⟨n, e, _, steps, shown, he⟩ =>
    cases run.unique halted steps (results a e he)
    exact ⟨shown, he⟩
  | .error .rounds w, ⟨n, e, hn, steps, shown⟩ =>
    have := run.length_le halted steps
    omega
  | .error .division w, ⟨n, e, steps, shown, he⟩ =>
    cases run.unique halted steps (stops _ e he)
    exact ⟨shown, he⟩
  | .error .access w, ⟨n, e, steps, shown, he⟩ =>
    cases run.unique halted steps (stops _ e he)
    exact ⟨shown, he⟩

/-- From a configuration on a machine carries out a computation, which has any number of
rounds: it gets to a result exactly if some number of rounds is enough for it, and stops
exactly if the computation does; if the rounds are never enough it runs for ever, and at
least so many steps as there were rounds, up to a configuration that shows the same world. -/
structure Implements (m : Machine C) (c : C) (w : World) (run : Nat → Eval α) (Q : α → C → Prop) :
    Prop where
  returns : ∀ a w', (∃ n, run n w = .ok a w') ↔ ∃ k d, m.Steps k c d ∧ m.shows d w' ∧ Q a d
  stops : ∀ stop w', stop = .division ∨ stop = .access →
    ((∃ n, run n w = .error stop w') ↔ ∃ k d, m.Steps k c d ∧ m.shows d w' ∧ m.stops d stop)
  loops : ∀ n w', run n w = .error .rounds w' → ∃ k d, n ≤ k ∧ m.Steps k c d ∧ m.shows d w'
  diverges : (∀ n, ∃ w', run n w = .error .rounds w') ↔ ∀ k, ∃ d, m.Steps k c d
  typed : ∀ n w', run n w ≠ .error .untyped w'

/-- A machine halts for one reason and with one answer, and shows one world. -/
structure Decides (m : Machine C) (Q : α → C → Prop) : Prop where
  halted : ∀ a d, Q a d → m.step d = none
  stopped : ∀ stop d, m.stops d stop → m.step d = none
  answer : ∀ a b d, Q a d → Q b d → a = b
  reason : ∀ r s d, m.stops d r → m.stops d s → r = s
  either : ∀ a s d, Q a d → ¬ m.stops d s
  world : ∀ d w w', m.shows d w → m.shows d w' → w = w'

theorem Decides.follows_halted (decides : m.Decides Q) (h : m.Follows 0 (k + 1) c r Q)
    (steps : m.Steps k c d) (halted : m.step d = none) : m.Ends d r Q :=
  h.halts steps halted (Nat.lt_succ_self k) decides.halted decides.stopped

/-- A machine that follows a computation for any number of rounds implements it. -/
theorem Decides.implements (decides : m.Decides Q) {run : Nat → Eval α}
    (h : ∀ n, m.Follows 0 n c (run n w) Q) : m.Implements c w run Q where
  returns a w' := by
    constructor
    · rintro ⟨n, result⟩
      have := h n
      rw [result] at this
      obtain ⟨k, d, -, reached⟩ := this
      exact ⟨k, d, reached⟩
    · rintro ⟨k, d, steps, shown, answer⟩
      have ended := decides.follows_halted (h (k + 1)) steps (decides.halted a d answer)
      refine ⟨k + 1, ?_⟩
      match result : run (k + 1) w, ended with
      | .ok b w'', ⟨shown', answer'⟩ =>
        rw [decides.answer a b d answer answer', decides.world d w' w'' shown shown']
      | .error stop w'', ⟨_, stopped⟩ => exact absurd stopped (decides.either a stop d answer)
  stops stop w' known := by
    constructor
    · rintro ⟨n, result⟩
      have := h n
      rw [result] at this
      rcases known with rfl | rfl
      · exact this
      · exact this
    · rintro ⟨k, d, steps, shown, stopped⟩
      have ended := decides.follows_halted (h (k + 1)) steps (decides.stopped stop d stopped)
      refine ⟨k + 1, ?_⟩
      match result : run (k + 1) w, ended with
      | .ok b w'', ⟨_, answer⟩ => exact absurd stopped (decides.either b stop d answer)
      | .error stop' w'', ⟨shown', stopped'⟩ =>
        rw [decides.reason stop stop' d stopped stopped', decides.world d w' w'' shown shown']
  loops n w' cut := by
    have := h n
    rw [cut] at this
    exact this
  diverges := by
    constructor
    · intro cut k
      obtain ⟨w', result⟩ := cut k
      have := h k
      rw [result] at this
      obtain ⟨n, d, le, steps, -⟩ := this
      exact steps.take k le
    · intro forever n
      have goesOn : ∀ k d, m.Steps k c d → m.step d ≠ none := by
        intro k d steps halted
        obtain ⟨e, longer⟩ := forever (k + 1)
        exact absurd (steps.length_le halted longer) (Nat.not_succ_le_self k)
      match result : run n w, h n with
      | .ok a w', ⟨k, d, _, steps, _, answer⟩ =>
        exact absurd (decides.halted a d answer) (goesOn k d steps)
      | .error .rounds w', _ => exact ⟨w', rfl⟩
      | .error .division w', ⟨k, d, steps, _, stopped⟩ =>
        exact absurd (decides.stopped _ d stopped) (goesOn k d steps)
      | .error .access w', ⟨k, d, steps, _, stopped⟩ =>
        exact absurd (decides.stopped _ d stopped) (goesOn k d steps)
  typed n w' untyped := by
    have := h n
    rw [untyped] at this
    exact this

end Machine

/-! ## Wires -/

/-- The points where a statement ends: at its end, where `break` and `continue` lead, and
where a value is returned. -/
structure Exits (C : Type) where
  done : C → Prop
  exit : C → Prop
  next : C → Prop
  ret : Option Word → C → Prop

namespace Exits

def point {C : Type} (x : Exits C) : Flow → C → Prop
  | .done => x.done
  | .broke => x.exit
  | .continued => x.next
  | .returned v => x.ret v

end Exits

section

variable {C : Type} (m : Machine C) (ctx : Context)

/-- Where the body of a loop leads: `again` at its end and by `continue`, and `x.done` by
`break`. -/
structure Exits.Loop (x y : Exits C) (again : C → Prop) : Prop where
  done : m.Leads y.done again
  next : m.Leads y.next again
  exit : m.Leads y.exit x.done
  ret : y.ret = x.ret

mutual
/-- A machine gets from point to point in the code of a statement. `labels` are the points
where case labels are entered, and `p` is the start of the statement. -/
def Wired (labels : Option Int64 → C → Prop) (p : C → Prop) (x : Exits C) : Stmt → Prop
  | .expr _ e => m.Computes 0 p (expr ctx .value e) fun _ => x.done
  | .ret _ none => m.Leads p (x.ret none)
  | .ret _ (some e) => m.Computes 0 p (expr ctx .value e) fun v => x.ret (some v)
  | .branch _ test yes no => ∃ a b i j : C → Prop,
    m.Computes 0 p (holds ctx (some test)) (fun t => if t then a else b) ∧
    Wired labels a { x with done := i } yes ∧ m.Leads i x.done ∧
    WiredOptional labels b { x with done := j } no ∧ m.Leads j x.done
  | .whileLoop _ test body => ∃ (head a : C → Prop) (y : Exits C), m.Leads p head ∧
    m.Computes 1 head (holds ctx (some test)) (fun t => if t then a else x.done) ∧
    Wired labels a y body ∧ x.Loop m y head
  | .doLoop _ body test => ∃ (a again : C → Prop) (y : Exits C), m.Leads p a ∧
    Wired labels a y body ∧ x.Loop m y again ∧
    m.Computes 1 again (holds ctx (some test)) (fun t => if t then a else x.done)
  | .forLoop _ init test step body => ∃ (j head a again : C → Prop) (y : Exits C),
    WiredOptional labels p { x with done := j } init ∧ m.Leads j head ∧
    m.Computes 0 head (holds ctx test) (fun t => if t then a else x.done) ∧
    Wired labels a y body ∧ x.Loop m y again ∧
    m.Computes 1 again (andThen ctx step) (fun t => if t then head else x.done)
  | .switch _ e body _ => ∃ (inner : Option Int64 → C → Prop) (a none : C → Prop) (y : Exits C),
    m.Computes 0 p (expr ctx .value e) (fun v => (select body.labels v).elim none inner) ∧
    m.Leads none x.done ∧ Wired inner a y body ∧ m.Leads y.done x.done ∧ m.Leads y.exit x.done ∧
    y.next = x.next ∧ y.ret = x.ret
  | .case _ value label body => ∃ a : C → Prop, m.Leads p a ∧
    (label.isSome → m.Leads (labels (some value)) a) ∧ Wired labels a x body
  | .default _ label body => ∃ a : C → Prop, m.Leads p a ∧
    (label.isSome → m.Leads (labels none) a) ∧ Wired labels a x body
  | .exit _ => m.Leads p x.exit
  | .next _ => m.Leads p x.next
  | .block _ body => WiredAll labels p x body
  | .null _ => m.Leads p x.done
def WiredOptional (labels : Option Int64 → C → Prop) (p : C → Prop) (x : Exits C) :
    Option Stmt → Prop
  | none => m.Leads p x.done
  | some s => Wired labels p x s
def WiredAll (labels : Option Int64 → C → Prop) (p : C → Prop) (x : Exits C) : List Stmt → Prop
  | [] => m.Leads p x.done
  | s :: rest => ∃ j : C → Prop, Wired labels p { x with done := j } s ∧ WiredAll labels j x rest
end

variable {m ctx} {labels : Option Int64 → C → Prop} {p : C → Prop} {x : Exits C}

/-! ## Following a statement -/

def Entries (labels : Option Int64 → C → Prop) (p : C → Prop) : EntryPoint → C → Prop
  | .start => p
  | .label value => labels value

variable (m) in
/-- A machine follows a statement from each of its entries, whatever the number of rounds. -/
def FollowsFrom (labels : Option Int64 → C → Prop) (p : C → Prop) (x : Exits C)
    (own : List CaseLabel) (run : Nat → EntryPoint → Eval Flow) : Prop :=
  ∀ n entry c w, m.shows c w → entry.isIn own → Entries labels p entry c →
    m.Follows 0 n c (run n entry w) x.point

theorem isIn_append {entry : EntryPoint} {first rest : List CaseLabel} (h : entry.isIn (first ++ rest))
    (other : ¬ entry.isIn first) : entry.isIn rest := by
  cases entry with
  | start => rfl
  | label value =>
    simp only [EntryPoint.isIn, List.any_append, Bool.or_eq_true] at h
    exact h.resolve_left other

variable {y : Exits C} {again head a j : C → Prop} {more : Eval Flow} {flow : Flow} {c : C}
  {w : World} {before : Eval Bool} {i n : Nat} {own : List CaseLabel}
  {run : Nat → EntryPoint → Eval Flow} {loc : Location} {body : Stmt}

theorem resume_follows {after : Eval Bool} {j k : Nat} (wires : x.Loop m y again)
    (next : m.Computes j again after (fun t => if t then head else x.done))
    (rest : ∀ c w, m.shows c w → head c → m.Follows 0 k c (more w) x.point) (shown : m.shows c w)
    (ended : y.point flow c) :
    m.Follows 0 (j + k) c (resume after more flow w) x.point := by
  have goesOn : ∀ {c w}, m.shows c w → again c → m.Follows 0 (j + k) c
      ((do if ← after then more else return .done : Eval Flow) w) x.point := by
    intro c w shown reached
    refine (next c w (j + k) shown reached).bindCounted (j := 0) ?_ (Nat.zero_le _)
      (Nat.le_refl _) (Nat.le_refl _)
    intro t d w' shown ht
    cases t with
    | true => exact rest d w' shown ht
    | false => exact .pure shown ht
  cases flow with
  | done =>
    obtain ⟨i, d, steps, shown, reached⟩ := wires.done c w shown ended
    exact (goesOn shown reached).afterSome steps
  | continued =>
    obtain ⟨i, d, steps, shown, reached⟩ := wires.next c w shown ended
    exact (goesOn shown reached).afterSome steps
  | broke =>
    obtain ⟨i, d, steps, shown, reached⟩ := wires.exit c w shown ended
    exact .afterSome steps (.pure shown reached)
  | returned v =>
    have : x.ret v c := by rw [← wires.ret]; exact ended
    exact .pure shown this

/-- The rounds of a loop are followed, by induction on their number. -/
theorem rounds_follow {after : Eval Bool} {body : EntryPoint → Eval Flow} {j : Nat}
    (takes : 1 ≤ i + j) (test : m.Computes i head before (fun t => if t then a else x.done))
    (round : ∀ c w, m.shows c w → a c → m.Follows 0 n c (body .start w) y.point)
    (wires : x.Loop m y again)
    (next : m.Computes j again after (fun t => if t then head else x.done)) :
    ∀ k, k ≤ n → ∀ c w, m.shows c w → head c →
      m.Follows 0 k c (rounds before after body k w) x.point := by
  intro k
  induction k with
  | zero => exact fun _ c w shown _ => ⟨0, c, Nat.le_refl 0, .refl c, shown⟩
  | succ k ih =>
    intro le c w shown reached
    have more := ih (Nat.le_of_succ_le le)
    -- the body is cut off after `n` steps at the earliest, what follows after `j + k`
    have enough : k + 1 ≤ i + min n (j + k) := by omega
    refine (test c w (k + 1) shown reached).bindCounted (j := 0) ?_ (Nat.zero_le _)
      (Nat.le_refl _) enough
    intro t d w' shown ht
    cases t with
    | false => exact .pure shown ht
    | true =>
      refine (round d w' shown ht).bindCounted (j := 0) ?_ (Nat.zero_le _) (Nat.min_le_left _ _)
        (Nat.le_trans (Nat.min_le_right _ _) (Nat.le_add_left _ _))
      exact fun flow e w' shown ended => resume_follows wires next more shown ended

theorem loop_follows {after : Eval Bool} {body : Nat → EntryPoint → Eval Flow} {j : Nat}
    (takes : 1 ≤ i + j) (test : m.Computes i head before (fun t => if t then a else x.done))
    (round : FollowsFrom m labels a y own body) (wires : x.Loop m y again)
    (next : m.Computes j again after (fun t => if t then head else x.done)) :
    FollowsFrom m labels head x own fun n => loop before after (body n) n := by
  intro n entry c w shown isIn entered
  have rest := rounds_follow (n := n) takes test
    (fun c w shown reached => round n .start c w shown rfl reached) wires next n (Nat.le_refl n)
  cases entry with
  | start => exact rest c w shown entered
  | label value =>
    refine (round n (.label value) c w shown isIn entered).bind ?_
    intro flow d w' shown ended
    exact (resume_follows wires next rest shown ended).mono (Nat.le_refl _)
      (Nat.le_add_left _ _) fun _ _ h => h

theorem FollowsFrom.leads {q : C → Prop} (h : FollowsFrom m labels q x own run)
    (first : m.Leads p q) :
    FollowsFrom m labels p x own run := by
  intro n entry c w shown isIn entered
  cases entry with
  | start =>
    obtain ⟨i, d, steps, shown, reached⟩ := first c w shown entered
    exact (h n .start d w shown isIn reached).afterSome steps
  | label value => exact h n (.label value) c w shown isIn entered

theorem andThen_follows {r : Eval Flow} (first : m.Follows 0 n c (r w) { x with done := j }.point)
    (rest : ∀ d w, m.shows d w → j d → m.Follows 0 n d (more w) x.point) :
    m.Follows 0 n c ((do match ← r with | .done => more | flow => return flow : Eval Flow) w)
      x.point := by
  refine first.bind ?_
  intro flow d w' shown ended
  cases flow with
  | done => exact rest d w' shown ended
  | broke => exact .pure shown ended
  | continued => exact .pure shown ended
  | returned v => exact .pure shown ended

theorem FollowsFrom.ends (h : FollowsFrom m labels p { x with done := j } own run)
    (join : m.Leads j x.done) :
    FollowsFrom m labels p x own run := by
  intro n entry c w shown isIn entered
  refine (h n entry c w shown isIn entered).leads fun flow => ?_
  cases flow with
  | done => exact join
  | broke => exact .refl _
  | continued => exact .refl _
  | returned v => exact .refl _

theorem branch_follows {test : Expr} {yes : Stmt} {no : Option Stmt} {b : C → Prop}
    (question : m.Computes 0 p (holds ctx (some test)) (fun t => if t then a else b))
    (first : FollowsFrom m labels a x yes.labels (exec ctx · · yes))
    (second : FollowsFrom m labels b x (Stmt.optionalLabels no) (execOptional ctx · · no)) :
    FollowsFrom m labels p x (Stmt.branch loc test yes no).labels
      (exec ctx · · (.branch loc test yes no)) := by
  intro n entry c w shown isIn entered
  cases entry with
  | start =>
    simp only [exec]
    refine (question c w n shown entered).bind ?_
    intro t d w' shown reached
    cases t with
    | true => exact first n .start d w' shown rfl reached
    | false => exact second n .start d w' shown rfl reached
  | label value =>
    rw [Stmt.labels] at isIn
    simp only [exec, pure_bind]
    by_cases inYes : EntryPoint.isIn (.label value) yes.labels
    · rw [if_pos inYes]
      exact first n _ c w shown inYes entered
    · rw [if_neg inYes]
      exact second n _ c w shown (isIn_append isIn inYes) entered

theorem forLoop_follows {init : Option Stmt} {test step : Option Expr}
    (first : FollowsFrom m labels p { x with done := j } (Stmt.optionalLabels init)
      (execOptional ctx · · init)) (join : m.Leads j head)
    (rest : FollowsFrom m labels head x body.labels
      fun n => loop (holds ctx test) (andThen ctx step) (exec ctx n · body) n) :
    FollowsFrom m labels p x (Stmt.forLoop loc init test step body).labels
      (exec ctx · · (.forLoop loc init test step body)) := by
  intro n entry c w shown isIn entered
  rw [Stmt.labels] at isIn
  simp only [exec]
  by_cases inInit : entry.isIn (Stmt.optionalLabels init)
  · rw [if_pos inInit]
    refine andThen_follows (first n entry c w shown inInit entered) fun d w' shown reached => ?_
    exact rest.leads join n .start d w' shown rfl reached
  · rw [if_neg inInit]
    cases entry with
    | start => exact absurd rfl inInit
    | label value => exact rest n _ c w shown (isIn_append isIn inInit) entered

theorem switch_follows {e : Expr} {cases : List CaseLabel} {inner : Option Int64 → C → Prop}
    {none : C → Prop}
    (value : m.Computes 0 p (expr ctx .value e) (fun v => (select body.labels v).elim none inner))
    (skip : m.Leads none x.done) (rest : FollowsFrom m inner a y body.labels (exec ctx · · body))
    (done : m.Leads y.done x.done) (exit : m.Leads y.exit x.done) (next : y.next = x.next)
    (ret : y.ret = x.ret) :
    FollowsFrom m labels p x (Stmt.switch loc e body cases).labels
      (exec ctx · · (.switch loc e body cases)) := by
  intro n entry c w shown isIn entered
  cases entry with
  | label value => simp [Stmt.labels, EntryPoint.isIn] at isIn
  | start =>
    simp only [exec]
    refine (value c w n shown entered).bind ?_
    intro v d w' shown reached
    cases selected : select body.labels v with
    | none =>
      rw [selected] at reached
      obtain ⟨i, e, steps, shown, reached⟩ := skip d w' shown reached
      exact .afterSome steps (.pure shown reached)
    | some value =>
      rw [selected] at reached
      have isIn : EntryPoint.isIn (.label value) body.labels := by
        unfold select at selected
        simp only at selected
        split at selected
        next found => cases selected; exact found
        next =>
          split at selected
          next found => cases selected; exact found
          next => cases selected
      refine (rest n _ d w' shown isIn reached).bind ?_
      intro flow f w' shown ended
      cases flow with
      | done =>
        obtain ⟨i, g, steps, shown, reached⟩ := done f w' shown ended
        exact .afterSome steps (.pure shown reached)
      | broke =>
        obtain ⟨i, g, steps, shown, reached⟩ := exit f w' shown ended
        exact .afterSome steps (.pure shown reached)
      | continued => exact .pure shown (next ▸ ended : x.next f)
      | returned v => exact .pure shown (ret ▸ ended : x.ret v f)

theorem labelled_follows {key : Option Int64} {label : Option Nat} (first : m.Leads p a)
    (jumped : label.isSome → m.Leads (labels key) a)
    (rest : FollowsFrom m labels a x body.labels (exec ctx · · body)) :
    FollowsFrom m labels p x ((label.map (⟨key, ·⟩)).toList ++ body.labels) fun n entry =>
      exec ctx n (if label.isSome && entry == .label key then .start else entry) body := by
  intro n entry c w shown isIn entered
  beta_reduce
  by_cases here : label.isSome && entry == .label key
  · rw [if_pos here]
    obtain ⟨labelled, same⟩ := Bool.and_eq_true _ _ ▸ here
    cases eq_of_beq same
    obtain ⟨i, d, steps, shown, reached⟩ := jumped labelled c w shown entered
    exact (rest n .start d w shown rfl reached).afterSome steps
  · rw [if_neg here]
    cases entry with
    | start => exact rest.leads first n .start c w shown rfl entered
    | label value =>
      refine rest n _ c w shown (isIn_append isIn fun own => here ?_) entered
      cases label with
      | none => simp [EntryPoint.isIn] at own
      | some label =>
        have same : key = value := by simpa [EntryPoint.isIn] using own
        simp [same]

theorem FollowsFrom.of_start
    (h : ∀ n c w, m.shows c w → p c → m.Follows 0 n c (run n .start w) x.point) :
    FollowsFrom m labels p x [] run := by
  intro n entry c w shown isIn entered
  cases entry with
  | start => exact h n c w shown entered
  | label value => cases isIn

theorem FollowsFrom.of_leads (h : m.Leads p (x.point flow)) :
    FollowsFrom m labels p x [] fun _ _ => pure flow := by
  refine .of_start fun n c w shown reached => ?_
  obtain ⟨i, d, steps, shown, reached⟩ := h c w shown reached
  exact .afterSome steps (.pure shown reached)

mutual
/-- A machine follows a statement that its code is wired for. -/
theorem Wired.follows {labels : Option Int64 → C → Prop} {p : C → Prop} {x : Exits C} :
    (s : Stmt) → Wired m ctx labels p x s → FollowsFrom m labels p x s.labels (exec ctx · · s)
  | .expr loc e, wired | .ret loc (some e), wired => .of_start fun n c w shown reached => by
    simp only [exec]
    exact (wired c w n shown reached).bind fun _ _ _ shown reached => .pure shown reached
  | .ret loc none, wired | .exit loc, wired | .next loc, wired | .null loc, wired => by
    simp only [exec]
    exact .of_leads wired
  | .branch loc test yes no, wired => by
    obtain ⟨a, b, i, j, question, first, join, second, join'⟩ := wired
    exact branch_follows question ((Wired.follows yes first).ends join)
      ((WiredOptional.follows no second).ends join')
  | .whileLoop loc test body, wired => by
    obtain ⟨head, a, y, first, question, round, wires⟩ := wired
    simp only [exec]
    refine (loop_follows (j := 0) (by decide) question (Wired.follows body round) wires ?_).leads
      first
    exact fun c w n shown reached => .pure shown reached
  | .doLoop loc body test, wired => by
    obtain ⟨a, again, y, first, round, wires, question⟩ := wired
    simp only [exec]
    refine (loop_follows (i := 0) (by decide) ?_ (Wired.follows body round) wires question).leads
      first
    exact fun c w n shown reached => .pure shown reached
  | .forLoop loc init test step body, wired => by
    obtain ⟨j, head, a, again, y, first, join, question, round, wires, next⟩ := wired
    refine forLoop_follows (WiredOptional.follows init first) join ?_
    exact loop_follows (Nat.le_add_left 1 0) question (Wired.follows body round) wires next
  | .switch loc e body cases, wired => by
    obtain ⟨inner, a, none, y, value, skip, round, done, exit, next, ret⟩ := wired
    exact switch_follows value skip (Wired.follows body round) done exit next ret
  | .case loc value label body, wired | .default loc label body, wired => by
    obtain ⟨a, first, jumped, rest⟩ := wired
    simp only [exec]
    exact labelled_follows first jumped (Wired.follows body rest)
  | .block loc body, wired => by
    simp only [exec]
    exact WiredAll.follows body wired
theorem WiredOptional.follows {labels : Option Int64 → C → Prop} {p : C → Prop} {x : Exits C} :
    (s : Option Stmt) → WiredOptional m ctx labels p x s →
      FollowsFrom m labels p x (Stmt.optionalLabels s) (execOptional ctx · · s)
  | none, wired => by
    simp only [execOptional]
    exact .of_leads wired
  | some s, wired => Wired.follows s wired
theorem WiredAll.follows {labels : Option Int64 → C → Prop} {p : C → Prop} {x : Exits C} :
    (body : List Stmt) → WiredAll m ctx labels p x body →
      FollowsFrom m labels p x (Stmt.allLabels body) (execAll ctx · · body)
  | [], wired => by
    simp only [execAll]
    exact .of_leads wired
  | s :: body, wired => by
    obtain ⟨j, first, rest⟩ := wired
    intro n entry c w shown isIn entered
    simp only [execAll]
    by_cases here : entry.isIn s.labels
    · rw [if_pos here]
      refine andThen_follows (Wired.follows s first n entry c w shown here entered) ?_
      exact fun d w shown reached => WiredAll.follows body rest n .start d w shown rfl reached
    · rw [if_neg here]
      cases entry with
      | start => exact absurd rfl here
      | label value =>
        exact WiredAll.follows body rest n _ c w shown (isIn_append isIn here) entered
end

end

end MiniC
