import MiniC.Allocation.LinearScan
import Mathlib

/-!
# Linear scan is exact

A register appears at the instructions that mention it, counted from one, and a
parameter appears at zero. It spans every place between its first and its last
appearance.

`intervals_covers` says that `intervals` lists these spans, one for each register
that appears. From there on the scan is a colouring of intervals in the order of
their starts. `linearScan_fits` is what a successful scan keeps: an interval only
takes a slot whose earlier intervals have ended. `linearScan_crowded` is what a
failed one shows: every slot holds an interval that still runs, so one place lies in
more spans than there are slots. `allocate_exact` puts the two together.

`allocate_larger` compares two banks: a scan that finds a slot finds the same one if
there are more slots behind, so registers added to a bank that suffices stay unused.

Nothing here looks at jumps: the spans are of the text alone.
-/

namespace MiniC

open List

namespace Ir.Function

/-- A register appears at a place of a function: a parameter at zero, any register
at the instructions that read or write it, which are counted from one. -/
def Appears (f : Function) (v : VReg) : Nat → Prop
  | 0 => v ∈ f.params
  | k + 1 => ∃ i, f.instructions[k]? = some i ∧ (v ∈ i.uses ∨ i.def? = some v)

/-- A place lies between the first and the last appearance of a register, both
included. -/
def Spans (f : Function) (v : VReg) (k : Nat) : Prop :=
  (∃ i, i ≤ k ∧ f.Appears v i) ∧ ∃ j, k ≤ j ∧ f.Appears v j

def Crowded (f : Function) (n k : Nat) : Prop :=
  ∃ vs : List VReg, vs.Nodup ∧ vs.length = n + 1 ∧ ∀ v ∈ vs, f.Spans v k

theorem Appears.spans {f : Function} {v : VReg} {k : Nat} (h : f.Appears v k) : f.Spans v k :=
  ⟨⟨k, Nat.le_refl k, h⟩, k, Nat.le_refl k, h⟩

end Ir.Function

namespace Allocation

open Ir

/-! ## Intervals -/

/-- A list of intervals covers a relation between registers and places: each register
that is related to a place has one interval, which starts at its first place and
ends at its last. -/
structure Covers (appears : VReg → Nat → Prop) (intervals : List Interval) : Prop where
  distinct : (intervals.map (·.vreg)).Nodup
  starts : ∀ i ∈ intervals, appears i.vreg i.first
  stops : ∀ i ∈ intervals, appears i.vreg i.last
  within : ∀ i ∈ intervals, ∀ k, appears i.vreg k → i.first ≤ k ∧ k ≤ i.last
  complete : ∀ v k, appears v k → ∃ i ∈ intervals, i.vreg = v

variable {a : VReg → Nat → Prop} {is : List Interval} {index slot n : Nat} {v : VReg}
  {pin? : VReg → Option Nat} {ends : List (Option Nat)} {i : Interval} {error : EmitError}
  {f : Ir.Function}

theorem Covers.congr {b : VReg → Nat → Prop} {intervals : List Interval} (h : Covers a intervals)
    (same : ∀ v k, a v k ↔ b v k) : Covers b intervals := by
  have : a = b := by
    funext v k
    exact propext (same v k)
  exact this ▸ h

theorem Covers.perm {js : List Interval} (h : Covers a is) (perm : is.Perm js) : Covers a js where
  distinct := (perm.map _).nodup h.distinct
  starts i hi := h.starts i (perm.mem_iff.mpr hi)
  stops i hi := h.stops i (perm.mem_iff.mpr hi)
  within i hi := h.within i (perm.mem_iff.mpr hi)
  complete v k hk := by
    obtain ⟨i, hi, rfl⟩ := h.complete v k hk
    exact ⟨i, perm.mem_iff.mp hi, rfl⟩

private theorem extend_vregs (index : Nat) (v : VReg) (is : List Interval) :
    (touch.extend index v is).map (·.vreg) = is.map (·.vreg) := by
  induction is with
  | nil => rfl
  | cons i rest ih =>
    simp only [touch.extend]
    split
    · rfl
    · simp only [map_cons, ih]

private theorem mem_extend {j : Interval} (distinct : (is.map (·.vreg)).Nodup)
    (mem : j ∈ touch.extend index v is) :
    (j.vreg ≠ v ∧ j ∈ is) ∨ ∃ i ∈ is, i.vreg = v ∧ j = { i with last := index } := by
  induction is with
  | nil => cases mem
  | cons i rest ih =>
    rw [map_cons, nodup_cons] at distinct
    simp only [touch.extend] at mem
    split at mem
    next same =>
      rcases mem_cons.mp mem with rfl | tail
      · exact .inr ⟨i, mem_cons_self, same, rfl⟩
      · refine .inl ⟨?_, mem_cons_of_mem _ tail⟩
        rintro rfl
        exact distinct.1 (mem_map.mpr ⟨j, tail, same.symm⟩)
    next other =>
      rcases mem_cons.mp mem with rfl | tail
      · exact .inl ⟨other, mem_cons_self⟩
      · rcases ih distinct.2 tail with ⟨hne, hj⟩ | ⟨i', hi', h⟩
        · exact .inl ⟨hne, mem_cons_of_mem _ hj⟩
        · exact .inr ⟨i', mem_cons_of_mem _ hi', h⟩

/-- A register that appears starts an interval or makes its own longer. -/
theorem Covers.touch (h : Covers a is) (latest : ∀ v k, a v k → k ≤ index) (v : VReg) :
    Covers (fun w k => a w k ∨ (w = v ∧ k = index)) (touch index is v) := by
  unfold Allocation.touch
  by_cases known : is.any (·.vreg = v)
  · rw [if_pos known]
    have vregs := extend_vregs index v is
    refine ⟨by rw [vregs]; exact h.distinct, ?_, ?_, ?_, ?_⟩
    · intro j hj
      rcases mem_extend h.distinct hj with ⟨_, hj⟩ | ⟨i, hi, rfl, rfl⟩
      · exact .inl (h.starts j hj)
      · exact .inl (h.starts i hi)
    · intro j hj
      rcases mem_extend h.distinct hj with ⟨_, hj⟩ | ⟨i, hi, rfl, rfl⟩
      · exact .inl (h.stops j hj)
      · exact .inr ⟨rfl, rfl⟩
    · intro j hj k hk
      rcases mem_extend h.distinct hj with ⟨hne, hj⟩ | ⟨i, hi, rfl, rfl⟩
      · rcases hk with hk | ⟨rfl, _⟩
        · exact h.within j hj k hk
        · exact absurd rfl hne
      · rcases hk with hk | ⟨_, rfl⟩
        · exact ⟨(h.within i hi k hk).1, latest _ _ hk⟩
        · exact ⟨latest _ _ (h.starts i hi), Nat.le_refl _⟩
    · intro w k hk
      have hw : w ∈ is.map (·.vreg) := by
        rcases hk with hk | ⟨rfl, _⟩
        · obtain ⟨i, hi, rfl⟩ := h.complete w k hk
          exact mem_map_of_mem hi
        · obtain ⟨i, hi, same⟩ := any_eq_true.mp known
          exact mem_map.mpr ⟨i, hi, of_decide_eq_true same⟩
      rw [← vregs] at hw
      obtain ⟨j, hj, rfl⟩ := mem_map.mp hw
      exact ⟨j, hj, rfl⟩
  · rw [if_neg known]
    have fresh : ∀ i ∈ is, i.vreg ≠ v := fun i hi same =>
      known (any_eq_true.mpr ⟨i, hi, decide_eq_true same⟩)
    refine ⟨?_, ?_, ?_, ?_, ?_⟩
    · rw [map_cons, nodup_cons]
      refine ⟨fun mem => ?_, h.distinct⟩
      obtain ⟨i, hi, same⟩ := mem_map.mp mem
      exact fresh i hi same
    · intro j hj
      rcases mem_cons.mp hj with rfl | hj
      · exact .inr ⟨rfl, rfl⟩
      · exact .inl (h.starts j hj)
    · intro j hj
      rcases mem_cons.mp hj with rfl | hj
      · exact .inr ⟨rfl, rfl⟩
      · exact .inl (h.stops j hj)
    · intro j hj k hk
      rcases mem_cons.mp hj with rfl | hj
      · rcases hk with hk | ⟨_, rfl⟩
        · obtain ⟨i, hi, same⟩ := h.complete _ k hk
          exact absurd same (fresh i hi)
        · exact ⟨Nat.le_refl _, Nat.le_refl _⟩
      · rcases hk with hk | ⟨same, _⟩
        · exact h.within j hj k hk
        · exact absurd same (fresh j hj)
    · intro w k hk
      rcases hk with hk | ⟨rfl, _⟩
      · obtain ⟨i, hi, same⟩ := h.complete w k hk
        exact ⟨i, mem_cons_of_mem _ hi, same⟩
      · exact ⟨_, mem_cons_self, rfl⟩

theorem Covers.touchAll (vs : List VReg) : ∀ {a : VReg → Nat → Prop}
    {is : List Interval}, Covers a is → (∀ v k, a v k → k ≤ index) →
    Covers (fun w k => a w k ∨ (w ∈ vs ∧ k = index)) (vs.foldl (Allocation.touch index) is) := by
  induction vs with
  | nil =>
    intro a is h _
    exact h.congr fun w k => by simp
  | cons v vs ih =>
    intro a is h latest
    have step := ih (h.touch latest v) fun w k hk => by
      rcases hk with hk | ⟨_, rfl⟩
      · exact latest w k hk
      · exact Nat.le_refl _
    refine step.congr fun w k => ?_
    simp only [mem_cons]
    tauto

theorem Covers.scan (code : List Instruction) : ∀ {index : Nat} {a : VReg → Nat → Prop}
    {is : List Interval}, Covers a is → (∀ v k, a v k → k < index) →
    Covers (fun w k => a w k ∨ ∃ j i, k = index + j ∧ code[j]? = some i ∧ w ∈ mentions i)
      (Allocation.scan index is code) := by
  induction code with
  | nil =>
    intro index a is h _
    exact h.congr fun w k => by simp
  | cons i code ih =>
    intro index a is h latest
    have here := h.touchAll (mentions i) fun v k hk => Nat.le_of_lt (latest v k hk)
    have step := @ih (index + 1) _ _ here fun v k hk => by
      rcases hk with hk | ⟨_, rfl⟩
      · exact Nat.lt_succ_of_lt (latest v k hk)
      · exact Nat.lt_succ_self _
    refine step.congr fun w k => ?_
    constructor
    · rintro ((hk | ⟨hw, rfl⟩) | ⟨j, i', rfl, hi', hw⟩)
      · exact .inl hk
      · exact .inr ⟨0, i, rfl, rfl, hw⟩
      · exact .inr ⟨j + 1, i', by omega, hi', hw⟩
    · rintro (hk | ⟨j, i', rfl, hi', hw⟩)
      · exact .inl (.inl hk)
      · cases j with
        | zero =>
          cases Option.some.inj hi'
          exact .inl (.inr ⟨hw, rfl⟩)
        | succ j => exact .inr ⟨j, i', by omega, hi', hw⟩

private theorem mem_mentions {i : Instruction} :
    v ∈ mentions i ↔ v ∈ i.uses ∨ i.def? = some v := by
  simp [mentions, Option.mem_toList]

/-- Every register has one interval, from where it first appears to where it last does. -/
theorem intervals_covers (f : Ir.Function) : Covers f.Appears (intervals f) := by
  have none : Covers (fun _ _ => False) [] := ⟨by simp, by simp, by simp, by simp, by simp⟩
  have params := @Covers.touchAll 0 f.params _ _ none (by simp)
  have all := @Covers.scan f.instructions 1 _ _ params fun v k hk => by
    rcases hk with hk | ⟨_, rfl⟩
    · exact hk.elim
    · exact Nat.zero_lt_one
  refine (all.congr fun v k => ?_).perm (mergeSort_perm _ _).symm
  cases k with
  | zero =>
    simp only [false_or, and_true, Ir.Function.Appears]
    constructor
    · rintro (h | ⟨j, i, h, _⟩)
      · exact h
      · omega
    · exact .inl
  | succ k =>
    simp only [false_or, Ir.Function.Appears, Nat.succ_ne_zero, and_false]
    constructor
    · rintro ⟨j, i, h, hi, hv⟩
      obtain rfl : k = j := by omega
      exact ⟨i, hi, mem_mentions.mp hv⟩
    · rintro ⟨i, hi, hv⟩
      exact ⟨k, i, by omega, hi, mem_mentions.mpr hv⟩

theorem intervals_sorted (f : Ir.Function) :
    (intervals f).Pairwise fun a b => a.first ≤ b.first := by
  have sorted : (intervals f).Pairwise fun a b => Interval.before a b := by
    refine pairwise_mergeSort ?_ ?_ _
    · intro a b c
      simp only [Interval.before, Bool.or_eq_true, Bool.and_eq_true, decide_eq_true_eq, beq_iff_eq]
      omega
    · intro a b
      simp only [Interval.before, Bool.or_eq_true, Bool.and_eq_true, decide_eq_true_eq, beq_iff_eq]
      omega
  refine sorted.imp fun h => ?_
  simp only [Interval.before, Bool.or_eq_true, Bool.and_eq_true, decide_eq_true_eq, beq_iff_eq] at h
  omega

/-! ## The scan -/

private theorem isFree_iff {start : Nat} {end? : Option Nat} :
    isFree start end? = true ↔ ∀ e, end? = some e → e < start := by
  cases end? <;> simp [isFree]

/-- The chosen register is free, and is the pin if there is one. -/
theorem choose_ok (chosen : choose pin? ends i = .ok slot) :
    slot < ends.length ∧ (∀ e, ends[slot]? = some (some e) → e < i.first) ∧
      ∀ pin, pin? i.vreg = some pin → slot = pin := by
  unfold choose at chosen
  cases hp : pin? i.vreg with
  | some pin =>
    simp only [hp] at chosen
    split at chosen
    next free =>
      cases chosen
      obtain ⟨end?, held, free⟩ := Option.any_eq_true _ _ |>.mp free
      refine ⟨(List.getElem?_eq_some_iff.mp held).1, fun e he => ?_, by simp⟩
      rw [held, Option.some.injEq] at he
      exact isFree_iff.mp free e he
    next => cases chosen
  | none =>
    simp only [hp] at chosen
    split at chosen
    next found =>
      cases chosen
      obtain ⟨lt, free, _⟩ := List.findIdx?_eq_some_iff_getElem.mp found
      refine ⟨lt, fun e he => ?_, by simp⟩
      rw [List.getElem?_eq_getElem lt, Option.some.injEq] at he
      exact isFree_iff.mp free e he
    next => cases chosen

theorem choose_exhausted (failed : choose pin? ends i = .error (.exhausted n)) :
    ∀ end? ∈ ends, ∃ e, end? = some e ∧ i.first ≤ e := by
  unfold choose at failed
  cases hp : pin? i.vreg with
  | some pin =>
    simp only [hp] at failed
    split at failed <;> cases failed
  | none =>
    simp only [hp] at failed
    split at failed
    next => cases failed
    next none =>
      intro end? mem
      have taken := List.findIdx?_eq_none_iff.mp none end? mem
      cases end? with
      | none => cases taken
      | some e => exact ⟨e, rfl, by simpa [isFree] using taken⟩

theorem choose_error (unpinned : pin? i.vreg = none)
    (failed : choose pin? ends i = .error error) : error = .exhausted ends.length := by
  simp only [choose, unpinned] at failed
  split at failed <;> cases failed
  rfl

theorem linearScan_cons_eq_ok {todo : List Interval} {slots : List (VReg × Nat)} :
    linearScan pin? ends (i :: todo) = .ok slots ↔
      ∃ slot given, choose pin? ends i = .ok slot ∧
        linearScan pin? (ends.set slot (some i.last)) todo = .ok given ∧
        slots = (i.vreg, slot) :: given := by
  simp only [linearScan]
  cases choose pin? ends i with
  | error error => simp [bind, Except.bind]
  | ok slot =>
    simp only [bind, Except.bind, Except.ok.injEq, exists_and_left, exists_eq_left']
    cases linearScan pin? (ends.set slot (some i.last)) todo with
    | error error => simp
    | ok given => simp [pure, Except.pure, eq_comm]

/-- Intervals that meet are given different registers. -/
theorem linearScan_fits (todo : List Interval) :
    ∀ {ends : List (Option Nat)} {slots : List (VReg × Nat)},
    linearScan pin? ends todo = .ok slots →
    todo.Pairwise (fun a b => a.first ≤ b.first) →
    ∃ placed : List (Interval × Nat), placed.map (·.1) = todo ∧
      slots = placed.map (fun x => (x.1.vreg, x.2)) ∧
      (∀ x ∈ placed, x.2 < ends.length ∧ (∀ e, ends[x.2]? = some (some e) → e < x.1.first) ∧
        ∀ pin, pin? x.1.vreg = some pin → x.2 = pin) ∧
      placed.Pairwise fun x y => x.2 = y.2 → x.1.last < y.1.first := by
  induction todo with
  | nil =>
    intro ends slots scanned _
    cases scanned
    exact ⟨[], rfl, rfl, by simp, .nil⟩
  | cons i todo ih =>
    intro ends slots scanned sorted
    rw [pairwise_cons] at sorted
    obtain ⟨slot, given, chosen, rest, rfl⟩ := linearScan_cons_eq_ok.mp scanned
    obtain ⟨lt, free, pinned⟩ := choose_ok chosen
    obtain ⟨placed, hmap, rfl, each, apart⟩ := ih rest sorted.2
    -- the slot of `i` now ends with `i`, so what follows in it starts after `i`
    have after : ∀ x ∈ placed, x.2 = slot → i.last < x.1.first := fun x hx same =>
      (each x hx).2.1 i.last (by rw [same, List.getElem?_set_self lt])
    refine ⟨(i, slot) :: placed, by rw [map_cons, hmap], rfl, ?_, ?_⟩
    · intro x hx
      rcases mem_cons.mp hx with rfl | hx
      · exact ⟨lt, free, pinned⟩
      · obtain ⟨hlt, hfree, hpin⟩ := each x hx
        refine ⟨by simpa using hlt, fun e he => ?_, hpin⟩
        by_cases same : x.2 = slot
        · have hi := sorted.1 x.1 (hmap ▸ mem_map_of_mem hx)
          rw [same] at he
          exact Nat.lt_of_lt_of_le (free e he) hi
        · exact hfree e (by rw [List.getElem?_set_ne (Ne.symm same)]; exact he)
    · rw [pairwise_cons]
      exact ⟨fun x hx same => after x hx same.symm, apart⟩

/-- If registers run out, more intervals meet in one place than there are registers. -/
theorem linearScan_crowded (todo : List Interval) :
    ∀ {ends : List (Option Nat)} {done : List (Interval × Nat)},
    linearScan pin? ends todo = .error (.exhausted n) →
    todo.Pairwise (fun a b => a.first ≤ b.first) →
    (∀ i ∈ todo, i.first ≤ i.last) →
    (∀ x ∈ done, ∀ i ∈ todo, x.1.first ≤ i.first) →
    (done.map (·.1.vreg) ++ todo.map (·.vreg)).Nodup →
    (∀ slot e, ends[slot]? = some (some e) → ∃ x ∈ done, x.2 = slot ∧ x.1.last = e) →
    ∃ k, ∃ live : List Interval, live.length = ends.length + 1 ∧ (live.map (·.vreg)).Nodup ∧
      ∀ i ∈ live, (i ∈ done.map (·.1) ∨ i ∈ todo) ∧ i.first ≤ k ∧ k ≤ i.last := by
  induction todo with
  | nil =>
    intro ends done failed
    cases failed
  | cons i todo ih =>
    intro ends done failed sorted proper earlier distinct holds
    rw [pairwise_cons] at sorted
    simp only [linearScan] at failed
    cases chosen : choose pin? ends i with
    | error error =>
      simp only [chosen, bind, Except.bind, Except.error.injEq] at failed
      subst failed
      have taken : ∀ slot, slot < ends.length → ∃ x ∈ done, x.2 = slot ∧ i.first ≤ x.1.last := by
        intro slot lt
        obtain ⟨e, he, le⟩ := choose_exhausted chosen _ (getElem_mem lt)
        obtain ⟨x, hx, same, last⟩ := holds slot e (by rw [List.getElem?_eq_getElem lt, he])
        exact ⟨x, hx, same, last ▸ le⟩
      have : Nonempty (Interval × Nat) := ⟨(i, 0)⟩
      choose! holder mem slot runs using taken
      have inRange : ∀ {s}, s ∈ List.range ends.length → s < ends.length := mem_range.mp
      rw [map_cons, nodup_append] at distinct
      obtain ⟨doneDistinct, -, apart⟩ := distinct
      refine ⟨i.first, i :: (List.range ends.length).map (fun s => (holder s).1), by simp, ?_, ?_⟩
      · rw [map_cons, map_map, nodup_cons]
        constructor
        · intro found
          obtain ⟨s, hs, same⟩ := mem_map.mp found
          exact apart _ (mem_map_of_mem (mem s (inRange hs))) _ mem_cons_self same
        · refine nodup_range.map_on fun s hs t ht same => ?_
          have hst := inj_on_of_nodup_map doneDistinct (mem s (inRange hs))
            (mem t (inRange ht)) same
          rw [← slot s (inRange hs), ← slot t (inRange ht), hst]
      · intro j hj
        rcases mem_cons.mp hj with rfl | hj
        · exact ⟨.inr mem_cons_self, Nat.le_refl _, proper j mem_cons_self⟩
        · obtain ⟨s, hs, rfl⟩ := mem_map.mp hj
          have hmem := mem s (inRange hs)
          exact ⟨.inl (mem_map_of_mem hmem), earlier _ hmem i mem_cons_self, runs s (inRange hs)⟩
    | ok slot =>
      have rest : linearScan pin? (ends.set slot (some i.last)) todo = .error (.exhausted n) := by
        cases rest : linearScan pin? (ends.set slot (some i.last)) todo with
        | error error =>
          simp only [chosen, rest, bind, Except.bind, Except.error.injEq] at failed
          rw [failed]
        | ok given =>
          simp only [chosen, rest, bind, Except.bind, pure, Except.pure, reduceCtorEq] at failed
      have step := @ih _ ((i, slot) :: done) rest sorted.2
        (fun j hj => proper j (mem_cons_of_mem _ hj)) ?_ ?_ ?_
      · obtain ⟨k, live, length, nodup, each⟩ := step
        refine ⟨k, live, by simpa using length, nodup, fun j hj => ?_⟩
        obtain ⟨mem, bounds⟩ := each j hj
        refine ⟨?_, bounds⟩
        rcases mem with mem | mem
        · rcases mem_cons.mp mem with rfl | mem
          · exact .inr mem_cons_self
          · exact .inl mem
        · exact .inr (mem_cons_of_mem _ mem)
      · intro x hx j hj
        rcases mem_cons.mp hx with rfl | hx
        · exact sorted.1 j hj
        · exact earlier x hx j (mem_cons_of_mem _ hj)
      · exact perm_middle.nodup distinct
      · intro s e held
        by_cases same : s = slot
        · subst same
          rw [List.getElem?_set_self (choose_ok chosen).1] at held
          cases held
          exact ⟨(i, s), mem_cons_self, rfl, rfl⟩
        · rw [List.getElem?_set_ne (Ne.symm same)] at held
          obtain ⟨x, hx, h⟩ := holds s e held
          exact ⟨x, mem_cons_of_mem _ hx, h⟩

theorem linearScan_error (todo : List Interval)
    (unpinned : ∀ v, pin? v = none) : ∀ {ends : List (Option Nat)},
    linearScan pin? ends todo = .error error → error = .exhausted ends.length := by
  induction todo with
  | nil =>
    intro ends failed
    cases failed
  | cons i todo ih =>
    intro ends failed
    simp only [linearScan] at failed
    cases chosen : choose pin? ends i with
    | error other =>
      simp only [chosen, bind, Except.bind, Except.error.injEq] at failed
      exact failed ▸ choose_error (unpinned _) chosen
    | ok slot =>
      cases rest : linearScan pin? (ends.set slot (some i.last)) todo with
      | error other =>
        simp only [chosen, rest, bind, Except.bind, Except.error.injEq] at failed
        subst failed
        simpa using ih rest
      | ok given =>
        simp only [chosen, rest, bind, Except.bind, pure, Except.pure, reduceCtorEq] at failed

/-! ## Allocations -/

variable {R : Type}

def register? (allocation : Allocation) (bank : List R) (v : VReg) : Option R :=
  (allocation.slot? v).bind (bank[·]?)

def usedRegisters (allocation : Allocation) (bank : List R) : List R :=
  allocation.used.filterMap (bank[·]?)

theorem allocate_eq_ok {a : Allocation} : allocate n f = .ok a ↔
    linearScan f.pin? (List.replicate n none) (intervals f) = .ok a.slots ∧
      a.used = (List.range n).filter fun slot => a.slots.any (·.2 = slot) := by
  unfold allocate
  cases linearScan f.pin? (List.replicate n none) (intervals f) with
  | error error => simp [bind, Except.bind]
  | ok slots =>
    cases a
    simp only [bind, Except.bind, pure, Except.pure, Except.ok.injEq, Allocation.mk.injEq]
    constructor
    · rintro ⟨rfl, rfl⟩
      exact ⟨rfl, rfl⟩
    · rintro ⟨rfl, rfl⟩
      exact ⟨rfl, rfl⟩

theorem allocate_placed {a : Allocation} (given : allocate n f = .ok a) :
    ∃ placed : List (Interval × Nat), placed.map (·.1) = intervals f ∧
      a.slots = placed.map (fun x => (x.1.vreg, x.2)) ∧
      a.used = (List.range n).filter (fun slot => a.slots.any (·.2 = slot)) ∧
      (∀ x ∈ placed, x.2 < n ∧ ∀ pin, f.pin? x.1.vreg = some pin → x.2 = pin) ∧
      placed.Pairwise fun x y => x.2 = y.2 → x.1.last < y.1.first := by
  obtain ⟨scanned, used⟩ := allocate_eq_ok.mp given
  obtain ⟨placed, hmap, hslots, each, apart⟩ :=
    linearScan_fits (intervals f) scanned (intervals_sorted f)
  refine ⟨placed, hmap, hslots, used, fun x hx => ?_, apart⟩
  obtain ⟨lt, _, pinned⟩ := each x hx
  exact ⟨by simpa using lt, pinned⟩

theorem slot?_eq_some_iff {a : Allocation} {placed : List (Interval × Nat)}
    (hmap : placed.map (·.1) = intervals f)
    (hslots : a.slots = placed.map (fun x => (x.1.vreg, x.2))) :
    a.slot? v = some slot ↔ ∃ x ∈ placed, x.1.vreg = v ∧ x.2 = slot := by
  have distinct : (placed.map (·.1.vreg)).Nodup := by
    have := (intervals_covers f).distinct
    rwa [← hmap, map_map] at this
  have found : ∀ x ∈ placed, a.slot? x.1.vreg = some x.2 := by
    intro x hx
    unfold slot?
    cases h : a.slots.find? (·.1 = x.1.vreg) with
    | none =>
      have := List.find?_eq_none.mp h (x.1.vreg, x.2) (hslots ▸ mem_map_of_mem hx)
      simp at this
    | some entry =>
      have mem := mem_of_find?_eq_some h
      have key : entry.1 = x.1.vreg := by simpa using List.find?_some h
      rw [hslots] at mem
      obtain ⟨y, hy, rfl⟩ := mem_map.mp mem
      rw [inj_on_of_nodup_map distinct hy hx key]
      rfl
  constructor
  · intro h
    unfold slot? at h
    obtain ⟨entry, hentry, rfl⟩ := Option.map_eq_some_iff.mp h
    have mem := mem_of_find?_eq_some hentry
    have key : entry.1 = v := by simpa using List.find?_some hentry
    rw [hslots] at mem
    obtain ⟨x, hx, rfl⟩ := mem_map.mp mem
    exact ⟨x, hx, key, rfl⟩
  · rintro ⟨x, hx, rfl, rfl⟩
    exact found x hx

theorem spans_iff (mem : i ∈ intervals f) {k : Nat} :
    f.Spans i.vreg k ↔ i.first ≤ k ∧ k ≤ i.last := by
  have covers := intervals_covers f
  constructor
  · rintro ⟨⟨a, ha, first⟩, b, hb, last⟩
    have h₁ := covers.within i mem a first
    have h₂ := covers.within i mem b last
    omega
  · rintro ⟨first, last⟩
    exact ⟨⟨_, first, covers.starts i mem⟩, _, last, covers.stops i mem⟩

section Given

variable {bank : List R} {f : Ir.Function} {a : Allocation}

variable {v : VReg} {k : Nat}

theorem register?_isSome_iff (given : allocate bank.length f = .ok a) :
    (∃ r, a.register? bank v = some r) ↔ ∃ k, f.Appears v k := by
  obtain ⟨placed, hmap, hslots, -, each, -⟩ := allocate_placed given
  have covers := intervals_covers f
  constructor
  · rintro ⟨r, hr⟩
    obtain ⟨slot, hslot, -⟩ := Option.bind_eq_some_iff.mp hr
    obtain ⟨x, hx, rfl, -⟩ := (slot?_eq_some_iff hmap hslots).mp hslot
    exact ⟨_, covers.starts x.1 (hmap ▸ mem_map_of_mem hx)⟩
  · rintro ⟨k, hk⟩
    obtain ⟨i, hi, rfl⟩ := covers.complete v k hk
    rw [← hmap] at hi
    obtain ⟨x, hx, rfl⟩ := mem_map.mp hi
    refine ⟨bank.get ⟨x.2, (each x hx).1⟩, ?_⟩
    rw [register?, (slot?_eq_some_iff hmap hslots).mpr ⟨x, hx, rfl, rfl⟩, Option.bind_some]
    exact List.getElem?_eq_getElem (each x hx).1

theorem register?_pinned (given : allocate bank.length f = .ok a) {pin : Nat}
    (appears : f.Appears v k) (pinned : f.pin? v = some pin) :
    pin < bank.length ∧ a.register? bank v = bank[pin]? := by
  obtain ⟨placed, hmap, hslots, -, each, -⟩ := allocate_placed given
  obtain ⟨i, hi, rfl⟩ := (intervals_covers f).complete v k appears
  rw [← hmap] at hi
  obtain ⟨x, hx, rfl⟩ := mem_map.mp hi
  obtain ⟨lt, hpin⟩ := each x hx
  obtain rfl := hpin pin pinned
  refine ⟨lt, ?_⟩
  rw [register?, (slot?_eq_some_iff hmap hslots).mpr ⟨x, hx, rfl, rfl⟩, Option.bind_some]

/-- Values that are alive in one place have different registers. -/
theorem register?_ne (given : allocate bank.length f = .ok a) (distinct : bank.Nodup) {w : VReg}
    (different : v ≠ w) (hv : f.Spans v k) (hw : f.Spans w k) :
    a.register? bank v ≠ a.register? bank w := by
  obtain ⟨placed, hmap, hslots, -, each, apart⟩ := allocate_placed given
  have located : ∀ {u}, f.Spans u k → ∃ x ∈ placed, x.1.vreg = u ∧ x.1.first ≤ k ∧ k ≤ x.1.last := by
    intro u hu
    obtain ⟨⟨j, -, hj⟩, -⟩ := id hu
    obtain ⟨i, hi, rfl⟩ := (intervals_covers f).complete u j hj
    obtain ⟨x, hx, rfl⟩ := mem_map.mp (hmap ▸ hi)
    exact ⟨x, hx, rfl, (spans_iff hi).mp hu⟩
  obtain ⟨x, hx, rfl, xk⟩ := located hv
  obtain ⟨y, hy, rfl, yk⟩ := located hw
  -- in one slot one of the two intervals would have ended before the other starts
  have slots : x.2 ≠ y.2 := by
    have either : placed.Pairwise fun x y => x.2 = y.2 →
        x.1.last < y.1.first ∨ y.1.last < x.1.first := apart.imp fun h s => .inl (h s)
    have : Std.Symm fun x y : Interval × Nat => x.2 = y.2 →
        x.1.last < y.1.first ∨ y.1.last < x.1.first := ⟨fun _ _ h s => (h s.symm).symm⟩
    intro same
    have := either.forall hx hy (fun h => different (by rw [h])) same
    omega
  rw [register?, register?, (slot?_eq_some_iff hmap hslots).mpr ⟨x, hx, rfl, rfl⟩,
    (slot?_eq_some_iff hmap hslots).mpr ⟨y, hy, rfl, rfl⟩, Option.bind_some, Option.bind_some]
  intro same
  exact slots ((List.getElem?_inj (each x hx).1 distinct).mp same)

private theorem range_filterMap_getElem? (bank : List R) :
    (List.range bank.length).filterMap (bank[·]?) = bank := by
  induction bank using List.reverseRecOn with
  | nil => rfl
  | append_singleton rest r ih =>
    have front : (List.range rest.length).filterMap ((rest ++ [r])[·]?) = rest := by
      refine (filterMap_congr fun i hi => ?_).trans ih
      exact List.getElem?_append_left (mem_range.mp hi)
    rw [length_append, length_singleton, range_succ, filterMap_append, front]
    simp

theorem usedRegisters_sublist (given : allocate bank.length f = .ok a) :
    (a.usedRegisters bank).Sublist bank := by
  obtain ⟨placed, -, -, hused, -, -⟩ := allocate_placed given
  rw [usedRegisters, hused]
  exact (filter_sublist.filterMap _).trans (by rw [range_filterMap_getElem?])

theorem mem_usedRegisters_iff (given : allocate bank.length f = .ok a) {r : R} :
    r ∈ a.usedRegisters bank ↔ ∃ v, a.register? bank v = some r := by
  obtain ⟨placed, hmap, hslots, hused, each, -⟩ := allocate_placed given
  rw [usedRegisters, mem_filterMap]
  constructor
  · rintro ⟨slot, hslot, hr⟩
    rw [hused, mem_filter, any_eq_true] at hslot
    obtain ⟨-, entry, mem, same⟩ := hslot
    rw [hslots] at mem
    obtain ⟨x, hx, rfl⟩ := mem_map.mp mem
    obtain rfl : x.2 = slot := of_decide_eq_true same
    refine ⟨x.1.vreg, ?_⟩
    rw [register?, (slot?_eq_some_iff hmap hslots).mpr ⟨x, hx, rfl, rfl⟩, Option.bind_some, hr]
  · rintro ⟨v, hv⟩
    obtain ⟨slot, hslot, hr⟩ := Option.bind_eq_some_iff.mp hv
    obtain ⟨x, hx, rfl, rfl⟩ := (slot?_eq_some_iff hmap hslots).mp hslot
    refine ⟨x.2, ?_, hr⟩
    rw [hused, mem_filter, any_eq_true]
    exact ⟨mem_range.mpr (each x hx).1, (x.1.vreg, x.2),
      hslots ▸ mem_map_of_mem hx, decide_eq_true rfl⟩

/-- If every value has a register, no place is crowded. -/
theorem not_crowded (given : allocate bank.length f = .ok a) (distinct : bank.Nodup) :
    ¬ f.Crowded bank.length k := by
  rintro ⟨vs, nodup, length, spans⟩
  -- the registers of `vs` would be more than the bank holds
  have registers : ∀ v ∈ vs, ∃ r ∈ bank, a.register? bank v = some r := by
    intro v hv
    obtain ⟨⟨i, -, hi⟩, -⟩ := spans v hv
    obtain ⟨r, hr⟩ := (register?_isSome_iff given).mpr ⟨i, hi⟩
    obtain ⟨slot, -, h⟩ := Option.bind_eq_some_iff.mp hr
    exact ⟨r, mem_of_getElem? h, hr⟩
  have injective : (vs.map (a.register? bank)).Nodup :=
    nodup.map_on fun v hv w hw same => by
      by_contra different
      exact register?_ne given distinct different (spans v hv) (spans w hw) same
  have subset : vs.map (a.register? bank) ⊆ bank.map some := by
    intro r hr
    obtain ⟨v, hv, rfl⟩ := mem_map.mp hr
    obtain ⟨r, hr, h⟩ := registers v hv
    exact h ▸ mem_map_of_mem hr
  have := (injective.subperm subset).length_le
  simp only [length_map] at this
  omega

end Given

/-- If registers run out, some place is crowded. -/
theorem crowded_of_exhausted {m : Nat}
    (failed : allocate n f = .error (.exhausted m)) : ∃ k, f.Crowded n k := by
  have covers := intervals_covers f
  have scanned : linearScan f.pin? (List.replicate n none) (intervals f) =
      .error (.exhausted m) := by
    unfold allocate at failed
    cases scanned : linearScan f.pin? (List.replicate n none) (intervals f) with
    | error error =>
      simp only [scanned, bind, Except.bind, Except.error.injEq] at failed
      rw [failed]
    | ok slots => simp only [scanned, bind, Except.bind, pure, Except.pure, reduceCtorEq] at failed
  obtain ⟨k, live, length, nodup, each⟩ :=
    @linearScan_crowded _ _ (intervals f) _ [] scanned (intervals_sorted f)
      (fun i hi => (covers.within i hi _ (covers.stops i hi)).1) (by simp) (by simpa using covers.distinct)
      (fun slot e held => by
        have := mem_of_getElem? held
        simp at this)
  refine ⟨k, live.map (·.vreg), nodup, by simpa using length, fun v hv => ?_⟩
  obtain ⟨i, hi, rfl⟩ := mem_map.mp hv
  obtain ⟨mem, bounds⟩ := each i hi
  exact (spans_iff (by simpa using mem)).mpr bounds

/-- **Linear scan is exact.** A bank of `n` distinct registers is handed out so that
exactly the registers that appear have one, a pinned one has that of its pin, and two
that span a common place have different ones; what was used is listed in the order of
the bank. Running out of registers means that some place is spanned by more registers
than there are, and without pins there is an allocation unless there is such a place. -/
theorem allocate_exact {bank : List R} (distinct : bank.Nodup) (f : Ir.Function) :
    (∀ a, allocate bank.length f = .ok a →
      (∀ v, (∃ r, a.register? bank v = some r) ↔ ∃ k, f.Appears v k) ∧
      (∀ v k pin, f.Appears v k → f.pin? v = some pin →
        pin < bank.length ∧ a.register? bank v = bank[pin]?) ∧
      (∀ v w k, v ≠ w → f.Spans v k → f.Spans w k → a.register? bank v ≠ a.register? bank w) ∧
      (a.usedRegisters bank).Sublist bank ∧
      ∀ r, r ∈ a.usedRegisters bank ↔ ∃ v, a.register? bank v = some r) ∧
    (∀ m, allocate bank.length f = .error (.exhausted m) → ∃ k, f.Crowded bank.length k) ∧
    (f.pins = [] →
      ((∃ error, allocate bank.length f = .error error) ↔ ∃ k, f.Crowded bank.length k)) := by
  refine ⟨fun a given => ?_, fun m failed => crowded_of_exhausted failed, fun unpinned => ?_⟩
  · exact ⟨fun v => register?_isSome_iff given,
      fun v k pin appears pinned => register?_pinned given appears pinned,
      fun v w k different hv hw => register?_ne given distinct different hv hw,
      usedRegisters_sublist given, fun r => mem_usedRegisters_iff given⟩
  · have free : ∀ v, f.pin? v = none := fun v => by simp [Ir.Function.pin?, unpinned]
    constructor
    · rintro ⟨error, failed⟩
      refine crowded_of_exhausted (m := bank.length) ?_
      unfold allocate at failed ⊢
      cases scanned : linearScan f.pin? (List.replicate bank.length none) (intervals f) with
      | error other =>
        have := linearScan_error (intervals f) free scanned
        simp only [this, length_replicate, bind, Except.bind]
      | ok slots => simp only [scanned, bind, Except.bind, pure, Except.pure, reduceCtorEq] at failed
    · rintro ⟨k, crowded⟩
      cases given : allocate bank.length f with
      | error error => exact ⟨error, rfl⟩
      | ok a => exact absurd crowded (not_crowded given distinct)

/-- The sum of a parameter and a number. The instruction that adds mentions three registers. -/
def addOne : Ir.Function where
  name := "f"
  params := [⟨0⟩]
  blocks := [⟨⟨0⟩, [.imm ⟨1⟩ 1, .binary .add .qword ⟨2⟩ ⟨0⟩ ⟨1⟩, .ret (some ⟨2⟩)]⟩]
  pins := []
  stackSize := 0
  isStatic := false
  loc := .atStart ⟨"f.c", ""⟩

theorem allocate_exact_addOne :
    allocate 2 addOne = .error (.exhausted 2) ∧ (∃ k, addOne.Crowded 2 k) ∧
    ∃ a, allocate 3 addOne = .ok a ∧
      a.register? ["a", "b", "c"] ⟨0⟩ ≠ a.register? ["a", "b", "c"] ⟨2⟩ := by
  have three : allocate 3 addOne = .ok ⟨[(⟨0⟩, 0), (⟨1⟩, 1), (⟨2⟩, 2)], [0, 1, 2]⟩ := by cbv
  refine ⟨by cbv, (allocate_exact (by decide : ["a", "b"].Nodup) addOne).2.1 2 (by cbv),
    _, three, ?_⟩
  refine ((allocate_exact (by decide : ["a", "b", "c"].Nodup) addOne).1 _ three).2.2.1
    ⟨0⟩ ⟨2⟩ 2 (by decide) ?_ ?_
  · exact Ir.Function.Appears.spans ⟨_, rfl, .inl (by decide)⟩
  · exact Ir.Function.Appears.spans ⟨_, rfl, .inr rfl⟩

/-! ## Larger banks -/

/-- An interval that finds a slot finds the same one with more slots behind it. -/
theorem choose_append (chosen : choose pin? ends i = .ok slot) (more : List (Option Nat)) :
    choose pin? (ends ++ more) i = .ok slot := by
  have lt := (choose_ok chosen).1
  unfold choose at chosen ⊢
  cases hp : pin? i.vreg with
  | some pin =>
    simp only [hp] at chosen ⊢
    split at chosen
    next free =>
      cases chosen
      rw [List.getElem?_append_left lt, if_pos free]
    next => cases chosen
  | none =>
    simp only [hp] at chosen ⊢
    split at chosen
    next found =>
      cases chosen
      rw [List.findIdx?_append, found]
      rfl
    next => cases chosen

theorem linearScan_append (more : List (Option Nat)) (todo : List Interval) :
    ∀ {ends : List (Option Nat)} {slots : List (VReg × Nat)}, linearScan pin? ends todo = .ok slots →
      linearScan pin? (ends ++ more) todo = .ok slots := by
  induction todo with
  | nil => exact fun scanned => scanned
  | cons i todo ih =>
    intro ends slots scanned
    obtain ⟨slot, given, chosen, rest, rfl⟩ := linearScan_cons_eq_ok.mp scanned
    refine linearScan_cons_eq_ok.mpr ⟨slot, given, choose_append chosen more, ?_, rfl⟩
    rw [set_append_left _ _ (choose_ok chosen).1]
    exact ih rest

/-- **A larger bank changes nothing.** An allocation to a bank is also the allocation to every bank
that starts with it: each register has the same slot, and with it the same register of the bank, and
the same registers are used, in the same order. -/
theorem allocate_larger {bank larger : List R} {a : Allocation} (front : bank <+: larger)
    (given : allocate bank.length f = .ok a) :
    allocate larger.length f = .ok a ∧ (∀ v, a.register? larger v = a.register? bank v) ∧
      a.usedRegisters larger = a.usedRegisters bank := by
  obtain ⟨placed, hmap, hslots, hused, each, -⟩ := allocate_placed given
  obtain ⟨scanned, -⟩ := allocate_eq_ok.mp given
  obtain ⟨more, rfl⟩ := front
  have within : ∀ slot, a.slots.any (·.2 = slot) = true → slot < bank.length := by
    intro slot taken
    rw [hslots] at taken
    obtain ⟨entry, mem, same⟩ := any_eq_true.mp taken
    obtain ⟨x, hx, rfl⟩ := mem_map.mp mem
    exact of_decide_eq_true same ▸ (each x hx).1
  refine ⟨allocate_eq_ok.mpr ⟨?_, ?_⟩, fun v => ?_, filterMap_congr fun slot mem => ?_⟩
  · rw [length_append, replicate_add]
    exact linearScan_append _ _ scanned
  · -- no slot behind the smaller bank is taken
    rw [hused, length_append, range_add, filter_append]
    refine ((append_right_eq_self).mpr (filter_eq_nil_iff.mpr fun slot mem taken => ?_)).symm
    obtain ⟨k, -, rfl⟩ := mem_map.mp mem
    exact absurd (within _ taken) (Nat.not_lt.mpr (Nat.le_add_right _ _))
  · unfold register?
    cases found : a.slot? v with
    | none => rfl
    | some slot =>
      obtain ⟨x, hx, -, rfl⟩ := (slot?_eq_some_iff hmap hslots).mp found
      exact List.getElem?_append_left (each x hx).1
  · rw [hused] at mem
    exact List.getElem?_append_left (within slot (mem_filter.mp mem).2)

theorem allocate_larger_addOne : allocate 4 addOne = .ok ⟨[(⟨0⟩, 0), (⟨1⟩, 1), (⟨2⟩, 2)], [0, 1, 2]⟩ ∧
    Allocation.usedRegisters ⟨[(⟨0⟩, 0), (⟨1⟩, 1), (⟨2⟩, 2)], [0, 1, 2]⟩ ["a", "b", "c", "d"] =
      ["a", "b", "c"] := by
  have front : ["a", "b", "c"] <+: ["a", "b", "c", "d"] := ⟨["d"], rfl⟩
  have larger := allocate_larger front (f := addOne) (by cbv)
  exact ⟨larger.1, larger.2.2⟩

end Allocation

end MiniC
