import MiniC.Proofs.LinearScan
import MiniC.Proofs.Lowering.Liveness
import MiniC.Proofs.Lowering.Preservation

/-!
# Allocation is right on every path

Linear scan looks at the text alone: two registers that span a common place of the text get
different registers of the bank. In lowered code this is enough for every path through the
blocks. By its plan, a register that is live on a path has been written before in the text and is
read further on, so it spans each place that the path goes through in between.
-/

namespace MiniC

open List

namespace Ir.Function

variable {f : Function} {v w : VReg} {k j : Nat} {before : List Nat} {held : Nat → List VReg}

def Path (f : Function) (before : List Nat) (k : Nat) : Prop :=
  (before ++ [k]).head? = some 0 ∧ (before ++ [k]).IsChain f.Edge

instance : Decidable (f.Path before k) := inferInstanceAs (Decidable (_ ∧ _))

theorem path_nil : f.Path [] k ↔ k = 0 := by simp [Path]

theorem path_concat : f.Path (before ++ [j]) k ↔ f.Path before j ∧ f.Edge j k := by
  simp only [Path, append_assoc, singleton_append, isChain_append_cons_cons,
    isChain_singleton, and_true]
  cases before <;> simp [and_assoc]

theorem Path.appears (plan : f.Plan held) (path : f.Path before k) (live : f.Live v k) :
    ∃ j, j ≤ k ∧ f.Appears v j := by
  induction before using List.reverseRecOn generalizing k with
  | nil =>
    rw [path_nil] at path
    subst path
    exact ⟨0, Nat.le_refl 0, plan.start (live.mem plan)⟩
  | append_singleton before j ih =>
    obtain ⟨path, edge⟩ := path_concat.mp path
    have forward := plan.forward edge (live.mem plan)
    by_cases write : f.Writes j v
    · obtain ⟨i, here, writes⟩ := write
      exact ⟨j + 1, forward, i, here, .inr writes⟩
    · obtain ⟨l, le, appears⟩ := ih path (.later edge write live)
      exact ⟨l, le.trans forward.le, appears⟩

theorem Path.spans (plan : f.Plan held) (path : f.Path before k) (edge : f.Edge k j)
    (live : f.Live v j) (kept : ¬ f.Writes k v) : f.Spans v (k + 1) := by
  have forward := plan.forward edge (live.mem plan)
  obtain ⟨l, le, appears⟩ := path.appears plan (.later edge kept live)
  obtain ⟨m, after, i, here, read⟩ := live.ahead plan
  exact ⟨⟨l, le.trans (Nat.le_succ k), appears⟩, m + 1, by omega, i, here, .inl read⟩

/-- Where the value of a register comes from on a path that has gone through some places: the
last of them wrote it, or there are none and it is a parameter. -/
def Supplied (f : Function) (v : VReg) (before : List Nat) : Prop :=
  before = [] ∧ v ∈ f.params ∨ ∃ k, before.getLast? = some k ∧ f.Writes k v

end Ir.Function

namespace Allocation

open Ir

variable {R : Type} {bank : List R} {f : Ir.Function} {a : Allocation} {v w : VReg} {k j : Nat}
  {before : List Nat} {held : Nat → List VReg}

theorem register?_ne_of_live (given : allocate bank.length f = .ok a) (distinct : bank.Nodup)
    (plan : f.Plan held) (path : f.Path before k) (edge : f.Edge k j) (live : f.Live v j)
    (write : f.Writes k w) (different : w ≠ v) : a.register? bank w ≠ a.register? bank v := by
  obtain ⟨i, here, writes⟩ := write
  have kept : ¬ f.Writes k v := by
    rintro ⟨i', here', writes'⟩
    cases here.symm.trans here'
    exact different (Option.some.inj (writes.symm.trans writes'))
  have appears : f.Appears w (k + 1) := ⟨i, here, .inr writes⟩
  exact register?_ne given distinct different appears.spans (path.spans plan edge live kept)

/-- A live value was supplied on the way, and its register has not been written since. -/
theorem supplied_of_live (given : allocate bank.length f = .ok a) (distinct : bank.Nodup)
    (plan : f.Plan held) (path : f.Path before k) (live : f.Live v k) :
    ∃ first rest, before = first ++ rest ∧ f.Supplied v first ∧
      ∀ e ∈ rest, ∀ w, f.Writes e w → w ≠ v ∧ a.register? bank w ≠ a.register? bank v := by
  induction before using List.reverseRecOn generalizing k with
  | nil =>
    rw [Function.path_nil] at path
    subst path
    exact ⟨[], [], rfl, .inl ⟨rfl, plan.start (live.mem plan)⟩, nofun⟩
  | append_singleton before j ih =>
    obtain ⟨path, edge⟩ := Function.path_concat.mp path
    by_cases write : f.Writes j v
    · exact ⟨before ++ [j], [], (append_nil _).symm, .inr ⟨j, List.getLast?_concat, write⟩, nofun⟩
    · obtain ⟨first, rest, rfl, supplied, kept⟩ := ih path (.later edge write live)
      refine ⟨first, rest ++ [j], append_assoc .., supplied, fun e mem w writes => ?_⟩
      rcases mem_append.mp mem with mem | mem
      · exact kept e mem w writes
      · cases mem_singleton.mp mem
        have different : w ≠ v := by
          rintro rfl
          exact write writes
        exact ⟨different, register?_ne_of_live given distinct plan path edge live writes different⟩

end Allocation

/-- **Allocation is right on every path.** Take a function that was lowered and a bank of distinct
registers that has room for it. Whenever control has come to an instruction that reads a virtual
register, that register was written on the way or is a parameter. It has not been written again
since, and no other virtual register that was given the same register of the bank has. -/
theorem allocate_sound_on_paths {q : Program} {gs : List Ir.Function} (lowered : lower q = .ok gs)
    {g : Ir.Function} (mem : g ∈ gs) {R : Type} {bank : List R} (distinct : bank.Nodup)
    {a : Allocation} (given : Allocation.allocate bank.length g = .ok a)
    {before : List Nat} {k : Nat} (path : g.Path before k) {v : Ir.VReg} (read : g.Reads k v) :
    (∃ r, a.register? bank v = some r) ∧
    ∃ first rest, before = first ++ rest ∧ g.Supplied v first ∧
      ∀ e ∈ rest, ∀ w, g.Writes e w → w ≠ v ∧ a.register? bank w ≠ a.register? bank v := by
  obtain ⟨f, -, code, -, lowered⟩ := exists_of_mem_lower lowered mem
  obtain ⟨held, plan⟩ := Ir.lowerFunction_plan lowered
  obtain ⟨i, here, use⟩ := read
  refine ⟨?_, Allocation.supplied_of_live given distinct plan path (.here ⟨i, here, use⟩)⟩
  rw [Allocation.register?_isSome_iff given]
  exact ⟨k + 1, i, here, .inl use⟩

/-! ## An example -/

def countdownBlocks? : Option (Program × List Ir.Function × Ir.Function) :=
  match countdown? with
  | none => none
  | some (_, q, _, _) =>
    match lower q with
    | .error _ => none
    | .ok gs => do return (q, gs, ← gs.head?)

/-- The instructions of `countdown`. The test of the loop starts at place 3, the arms of `&&` at
6 and 12 and their join at 14, the body at 15 and the rest at 23. -/
def countdownCode : List Ir.Instruction :=
  [.localAddr ⟨1⟩ 4, .store .dword ⟨1⟩ ⟨0⟩, .jump ⟨1⟩,
    .localAddr ⟨3⟩ 4, .load .dword ⟨4⟩ ⟨3⟩, .branch ⟨4⟩ ⟨4⟩ ⟨5⟩,
    .localAddr ⟨5⟩ 4, .load .dword ⟨6⟩ ⟨5⟩, .call .dword ⟨7⟩ "g" [⟨6⟩], .imm ⟨8⟩ 0,
    .binary .ne .qword ⟨2⟩ ⟨7⟩ ⟨8⟩, .jump ⟨6⟩,
    .imm ⟨2⟩ 0, .jump ⟨6⟩,
    .branch ⟨2⟩ ⟨2⟩ ⟨3⟩,
    .localAddr ⟨9⟩ 4, .localAddr ⟨10⟩ 4, .load .dword ⟨11⟩ ⟨10⟩, .imm ⟨12⟩ 1,
    .binary .sub .dword ⟨13⟩ ⟨11⟩ ⟨12⟩, .store .dword ⟨9⟩ ⟨13⟩, .cast .dword ⟨14⟩ ⟨13⟩, .jump ⟨1⟩,
    .localAddr ⟨15⟩ 4, .load .dword ⟨16⟩ ⟨15⟩, .ret (some ⟨16⟩)]

/-- A path that runs the loop once with the call and then comes back to its test, where the
result of `&&` is read. -/
def countdownPath : List Nat :=
  [0, 1, 2, 3, 4, 5, 6, 7, 8, 9, 10, 11, 14, 15, 16, 17, 18, 19, 20, 21, 22, 3, 4, 5, 12, 13]

theorem countdownBlocks?_path : countdownBlocks?.any fun x =>
    x.2.2.Path countdownPath 14 ∧ x.2.2.instructions = countdownCode ∧
      x.2.2.params = [⟨0⟩] ∧ x.2.2.pins = [(⟨0⟩, 0)] := by
  decide +kernel

theorem countdownBlocks?_eq_some {q : Program} {gs : List Ir.Function} {g : Ir.Function}
    (h : countdownBlocks? = some (q, gs, g)) : lower q = .ok gs ∧ g ∈ gs := by
  unfold countdownBlocks? at h
  split at h
  · cases h
  · split at h
    · cases h
    · rename_i gs' lowered
      obtain ⟨g', head, same⟩ := Option.bind_eq_some_iff.mp h
      cases same
      exact ⟨lowered, mem_of_mem_head? head⟩

theorem allocate_countdown {g : Ir.Function} (instructions : g.instructions = countdownCode)
    (params : g.params = [⟨0⟩]) (pins : g.pins = [(⟨0⟩, 0)]) :
    ∃ a, Allocation.allocate Asm.Reg.bank.length g = .ok a := by
  have pinned : g.pin? = fun v => if v = ⟨0⟩ then some 0 else none := by
    ext1 v
    by_cases first : v = ⟨0⟩
    · simp [Ir.Function.pin?, pins, first]
    · simp [Ir.Function.pin?, pins, first, Ne.symm first]
  unfold Allocation.allocate Allocation.intervals
  rw [instructions, params, pinned]
  exact ⟨_, by cbv⟩

theorem allocate_sound_on_paths_countdown : ∃ q gs g a, lower q = .ok gs ∧ g ∈ gs ∧
    Asm.Reg.bank.Nodup ∧ Allocation.allocate Asm.Reg.bank.length g = .ok a ∧
    g.Path countdownPath 14 ∧ g.Reads 14 ⟨2⟩ ∧ (∃ r, a.register? Asm.Reg.bank ⟨2⟩ = some r) ∧
    ∃ first rest, countdownPath = first ++ rest ∧ g.Supplied ⟨2⟩ first ∧
      ∀ e ∈ rest, ∀ w, g.Writes e w → w ≠ ⟨2⟩ ∧
        a.register? Asm.Reg.bank w ≠ a.register? Asm.Reg.bank ⟨2⟩ := by
  obtain ⟨⟨q, gs, g⟩, found, holds⟩ := (Option.any_eq_true ..).mp countdownBlocks?_path
  obtain ⟨path, instructions, params, pins⟩ := of_decide_eq_true holds
  obtain ⟨lowered, mem⟩ := countdownBlocks?_eq_some found
  obtain ⟨a, given⟩ := allocate_countdown instructions params pins
  have read : g.Reads 14 ⟨2⟩ := ⟨.branch ⟨2⟩ ⟨2⟩ ⟨3⟩, by rw [instructions]; rfl, by decide⟩
  exact ⟨q, gs, g, a, lowered, mem, by decide, given, path, read,
    allocate_sound_on_paths lowered mem (by decide) given path read⟩

end MiniC
