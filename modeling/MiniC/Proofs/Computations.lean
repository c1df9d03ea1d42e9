/-!
# Steps that may fail

When a step that may fail, or that works on a state and may fail, gives a result.
-/

namespace MiniC

variable {ε σ α β : Type}

theorem bind_eq_ok {x : Except ε α} {f : α → Except ε β} {b : β} :
    (x >>= f) = .ok b ↔ ∃ a, x = .ok a ∧ f a = .ok b := by
  cases x with
  | ok a => exact ⟨fun h => ⟨a, rfl, h⟩, fun ⟨_, same, h⟩ => by cases same; exact h⟩
  | error e => exact ⟨nofun, fun ⟨_, same, _⟩ => by cases same⟩

theorem pure_eq_ok {a b : α} : (pure a : Except ε α) = .ok b ↔ a = b :=
  ⟨fun h => by cases h; rfl, fun h => by rw [h]; rfl⟩

theorem mapError_eq_ok {δ : Type} {x : Except ε α} {f : ε → δ} {a : α} :
    x.mapError f = .ok a ↔ x = .ok a := by
  cases x with
  | error => exact ⟨nofun, nofun⟩
  | ok => exact ⟨fun same => by cases same; rfl, fun same => by cases same; rfl⟩

theorem eq_ok_of_toOption {r : Except ε α} {a : α} (h : r.toOption = some a) : r = .ok a := by
  cases r with
  | error => cases h
  | ok => cases h; rfl

theorem do_eq_some {x : Option α} {f : α → Option β} {b : β} :
    (x >>= f) = some b ↔ ∃ a, x = some a ∧ f a = some b :=
  Option.bind_eq_some_iff

variable {s s' : σ} {a : α}

@[simp] theorem bind_eq_some {x : StateT σ Option α} {f : α → StateT σ Option β} {b : β} :
    (x >>= f) s = some (b, s') ↔ ∃ a t, x s = some (a, t) ∧ f a t = some (b, s') := by
  change (x s).bind _ = _ ↔ _
  rw [Option.bind_eq_some_iff]
  constructor
  · rintro ⟨⟨a, t⟩, first, rest⟩
    exact ⟨a, t, first, rest⟩
  · rintro ⟨a, t, first, rest⟩
    exact ⟨(a, t), first, rest⟩

@[simp] theorem pure_eq_some {b : α} :
    (pure a : StateT σ Option α) s = some (b, s') ↔ a = b ∧ s = s' := by
  change some (a, s) = some (b, s') ↔ _
  rw [Option.some.injEq, Prod.mk.injEq]

theorem map_eq_some {x : StateT σ Option α} {f : α → β} {b : β} :
    (x >>= fun a => pure (f a)) s = some (b, s') ↔ ∃ a, x s = some (a, s') ∧ f a = b := by
  simp only [bind_eq_some, pure_eq_some]
  exact ⟨fun ⟨a, _, run, made, same⟩ => ⟨a, same ▸ run, made⟩,
    fun ⟨a, run, made⟩ => ⟨a, s', run, made, rfl⟩⟩

@[simp] theorem lift_eq_some {o : Option α} :
    (liftM o : StateT σ Option α) s = some (a, s') ↔ o = some a ∧ s = s' := by
  cases o with
  | none => exact ⟨nofun, nofun⟩
  | some a' =>
    change some (a', s) = some (a, s') ↔ _
    rw [Option.some.injEq, Prod.mk.injEq, Option.some.injEq]

end MiniC
