import Mathlib.Order.Defs.Unbundled

/-!
# Actions along a relation

An action on a state goes along a relation if it relates the state before to the state after,
whether the action succeeds or fails. For a preorder this is checked piece by piece.
-/

namespace ShaderModule

/-- The state that an action leaves, whether it succeeded or not. -/
def after {ε σ α : Type} : EStateM.Result ε σ α → σ
  | .ok _ s => s
  | .error _ s => s

/-- Whatever becomes of the action, `R` leads from the state before to the state after. -/
def Along {ε σ α : Type} (R : σ → σ → Prop) (a : EStateM ε σ α) : Prop := ∀ s, R s (after (a s))

section

variable {ε σ α β : Type}

/-- An action succeeds in two parts if it succeeds in one after the other. -/
theorem action_bind_eq_ok {a : EStateM ε σ α} {f : α → EStateM ε σ β} {s t : σ} {y : β} :
    (a >>= f) s = .ok y t ↔ ∃ x u, a s = .ok x u ∧ f x u = .ok y t := by
  simp only [Bind.bind, EStateM.bind]
  cases a s with
  | ok x u =>
    constructor
    · intro h
      exact ⟨x, u, rfl, h⟩
    · rintro ⟨x', u', h', h⟩
      cases h'
      exact h
  | error e u => simp

/-- An action fails in two parts if the first one fails, or the second one after the first. -/
theorem action_bind_eq_error {a : EStateM ε σ α} {f : α → EStateM ε σ β} {s t : σ} {e : ε} :
    (a >>= f) s = .error e t ↔ a s = .error e t ∨ ∃ x u, a s = .ok x u ∧ f x u = .error e t := by
  simp only [Bind.bind, EStateM.bind]
  cases a s with
  | ok x u =>
    constructor
    · intro h
      exact .inr ⟨x, u, rfl, h⟩
    · rintro (h | ⟨x', u', h', h⟩)
      · cases h
      · cases h'
        exact h
  | error e' u => simp

/-- A run over a list goes on after its first action. -/
theorem action_mapM_cons {a : α → EStateM ε σ β} {x : α} {xs : List α} {s t u : σ} {y : β} {ys : List β}
    (h : a x s = .ok y t) (hs : xs.mapM a t = .ok ys u) : (x :: xs).mapM a s = .ok (y :: ys) u := by
  rw [List.mapM_cons]
  exact action_bind_eq_ok.2 ⟨y, t, h, action_bind_eq_ok.2 ⟨ys, u, hs, rfl⟩⟩

/-- A run over a list fails at one of its actions, after those before it have succeeded. -/
theorem exists_of_action_forM_eq_error {a : α → EStateM ε σ PUnit} {xs : List α} {s t : σ} {e : ε}
    (h : xs.forM a s = .error e t) :
    ∃ done x rest u, xs = done ++ x :: rest ∧ done.forM a s = .ok () u ∧ a x u = .error e t := by
  induction xs generalizing s with
  | nil => cases h
  | cons x xs ih =>
    rcases action_bind_eq_error.1 h with h | ⟨⟨⟩, u, hx, h⟩
    · exact ⟨[], x, xs, s, rfl, rfl, h⟩
    · obtain ⟨done, y, rest, v, rfl, hdone, hy⟩ := ih h
      exact ⟨x :: done, y, rest, v, rfl, action_bind_eq_ok.2 ⟨(), u, hx, hdone⟩, hy⟩

/-- An action that looks at the state first. -/
theorem get_bind_eq (f : σ → EStateM ε σ β) (s : σ) : (get >>= f) s = f s s := rfl

theorem after_modify (f : σ → σ) (s : σ) : after ((modify f : EStateM ε σ PUnit) s) = f s := rfl

/-- What an action succeeds with does not depend on how its errors are named. -/
theorem adaptExcept_eq_ok {ε' : Type} {f : ε → ε'} {a : EStateM ε σ α} {s t : σ} {x : α} :
    EStateM.adaptExcept f a s = .ok x t ↔ a s = .ok x t := by
  simp only [EStateM.adaptExcept]
  cases a s <;> simp

theorem eq_error_of_adaptExcept {ε' : Type} {f : ε → ε'} {a : EStateM ε σ α} {s t : σ} {e' : ε'}
    (h : EStateM.adaptExcept f a s = .error e' t) : ∃ e, a s = .error e t := by
  simp only [EStateM.adaptExcept] at h
  cases ha : a s with
  | ok y u =>
    rw [ha] at h
    cases h
  | error e u =>
    rw [ha] at h
    cases h
    exact ⟨e, rfl⟩

/-- Whether an action succeeds, and with what, can be seen by running it. -/
instance decidableExistsOk {P : α → σ → Prop} [∀ x s, Decidable (P x s)] :
    ∀ r : EStateM.Result ε σ α, Decidable (∃ x s, r = .ok x s ∧ P x s)
  | .ok x s => decidable_of_iff (P x s) ⟨fun h => ⟨x, s, rfl, h⟩, by rintro ⟨_, _, ⟨⟩, h⟩; exact h⟩
  | .error _ _ => .isFalse (by simp)

/-- Whether an action fails, and how, can be seen as well. -/
instance decidableExistsError {P : ε → σ → Prop} [∀ e s, Decidable (P e s)] :
    ∀ r : EStateM.Result ε σ α, Decidable (∃ e s, r = .error e s ∧ P e s)
  | .error e s => decidable_of_iff (P e s) ⟨fun h => ⟨e, s, rfl, h⟩, by rintro ⟨_, _, ⟨⟩, h⟩; exact h⟩
  | .ok _ _ => .isFalse (by simp)

end

namespace Along

variable {ε σ α β : Type} {R : σ → σ → Prop}

section

variable [Std.Refl R]

theorem pure (x : α) : Along R (pure x : EStateM ε σ α) := fun s => refl_of R s

theorem get : Along R (get : EStateM ε σ σ) := fun s => refl_of R s

theorem throw (e : ε) : Along R (throw e : EStateM ε σ α) := fun s => refl_of R s

end

theorem modify {f : σ → σ} (hf : ∀ s, R s (f s)) : Along R (modify f : EStateM ε σ PUnit) := hf

theorem adaptExcept {ε' : Type} {f : ε → ε'} {a : EStateM ε σ α} (ha : Along R a) :
    Along R (EStateM.adaptExcept f a) := by
  intro s
  have hs := ha s
  unfold EStateM.adaptExcept
  cases hr : a s with
  | ok x t =>
    rw [hr] at hs
    exact hs
  | error e t =>
    rw [hr] at hs
    exact hs

variable [IsTrans σ R]

theorem bind {a : EStateM ε σ α} {f : α → EStateM ε σ β} (ha : Along R a) (hf : ∀ x, Along R (f x)) :
    Along R (a >>= f) := by
  intro s
  have hs := ha s
  simp only [Bind.bind, EStateM.bind]
  cases hr : a s with
  | ok x t =>
    rw [hr] at hs
    exact trans_of R hs (hf x t)
  | error e t =>
    rw [hr] at hs
    exact hs

variable [Std.Refl R]

theorem discard {a : EStateM ε σ α} (ha : Along R a) : Along R (discard a) := .bind ha fun _ => .pure _

theorem forM_of_mem {f : α → EStateM ε σ PUnit} :
    ∀ {xs : List α}, (∀ x ∈ xs, Along R (f x)) → Along R (xs.forM f)
  | [], _ => .pure _
  | x :: _, hf =>
    .bind (hf x List.mem_cons_self) fun _ => forM_of_mem fun y hy => hf y (List.mem_cons_of_mem x hy)

theorem forM {f : α → EStateM ε σ PUnit} (hf : ∀ x, Along R (f x)) (xs : List α) :
    Along R (xs.forM f) :=
  forM_of_mem fun x _ => hf x

theorem mapM {f : α → EStateM ε σ β} (hf : ∀ x, Along R (f x)) : ∀ xs : List α, Along R (xs.mapM f)
  | [] => by
    rw [List.mapM_nil]
    exact .pure _
  | x :: xs => by
    rw [List.mapM_cons]
    exact .bind (hf x) fun _ => .bind (.mapM hf xs) fun _ => .pure _

/-- An action that leaves the state as it is goes along any relation that states have to themselves. -/
theorem of_eq {R : σ → σ → Prop} [Std.Refl R] {a : EStateM ε σ α} (ha : Along (· = ·) a) : Along R a :=
  fun s => ha s ▸ refl_of R s

end Along

/-! ## All or nothing -/

section

variable {ε σ α β : Type}

/-- If the action fails, the state is as it was. -/
def Atomic (a : EStateM ε σ α) : Prop := ∀ s t e, a s = .error e t → t = s

/-- The action fails in no state. -/
def NeverFails (a : EStateM ε σ α) : Prop := ∀ s, ∃ x t, a s = .ok x t

namespace NeverFails

theorem pure (x : α) : NeverFails (pure x : EStateM ε σ α) := fun s => ⟨x, s, rfl⟩

theorem modify (f : σ → σ) : NeverFails (modify f : EStateM ε σ PUnit) := fun s => ⟨⟨⟩, f s, rfl⟩

theorem bind {a : EStateM ε σ α} {f : α → EStateM ε σ β} (ha : NeverFails a) (hf : ∀ x, NeverFails (f x)) :
    NeverFails (a >>= f) := by
  intro s
  obtain ⟨x, t, hx⟩ := ha s
  obtain ⟨y, u, hy⟩ := hf x t
  exact ⟨y, u, action_bind_eq_ok.2 ⟨x, t, hx, hy⟩⟩

theorem atomic {a : EStateM ε σ α} (ha : NeverFails a) : Atomic a := by
  intro s t e h
  obtain ⟨x, u, hx⟩ := ha s
  cases hx.symm.trans h

end NeverFails

/-- What has only been looked at before an action is as it was if the action fails. -/
theorem Atomic.bind {a : EStateM ε σ α} {f : α → EStateM ε σ β} (ha : Along (· = ·) a) (hf : ∀ x, Atomic (f x)) :
    Atomic (a >>= f) := by
  intro s t e h
  have hs := ha s
  rcases action_bind_eq_error.1 h with h | ⟨x, u, hx, h⟩
  · rw [h] at hs
    exact hs.symm
  · rw [hx] at hs
    obtain rfl : s = u := hs
    exact hf x s t e h

end

end ShaderModule
