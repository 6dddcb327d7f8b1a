import Mathlib.Data.List.Forall2
import Mathlib.Tactic.Common

/-!
# Outcomes of computations that may fail

What is known of the parts of a computation once its outcome is known.
-/
namespace GraphQLClient.Outcome

variable {ε ε' α β : Type}

@[simp] theorem pure_eq_ok {a b : α} : (pure a : Except ε α) = .ok b ↔ a = b :=
  ⟨fun h => Except.ok.inj h, fun h => h ▸ rfl⟩

@[simp] theorem pure_ne_error {a : α} {e : ε} : (pure a : Except ε α) ≠ .error e := nofun

@[simp] theorem throw_eq_error {e e' : ε} : (throw e : Except ε α) = .error e' ↔ e = e' :=
  ⟨fun h => Except.error.inj h, fun h => h ▸ rfl⟩

@[simp] theorem bind_eq_ok {x : Except ε α} {f : α → Except ε β} {b : β} :
    x >>= f = .ok b ↔ ∃ a, x = .ok a ∧ f a = .ok b := by
  cases x with
  | error e => exact ⟨nofun, fun ⟨_, h, _⟩ => nomatch h⟩
  | ok a => exact ⟨fun h => ⟨a, rfl, h⟩, fun ⟨_, ha, h⟩ => Except.ok.inj ha ▸ h⟩

@[simp] theorem bind_eq_error {x : Except ε α} {f : α → Except ε β} {e : ε} :
    x >>= f = .error e ↔ x = .error e ∨ ∃ a, x = .ok a ∧ f a = .error e := by
  cases x with
  | error e' =>
    constructor
    · intro h; cases h; exact Or.inl rfl
    · rintro (h | ⟨_, h, _⟩)
      · cases h; rfl
      · cases h
  | ok a =>
    constructor
    · intro h; exact Or.inr ⟨a, rfl, h⟩
    · rintro (h | ⟨_, ha, h⟩)
      · cases h
      · cases ha; exact h

/-- What follows a computation is asked only about its result. -/
theorem bind_congr_ok {x : Except ε α} {f g : α → Except ε β} (h : ∀ a, x = .ok a → f a = g a) :
    x >>= f = x >>= g := by
  cases x with
  | error e => rfl
  | ok a => exact h a rfl

@[simp] theorem mapError_eq_ok {x : Except ε α} {f : ε → ε'} {a : α} :
    x.mapError f = .ok a ↔ x = .ok a := by
  cases x <;> simp [Except.mapError]

@[simp] theorem mapError_eq_error {x : Except ε α} {f : ε → ε'} {e : ε'} :
    x.mapError f = .error e ↔ ∃ e', x = .error e' ∧ f e' = e := by
  cases x <;> simp [Except.mapError]

@[simp] theorem map_eq_ok {x : Except ε α} {f : α → β} {b : β} :
    x.map f = .ok b ↔ ∃ a, x = .ok a ∧ f a = b := by
  cases x <;> simp [Except.map]

@[simp] theorem map_eq_error {x : Except ε α} {f : α → β} {e : ε} :
    x.map f = .error e ↔ x = .error e := by
  cases x <;> simp [Except.map]

@[simp] theorem toOption_eq_some {x : Except ε α} {a : α} : x.toOption = some a ↔ x = .ok a := by
  cases x <;> simp [Except.toOption]

section Traversal

variable {f : α → Except ε β} {xs : List α} {ys : List β} {e : ε}

theorem mapM_ok (h : xs.mapM f = .ok ys) :
    ys.length = xs.length ∧ ∀ (i : Nat) x, xs[i]? = some x →
    ∃ y, ys[i]? = some y ∧ f x = .ok y := by
  induction xs generalizing ys with
  | nil =>
    cases h
    exact ⟨rfl, nofun⟩
  | cons first rest ih =>
    rw [List.mapM_cons] at h
    obtain ⟨y, hy, h⟩ := bind_eq_ok.mp h
    obtain ⟨others, hothers, h⟩ := bind_eq_ok.mp h
    cases h
    obtain ⟨hlength, hrest⟩ := ih hothers
    refine ⟨congrArg (· + 1) hlength, ?_⟩
    intro i x hx
    cases i with
    | zero =>
      cases hx
      exact ⟨y, rfl, hy⟩
    | succ i => exact hrest i x hx

/-- A failure comes from the first element that fails. -/
theorem mapM_error (h : xs.mapM f = .error e) :
    ∃ (i : Nat) (x : α), xs[i]? = some x ∧ f x = .error e ∧
      ∀ j < i, ∀ x, xs[j]? = some x → ∃ y, f x = .ok y := by
  induction xs with
  | nil => cases h
  | cons first rest ih =>
    rw [List.mapM_cons] at h
    rcases bind_eq_error.mp h with h | ⟨y, hy, h⟩
    · exact ⟨0, first, rfl, h, nofun⟩
    rcases bind_eq_error.mp h with h | ⟨others, -, h⟩
    · obtain ⟨i, x, hx, herror, hbefore⟩ := ih h
      refine ⟨i + 1, x, hx, herror, ?_⟩
      intro j hj x hx
      cases j with
      | zero =>
        cases hx
        exact ⟨y, hy⟩
      | succ j => exact hbefore j (Nat.lt_of_succ_lt_succ hj) x hx
    · cases h

theorem mapM_eq_ok (h : List.Forall₂ (fun x y => f x = .ok y) xs ys) : xs.mapM f = .ok ys := by
  induction h with
  | nil => rfl
  | cons hfirst _ ih =>
    rw [List.mapM_cons, hfirst, ih]
    rfl

theorem mapM_self {f : α → Except ε α} (h : ∀ x ∈ xs, f x = .ok x) : xs.mapM f = .ok xs :=
  mapM_eq_ok (List.forall₂_same.mpr h)

/-- Elements may be changed first where the results are changed the same way. -/
theorem mapM_map_of_comm {g : α → α} {k : β → β} (h : ∀ x, f (g x) = (f x).map k) (xs : List α) :
    (xs.map g).mapM f = (xs.mapM f).map (List.map k) := by
  induction xs with
  | nil => rfl
  | cons first rest ih =>
    rw [List.map_cons, List.mapM_cons, List.mapM_cons, h, ih]
    cases f first with
    | error e => rfl
    | ok y => cases rest.mapM f <;> rfl

theorem foldlM_concat {step : β → α → Except ε β} {x : α} {start last y : β}
    (h : xs.foldlM step start = .ok y) (hlast : step y x = .ok last) :
    (xs ++ [x]).foldlM step start = .ok last := by
  rw [List.foldlM_append, h]
  exact (congrArg (· >>= pure) hlast).trans rfl

end Traversal

end GraphQLClient.Outcome
