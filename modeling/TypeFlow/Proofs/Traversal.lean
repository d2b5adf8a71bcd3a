import Mathlib.Data.List.Forall2

/-! Steps that may fail, one after the other: what it comes to that all of them succeed, or that one
does not. -/

namespace TypeFlow

section Bind

variable {ε α β : Type}

theorem bind_eq_ok {x : Except ε α} {f : α → Except ε β} {y : β} :
    (x >>= f) = .ok y ↔ ∃ a, x = .ok a ∧ f a = .ok y := by
  cases x <;> simp [bind, Except.bind]

theorem bind_eq_error {x : Except ε α} {f : α → Except ε β} {e : ε} :
    (x >>= f) = .error e ↔ x = .error e ∨ ∃ a, x = .ok a ∧ f a = .error e := by
  cases x <;> simp [bind, Except.bind]

theorem map_eq_ok {x : Except ε α} {f : α → β} {y : β} :
    x.map f = .ok y ↔ ∃ a, x = .ok a ∧ f a = y := by
  cases x <;> simp [Except.map]

theorem map_eq_error {x : Except ε α} {f : α → β} {e : ε} : x.map f = .error e ↔ x = .error e := by
  cases x <;> simp [Except.map]

/-- A bind of computations that do nothing but fail is a bind of their results. -/
theorem exceptT_run_bind (x : ExceptT ε Id α) (f : α → ExceptT ε Id β) :
    (x >>= f).run = (Except.bind x.run fun a => (f a).run : Except ε β) := by
  rw [ExceptT.run_bind]
  cases x.run <;> rfl

theorem exceptT_bind_eq_error {x : ExceptT ε Id α} {f : α → ExceptT ε Id β} {e : ε} :
    (x >>= f).run = .error e ↔ x.run = .error e ∨ ∃ a, x.run = .ok a ∧ (f a).run = .error e := by
  rw [exceptT_run_bind]
  exact bind_eq_error

theorem run_bind_eq_ok {σ : Type} {x : EStateM ε σ α} {f : α → EStateM ε σ β} {s s' : σ} {y : β} :
    (x >>= f) s = .ok y s' ↔ ∃ a s₁, x s = .ok a s₁ ∧ f a s₁ = .ok y s' := by
  simp only [bind, EStateM.bind]
  cases x s <;> simp [and_assoc]

theorem run_bind_eq_error {σ : Type} {x : EStateM ε σ α} {f : α → EStateM ε σ β} {s s' : σ}
    {e : ε} : (x >>= f) s = .error e s' ↔
      x s = .error e s' ∨ ∃ a s₁, x s = .ok a s₁ ∧ f a s₁ = .error e s' := by
  simp only [bind, EStateM.bind]
  cases x s <;> simp [and_assoc]

end Bind

section Fold

variable {ε α β : Type} {f : β → α → Except ε β} {l : List α}

theorem foldlM_preserves {P : β → Prop}
    (step : ∀ b, ∀ x ∈ l, ∀ b', P b → f b x = .ok b' → P b') {b b' : β} (hb : P b)
    (h : l.foldlM f b = .ok b') : P b' := by
  induction l generalizing b with
  | nil =>
    cases h
    exact hb
  | cons x l ih =>
    rw [List.foldlM_cons] at h
    obtain ⟨b₁, hx, h⟩ := bind_eq_ok.mp h
    exact ih (fun b y hy => step b y (List.mem_cons_of_mem x hy))
      (step b x List.mem_cons_self b₁ hb hx) h

theorem exists_error_of_foldlM {b : β} {e : ε} (h : l.foldlM f b = .error e) :
    ∃ b x, f b x = .error e := by
  induction l generalizing b with
  | nil => cases h
  | cons x l ih =>
    rw [List.foldlM_cons] at h
    rcases bind_eq_error.mp h with hx | ⟨b', -, hrest⟩
    · exact ⟨b, x, hx⟩
    · exact ih hrest

end Fold

section Map

variable {α β : Type} {l : List α}

theorem mapM_eq_pure {m : Type → Type} [Monad m] [LawfulMonad m] {f : α → m β} {g : α → β}
    (h : ∀ x ∈ l, f x = pure (g x)) : l.mapM f = pure (l.map g) := by
  induction l with
  | nil => simp
  | cons x l ih =>
    obtain ⟨hx, hl⟩ := List.forall_mem_cons.mp h
    simp [hx, ih hl]

theorem mapM_eq_ok_iff {ε : Type} {f : α → Except ε β} {r : List β} :
    l.mapM f = .ok r ↔ List.Forall₂ (fun x y => f x = .ok y) l r := by
  constructor
  · intro h
    induction l generalizing r with
    | nil =>
      cases h
      exact .nil
    | cons x l ih =>
      rw [List.mapM_cons] at h
      obtain ⟨y, hy, h⟩ := bind_eq_ok.mp h
      obtain ⟨ys, hys, h⟩ := bind_eq_ok.mp h
      cases h
      exact .cons hy (ih hys)
  · intro h
    induction h with
    | nil => rfl
    | cons hx _ ih =>
      rw [List.mapM_cons, hx, ih]
      rfl

theorem exists_of_mem_left {R : α → β → Prop} {xs : List α} {ys : List β}
    (h : List.Forall₂ R xs ys) {x : α} (hx : x ∈ xs) : ∃ y ∈ ys, R x y := by
  induction h with
  | nil => cases hx
  | @cons a b xs ys hab hrest ih =>
    rcases List.mem_cons.mp hx with rfl | hx
    · exact ⟨b, List.mem_cons_self, hab⟩
    · obtain ⟨y, hy, hxy⟩ := ih hx
      exact ⟨y, List.mem_cons_of_mem b hy, hxy⟩

theorem mapM_eq_none_iff {f : α → Option β} : l.mapM f = none ↔ ∃ x ∈ l, f x = none := by
  induction l with
  | nil => simp
  | cons x l ih =>
    rw [List.exists_mem_cons_iff, ← ih]
    cases hx : f x with
    | none => simp [hx]
    | some y => cases hl : l.mapM f <;> simp [hx, hl]

theorem exists_mem_of_mapM {f : α → Option β} {ys : List β} (h : l.mapM f = some ys) {x : α}
    (hx : x ∈ l) : ∃ y ∈ ys, f x = some y := by
  induction l generalizing ys with
  | nil => cases hx
  | cons a l ih =>
    simp only [List.mapM_cons, Option.bind_eq_bind, Option.bind_eq_some_iff, Option.pure_def,
      Option.some.injEq] at h
    obtain ⟨y, hy, rest, hrest, rfl⟩ := h
    rcases List.mem_cons.mp hx with rfl | hx
    · exact ⟨y, List.mem_cons_self, hy⟩
    · obtain ⟨z, hz, hfound⟩ := ih hrest hx
      exact ⟨z, List.mem_cons_of_mem y hz, hfound⟩

theorem mapM_flatten_eq_nil_iff {f : α → Option (List β)} :
    (∃ reports, l.mapM f = some reports ∧ reports.flatten = []) ↔ ∀ x ∈ l, f x = some [] := by
  induction l with
  | nil => simp
  | cons x l ih =>
    simp only [List.mapM_cons, Option.bind_eq_bind, Option.bind_eq_some_iff, Option.pure_def,
      Option.some.injEq, List.forall_mem_cons, ← ih]
    constructor
    · rintro ⟨_, ⟨first, hf, others, ho, rfl⟩, hnil⟩
      obtain ⟨rfl, hn⟩ : first = [] ∧ others.flatten = [] := by simpa using hnil
      exact ⟨hf, others, ho, hn⟩
    · rintro ⟨hf, others, ho, hn⟩
      exact ⟨_, ⟨[], hf, others, ho, rfl⟩, by simpa using hn⟩

end Map

end TypeFlow
