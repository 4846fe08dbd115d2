import RowML.Fuelled
import Mathlib.Data.List.Forall2

/-!
# What computations do to their state

Every computation of the library runs over a state and may run out of fuel or fail; a failure keeps
the state.  A discipline says which states are in order and how a state may grow.  `Yields` is the
statement that a computation obeys a discipline and that its result, if there is one, has a property
together with the state it leaves.
-/

namespace RowML

/-- A monad whose computations run from states in `σ`: `none` says that the fuel ran out, a result
`none` that the computation failed. -/
class Executes (m : Type → Type) (σ : outParam Type) [Monad m] where
  exec : {α : Type} → m α → σ → Option (Option α × σ)
  exec_pure : ∀ {α : Type} (a : α) (s : σ), exec (pure a) s = some (some a, s)
  exec_bind : ∀ {α β : Type} (x : m α) (f : α → m β) (s : σ),
    exec (x >>= f) s =
      match exec x s with
      | none => none
      | some (none, s') => some (none, s')
      | some (some a, s') => exec (f a) s'

export Executes (exec exec_pure exec_bind)

attribute [simp] exec_pure

instance : Executes Id Unit where
  exec x _ := some (some x.run, ())
  exec_pure _ _ := rfl
  exec_bind _ _ _ := rfl

instance : Executes Option Unit where
  exec x _ := x.map fun a => (some a, ())
  exec_pure _ _ := rfl
  exec_bind x _ _ := by cases x <;> rfl

instance {σ : Type} : Executes (StateT σ Id) σ where
  exec x s := some (some (x s).run.1, (x s).run.2)
  exec_pure _ _ := rfl
  exec_bind _ _ _ := rfl

instance {σ : Type} : Executes (StateT σ Option) σ where
  exec x s := (x s).map fun r => (some r.1, r.2)
  exec_pure _ _ := rfl
  exec_bind x f s := by
    change ((x s).bind fun r => f r.1 r.2).map _ = _
    cases x s <;> rfl

theorem exec_of_run {σ α : Type} {x : StateT σ Option α} {s s' : σ} {a : α}
    (h : x s = some (a, s')) : exec x s = some (some a, s') :=
  congrArg (Option.map fun r => (some r.1, r.2)) h

theorem run_of_exec {σ α : Type} {x : StateT σ Option α} {s s' : σ} {a : α}
    (h : exec x s = some (some a, s')) : x s = some (a, s') := by
  obtain ⟨⟨b, s⟩, hb, heq⟩ := Option.map_eq_some_iff.mp h
  cases heq
  exact hb

instance {τ σ : Type} : Executes (StateT τ (StateT σ Option)) (τ × σ) where
  exec x s := (x s.1 s.2).map fun r => (some r.1.1, r.1.2, r.2)
  exec_pure _ _ := rfl
  exec_bind x f s := by
    change ((x s.1 s.2).bind fun r => f r.1.1 r.1.2 r.2).map _ = _
    cases x s.1 s.2 <;> rfl

/-- The result of a computation that has failed or not. -/
def succeeded {ε α : Type} : Except ε α → Option α
  | .ok a => some a
  | .error _ => none

instance {m : Type → Type} {σ ε : Type} [Monad m] [Executes m σ] : Executes (ExceptT ε m) σ where
  exec x s := (exec (m := m) x.run s).map fun r => (r.1.bind succeeded, r.2)
  exec_pure a s := by
    change (exec (m := m) (pure (Except.ok a)) s).map _ = _
    simp [succeeded]
  exec_bind x f s := by
    change (exec (m := m) (x.run >>= ExceptT.bindCont f) s).map _ = _
    rw [exec_bind]
    rcases exec (m := m) x.run s with _ | ⟨_ | _ | a, s'⟩
    · rfl
    · rfl
    · change (exec (m := m) (pure _) s').map _ = _
      simp [succeeded]
    · rfl

/-- Which states are in order, and how a state may grow. -/
structure Discipline (σ : Type) where
  Ok : σ → Prop
  Grows : σ → σ → Prop
  refl : ∀ s, Ok s → Grows s s
  trans : ∀ {s s' s''}, Ok s → Ok s' → Ok s'' → Grows s s' → Grows s' s'' → Grows s s''

/-- The discipline of computations whose state does not matter. -/
def Discipline.indifferent (σ : Type) : Discipline σ where
  Ok _ := True
  Grows _ _ := True
  refl _ _ := trivial
  trans _ _ _ _ _ := trivial

/-- The discipline of computations that leave the state alone. -/
def Discipline.still (σ : Type) : Discipline σ where
  Ok _ := True
  Grows s s' := s' = s
  refl _ _ := rfl
  trans _ _ _ h h' := h'.trans h

section Yields

variable {m : Type → Type} {σ : Type} [Monad m] [Executes m σ] {α β : Type} {D : Discipline σ}

/-- From `s`, the computation `x` keeps to the discipline, and a result has the property `Post`. -/
def Yields (D : Discipline σ) (s : σ) (x : m α) (Post : α → σ → Prop) : Prop :=
  ∀ r s', exec x s = some (r, s') → D.Ok s' ∧ D.Grows s s' ∧ ∀ a, r = some a → Post a s'

namespace Yields

theorem pure {s : σ} {a : α} {Post : α → σ → Prop} (ok : D.Ok s) (h : Post a s) :
    Yields D s (Pure.pure a : m α) Post := by
  intro r s' hexec
  rw [exec_pure] at hexec
  cases hexec
  refine ⟨ok, D.refl _ ok, ?_⟩
  rintro _ ⟨⟩
  exact h

theorem bind {s : σ} {x : m α} {f : α → m β} {Mid : α → σ → Prop} {Post : β → σ → Prop}
    (ok : D.Ok s) (hx : Yields D s x Mid)
    (hf : ∀ a s', D.Ok s' → D.Grows s s' → Mid a s' → Yields D s' (f a) Post) :
    Yields D s (x >>= f) Post := by
  intro r s'' hexec
  rw [exec_bind] at hexec
  rcases hrun : exec x s with _ | ⟨_ | a, s'⟩
  · rw [hrun] at hexec
    cases hexec
  · rw [hrun] at hexec
    cases hexec
    obtain ⟨ok', grows, -⟩ := hx _ _ hrun
    refine ⟨ok', grows, ?_⟩
    rintro _ ⟨⟩
  · rw [hrun] at hexec
    obtain ⟨ok', grows, mid⟩ := hx _ _ hrun
    obtain ⟨ok'', grows', post⟩ := hf a s' ok' grows (mid a rfl) _ _ hexec
    exact ⟨ok'', D.trans ok ok' ok'' grows grows', post⟩

theorem of_exec {s s' : σ} {x : m α} {a : α} {Post : α → σ → Prop}
    (h : exec x s = some (some a, s')) (ok : D.Ok s') (grows : D.Grows s s') (post : Post a s') :
    Yields D s x Post := by
  intro r s'' hexec
  rw [h] at hexec
  cases hexec
  refine ⟨ok, grows, ?_⟩
  rintro _ ⟨⟩
  exact post

/-- A computation that starts with a step whose outcome is known. -/
theorem next {s s' : σ} {x : m α} {a : α} {f : α → m β} {Post : β → σ → Prop}
    (h : exec x s = some (some a, s')) (ok : D.Ok s) (ok' : D.Ok s') (grows : D.Grows s s')
    (hf : Yields D s' (f a) Post) : Yields D s (x >>= f) Post := by
  have hx : Yields D s x fun b t => b = a ∧ t = s' := .of_exec h ok' grows ⟨rfl, rfl⟩
  refine Yields.bind ok hx ?_
  rintro _ _ - - ⟨rfl, rfl⟩
  exact hf

/-- A computation that starts by reading the state. -/
theorem read {s : σ} {x : m α} {a : α} {f : α → m β} {Post : β → σ → Prop}
    (h : exec x s = some (some a, s)) (ok : D.Ok s) (hf : Yields D s (f a) Post) :
    Yields D s (x >>= f) Post :=
  .next h ok ok (D.refl s ok) hf

theorem mono {s : σ} {x : m α} {Post Post' : α → σ → Prop} (hx : Yields D s x Post)
    (himp : ∀ a s', D.Ok s' → D.Grows s s' → Post a s' → Post' a s') : Yields D s x Post' := by
  intro r s' hexec
  obtain ⟨ok, grows, post⟩ := hx r s' hexec
  exact ⟨ok, grows, fun a ha => himp a s' ok grows (post a ha)⟩

theorem and {D' : Discipline σ} {s : σ} {x : m α} {Post Post' : α → σ → Prop}
    (hx : Yields D s x Post) (hx' : Yields D' s x Post') :
    Yields D s x fun a s' => Post a s' ∧ Post' a s' := by
  intro r s' hexec
  obtain ⟨ok, grows, post⟩ := hx r s' hexec
  exact ⟨ok, grows, fun a ha => ⟨post a ha, (hx' r s' hexec).2.2 a ha⟩⟩

/-- A computation that leaves the state alone keeps to every discipline. -/
theorem of_still {s : σ} {x : m α} {Post : α → σ → Prop} (h : Yields (.still σ) s x Post)
    (ok : D.Ok s) : Yields D s x fun a s' => s' = s ∧ Post a s' := by
  intro r s' hexec
  obtain ⟨-, rfl, post⟩ := h r s' hexec
  exact ⟨ok, D.refl _ ok, fun a ha => ⟨rfl, post a ha⟩⟩

theorem map [LawfulMonad m] {s : σ} {x : m α} {f : α → β} {Post : β → σ → Prop} (ok : D.Ok s)
    (hx : Yields D s x fun a s' => Post (f a) s') : Yields D s (f <$> x) Post := by
  rw [map_eq_pure_bind]
  exact Yields.bind ok hx fun a s' ok' _ h => Yields.pure ok' h

/-- Two computations that run alike. -/
theorem of_exec_eq {n : Type → Type} [Monad n] [Executes n σ] {s : σ} {x : m α} {y : n α}
    {Post : α → σ → Prop} (h : exec x s = exec y s) (hy : Yields D s y Post) :
    Yields D s x Post := by
  intro r s' hexec
  exact hy r s' (h ▸ hexec)

/-- A computation that does not end. -/
theorem of_none {s : σ} {x : m α} {Post : α → σ → Prop} (h : exec x s = none) :
    Yields D s x Post := by
  intro r s' hexec
  rw [h] at hexec
  cases hexec

/-- A computation that fails at once. -/
theorem of_failure {s : σ} {x : m α} {Post : α → σ → Prop} (ok : D.Ok s)
    (h : exec x s = some (none, s)) : Yields D s x Post := by
  intro r s' hexec
  rw [h] at hexec
  cases hexec
  refine ⟨ok, D.refl s ok, ?_⟩
  rintro _ ⟨⟩

theorem forM {s : σ} {xs : List β} {f : β → m PUnit} {Q : β → σ → Prop} (ok : D.Ok s)
    (grows_Q : ∀ {x s s'}, D.Ok s' → D.Grows s s' → Q x s → Q x s')
    (hf : ∀ x ∈ xs, ∀ s', D.Ok s' → D.Grows s s' → Yields D s' (f x) fun _ => Q x) :
    Yields D s (xs.forM f) fun _ s' => ∀ x ∈ xs, Q x s' := by
  induction xs generalizing s with
  | nil => exact Yields.pure ok (by simp)
  | cons x xs ih =>
    change Yields D s (f x >>= fun _ => xs.forM f) _
    refine Yields.bind ok (hf x (by simp) s ok (D.refl s ok)) fun _ s₁ ok₁ grows₁ hx => ?_
    have hrest := ih ok₁ fun y hy s₂ ok₂ grows₂ =>
      hf y (by simp [hy]) s₂ ok₂ (D.trans ok ok₁ ok₂ grows₁ grows₂)
    refine hrest.mono fun _ s₂ ok₂ grows₂ h => ?_
    exact List.forall_mem_cons.mpr ⟨grows_Q ok₂ grows₂ hx, h⟩

theorem mapM [LawfulMonad m] {s : σ} {xs : List β} {f : β → m α} {Q : β → α → σ → Prop}
    (ok : D.Ok s) (grows_Q : ∀ {x y s s'}, D.Ok s' → D.Grows s s' → Q x y s → Q x y s')
    (hf : ∀ x ∈ xs, ∀ s', D.Ok s' → D.Grows s s' → Yields D s' (f x) (Q x)) :
    Yields D s (xs.mapM f) fun ys s' => List.Forall₂ (fun x y => Q x y s') xs ys := by
  induction xs generalizing s with
  | nil => exact Yields.pure ok .nil
  | cons x xs ih =>
    rw [List.mapM_cons]
    refine Yields.bind ok (hf x (by simp) s ok (D.refl s ok)) fun y s₁ ok₁ grows₁ hx => ?_
    have hrest := ih ok₁ fun z hz s₂ ok₂ grows₂ =>
      hf z (by simp [hz]) s₂ ok₂ (D.trans ok ok₁ ok₂ grows₁ grows₂)
    refine Yields.bind ok₁ hrest fun ys s₂ ok₂ grows₂ h => ?_
    exact Yields.pure ok₂ (.cons (grows_Q ok₂ grows₂ hx) h)

end Yields

end Yields

end RowML
