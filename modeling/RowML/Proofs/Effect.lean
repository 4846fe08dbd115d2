import RowML.Fuelled
import Mathlib.Order.Defs.Unbundled

/-!
# Effects of computations

Where only the state matters, the results of a computation can be left out: the effect of a
computation is the relation between the states before and after its runs, those that fail included.
An effect that lies within a preorder is a property that passes from the steps of a computation to
the whole of it.
-/

namespace RowML

/-- Monads whose computations run over a state in `σ`. -/
class Affects (m : Type → Type) (σ : outParam Type) [Monad m] where
  /-- Some run of the computation leads from the first state to the second one. -/
  Effect : {α : Type} → m α → σ → σ → Prop
  effect_pure : ∀ {α : Type} {a : α} {s s' : σ}, Effect (pure a : m α) s s' → s' = s
  effect_bind : ∀ {α β : Type} {x : m α} {f : α → m β} {s s' : σ}, Effect (x >>= f) s s' →
    Effect x s s' ∨ ∃ a s₁, Effect x s s₁ ∧ Effect (f a) s₁ s'

export Affects (Effect effect_pure effect_bind)

instance {σ : Type} : Affects (StateT σ Id) σ where
  Effect x s s' := (x s).run.2 = s'
  effect_pure h := h.symm
  effect_bind h := .inr ⟨_, _, rfl, h⟩

instance {σ : Type} : Affects (StateT σ Option) σ where
  Effect x s s' := ∃ a, x s = some (a, s')
  effect_pure := by
    rintro α a s s' ⟨_, h⟩
    cases h
    rfl
  effect_bind := by
    rintro α β x f s s' ⟨b, h⟩
    obtain ⟨⟨a, s₁⟩, hx, hf⟩ := Option.bind_eq_some_iff.mp h
    exact .inr ⟨a, s₁, ⟨a, hx⟩, b, hf⟩

section Transformers

variable {m : Type → Type} {σ : Type} [Monad m] [Affects m σ]

instance {ε : Type} : Affects (ExceptT ε m) σ where
  Effect x := Effect (m := m) x.run
  effect_pure h := effect_pure (m := m) h
  effect_bind {α β x f s s'} h := by
    rcases effect_bind (m := m) h with h | ⟨r, s₁, hx, hf⟩
    · exact .inl h
    · cases r with
      | ok a => exact .inr ⟨a, s₁, hx, hf⟩
      | error e =>
        cases effect_pure (m := m) hf
        exact .inl hx

instance {ρ : Type} : Affects (ReaderT ρ m) σ where
  Effect x s s' := ∃ r, Effect (x.run r) s s'
  effect_pure := fun ⟨_, h⟩ => effect_pure (m := m) h
  effect_bind := by
    rintro α β x f s s' ⟨r, h⟩
    rcases effect_bind (m := m) h with h | ⟨a, s₁, hx, hf⟩
    · exact .inl ⟨r, h⟩
    · exact .inr ⟨a, s₁, ⟨r, hx⟩, r, hf⟩

instance {τ : Type} : Affects (StateT τ m) σ where
  Effect x s s' := ∃ t, Effect (x.run t) s s'
  effect_pure := fun ⟨_, h⟩ => effect_pure (m := m) h
  effect_bind := by
    rintro α β x f s s' ⟨t, h⟩
    rcases effect_bind (m := m) h with h | ⟨⟨a, t'⟩, s₁, hx, hf⟩
    · exact .inl ⟨t, h⟩
    · exact .inr ⟨a, s₁, ⟨t, hx⟩, t', hf⟩

end Transformers

section Within

variable {m : Type → Type} {σ : Type} [Monad m] [Affects m σ] {R : σ → σ → Prop} {α β : Type}

/-- Every run of the computation keeps to the relation. -/
def Within (R : σ → σ → Prop) (x : m α) : Prop := ∀ s s', Effect x s s' → R s s'

namespace Within

theorem mono {R' : σ → σ → Prop} {x : m α} (h : Within R x) (himp : ∀ {s s'}, R s s' → R' s s') :
    Within R' x :=
  fun s s' heffect => himp (h s s' heffect)

theorem run_state {τ : Type} {x : StateT τ m α} (h : Within R x) (t : τ) : Within R (x.run t) :=
  fun s s' heffect => h s s' ⟨t, heffect⟩

variable [IsPreorder σ R]

/-- A computation that leaves the state alone. -/
theorem still {x : m α} (h : ∀ {s s'}, Effect x s s' → s' = s) : Within R x := by
  intro s s' heffect
  cases h heffect
  exact refl_of R s

theorem pure (a : α) : Within R (Pure.pure a : m α) := still effect_pure

theorem bind {x : m α} {f : α → m β} (hx : Within R x) (hf : ∀ a, Within R (f a)) :
    Within R (x >>= f) := by
  intro s s'' heffect
  rcases effect_bind heffect with h | ⟨a, s', hx', hf'⟩
  · exact hx _ _ h
  · exact trans_of R (hx _ _ hx') (hf a _ _ hf')

theorem map [LawfulMonad m] {x : m α} {f : α → β} (hx : Within R x) : Within R (f <$> x) := by
  rw [map_eq_pure_bind]
  exact bind hx fun a => pure (f a)

theorem forM {f : α → m PUnit} (h : ∀ a, Within R (f a)) (as : List α) :
    Within R (as.forM f) := by
  induction as with
  | nil => exact pure _
  | cons a as ih => exact bind (h a) fun _ => ih

theorem mapM [LawfulMonad m] {f : α → m β} (h : ∀ a, Within R (f a)) (as : List α) :
    Within R (as.mapM f) := by
  induction as with
  | nil => exact pure _
  | cons a as ih =>
    rw [List.mapM_cons]
    exact bind (h a) fun _ => bind ih fun _ => pure _

theorem mapM_option [LawfulMonad m] {f : α → m β} (h : ∀ a, Within R (f a)) (a : Option α) :
    Within R (a.mapM f) := by
  cases a with
  | none => exact pure _
  | some a => exact map (h a)

theorem foldlM {f : β → α → m β} (h : ∀ b a, Within R (f b a)) (as : List α) (b : β) :
    Within R (as.foldlM f b) := by
  induction as generalizing b with
  | nil => exact pure _
  | cons a as ih => exact bind (h b a) fun b => ih b

/-! ## Transformers -/

theorem lift_state {τ : Type} {x : m α} (h : Within R x) :
    Within R (StateT.lift x : StateT τ m α) := by
  rintro s s' ⟨t, heffect⟩
  exact bind h (fun a => pure (a, t)) s s' heffect

/-- The further state of a transformer is none of the state below. -/
theorem modifyGet {τ : Type} (f : τ → α × τ) :
    Within R (MonadStateOf.modifyGet f : StateT τ m α) := by
  rintro s s' ⟨t, heffect⟩
  exact pure (f t) s s' heffect

end Within

/-- A computation without fuel inside one with fuel. -/
theorem within_fuelled {σ : Type} {R : σ → σ → Prop} {α : Type} {x : StateM σ α}
    (h : Within R x) : Within R (liftM x : Fuelled σ α) := by
  rintro s s' ⟨a, heffect⟩
  exact h s s' (congrArg Prod.snd (Option.some.inj heffect))

theorem within_outOfFuel {σ : Type} {R : σ → σ → Prop} {α : Type} :
    Within R (outOfFuel : Fuelled σ α) := by
  rintro s s' ⟨a, heffect⟩
  cases heffect

end Within

end RowML
