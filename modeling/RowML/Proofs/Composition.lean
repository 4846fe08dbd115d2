import RowML.Constructor.Traverse
import RowML.Fuelled

/-!
# Composed computations

A property of computations that returning has, and that passes from two computations to one after
the other, is one of everything that is built from computations with the property: of loops, of
rebuilding passes, and of computations that may fail or have a state of their own on top.
-/

namespace RowML

/-- Returning has the property, and it passes from two computations to their sequence. -/
class Compositional {σ : Type} (P : (α : Type) → Fuelled σ α → Prop) : Prop where
  pure : ∀ {α : Type} (a : α), P α (pure a)
  bind : ∀ {α β : Type} {x : Fuelled σ α} {f : α → Fuelled σ β}, P α x → (∀ a, P β (f a)) →
    P β (x >>= f)

/-- Monads whose computations come down to computations over a state in `σ`. -/
class Layered (m : Type → Type) (σ : outParam Type) [Monad m] where
  /-- All computations over the state that a computation comes down to have the property. -/
  Comes : ((α : Type) → Fuelled σ α → Prop) → (α : Type) → m α → Prop
  comes_pure : ∀ {P : (α : Type) → Fuelled σ α → Prop} [Compositional P] {α : Type} (a : α),
    Comes P α (pure a)
  comes_bind : ∀ {P : (α : Type) → Fuelled σ α → Prop} [Compositional P] {α β : Type} {x : m α}
    {f : α → m β}, Comes P α x → (∀ a, Comes P β (f a)) → Comes P β (x >>= f)

instance {σ : Type} : Layered (StateT σ Id) σ where
  Comes P _ x := P _ (liftM x)
  comes_pure a := Compositional.pure a
  comes_bind {P _ _ _ x f} hx hf := by
    change P _ ((liftM x : Fuelled σ _) >>= fun a => liftM (f a))
    exact Compositional.bind hx hf

instance {σ : Type} : Layered (StateT σ Option) σ where
  Comes P := P
  comes_pure := Compositional.pure
  comes_bind := Compositional.bind

section Transformers

variable {m : Type → Type} {σ : Type} [Monad m] [Layered m σ]

instance {ε : Type} : Layered (ExceptT ε m) σ where
  Comes P _ x := Layered.Comes (m := m) P _ x.run
  comes_pure a := Layered.comes_pure (m := m) (Except.ok a)
  comes_bind {P _ α β x f} hx hf := by
    refine Layered.comes_bind (m := m) hx fun r => ?_
    cases r with
    | ok a => exact hf a
    | error e => exact Layered.comes_pure (m := m) (Except.error (α := β) e)

instance {τ : Type} : Layered (StateT τ m) σ where
  Comes P _ x := ∀ t, Layered.Comes (m := m) P _ (x.run t)
  comes_pure a t := Layered.comes_pure (m := m) (a, t)
  comes_bind hx hf t := Layered.comes_bind (m := m) (hx t) fun r => hf r.1 r.2

end Transformers

section Throughout

variable {m : Type → Type} {σ : Type} [Monad m] [Layered m σ]
  {P : (α : Type) → Fuelled σ α → Prop} {α β : Type}

/-- Everything that the computation does has the property. -/
def Throughout (P : (α : Type) → Fuelled σ α → Prop) (x : m α) : Prop := Layered.Comes P α x

namespace Throughout

theorem run_state {τ : Type} {x : StateT τ m α} (h : Throughout P x) (t : τ) :
    Throughout P (x.run t) :=
  h t

variable [Compositional P]

theorem pure (a : α) : Throughout P (Pure.pure a : m α) := Layered.comes_pure a

theorem bind {x : m α} {f : α → m β} (hx : Throughout P x) (hf : ∀ a, Throughout P (f a)) :
    Throughout P (x >>= f) :=
  Layered.comes_bind hx hf

theorem map [LawfulMonad m] {x : m α} {f : α → β} (hx : Throughout P x) :
    Throughout P (f <$> x) := by
  rw [map_eq_pure_bind]
  exact bind hx fun a => pure (f a)

theorem forM {f : α → m PUnit} (h : ∀ a, Throughout P (f a)) (as : List α) :
    Throughout P (as.forM f) := by
  induction as with
  | nil => exact pure _
  | cons a as ih => exact bind (h a) fun _ => ih

theorem mapM [LawfulMonad m] {f : α → m β} (h : ∀ a, Throughout P (f a)) (as : List α) :
    Throughout P (as.mapM f) := by
  induction as with
  | nil => exact pure _
  | cons a as ih =>
    rw [List.mapM_cons]
    exact bind (h a) fun _ => bind ih fun _ => pure _

/-! ## Transformers -/

theorem lift_except {ε : Type} [LawfulMonad m] {x : m α} (h : Throughout P x) :
    Throughout P (ExceptT.lift x : ExceptT ε m α) :=
  map (f := Except.ok) h

theorem throw {ε : Type} (e : ε) : Throughout P (MonadExcept.throw e : ExceptT ε m α) :=
  pure (m := m) (Except.error (α := α) e)

theorem lift_state {τ : Type} {x : m α} (h : Throughout P x) :
    Throughout P (StateT.lift x : StateT τ m α) :=
  fun t => bind h fun a => pure (a, t)

/-- The further state of a transformer is none of the state below. -/
theorem modifyGet {τ : Type} (f : τ → α × τ) :
    Throughout P (MonadStateOf.modifyGet f : StateT τ m α) :=
  fun t => pure (m := m) (f t)

end Throughout

/-- A computation without fuel inside one with fuel. -/
theorem throughout_fuelled {σ : Type} {P : (α : Type) → Fuelled σ α → Prop} {α : Type}
    {x : StateM σ α} (h : Throughout P x) : Throughout P (liftM x : Fuelled σ α) :=
  h

end Throughout

/-! ## Related computations -/

section Related

variable {m : Type → Type} [Monad m] {R : (α : Type) → m α → m α → Prop}

/-- Computations that return the same are related, and so are sequences of related ones. -/
structure Congruence (R : (α : Type) → m α → m α → Prop) : Prop where
  pure : ∀ {α : Type} (a : α), R α (pure a) (pure a)
  bind : ∀ {α β : Type} {x y : m α} {f g : α → m β}, R α x y → (∀ a, R β (f a) (g a)) →
    R β (x >>= f) (y >>= g)

namespace Kind

variable {keep : Kind → Bool} {onBVar onBVar' : Nat → Nat → m Kind}
  {onMVar onMVar' : Nat → KindVar → m Kind}

mutual
/-- Passes are related that do related things with the variables of a kind. -/
theorem rebuildM_related (C : Congruence R) (hbvar : ∀ d i, R _ (onBVar d i) (onBVar' d i))
    (k : Kind) (hmvar : ∀ d, ∀ v ∈ k.mvars, R _ (onMVar d v) (onMVar' d v)) (d : Nat) :
    R _ (k.rebuildM keep onBVar onMVar d) (k.rebuildM keep onBVar' onMVar' d) := by
  cases k with
  | bvar i => exact hbvar d i
  | mvar v => exact hmvar d v (by simp [mvars])
  | type | unit | name | error => exact C.pure _
  | arrow a b =>
    have ha := rebuildM_related C hbvar a (fun d v hv => hmvar d v (by simp [mvars, hv])) d
    have hb := rebuildM_related C hbvar b (fun d v hv => hmvar d v (by simp [mvars, hv])) d
    simp only [rebuildM]
    split
    · exact C.pure _
    · exact C.bind ha fun _ => C.bind hb fun _ => C.pure _
  | record a =>
    simp only [rebuildM]
    split
    · exact C.pure _
    · exact C.bind (rebuildM_related C hbvar a hmvar d) fun _ => C.pure _
  | tuple ks =>
    simp only [rebuildM]
    split
    · exact C.pure _
    · exact C.bind (rebuildListM_related C hbvar ks hmvar d) fun _ => C.pure _
  | poly x body =>
    simp only [rebuildM]
    split
    · exact C.pure _
    · exact C.bind (rebuildM_related C hbvar body hmvar (d + 1)) fun _ => C.pure _
private theorem rebuildListM_related (C : Congruence R)
    (hbvar : ∀ d i, R _ (onBVar d i) (onBVar' d i)) (ks : List Kind)
    (hmvar : ∀ d, ∀ v ∈ mvarsList ks, R _ (onMVar d v) (onMVar' d v)) (d : Nat) :
    R _ (rebuildListM keep onBVar onMVar d ks) (rebuildListM keep onBVar' onMVar' d ks) := by
  cases ks with
  | nil => exact C.pure _
  | cons k ks =>
    have hk := rebuildM_related C hbvar k (fun d v hv => hmvar d v (by simp [mvarsList, hv])) d
    have hks := rebuildListM_related C hbvar ks
      (fun d v hv => hmvar d v (by simp [mvarsList, hv])) d
    exact C.bind hk fun _ => C.bind hks fun _ => C.pure _
end

end Kind

end Related

/-! ## Rebuilding passes -/

section Rebuild

variable {m : Type → Type} {σ : Type} [Monad m] [Layered m σ]
  {P : (α : Type) → Fuelled σ α → Prop} [Compositional P]

namespace Con

variable {node : Depth → Con → m (Option Con)} {kind : Depth → Kind → m Kind}

private theorem orRebuild_throughout {replacement : m (Option Con)} {rebuild : Unit → m Con}
    (hreplacement : Throughout P replacement) (hrebuild : Throughout P (rebuild ())) :
    Throughout P (orRebuild replacement rebuild) :=
  .bind hreplacement fun
    | some c => .pure c
    | none => hrebuild

mutual
/-- A pass does no more than its hooks do. -/
theorem rebuildM_throughout (hnode : ∀ d c, Throughout P (node d c))
    (hkind : ∀ d k, Throughout P (kind d k)) (d : Depth) (c : Con) :
    Throughout P (c.rebuildM node kind d) := by
  cases c with
  | prim | unit | error | bvar | global | member | relative | skolem | label =>
    exact orRebuild_throughout (hnode _ _) (.pure _)
  | mvar v cs | tuple cs =>
    refine orRebuild_throughout (hnode _ _) ?_
    exact .bind (rebuildListM_throughout hnode hkind d cs) fun _ => .pure _
  | app a b | arrow a b | concat a b | proj a b =>
    refine orRebuild_throughout (hnode _ _) ?_
    exact .bind (rebuildM_throughout hnode hkind d a) fun _ =>
      .bind (rebuildM_throughout hnode hkind d b) fun _ => .pure _
  | abs x k body | poly x i k body =>
    refine orRebuild_throughout (hnode _ _) ?_
    exact .bind (hkind d k) fun _ =>
      .bind (rebuildM_throughout hnode hkind _ body) fun _ => .pure _
  | kabs x c | kpoly x c | record c | variant c | component c i =>
    refine orRebuild_throughout (hnode _ _) ?_
    exact .bind (rebuildM_throughout hnode hkind _ c) fun _ => .pure _
  | kapp f k =>
    refine orRebuild_throughout (hnode _ _) ?_
    exact .bind (rebuildM_throughout hnode hkind d f) fun _ => .bind (hkind d k) fun _ => .pure _
  | disjoint l r body =>
    refine orRebuild_throughout (hnode _ _) ?_
    exact .bind (rebuildM_throughout hnode hkind d l) fun _ =>
      .bind (rebuildM_throughout hnode hkind d r) fun _ =>
      .bind (rebuildM_throughout hnode hkind d body) fun _ => .pure _
  | row k fields =>
    refine orRebuild_throughout (hnode _ _) ?_
    exact .bind (hkind d k) fun _ =>
      .bind (rebuildFieldsM_throughout hnode hkind d fields) fun _ => .pure _
  | map k₁ k₂ f r =>
    refine orRebuild_throughout (hnode _ _) ?_
    exact .bind (hkind d k₁) fun _ => .bind (hkind d k₂) fun _ =>
      .bind (rebuildM_throughout hnode hkind d f) fun _ =>
      .bind (rebuildM_throughout hnode hkind d r) fun _ => .pure _
theorem rebuildListM_throughout (hnode : ∀ d c, Throughout P (node d c))
    (hkind : ∀ d k, Throughout P (kind d k)) (d : Depth) (cs : List Con) :
    Throughout P (rebuildListM node kind d cs) := by
  cases cs with
  | nil => exact .pure _
  | cons c cs =>
    exact .bind (rebuildM_throughout hnode hkind d c) fun _ =>
      .bind (rebuildListM_throughout hnode hkind d cs) fun _ => .pure _
theorem rebuildFieldsM_throughout (hnode : ∀ d c, Throughout P (node d c))
    (hkind : ∀ d k, Throughout P (kind d k)) (d : Depth) (fields : List (Con × Con)) :
    Throughout P (rebuildFieldsM node kind d fields) := by
  cases fields with
  | nil => exact .pure _
  | cons field fields =>
    exact .bind (rebuildM_throughout hnode hkind d field.1) fun _ =>
      .bind (rebuildM_throughout hnode hkind d field.2) fun _ =>
      .bind (rebuildFieldsM_throughout hnode hkind d fields) fun _ => .pure _
end

end Con

namespace Kind

variable {keep : Kind → Bool} {onBVar : Nat → Nat → m Kind} {onMVar : Nat → KindVar → m Kind}

/-- A pass does no more than what it does with variables. -/
theorem rebuildM_throughout (hbvar : ∀ d i, Throughout P (onBVar d i))
    (hmvar : ∀ d v, Throughout P (onMVar d v)) (d : Nat) (k : Kind) :
    Throughout P (k.rebuildM keep onBVar onMVar d) := by
  have C : Congruence fun α (x y : m α) => Throughout P x ∧ Throughout P y :=
    ⟨fun a => ⟨.pure a, .pure a⟩, fun hx hf =>
      ⟨.bind hx.1 fun a => (hf a).1, .bind hx.2 fun a => (hf a).2⟩⟩
  exact (rebuildM_related C (fun d i => ⟨hbvar d i, hbvar d i⟩) k
    (fun d v _ => ⟨hmvar d v, hmvar d v⟩) d).1

end Kind

end Rebuild

end RowML
