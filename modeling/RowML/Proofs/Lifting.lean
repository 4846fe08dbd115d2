import RowML.Constructor.Shift
import RowML.Proofs.Constructor.Twin

/-!
# Computations side by side

Two computations run side by side if from states that correspond either both run out of fuel, or
both return, and what they return and leave corresponds again.  Correspondence is up to a
renumbering, which a computation that makes metavariables extends.  Returning and sequencing respect
the relation, and so does everything that is built from them, in a monad with errors or with a state
of its own on top as well.
-/

namespace RowML

/-- A relation between computations that returning and sequencing respect; `le` says how the
renumbering may change meanwhile. -/
structure Lifting (le : Renumbering → Renumbering → Prop) (m : Type → Type) [Monad m] where
  Rel : {α β : Type} → Renumbering → (Renumbering → α → β → Prop) → m α → m β → Prop
  pure : ∀ {α β : Type} {ρ : Renumbering} {A : Renumbering → α → β → Prop} {a : α} {b : β},
    A ρ a b → Rel ρ A (pure a) (pure b)
  bind : ∀ {α β γ δ : Type} {ρ : Renumbering} {A : Renumbering → α → β → Prop}
    {B : Renumbering → γ → δ → Prop} {x : m α} {y : m β} {f : α → m γ} {g : β → m δ},
    Rel ρ A x y → (∀ ρ', le ρ ρ' → ∀ a b, A ρ' a b → Rel ρ' B (f a) (g b)) →
    Rel ρ B (x >>= f) (y >>= g)

/-- Two results are related if both are errors or both are none. -/
inductive ExceptRel {ε ε' α β : Type} (E : ε → ε' → Prop) (A : α → β → Prop) :
    Except ε α → Except ε' β → Prop where
  | error {e : ε} {e' : ε'} (h : E e e') : ExceptRel E A (.error e) (.error e')
  | ok {a : α} {b : β} (h : A a b) : ExceptRel E A (.ok a) (.ok b)

theorem optionRel_imp {α β : Type} {A B : α → β → Prop} {x : Option α} {y : Option β}
    (h : Option.Rel A x y) (himp : ∀ a b, A a b → B a b) : Option.Rel B x y := by
  cases h with
  | some h => exact .some (himp _ _ h)
  | none => exact .none

theorem optionRel_bind {α β γ δ : Type} {A : α → β → Prop} {B : γ → δ → Prop} {x : Option α}
    {y : Option β} {f : α → Option γ} {g : β → Option δ} (h : Option.Rel A x y)
    (hf : ∀ a b, A a b → Option.Rel B (f a) (g b)) : Option.Rel B (x.bind f) (y.bind g) := by
  cases h with
  | some h => exact hf _ _ h
  | none => exact .none

theorem optionRel_map {α β γ δ : Type} {A : α → β → Prop} {B : γ → δ → Prop} {x : Option α}
    {y : Option β} {f : α → γ} {g : β → δ} (h : Option.Rel A x y)
    (hf : ∀ a b, A a b → B (f a) (g b)) : Option.Rel B (x.map f) (y.map g) := by
  cases h with
  | some h => exact .some (hf _ _ h)
  | none => exact .none

theorem optionRel_or {α β : Type} {R : α → β → Prop} {x x' : Option α} {y y' : Option β}
    (h : Option.Rel R x y) (h' : Option.Rel R x' y') : Option.Rel R (x.or x') (y.or y') := by
  cases h with
  | some h => exact .some h
  | none => exact h'

theorem optionRel_getElem? {α β : Type} {R : α → β → Prop} {as : List α} {bs : List β}
    (h : List.Forall₂ R as bs) (i : Nat) : Option.Rel R as[i]? bs[i]? := by
  induction h generalizing i with
  | nil => exact .none
  | cons hab _ ih =>
    cases i with
    | zero => exact .some hab
    | succ i => exact ih i

theorem optionRel_find? {α β : Type} {R : α → β → Prop} {p : α → Bool} {q : β → Bool} {as : List α}
    {bs : List β} (h : List.Forall₂ R as bs) (hpq : ∀ a b, R a b → p a = q b) :
    Option.Rel R (as.find? p) (bs.find? q) := by
  induction h with
  | nil => exact .none
  | cons hab _ ih =>
    rw [List.find?_cons, List.find?_cons, hpq _ _ hab]
    split
    · exact .some hab
    · exact ih

namespace Lifting

variable {le : Renumbering → Renumbering → Prop} {m : Type → Type} [Monad m]
  {α β γ δ : Type} {ρ : Renumbering}

/-! ## Liftings -/

/-- Values without any effect. -/
def value : Lifting Eq Id where
  Rel ρ A x y := A ρ x.run y.run
  pure h := h
  bind h hf := hf _ rfl _ _ h

section State

variable {σ : Type}

/-- Computations with fuel, over states that correspond. -/
def fuelled (le : Renumbering → Renumbering → Prop) [IsPreorder Renumbering le]
    (Sim : Renumbering → σ → σ → Prop) : Lifting le (Fuelled σ) where
  Rel ρ A x y := ∀ s t, Sim ρ s t →
    Option.Rel (fun r q => ∃ ρ', le ρ ρ' ∧ A ρ' r.1 q.1 ∧ Sim ρ' r.2 q.2) (x s) (y t)
  pure h _ _ hst := .some ⟨_, refl _, h, hst⟩
  bind hx hf _ _ hst :=
    optionRel_bind (hx _ _ hst) fun _ _ ⟨ρ', hle, hab, hst'⟩ =>
      optionRel_imp (hf ρ' hle _ _ hab _ _ hst') fun _ _ ⟨ρ'', hle', h⟩ =>
        ⟨ρ'', IsTrans.trans _ _ _ hle hle', h⟩

/-- Computations without fuel, over states that correspond. -/
def stateful (le : Renumbering → Renumbering → Prop) [IsPreorder Renumbering le]
    (Sim : Renumbering → σ → σ → Prop) : Lifting le (StateM σ) where
  Rel ρ A x y := (fuelled le Sim).Rel ρ A (liftM x) (liftM y)
  pure h := (fuelled le Sim).pure h
  bind hx hf := (fuelled le Sim).bind hx hf

end State

/-- The same with errors, which correspond. -/
def exceptT {ε : Type} (L : Lifting le m) (E : Renumbering → ε → ε → Prop) :
    Lifting le (ExceptT ε m) where
  Rel ρ A x y := L.Rel ρ (fun ρ => ExceptRel (E ρ) (A ρ)) x.run y.run
  pure h := L.pure (.ok h)
  bind hx hf := by
    refine L.bind hx fun ρ' hle r q h => ?_
    cases h with
    | error h => exact L.pure (.error h)
    | ok h => exact hf ρ' hle _ _ h

/-- The same with a further state, which corresponds. -/
def stateT {τ : Type} (L : Lifting le m) (T : Renumbering → τ → τ → Prop) :
    Lifting le (StateT τ m) where
  Rel ρ A x y :=
    ∀ t u, T ρ t u → L.Rel ρ (fun ρ r q => A ρ r.1 q.1 ∧ T ρ r.2 q.2) (x.run t) (y.run u)
  pure h _ _ htu := L.pure ⟨h, htu⟩
  bind {α β γ δ ρ A B x y f g} hx hf t u htu := by
    change L.Rel ρ _ (x.run t >>= fun r => (f r.1).run r.2) (y.run u >>= fun q => (g q.1).run q.2)
    exact L.bind (hx t u htu) fun ρ' hle _ _ h => hf ρ' hle _ _ h.1 _ _ h.2

section Rules

variable {L : Lifting le m} {A : Renumbering → α → β → Prop} {B : Renumbering → γ → δ → Prop}
  {x : m α} {y : m β}

theorem map [LawfulMonad m] {f : α → γ} {g : β → δ} (h : L.Rel ρ A x y)
    (hf : ∀ ρ' a b, A ρ' a b → B ρ' (f a) (g b)) : L.Rel ρ B (f <$> x) (g <$> y) := by
  rw [map_eq_pure_bind, map_eq_pure_bind]
  exact L.bind h fun _ _ _ _ hab => L.pure (hf _ _ _ hab)

theorem mono [LawfulMonad m] {A' : Renumbering → α → β → Prop} (h : L.Rel ρ A x y)
    (himp : ∀ ρ' a b, A ρ' a b → A' ρ' a b) : L.Rel ρ A' x y := by
  simpa using L.map (f := id) (g := id) h himp

/-- Sequencing where no metavariables are made. -/
theorem bind_still {L : Lifting Eq m} {f : α → m γ} {g : β → m δ} (hx : L.Rel ρ A x y)
    (hf : ∀ a b, A ρ a b → L.Rel ρ B (f a) (g b)) : L.Rel ρ B (x >>= f) (y >>= g) :=
  L.bind hx fun _ hle a b hab => by
    subst hle
    exact hf a b hab

/-- The same branch is taken on both sides. -/
theorem ite {p q : Prop} [Decidable p] [Decidable q] {x' : m α} {y' : m β} (hpq : p ↔ q)
    (h : L.Rel ρ A x y) (h' : L.Rel ρ A x' y') :
    L.Rel ρ A (if p then x else x') (if q then y else y') := by
  by_cases hp : p
  · rwa [if_pos hp, if_pos (hpq.mp hp)]
  · rwa [if_neg hp, if_neg fun hq => hp (hpq.mpr hq)]

theorem forM [IsPreorder Renumbering le] {R : α → β → Prop} {f : α → m PUnit} {g : β → m PUnit}
    {as : List α} {bs : List β} (h : List.Forall₂ R as bs)
    (hf : ∀ ρ', le ρ ρ' → ∀ a b, R a b → L.Rel ρ' (fun _ _ _ => True) (f a) (g b)) :
    L.Rel ρ (fun _ _ _ => True) (as.forM f) (bs.forM g) := by
  induction h generalizing ρ with
  | nil => exact L.pure trivial
  | cons hab _ ih =>
    refine L.bind (hf ρ (refl ρ) _ _ hab) fun ρ' hle _ _ _ => ih fun ρ'' hle' => ?_
    exact hf ρ'' (IsTrans.trans _ _ _ hle hle')

theorem exceptT_lift [LawfulMonad m] {ε : Type} {E : Renumbering → ε → ε → Prop}
    (h : L.Rel ρ A x y) : (L.exceptT E).Rel ρ A (ExceptT.lift x) (ExceptT.lift y) :=
  L.map h fun _ _ _ h => .ok h

theorem stateT_lift {τ : Type} {T : Renumbering → τ → τ → Prop}
    (hT : ∀ {ρ ρ' t u}, le ρ ρ' → T ρ t u → T ρ' t u) (h : L.Rel ρ A x y) :
    (L.stateT T).Rel ρ A (StateT.lift x) (StateT.lift y) :=
  fun _ _ htu => L.bind h fun _ hle _ _ hab => L.pure ⟨hab, hT hle htu⟩

theorem exceptT_throw {ε : Type} {E : Renumbering → ε → ε → Prop} {e e' : ε} (h : E ρ e e') :
    (L.exceptT E).Rel ρ A (throw e) (throw e') :=
  L.pure (.error h)

theorem mapM [IsPreorder Renumbering le] [LawfulMonad m] {R : α → β → Prop} {f : α → m γ}
    {g : β → m δ} {as : List α} {bs : List β} (h : List.Forall₂ R as bs)
    (hB : ∀ {ρ ρ' c d}, le ρ ρ' → B ρ c d → B ρ' c d)
    (hf : ∀ ρ', le ρ ρ' → ∀ a b, R a b → L.Rel ρ' B (f a) (g b)) :
    L.Rel ρ (fun ρ' => List.Forall₂ (B ρ')) (as.mapM f) (bs.mapM g) := by
  induction h generalizing ρ with
  | nil => exact L.pure .nil
  | cons hab _ ih =>
    rw [List.mapM_cons, List.mapM_cons]
    refine L.bind (hf ρ (refl ρ) _ _ hab) fun ρ' hle c d hcd => ?_
    refine L.bind (ih fun ρ'' hle' => hf ρ'' (IsTrans.trans _ _ _ hle hle'))
      fun ρ'' hle' cs ds h => ?_
    exact L.pure (.cons (hB hle' hcd) h)

end Rules

/-! ## Reading the state -/

section State

variable {σ : Type} [IsPreorder Renumbering le] {Sim : Renumbering → σ → σ → Prop}

/-- What makes no metavariables keeps the renumbering. -/
theorem fuelled_of_still {A : Renumbering → α → β → Prop} {x : Fuelled σ α} {y : Fuelled σ β}
    (h : (fuelled Eq Sim).Rel ρ A x y) :
    (fuelled le Sim).Rel ρ (fun ρ' a b => ρ' = ρ ∧ A ρ a b) x y := fun _ _ hst =>
  optionRel_imp (h _ _ hst) fun _ _ ⟨_, hle, hab, hst'⟩ => by
    subst hle
    exact ⟨ρ, refl ρ, ⟨rfl, hab⟩, hst'⟩

theorem fuelled_get : (fuelled le Sim).Rel ρ Sim get get :=
  fun _ _ hst => .some ⟨ρ, refl ρ, hst, hst⟩

theorem fuelled_set {s t : σ} (h : Sim ρ s t) :
    (fuelled le Sim).Rel ρ (fun _ _ _ => True) (set s) (set t) :=
  fun _ _ _ => .some ⟨ρ, refl ρ, trivial, h⟩

theorem stateful_get : (stateful le Sim).Rel ρ Sim get get :=
  fun _ _ hst => .some ⟨ρ, refl ρ, hst, hst⟩

/-- Side by side, for computations without fuel that keep the renumbering. -/
theorem stateful_still {A : Renumbering → α → β → Prop} {x : StateM σ α} {y : StateM σ β} :
    (stateful Eq Sim).Rel ρ A x y ↔ ∀ s t, Sim ρ s t →
      A ρ (x.run s).1 (y.run t).1 ∧ Sim ρ (x.run s).2 (y.run t).2 := by
  refine ⟨fun h s t hst => ?_, fun h s t hst => .some ⟨ρ, rfl, h s t hst⟩⟩
  have hrun : Option.Rel _ (some (x.run s)) (some (y.run t)) := h s t hst
  cases hrun with
  | some hrun =>
    obtain ⟨_, rfl, h⟩ := hrun
    exact h

/-- What reads the state continues from what it reads. -/
theorem exceptT_read {ε : Type} {f : σ → ExceptT ε (Fuelled σ) α} {g : σ → ExceptT ε (Fuelled σ) β}
    {R : Except ε α × σ → Except ε β × σ → Prop} {s t : σ}
    (h : Option.Rel R ((f s).run s) ((g t).run t)) :
    Option.Rel R ((get >>= f : ExceptT ε (Fuelled σ) α).run s)
      ((get >>= g : ExceptT ε (Fuelled σ) β).run t) := h

/-- Sequencing after what makes no metavariables. -/
theorem fuelled_bind_still {A : Renumbering → α → β → Prop} {B : Renumbering → γ → δ → Prop}
    {x : Fuelled σ α} {y : Fuelled σ β} {f : α → Fuelled σ γ} {g : β → Fuelled σ δ}
    (h : (fuelled Eq Sim).Rel ρ A x y)
    (hf : ∀ a b, A ρ a b → (fuelled le Sim).Rel ρ B (f a) (g b)) :
    (fuelled le Sim).Rel ρ B (x >>= f) (y >>= g) :=
  Lifting.bind _ (fuelled_of_still h) fun _ _ a b ⟨hρ, hab⟩ => by
    subst hρ
    exact hf a b hab

/-- What makes no metavariables, with errors and a further state on top. -/
theorem bind_fuelled_still {ε τ : Type} {E : Renumbering → ε → ε → Prop}
    {T : Renumbering → τ → τ → Prop} {A : Renumbering → α → β → Prop}
    {B : Renumbering → γ → δ → Prop} (hT : ∀ {ρ ρ' t u}, le ρ ρ' → T ρ t u → T ρ' t u)
    {x : Fuelled σ α} {y : Fuelled σ β} {f : α → ExceptT ε (StateT τ (Fuelled σ)) γ}
    {g : β → ExceptT ε (StateT τ (Fuelled σ)) δ} (h : (fuelled Eq Sim).Rel ρ A x y)
    (hf : ∀ a b, A ρ a b → (((fuelled le Sim).stateT T).exceptT E).Rel ρ B (f a) (g b)) :
    (((fuelled le Sim).stateT T).exceptT E).Rel ρ B (liftM x >>= f) (liftM y >>= g) :=
  Lifting.bind _ (exceptT_lift (stateT_lift hT (fuelled_of_still h))) fun _ _ a b ⟨hρ, hab⟩ => by
    subst hρ
    exact hf a b hab

theorem outOfFuel : (fuelled le Sim).Rel ρ (fun _ (_ : α) (_ : β) => True) outOfFuel outOfFuel :=
  fun _ _ _ => .none

end State

end Lifting

/-! ## Rebuilding passes -/

section Rebuild

variable {m : Type → Type} [Monad m] {ρ : Renumbering} (L : Lifting Eq m)

namespace Kind

variable {keep : Kind → Bool} {onBVar onBVar' : Nat → Nat → m Kind}
  {onMVar onMVar' : Nat → KindVar → m Kind}

mutual
/-- Passes over twins whose hooks run side by side. -/
theorem rebuildM_twins (hkeep : ∀ {k k' : Kind}, k.Twin ρ k' → keep k = keep k')
    (hbvar : ∀ d i, L.Rel ρ Kind.Twin (onBVar d i) (onBVar' d i))
    (hmvar : ∀ d v w, ρ.kinds v w → L.Rel ρ Kind.Twin (onMVar d v) (onMVar' d w))
    {k k' : Kind} (h : k.Twin ρ k') (d : Nat) :
    L.Rel ρ Kind.Twin (k.rebuildM keep onBVar onMVar d) (k'.rebuildM keep onBVar' onMVar' d) := by
  have hkeep' := hkeep h
  cases h with
  | bvar i => exact hbvar d i
  | mvar hv => exact hmvar d _ _ hv
  | type | unit | name | error =>
    refine L.pure ?_
    constructor
  | arrow ha hb =>
    simp only [rebuildM, hkeep']
    split
    · exact L.pure (.arrow ha hb)
    · exact L.bind_still (rebuildM_twins hkeep hbvar hmvar ha d) fun _ _ ha =>
        L.bind_still (rebuildM_twins hkeep hbvar hmvar hb d) fun _ _ hb => L.pure (.arrow ha hb)
  | record ha =>
    simp only [rebuildM, hkeep']
    split
    · exact L.pure (.record ha)
    · exact L.bind_still (rebuildM_twins hkeep hbvar hmvar ha d) fun _ _ ha => L.pure (.record ha)
  | tuple hks =>
    simp only [rebuildM, hkeep']
    split
    · exact L.pure (.tuple hks)
    · exact L.bind_still (rebuildListM_twins hkeep hbvar hmvar hks d) fun _ _ hks =>
        L.pure (.tuple hks)
  | poly x hk =>
    simp only [rebuildM, hkeep']
    split
    · exact L.pure (.poly x hk)
    · exact L.bind_still (rebuildM_twins hkeep hbvar hmvar hk (d + 1)) fun _ _ hk =>
        L.pure (.poly x hk)
private theorem rebuildListM_twins (hkeep : ∀ {k k' : Kind}, k.Twin ρ k' → keep k = keep k')
    (hbvar : ∀ d i, L.Rel ρ Kind.Twin (onBVar d i) (onBVar' d i))
    (hmvar : ∀ d v w, ρ.kinds v w → L.Rel ρ Kind.Twin (onMVar d v) (onMVar' d w))
    {ks ks' : List Kind}
    (h : List.Forall₂ (Kind.Twin ρ) ks ks') (d : Nat) :
    L.Rel ρ (fun ρ => List.Forall₂ (Kind.Twin ρ)) (rebuildListM keep onBVar onMVar d ks)
      (rebuildListM keep onBVar' onMVar' d ks') := by
  cases h with
  | nil => exact L.pure .nil
  | cons hk hks =>
    exact L.bind_still (rebuildM_twins hkeep hbvar hmvar hk d) fun _ _ hk =>
      L.bind_still (rebuildListM_twins hkeep hbvar hmvar hks d) fun _ _ hks => L.pure (.cons hk hks)
end

end Kind

namespace Con

variable {node node' : Depth → Con → m (Option Con)} {kind kind' : Depth → Kind → m Kind}

/-- Passes over constructors that are related node by node, with hooks that answer the same. -/
theorem rebuildM_related [LawfulMonad m] {A : Con → Con → Prop} {K : Kind → Kind → Prop}
    (hA : ∀ {c c'}, A c c' → Parallel K A c c')
    (hnode : ∀ d {c c'}, A c c' → L.Rel ρ (fun _ => Eq) (node d c) (node' d c'))
    (hkind : ∀ d {k k'}, K k k' → L.Rel ρ (fun _ => Eq) (kind d k) (kind' d k'))
    {c c' : Con} (h : A c c') (d : Depth) :
    L.Rel ρ (fun _ => Eq) (c.rebuildM node kind d) (c'.rebuildM node' kind' d) := by
  induction c using inductionOnParts generalizing c' d with
  | step c ih =>
    rw [rebuildM_step, rebuildM_step]
    refine L.bind_still (hnode d h) fun r r' hr => ?_
    subst hr
    cases r with
    | some r => exact L.pure rfl
    | none =>
      have hparallel := hA h
      have hchildren : List.Forall₂ (fun x y => x ∈ c.children ∧ Sum.LiftRel K A x y) c.children
          c'.children := (List.forall₂_and_left _ _).mpr ⟨fun _ hx => hx, hparallel.children⟩
      rw [mapChildrenM_eq, mapChildrenM_eq]
      refine L.map (L.mapM (B := fun _ => Eq) hchildren (fun _ h => h) ?_) fun _ xs ys hxs => ?_
      · rintro _ rfl _ _ ⟨hx, hk | hp⟩
        · exact L.map (hkind d hk) fun _ _ _ hk => congrArg Sum.inl hk
        · rw [← binders_eq hparallel.frame]
          refine L.map (ih _ (inr_mem_children.mp hx) hp (d + c.binders)) fun _ _ _ hp => ?_
          exact congrArg Sum.inr hp
      · rw [List.forall₂_eq_eq_eq] at hxs
        rw [hxs, withChildren, withChildren, hparallel.frame]

private theorem orRebuild_twins
    (hnode : ∀ d {c c' : Con}, c.Twin ρ c' →
      L.Rel ρ (fun ρ => Option.Rel (Con.Twin ρ)) (node d c) (node' d c'))
    {c c' : Con} {d : Depth} {rebuild rebuild' : Unit → m Con} (h : c.Twin ρ c')
    (hrebuild : L.Rel ρ Con.Twin (rebuild ()) (rebuild' ())) :
    L.Rel ρ Con.Twin (orRebuild (node d c) rebuild) (orRebuild (node' d c') rebuild') := by
  refine L.bind_still (hnode d h) fun r r' hr => ?_
  cases hr with
  | some hr => exact L.pure hr
  | none => exact hrebuild

mutual
/-- Passes over twins whose hooks run side by side. -/
theorem rebuildM_twins
    (hnode : ∀ d {c c' : Con}, c.Twin ρ c' →
      L.Rel ρ (fun ρ => Option.Rel (Con.Twin ρ)) (node d c) (node' d c'))
    (hkind : ∀ d {k k' : Kind}, k.Twin ρ k' → L.Rel ρ Kind.Twin (kind d k) (kind' d k'))
    {c c' : Con} (h : c.Twin ρ c') (d : Depth) :
    L.Rel ρ Con.Twin (c.rebuildM node kind d) (c'.rebuildM node' kind' d) := by
  have hnode' : ∀ {rebuild rebuild' : Unit → m Con},
      L.Rel ρ Con.Twin (rebuild ()) (rebuild' ()) →
      L.Rel ρ Con.Twin (orRebuild (node d c) rebuild) (orRebuild (node' d c') rebuild') :=
    orRebuild_twins L hnode h
  cases h with
  | skolem hs => exact hnode' (L.pure (.skolem hs))
  | prim | unit | error | bvar | global | member | relative | label =>
    refine hnode' (L.pure ?_)
    constructor
  | mvar hi hcs =>
    exact hnode' (L.bind_still (rebuildListM_twins hnode hkind hcs d) fun _ _ hcs =>
      L.pure (.mvar hi hcs))
  | tuple hcs =>
    exact hnode' (L.bind_still (rebuildListM_twins hnode hkind hcs d) fun _ _ hcs =>
      L.pure (.tuple hcs))
  | app ha hb | arrow ha hb | concat ha hb | proj ha hb =>
    refine hnode' (L.bind_still (rebuildM_twins hnode hkind ha d) fun _ _ ha =>
      L.bind_still (rebuildM_twins hnode hkind hb d) fun _ _ hb => L.pure ?_)
    constructor <;> assumption
  | abs x hk hc =>
    exact hnode' (L.bind_still (hkind d hk) fun _ _ hk =>
      L.bind_still (rebuildM_twins hnode hkind hc _) fun _ _ hc => L.pure (.abs x hk hc))
  | poly x implicit hk hc =>
    exact hnode' (L.bind_still (hkind d hk) fun _ _ hk =>
      L.bind_still (rebuildM_twins hnode hkind hc _) fun _ _ hc => L.pure (.poly x implicit hk hc))
  | kabs x hc | kpoly x hc | record hc | variant hc | component hc i =>
    refine hnode' (L.bind_still (rebuildM_twins hnode hkind hc _) fun _ _ hc => L.pure ?_)
    constructor
    exact hc
  | kapp hc hk =>
    exact hnode' (L.bind_still (rebuildM_twins hnode hkind hc d) fun _ _ hc =>
      L.bind_still (hkind d hk) fun _ _ hk => L.pure (.kapp hc hk))
  | disjoint ha hb hc =>
    exact hnode' (L.bind_still (rebuildM_twins hnode hkind ha d) fun _ _ ha =>
      L.bind_still (rebuildM_twins hnode hkind hb d) fun _ _ hb =>
      L.bind_still (rebuildM_twins hnode hkind hc d) fun _ _ hc => L.pure (.disjoint ha hb hc))
  | row hk hfields =>
    exact hnode' (L.bind_still (hkind d hk) fun _ _ hk =>
      L.bind_still (rebuildFieldsM_twins hnode hkind hfields d) fun _ _ hfields =>
        L.pure (.row hk hfields))
  | map hk hl ha hb =>
    exact hnode' (L.bind_still (hkind d hk) fun _ _ hk => L.bind_still (hkind d hl) fun _ _ hl =>
      L.bind_still (rebuildM_twins hnode hkind ha d) fun _ _ ha =>
      L.bind_still (rebuildM_twins hnode hkind hb d) fun _ _ hb => L.pure (.map hk hl ha hb))
private theorem rebuildListM_twins
    (hnode : ∀ d {c c' : Con}, c.Twin ρ c' →
      L.Rel ρ (fun ρ => Option.Rel (Con.Twin ρ)) (node d c) (node' d c'))
    (hkind : ∀ d {k k' : Kind}, k.Twin ρ k' → L.Rel ρ Kind.Twin (kind d k) (kind' d k'))
    {cs cs' : List Con} (h : List.Forall₂ (Con.Twin ρ) cs cs') (d : Depth) :
    L.Rel ρ (fun ρ => List.Forall₂ (Con.Twin ρ)) (rebuildListM node kind d cs)
      (rebuildListM node' kind' d cs') := by
  cases h with
  | nil => exact L.pure .nil
  | cons hc hcs =>
    exact L.bind_still (rebuildM_twins hnode hkind hc d) fun _ _ hc =>
      L.bind_still (rebuildListM_twins hnode hkind hcs d) fun _ _ hcs => L.pure (.cons hc hcs)
private theorem rebuildFieldsM_twins
    (hnode : ∀ d {c c' : Con}, c.Twin ρ c' →
      L.Rel ρ (fun ρ => Option.Rel (Con.Twin ρ)) (node d c) (node' d c'))
    (hkind : ∀ d {k k' : Kind}, k.Twin ρ k' → L.Rel ρ Kind.Twin (kind d k) (kind' d k'))
    {fields fields' : List (Con × Con)}
    (h : List.Forall₂ (Both (Con.Twin ρ)) fields fields') (d : Depth) :
    L.Rel ρ (fun ρ => List.Forall₂ (Both (Con.Twin ρ))) (rebuildFieldsM node kind d fields)
      (rebuildFieldsM node' kind' d fields') := by
  cases h with
  | nil => exact L.pure .nil
  | cons hfield hfields =>
    obtain ⟨hname, hvalue⟩ := hfield
    exact L.bind_still (rebuildM_twins hnode hkind hname d) fun _ _ hname =>
      L.bind_still (rebuildM_twins hnode hkind hvalue d) fun _ _ hvalue =>
      L.bind_still (rebuildFieldsM_twins hnode hkind hfields d) fun _ _ hfields =>
        L.pure (.cons ⟨hname, hvalue⟩ hfields)
end

end Con

end Rebuild

namespace Con.Twin

variable {ρ : Renumbering} {c c' : Con}

theorem rebuild {node node' : Depth → Con → Option Con}
    (hnode : ∀ d {n n' : Con}, n.Twin ρ n' → Option.Rel (Con.Twin ρ) (node d n) (node' d n'))
    (h : c.Twin ρ c') : (c.rebuild node).Twin ρ (c'.rebuild node') :=
  Con.rebuildM_twins .value (fun d _ _ h => hnode d h) (fun _ _ _ h => h) h _

theorem liftAbove (h : c.Twin ρ c') (amount cutoff : Nat) :
    (c.liftAbove amount cutoff).Twin ρ (c'.liftAbove amount cutoff) := by
  simp only [Con.liftAbove, h.bound_eq]
  split
  · exact h
  · refine h.rebuild fun d n n' hn => ?_
    simp only [hn.bound_eq]
    split
    · exact .some hn
    · cases hn with
      | bvar i => exact .some (.bvar _)
      | _ => exact .none

theorem lift (h : c.Twin ρ c') (amount : Nat) : (c.lift amount).Twin ρ (c'.lift amount) :=
  h.liftAbove amount 0

end Con.Twin

end RowML
