import Mathlib.Data.List.Induction
import Mathlib.Order.UpperLower.Closure

/-!
# Meanings as sets of observations

The meaning of a constructor is the set of its finite observations.  What a function does is
observed on finitely many observations of its argument at a time, so every operation is finitary:
each observation of a result depends on finitely many observations of the operands.  That is what
makes the meaning of a function applied to an argument the meaning of its body.

What else can be observed is left open; the domains say it.
-/

namespace RowML

/-- Observations, each with those that say less, and those of functions among them. -/
class Tokens (T : Type) extends Preorder T where
  /-- This is a function. -/
  function : T
  /-- Arguments with these observations are taken to a result with that observation. -/
  maps : List T → T → T
  maps_injective : ∀ {α β : List T} {s t : T}, maps α s = maps β t → α = β ∧ s = t
  maps_ne_function : ∀ (α : List T) (t : T), maps α t ≠ function
  eq_function_of_le : ∀ {s : T}, s ≤ function → s = function
  eq_maps_of_le : ∀ {s : T} {α : List T} {t : T}, s ≤ maps α t → s = maps α t

export Tokens (maps)

namespace Observed

variable {T : Type} [Tokens T] {X X' Y Y' : LowerSet T} {t : T}

/-- The meaning with the given observations. -/
def approx (values : List T) : LowerSet T := lowerClosure {t | t ∈ values}

theorem mem_approx {values : List T} : t ∈ approx values ↔ ∃ s ∈ values, t ≤ s :=
  mem_lowerClosure

theorem mem_approx_self {values : List T} (h : t ∈ values) : t ∈ approx values :=
  mem_approx.mpr ⟨t, h, le_rfl⟩

/-- An observation that no other one says less than. -/
theorem mem_approx_singleton {a : T} (ha : ∀ {s : T}, s ≤ a → s = a) : t ∈ approx [a] ↔ t = a := by
  rw [mem_approx]
  constructor
  · rintro ⟨s, hs, hle⟩
    rw [List.mem_singleton.mp hs] at hle
    exact ha hle
  · rintro rfl
    exact ⟨_, by simp, le_rfl⟩

theorem approx_le {values : List T} : approx values ≤ X ↔ ∀ t ∈ values, t ∈ X := by
  constructor
  · exact fun h t ht => h (mem_approx.mpr ⟨t, ht, le_rfl⟩)
  · intro h t ht
    obtain ⟨s, hs, hts⟩ := mem_approx.mp ht
    exact X.lower hts (h s hs)

theorem approx_append {α β : List T} : approx (α ++ β) = approx α ⊔ approx β := by
  refine le_antisymm (approx_le.mpr fun t ht => ?_) (sup_le ?_ ?_)
  · exact LowerSet.mem_sup_iff.mpr ((List.mem_append.mp ht).imp mem_approx_self mem_approx_self)
  · exact approx_le.mpr fun t ht => mem_approx_self (List.mem_append_left _ ht)
  · exact approx_le.mpr fun t ht => mem_approx_self (List.mem_append_right _ ht)

/-! ## Functions -/

/-- A function applied to an argument. -/
def apply (X Y : LowerSet T) : LowerSet T :=
  lowerClosure {t | ∃ arguments, maps arguments t ∈ X ∧ ∀ s ∈ arguments, s ∈ Y}

theorem mem_apply : t ∈ apply X Y ↔
    ∃ arguments result, maps arguments result ∈ X ∧ (∀ s ∈ arguments, s ∈ Y) ∧ t ≤ result := by
  simp only [apply, mem_lowerClosure, Set.mem_ofPred_eq]
  tauto

/-- The function that takes every argument to its image. -/
def lambda (F : LowerSet T → LowerSet T) : LowerSet T where
  carrier := {t | t = Tokens.function ∨
    ∃ arguments result, t = maps arguments result ∧ result ∈ F (approx arguments)}
  lower' := by
    rintro _ t h (rfl | ⟨arguments, result, rfl, hresult⟩)
    · exact .inl (Tokens.eq_function_of_le h)
    · exact .inr ⟨arguments, result, Tokens.eq_maps_of_le h, hresult⟩

theorem mem_lambda {F : LowerSet T → LowerSet T} : t ∈ lambda F ↔ t = Tokens.function ∨
    ∃ arguments result, t = maps arguments result ∧ result ∈ F (approx arguments) :=
  Iff.rfl

theorem function_mem_lambda (F : LowerSet T → LowerSet T) : Tokens.function ∈ lambda F := .inl rfl

theorem maps_mem_lambda {F : LowerSet T → LowerSet T} {arguments : List T} :
    maps arguments t ∈ lambda F ↔ t ∈ F (approx arguments) := by
  rw [mem_lambda]
  constructor
  · rintro (h | ⟨arguments', result, h, hresult⟩)
    · exact absurd h (Tokens.maps_ne_function _ _)
    · obtain ⟨rfl, rfl⟩ := Tokens.maps_injective h
      exact hresult
  · exact fun h => .inr ⟨arguments, t, rfl, h⟩

/-! ## Continuity -/

/-- An operation that is finitary in both operands. -/
structure Finitary₂ (op : LowerSet T → LowerSet T → LowerSet T) : Prop where
  mono : ∀ {X X' Y Y'}, X ≤ X' → Y ≤ Y' → op X Y ≤ op X' Y'
  finite : ∀ {X Y t}, t ∈ op X Y →
    ∃ α β, approx α ≤ X ∧ approx β ≤ Y ∧ t ∈ op (approx α) (approx β)

theorem finitary_apply : Finitary₂ (apply : LowerSet T → LowerSet T → LowerSet T) where
  mono hX hY t ht := by
    obtain ⟨arguments, result, hresult, harguments, hle⟩ := mem_apply.mp ht
    exact mem_apply.mpr ⟨arguments, result, hX hresult, fun s hs => hY (harguments s hs), hle⟩
  finite {X Y t} ht := by
    obtain ⟨arguments, result, hresult, harguments, hle⟩ := mem_apply.mp ht
    refine ⟨[maps arguments result], arguments, approx_le.mpr (by simpa using hresult),
      approx_le.mpr harguments, mem_apply.mpr ⟨arguments, result, ?_, ?_, hle⟩⟩
    · exact mem_approx_self (by simp)
    · exact fun s hs => mem_approx_self hs

theorem finitary_join : Finitary₂ ((· ⊔ ·) : LowerSet T → LowerSet T → LowerSet T) where
  mono hX hY := sup_le_sup hX hY
  finite {X Y t} ht := by
    rcases LowerSet.mem_sup_iff.mp ht with h | h
    · exact ⟨[t], [], approx_le.mpr (by simpa using h), approx_le.mpr (by simp),
        LowerSet.mem_sup_iff.mpr (.inl (mem_approx_self (by simp)))⟩
    · exact ⟨[], [t], approx_le.mpr (by simp), approx_le.mpr (by simpa using h),
        LowerSet.mem_sup_iff.mpr (.inr (mem_approx_self (by simp)))⟩

/-- Finitely many observations of a result depend on finitely many of the operands. -/
theorem Finitary₂.finite_list {op : LowerSet T → LowerSet T → LowerSet T} (h : Finitary₂ op)
    {values : List T} (hvalues : ∀ t ∈ values, t ∈ op X Y) :
    ∃ α β, approx α ≤ X ∧ approx β ≤ Y ∧ ∀ t ∈ values, t ∈ op (approx α) (approx β) := by
  induction values with
  | nil => exact ⟨[], [], approx_le.mpr (by simp), approx_le.mpr (by simp), by simp⟩
  | cons t values ih =>
    obtain ⟨α, β, hα, hβ, ht⟩ := h.finite (hvalues t (by simp))
    obtain ⟨α', β', hα', hβ', hrest⟩ := ih fun t ht => hvalues t (List.mem_cons_of_mem _ ht)
    refine ⟨α ++ α', β ++ β', approx_append.trans_le (sup_le hα hα'),
      approx_append.trans_le (sup_le hβ hβ'), ?_⟩
    rw [approx_append, approx_append]
    exact List.forall_mem_cons.mpr ⟨h.mono le_sup_left le_sup_left ht, fun t ht =>
      h.mono le_sup_right le_sup_right (hrest t ht)⟩

/-! ## Environments -/

/-- The environment of the body of a binder. -/
def push (X : LowerSet T) (env : Nat → LowerSet T) : Nat → LowerSet T
  | 0 => X
  | i + 1 => env i

/-- The environment of the body of several binders, the outermost first. -/
def pushAll (Xs : List (LowerSet T)) (env : Nat → LowerSet T) : Nat → LowerSet T :=
  Xs.foldl (fun env X => push X env) env

theorem push_mono {env env' : Nat → LowerSet T} (hX : X ≤ X') (henv : env ≤ env') :
    push X env ≤ push X' env' := by
  intro i
  cases i with
  | zero => exact hX
  | succ i => exact henv i

@[simp] theorem pushAll_nil (env : Nat → LowerSet T) : pushAll [] env = env := rfl

@[simp] theorem pushAll_concat (Xs : List (LowerSet T)) (X : LowerSet T) (env : Nat → LowerSet T) :
    pushAll (Xs ++ [X]) env = push X (pushAll Xs env) := by
  simp [pushAll]

/-- A meaning that depends on an environment in a finitary way. -/
structure Finitary (F : (Nat → LowerSet T) → LowerSet T) : Prop where
  mono : ∀ {env env'}, env ≤ env' → F env ≤ F env'
  finite : ∀ {env t}, t ∈ F env →
    ∃ φ : Nat → List T, (approx ∘ φ) ≤ env ∧ t ∈ F (approx ∘ φ)

namespace Finitary

variable {F G : (Nat → LowerSet T) → LowerSet T} {env : Nat → LowerSet T}

theorem const (X : LowerSet T) : Finitary fun _ => X :=
  ⟨fun _ => le_rfl, fun ht => ⟨fun _ => [], fun _ => approx_le.mpr (by simp), ht⟩⟩

theorem var (i : Nat) : Finitary fun env : Nat → LowerSet T => env i where
  mono h := h i
  finite {env t} ht := by
    refine ⟨fun j => if j = i then [t] else [], fun j => approx_le.mpr ?_, ?_⟩
    · intro s hs
      simp only at hs
      by_cases hj : j = i
      · rw [if_pos hj, List.mem_singleton] at hs
        rw [hj, hs]
        exact ht
      · rw [if_neg hj] at hs
        cases hs
    · exact mem_approx_self (by simp)

/-- Two finite parts of an environment make one. -/
theorem merge {φ ψ : Nat → List T} (hφ : (approx ∘ φ) ≤ env) (hψ : (approx ∘ ψ) ≤ env) :
    (approx ∘ fun i => φ i ++ ψ i) ≤ env ∧ (approx ∘ φ) ≤ (approx ∘ fun i => φ i ++ ψ i) ∧
      (approx ∘ ψ) ≤ (approx ∘ fun i => φ i ++ ψ i) := by
  refine ⟨fun i => ?_, fun i => ?_, fun i => ?_⟩ <;> simp only [Function.comp, approx_append]
  · exact sup_le (hφ i) (hψ i)
  · exact le_sup_left
  · exact le_sup_right

theorem finite_list (h : Finitary F) {values : List T} (hvalues : ∀ t ∈ values, t ∈ F env) :
    ∃ φ : Nat → List T, (approx ∘ φ) ≤ env ∧ ∀ t ∈ values, t ∈ F (approx ∘ φ) := by
  induction values with
  | nil => exact ⟨fun _ => [], fun _ => approx_le.mpr (by simp), by simp⟩
  | cons t values ih =>
    obtain ⟨φ, hφ, ht⟩ := h.finite (hvalues t (by simp))
    obtain ⟨ψ, hψ, hrest⟩ := ih fun t ht => hvalues t (List.mem_cons_of_mem _ ht)
    obtain ⟨hle, hleft, hright⟩ := merge hφ hψ
    exact ⟨fun i => φ i ++ ψ i, hle, List.forall_mem_cons.mpr
      ⟨h.mono hleft ht, fun t ht => h.mono hright (hrest t ht)⟩⟩

theorem comp₂ {op : LowerSet T → LowerSet T → LowerSet T} (hop : Finitary₂ op) (hF : Finitary F)
    (hG : Finitary G) : Finitary fun env => op (F env) (G env) where
  mono h := hop.mono (hF.mono h) (hG.mono h)
  finite {env t} ht := by
    obtain ⟨α, β, hα, hβ, ht⟩ := hop.finite ht
    obtain ⟨φ, hφ, hα⟩ := hF.finite_list (approx_le.mp hα)
    obtain ⟨ψ, hψ, hβ⟩ := hG.finite_list (approx_le.mp hβ)
    obtain ⟨hle, hleft, hright⟩ := merge hφ hψ
    refine ⟨fun i => φ i ++ ψ i, hle, hop.mono ?_ ?_ ht⟩
    · exact (approx_le.mpr hα).trans (hF.mono hleft)
    · exact (approx_le.mpr hβ).trans (hG.mono hright)

/-- The body of a function depends on its argument in a finitary way. -/
theorem finite_push (h : Finitary F) (ht : t ∈ F (push X env)) :
    ∃ arguments, approx arguments ≤ X ∧ t ∈ F (push (approx arguments) env) := by
  obtain ⟨φ, hφ, ht⟩ := h.finite ht
  refine ⟨φ 0, hφ 0, h.mono (fun i => ?_) ht⟩
  cases i with
  | zero => exact le_rfl
  | succ i => exact hφ (i + 1)

theorem lambda (h : Finitary F) : Finitary fun env => Observed.lambda fun X => F (push X env) where
  mono henv t ht := by
    rcases ht with rfl | ⟨arguments, result, rfl, hresult⟩
    · exact function_mem_lambda _
    · exact maps_mem_lambda.mpr (h.mono (push_mono le_rfl henv) hresult)
  finite {env t} ht := by
    rcases ht with rfl | ⟨arguments, result, rfl, hresult⟩
    · exact ⟨fun _ => [], fun _ => approx_le.mpr (by simp), function_mem_lambda _⟩
    · obtain ⟨φ, hφ, hresult⟩ := h.finite hresult
      refine ⟨fun i => φ (i + 1), fun i => hφ (i + 1), maps_mem_lambda.mpr (h.mono ?_ hresult)⟩
      intro i
      cases i with
      | zero => exact hφ 0
      | succ i => exact le_rfl

/-- Application undoes abstraction. -/
theorem apply_lambda (h : Finitary F) (env : Nat → LowerSet T) (X : LowerSet T) :
    apply (Observed.lambda fun X => F (push X env)) X = F (push X env) := by
  refine SetLike.ext fun t => ?_
  rw [mem_apply]
  constructor
  · rintro ⟨arguments, result, hresult, harguments, hle⟩
    exact (F (push X env)).lower hle
      (h.mono (push_mono (approx_le.mpr harguments) le_rfl) (maps_mem_lambda.mp hresult))
  · intro ht
    obtain ⟨arguments, harguments, ht⟩ := h.finite_push ht
    exact ⟨arguments, t, maps_mem_lambda.mpr ht, approx_le.mp harguments, le_rfl⟩

/-- The environment of the parts of a node is monotone in that of the node. -/
private theorem pushAll_mono {parts : List ((Nat → LowerSet T) → LowerSet T)}
    (hparts : ∀ part ∈ parts, Finitary part) (base : Nat → LowerSet T) {env' : Nat → LowerSet T}
    (henv : env ≤ env') : pushAll (parts.map fun part => part env) base ≤
      pushAll (parts.map fun part => part env') base := by
  induction parts using List.reverseRecOn with
  | nil => exact le_rfl
  | append_singleton parts part ih =>
    simp only [List.map_append, List.map_cons, List.map_nil, pushAll_concat]
    exact push_mono ((hparts part (by simp)).mono henv)
      (ih fun p hp => hparts p (List.mem_append_left _ hp))

/-- Finitely many observations of every part depend on finitely many of the environment. -/
private theorem finite_pushAll {parts : List ((Nat → LowerSet T) → LowerSet T)}
    (hparts : ∀ part ∈ parts, Finitary part) {base : Nat → LowerSet T} {φ : Nat → List T}
    (hφ : (approx ∘ φ) ≤ pushAll (parts.map fun part => part env) base) :
    ∃ ψ : Nat → List T, (approx ∘ ψ) ≤ env ∧
      (approx ∘ φ) ≤ pushAll (parts.map fun part => part (approx ∘ ψ)) base := by
  induction parts using List.reverseRecOn generalizing φ with
  | nil => exact ⟨fun _ => [], fun _ => approx_le.mpr (by simp), hφ⟩
  | append_singleton parts part ih =>
    have hinit : ∀ p ∈ parts, Finitary p := fun p hp => hparts p (List.mem_append_left _ hp)
    have hlast : Finitary part := hparts part (by simp)
    simp only [List.map_append, List.map_cons, List.map_nil, pushAll_concat] at hφ ⊢
    obtain ⟨ψ, hψ, hzero⟩ := hlast.finite_list (approx_le.mp (hφ 0))
    obtain ⟨ψ', hψ', hsucc⟩ := ih hinit fun i => hφ (i + 1)
    obtain ⟨hle, hleft, hright⟩ := merge hψ hψ'
    refine ⟨fun i => ψ i ++ ψ' i, hle, fun i => ?_⟩
    cases i with
    | zero => exact (approx_le.mpr hzero).trans (hlast.mono hleft)
    | succ i => exact (hsucc i).trans (pushAll_mono hinit base hright i)

/-- A finitary meaning in the environment of the parts of a node. -/
theorem comp_pushAll (h : Finitary F) {parts : List ((Nat → LowerSet T) → LowerSet T)}
    (hparts : ∀ part ∈ parts, Finitary part) (base : Nat → LowerSet T) :
    Finitary fun env => F (pushAll (parts.map fun part => part env) base) where
  mono henv := h.mono (pushAll_mono hparts base henv)
  finite ht := by
    obtain ⟨φ, hφ, ht⟩ := h.finite ht
    obtain ⟨ψ, hψ, hle⟩ := finite_pushAll hparts hφ
    exact ⟨ψ, hψ, h.mono hle ht⟩

end Finitary

end Observed

end RowML
