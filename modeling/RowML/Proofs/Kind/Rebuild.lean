import RowML.Proofs.Execution
import RowML.Proofs.Kind.Variables
import Mathlib.Data.List.Forall2

/-!
# Rebuilding passes over kinds

A pass that establishes a relation between input and output at every variable, and whose relation
passes from the parts of a kind to the kind, establishes it at every kind.
-/

namespace RowML

namespace Kind

section Pass

variable {m : Type → Type} {σ : Type} [Monad m] [Executes m σ] {D : Discipline σ}

/-- The parts of a rebuilding pass over kinds, each with what it establishes between input and
output. -/
structure Pass (D : Discipline σ) (Pre : σ → Kind → Prop) (Post : σ → Nat → Kind → Kind → Prop)
    (keep : Kind → Bool) (onBVar : Nat → Nat → m Kind) (onMVar : Nat → KindVar → m Kind) :
    Prop where
  pre_grows : ∀ {s s' k}, D.Ok s' → D.Grows s s' → Pre s k → Pre s' k
  post_grows : ∀ {s s' d k k'}, D.Ok s' → D.Grows s s' → Post s d k k' → Post s' d k k'
  pre_part : ∀ {s k p}, Pre s k → ¬ keep k = true → p ∈ k.parts → Pre s p
  bvar_yields : ∀ {s d i}, D.Ok s → Pre s (.bvar i) →
    Yields D s (onBVar d i) fun k' s' => Post s' d (.bvar i) k'
  mvar_yields : ∀ {s d v}, D.Ok s → Pre s (.mvar v) →
    Yields D s (onMVar d v) fun k' s' => Post s' d (.mvar v) k'
  kept : ∀ {s d k}, Pre s k → (∀ v, k ≠ .mvar v) → keep k = true → Post s d k k
  leaf : ∀ {s d k}, Pre s k → (∀ i, k ≠ .bvar i) → (∀ v, k ≠ .mvar v) → k.parts = [] → Post s d k k
  arrow : ∀ {s d a a' b b'}, Post s d a a' → Post s d b b' → Post s d (.arrow a b) (.arrow a' b')
  record : ∀ {s d a a'}, Post s d a a' → Post s d (.record a) (.record a')
  tuple : ∀ {s d ks ks'}, List.Forall₂ (Post s d) ks ks' → Post s d (.tuple ks) (.tuple ks')
  poly : ∀ {s d x body body'}, Post s (d + 1) body body' →
    Post s d (.poly x body) (.poly x body')

variable {Pre : σ → Kind → Prop} {Post : σ → Nat → Kind → Kind → Prop} {keep : Kind → Bool}
  {onBVar : Nat → Nat → m Kind} {onMVar : Nat → KindVar → m Kind}

mutual
theorem Pass.rebuildM_yields (P : Pass D Pre Post keep onBVar onMVar) (k : Kind) {s : σ} {d : Nat}
    (ok : D.Ok s) (pre : Pre s k) :
    Yields D s (k.rebuildM keep onBVar onMVar d) fun k' s' => Post s' d k k' := by
  cases k with
  | bvar i => exact P.bvar_yields ok pre
  | mvar v => exact P.mvar_yields ok pre
  | type | unit | name | error =>
    exact Yields.pure ok (P.leaf pre (by simp) (by simp) rfl)
  | arrow a b =>
    simp only [Kind.rebuildM]
    split
    next h => exact Yields.pure ok (P.kept pre (by simp) h)
    next h =>
      refine Yields.bind ok (P.rebuildM_yields a ok (P.pre_part pre h (by simp [parts]))) ?_
      intro a' s ok grows ha
      refine Yields.bind ok (P.rebuildM_yields b ok
        (P.pre_grows ok grows (P.pre_part pre h (by simp [parts])))) ?_
      intro b' s ok grows hb
      exact Yields.pure ok (P.arrow (P.post_grows ok grows ha) hb)
  | record a =>
    simp only [Kind.rebuildM]
    split
    next h => exact Yields.pure ok (P.kept pre (by simp) h)
    next h =>
      refine Yields.bind ok (P.rebuildM_yields a ok (P.pre_part pre h (by simp [parts]))) ?_
      intro a' s ok _ ha
      exact Yields.pure ok (P.record ha)
  | tuple ks =>
    simp only [Kind.rebuildM]
    split
    next h => exact Yields.pure ok (P.kept pre (by simp) h)
    next h =>
      refine Yields.bind ok (P.rebuildListM_yields ks ok fun k hk => P.pre_part pre h hk) ?_
      intro ks' s ok _ hks
      exact Yields.pure ok (P.tuple hks)
  | poly x body =>
    simp only [Kind.rebuildM]
    split
    next h => exact Yields.pure ok (P.kept pre (by simp) h)
    next h =>
      refine Yields.bind ok (P.rebuildM_yields body ok (P.pre_part pre h (by simp [parts]))) ?_
      intro body' s ok _ hbody
      exact Yields.pure ok (P.poly hbody)
private theorem Pass.rebuildListM_yields (P : Pass D Pre Post keep onBVar onMVar) (ks : List Kind)
    {s : σ} {d : Nat} (ok : D.Ok s) (pre : ∀ k ∈ ks, Pre s k) :
    Yields D s (rebuildListM keep onBVar onMVar d ks) fun ks' s' =>
      List.Forall₂ (Post s' d) ks ks' := by
  cases ks with
  | nil => exact Yields.pure ok .nil
  | cons k ks =>
    refine Yields.bind ok (P.rebuildM_yields k ok (pre k (by simp))) ?_
    intro k' s ok grows hk
    refine Yields.bind ok (P.rebuildListM_yields ks ok fun p hp =>
      P.pre_grows ok grows (pre p (by simp [hp]))) ?_
    intro ks' s ok grows hks
    exact Yields.pure ok (.cons (P.post_grows ok grows hk) hks)
end

end Pass

end Kind

end RowML
