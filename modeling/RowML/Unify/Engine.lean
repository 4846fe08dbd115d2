import RowML.Unify.Rows

/-!
# Unification of constructors

Two constructors are brought into head normal form and compared.  A metavariable is solved, rows are
unified by their pieces, a pair that is stuck on a metavariable is postponed, and other forms are
unified part by part.
-/

namespace RowML

namespace Unify

/-- Unifies two constructors in head normal form part by part. -/
def unifyParts (fuel depth : Nat) (unify : Nat → Con → Con → UnifyM Unit) (a b : Con) :
    UnifyM Unit := do
  match a, b with
  | .arrow a₁ a₂, .arrow b₁ b₂ =>
    unify depth a₁ b₁
    unify depth a₂ b₂
  | .app a₁ a₂, .app b₁ b₂ =>
    unify depth a₁ b₁
    unify depth a₂ b₂
  | .abs _ k body, .abs _ k' body' =>
    unifyKinds fuel k k'
    unify (depth + 1) body body'
  | .poly _ implicit k body, .poly _ implicit' k' body' =>
    if implicit = implicit' then
      unifyKinds fuel k k'
      unify (depth + 1) body body'
    else mismatch a b .structural
  | .kpoly _ body, .kpoly _ body' => unify depth body body'
  | .kabs _ body, .kabs _ body' => unify depth body body'
  | .kapp f k, .kapp f' k' =>
    unify depth f f'
    unifyKinds fuel k k'
  | .disjoint l r body, .disjoint l' r' body' =>
    unify depth l l'
    unify depth r r'
    unify depth body body'
  | .record r, .record r' => unify depth r r'
  | .variant r, .variant r' => unify depth r r'
  | .tuple cs, .tuple cs' =>
    if cs.length = cs'.length then (cs.zip cs').forM fun (c, c') => unify depth c c'
    else mismatch a b (.arity cs.length cs'.length)
  | .component t i, .component t' j =>
    if i = j then unify depth t t' else mismatch a b .structural
  | .proj r f, .proj r' f' =>
    unify depth r r'
    unify depth f f'
  | _, _ => mismatch a b .structural

/-- Unifies two different constructors in head normal form. -/
def unifyHeads (globals : Globals) (fuel depth : Nat) (unify : Nat → Con → Con → UnifyM Unit)
    (a b : Con) : UnifyM Unit :=
  let others : UnifyM Unit :=
    if a.isRowForm ∨ b.isRowForm then unifyRows globals fuel depth (unify depth) a b
    else
      match [Row.blocker? a, Row.blocker? b].filterMap id with
      | [] => unifyParts fuel depth unify a b
      | blockers => postpone depth a b blockers
  match a, b with
  | .mvar v spine, .mvar w spine' =>
    if v = w then
      if spine.length = spine'.length then
        (spine.zip spine').forM fun (x, y) => unify depth x y
      else mismatch a b .structural
    else solve fuel depth v spine b
  | .mvar v spine, _ => solve fuel depth v spine b
  | _, .mvar w spine' => solve fuel depth w spine' a
  | _, _ => others

/-- Makes two constructors under `depth` binders equal.  A mismatch is reported for the innermost
pair. -/
def unifyAt (globals : Globals) : Nat → Nat → Con → Con → UnifyM Unit
  | 0, _, _, _ => (outOfFuel : FuelM Unit)
  | fuel + 1, depth, a, b => do
    if a = b then pure ()
    else
      let a ← headNormal globals fuel a
      let b ← headNormal globals fuel b
      if a = b ∨ a = .error ∨ b = .error then pure ()
      else unifyHeads globals fuel depth (unifyAt globals fuel) a b

end Unify

/-- Makes two constructors under `depth` binders equal.  The first part of the answer is the
failure, which names the two constructors themselves; the second are the postponed equations. -/
def unify (globals : Globals) (fuel depth : Nat) (expected found : Con) :
    FuelM (Except UnifyError Unit × List Postponed) := do
  let (result, postponed) ← (Unify.unifyAt globals fuel depth expected found).run.run []
  let result := result.mapError fun
    | .mismatch _ _ reason => .mismatch expected found reason
    | .kind error => .kind error
  pure (result, postponed)

inductive TryResult where
  | yes
  | no
  /-- Succeeded only by postponing a part. -/
  | maybe
deriving DecidableEq, Repr, Inhabited

/-- Unifies speculatively: the effect is kept only if nothing is postponed. -/
def tryUnify (globals : Globals) (fuel depth : Nat) (expected found : Con) : FuelM TryResult := do
  let mark ← Store.snapshot
  match ← unify globals fuel depth expected found with
  | (.ok (), []) =>
    Store.commit
    pure .yes
  | (.ok (), _ :: _) =>
    Store.rollback mark
    pure .maybe
  | (.error _, _) =>
    Store.rollback mark
    pure .no

end RowML
