/-!
# Kinds

Kinds classify constructors: `Type` the types of values, `Name` the labels of fields, a row kind
the rows whose fields have one common kind.  A variable that an enclosing kind binder introduces is
a de Bruijn index; a metavariable is a number into a store of kind variables.

Two kinds are the same only if they are equal as trees, binder names included.
-/

namespace RowML

/-- Position of a kind metavariable in its store. -/
abbrev KindVar := Nat

inductive Kind where
  | type
  | unit
  | name
  /-- Poison: equal to every kind as far as unification is concerned. -/
  | error
  | arrow (domain codomain : Kind)
  /-- Rows whose fields have kind `element`. -/
  | record (element : Kind)
  | tuple (components : List Kind)
  | bvar (index : Nat)
  | poly (binder : String) (body : Kind)
  | mvar (var : KindVar)
deriving Inhabited

namespace Kind

/-- The kind of rows of types. -/
abbrev typeRow : Kind := .record .type

/-! ## Equality -/

mutual
def beq : Kind → Kind → Bool
  | .type, .type => true
  | .unit, .unit => true
  | .name, .name => true
  | .error, .error => true
  | .arrow a b, .arrow c d => beq a c && beq b d
  | .record a, .record b => beq a b
  | .tuple as, .tuple bs => beqList as bs
  | .bvar i, .bvar j => i == j
  | .poly x a, .poly y b => x == y && beq a b
  | .mvar v, .mvar w => v == w
  | _, _ => false
def beqList : List Kind → List Kind → Bool
  | [], [] => true
  | a :: as, b :: bs => beq a b && beqList as bs
  | _, _ => false
end

mutual
theorem beq_refl : (k : Kind) → beq k k = true
  | .type | .unit | .name | .error => rfl
  | .arrow a b => by simp [beq, beq_refl a, beq_refl b]
  | .record a => by simp [beq, beq_refl a]
  | .tuple as => by simp [beq, beqList_refl as]
  | .bvar _ => by simp [beq]
  | .poly _ a => by simp [beq, beq_refl a]
  | .mvar _ => by simp [beq]
theorem beqList_refl : (ks : List Kind) → beqList ks ks = true
  | [] => rfl
  | a :: as => by simp [beqList, beq_refl a, beqList_refl as]
end

mutual
theorem eq_of_beq : (a b : Kind) → beq a b = true → a = b
  | .type, b, h => by
    cases b <;> try exact Bool.noConfusion h
    rfl
  | .unit, b, h => by
    cases b <;> try exact Bool.noConfusion h
    rfl
  | .name, b, h => by
    cases b <;> try exact Bool.noConfusion h
    rfl
  | .error, b, h => by
    cases b <;> try exact Bool.noConfusion h
    rfl
  | .arrow a c, b, h => by
    cases b <;> try exact Bool.noConfusion h
    simp only [beq, Bool.and_eq_true] at h
    rw [eq_of_beq _ _ h.1, eq_of_beq _ _ h.2]
  | .record a, b, h => by
    cases b <;> try exact Bool.noConfusion h
    simp only [beq] at h
    rw [eq_of_beq _ _ h]
  | .tuple as, b, h => by
    cases b <;> try exact Bool.noConfusion h
    simp only [beq] at h
    rw [eq_of_beqList _ _ h]
  | .bvar _, b, h => by
    cases b <;> try exact Bool.noConfusion h
    simp only [beq, beq_iff_eq] at h
    rw [h]
  | .poly _ a, b, h => by
    cases b <;> try exact Bool.noConfusion h
    simp only [beq, Bool.and_eq_true, beq_iff_eq] at h
    rw [h.1, eq_of_beq _ _ h.2]
  | .mvar _, b, h => by
    cases b <;> try exact Bool.noConfusion h
    simp only [beq, beq_iff_eq] at h
    rw [h]
theorem eq_of_beqList : (as bs : List Kind) → beqList as bs = true → as = bs
  | [], bs, h => by
    cases bs <;> try exact Bool.noConfusion h
    rfl
  | a :: as, bs, h => by
    cases bs <;> try exact Bool.noConfusion h
    simp only [beqList, Bool.and_eq_true] at h
    rw [eq_of_beq _ _ h.1, eq_of_beqList _ _ h.2]
end

instance : DecidableEq Kind := fun a b =>
  if h : beq a b = true then .isTrue (eq_of_beq a b h)
  else .isFalse fun e => h (e ▸ beq_refl a)

/-! ## What a kind mentions -/

mutual
/-- Whether a bound variable occurs, be it free or bound inside the kind itself. -/
def hasBVar : Kind → Bool
  | .bvar _ => true
  | .arrow a b => a.hasBVar || b.hasBVar
  | .record a => a.hasBVar
  | .tuple ks => hasBVarList ks
  | .poly _ body => body.hasBVar
  | .type | .unit | .name | .error | .mvar _ => false
def hasBVarList : List Kind → Bool
  | [] => false
  | k :: ks => k.hasBVar || hasBVarList ks
end

mutual
/-- The metavariables that occur, with repetitions, from left to right. -/
def mvars : Kind → List KindVar
  | .mvar v => [v]
  | .arrow a b => a.mvars ++ b.mvars
  | .record a => a.mvars
  | .tuple ks => mvarsList ks
  | .poly _ body => body.mvars
  | .type | .unit | .name | .error | .bvar _ => []
def mvarsList : List Kind → List KindVar
  | [] => []
  | k :: ks => k.mvars ++ mvarsList ks
end

/-- Whether a metavariable occurs, solved or not. -/
def hasMVar (k : Kind) : Bool := !k.mvars.isEmpty

/-! ## Rebuilding -/

mutual
/-- Rebuilds a kind from its leaves.  `keep` names the inner nodes that stay as they are, `onBVar`
and `onMVar` say what becomes of a variable under a number of binders counted from `depth`. -/
@[specialize]
def rebuildM {m : Type → Type} [Monad m] (keep : Kind → Bool) (onBVar : Nat → Nat → m Kind)
    (onMVar : Nat → KindVar → m Kind) (depth : Nat) : Kind → m Kind
  | .bvar i => onBVar depth i
  | .mvar v => onMVar depth v
  | .arrow a b =>
    if keep (.arrow a b) then pure (.arrow a b) else do
      let a ← a.rebuildM keep onBVar onMVar depth
      let b ← b.rebuildM keep onBVar onMVar depth
      pure (.arrow a b)
  | .record a =>
    if keep (.record a) then pure (.record a) else do
      let a ← a.rebuildM keep onBVar onMVar depth
      pure (.record a)
  | .tuple ks =>
    if keep (.tuple ks) then pure (.tuple ks) else do
      let ks ← rebuildListM keep onBVar onMVar depth ks
      pure (.tuple ks)
  | .poly x body =>
    if keep (.poly x body) then pure (.poly x body) else do
      let body ← body.rebuildM keep onBVar onMVar (depth + 1)
      pure (.poly x body)
  | .type => pure .type
  | .unit => pure .unit
  | .name => pure .name
  | .error => pure .error
@[specialize]
def rebuildListM {m : Type → Type} [Monad m] (keep : Kind → Bool) (onBVar : Nat → Nat → m Kind)
    (onMVar : Nat → KindVar → m Kind) (depth : Nat) : List Kind → m (List Kind)
  | [] => pure []
  | k :: ks => do
    let k ← k.rebuildM keep onBVar onMVar depth
    let ks ← rebuildListM keep onBVar onMVar depth ks
    pure (k :: ks)
end

end Kind

end RowML
