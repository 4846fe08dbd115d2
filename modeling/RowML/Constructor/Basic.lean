import RowML.Kind.Basic

/-!
# Constructors

Constructors are the expressions of the type language: types, rows, labels, tuples and functions
between them.  Bound variables are de Bruijn indices; constructor binders and kind binders count
separately.

A metavariable is closed.  One that is made under `n` constructor binders is solved by a constructor
in a context of those `n` binders, and every occurrence of it carries a spine of `n` constructors
for them, the outermost first.  Shifting and substitution act on the spine only.

Two constructors are the same only if they are equal as trees, binder names and kind annotations
included.
-/

namespace RowML

/-- Position of a constructor metavariable in its store. -/
abbrev MetaId := Nat

/-- Position of a generalisation skolem in its store. -/
abbrev SkolemId := Nat

/-- Position of a global definition. -/
abbrev DefId := Nat

/-- Position of a module. -/
abbrev ModuleId := Nat

/-- Position of a named signature. -/
abbrev SignatureId := Nat

/-- The types that are built in. -/
inductive Prim where
  | int
  | float
  | string
  | char
  | bool
deriving DecidableEq, Repr, Inhabited

inductive Con where
  | prim (type : Prim)
  /-- The only constructor of kind `Unit`. -/
  | unit
  /-- Poison: equal to every constructor as far as unification is concerned. -/
  | error
  | bvar (index : Nat)
  | global (definition : DefId)
  /-- The item `item` of the structure that `path` leads to from `module`. -/
  | member (module : ModuleId) (path : List String) (item : String)
  /-- The same, from the signature `level` levels outwards of the one being described. -/
  | relative (level : Nat) (path : List String) (item : String)
  /-- A rigid variable that stands for a quantifier being introduced. -/
  | skolem (id : SkolemId)
  | mvar (id : MetaId) (spine : List Con)
  | app (function argument : Con)
  | abs (binder : String) (kind : Kind) (body : Con)
  | kabs (binder : String) (body : Con)
  | kapp (function : Con) (argument : Kind)
  | arrow (domain codomain : Con)
  | poly (binder : String) (implicit : Bool) (kind : Kind) (body : Con)
  | kpoly (binder : String) (body : Con)
  /-- Values of `body`, provided that `left` and `right` share no label. -/
  | disjoint (left right body : Con)
  | record (row : Con)
  | variant (row : Con)
  /-- A row literal whose fields have kind `kind`. -/
  | row (kind : Kind) (fields : List (Con × Con))
  | label (name : String)
  | concat (left right : Con)
  /-- The row with `function` applied to every field. -/
  | map (domain codomain : Kind) (function row : Con)
  /-- The constructor at `field` of `row`. -/
  | proj (row field : Con)
  | tuple (components : List Con)
  /-- Component `index` of a tuple, counted from zero. -/
  | component (tuple : Con) (index : Nat)
deriving Inhabited

namespace Con

abbrev int : Con := .prim .int
abbrev float : Con := .prim .float
abbrev string : Con := .prim .string
abbrev char : Con := .prim .char
abbrev bool : Con := .prim .bool

/-- The empty row of types. -/
abbrev emptyRow : Con := .row .type []

/-- The type of the empty record. -/
abbrev unitType : Con := .record emptyRow

/-- A row literal with constant labels. -/
def rowOf (kind : Kind) (fields : List (String × Con)) : Con :=
  .row kind (fields.map fun (name, value) => (.label name, value))

/-- The record type with constant labels. -/
def recordOf (fields : List (String × Con)) : Con := .record (rowOf .type fields)

/-- A function applied to several arguments. -/
def apps (function : Con) (arguments : List Con) : Con := arguments.foldl .app function

/-! ## Equality -/

mutual
def beq : Con → Con → Bool
  | .prim a1, .prim b1 => a1 == b1
  | .unit, .unit => true
  | .error, .error => true
  | .bvar a1, .bvar b1 => a1 == b1
  | .global a1, .global b1 => a1 == b1
  | .member a1 a2 a3, .member b1 b2 b3 => a1 == b1 && a2 == b2 && a3 == b3
  | .relative a1 a2 a3, .relative b1 b2 b3 => a1 == b1 && a2 == b2 && a3 == b3
  | .skolem a1, .skolem b1 => a1 == b1
  | .mvar a1 a2, .mvar b1 b2 => a1 == b1 && beqList a2 b2
  | .app a1 a2, .app b1 b2 => beq a1 b1 && beq a2 b2
  | .abs a1 a2 a3, .abs b1 b2 b3 => a1 == b1 && a2 == b2 && beq a3 b3
  | .kabs a1 a2, .kabs b1 b2 => a1 == b1 && beq a2 b2
  | .kapp a1 a2, .kapp b1 b2 => beq a1 b1 && a2 == b2
  | .arrow a1 a2, .arrow b1 b2 => beq a1 b1 && beq a2 b2
  | .poly a1 a2 a3 a4, .poly b1 b2 b3 b4 => a1 == b1 && a2 == b2 && a3 == b3 && beq a4 b4
  | .kpoly a1 a2, .kpoly b1 b2 => a1 == b1 && beq a2 b2
  | .disjoint a1 a2 a3, .disjoint b1 b2 b3 => beq a1 b1 && beq a2 b2 && beq a3 b3
  | .record a1, .record b1 => beq a1 b1
  | .variant a1, .variant b1 => beq a1 b1
  | .row a1 a2, .row b1 b2 => a1 == b1 && beqFields a2 b2
  | .label a1, .label b1 => a1 == b1
  | .concat a1 a2, .concat b1 b2 => beq a1 b1 && beq a2 b2
  | .map a1 a2 a3 a4, .map b1 b2 b3 b4 => a1 == b1 && a2 == b2 && beq a3 b3 && beq a4 b4
  | .proj a1 a2, .proj b1 b2 => beq a1 b1 && beq a2 b2
  | .tuple a1, .tuple b1 => beqList a1 b1
  | .component a1 a2, .component b1 b2 => beq a1 b1 && a2 == b2
  | _, _ => false
def beqList : List Con → List Con → Bool
  | [], [] => true
  | a :: as, b :: bs => beq a b && beqList as bs
  | _, _ => false
def beqFields : List (Con × Con) → List (Con × Con) → Bool
  | [], [] => true
  | (a, c) :: as, (b, d) :: bs => beq a b && beq c d && beqFields as bs
  | _, _ => false
end

mutual
theorem beq_refl : (c : Con) → beq c c = true
  | .prim _ => by simp [beq]
  | .unit => rfl
  | .error => rfl
  | .bvar _ => by simp [beq]
  | .global _ => by simp [beq]
  | .member _ _ _ => by simp [beq]
  | .relative _ _ _ => by simp [beq]
  | .skolem _ => by simp [beq]
  | .mvar _ a2 => by simp [beq, beqList_refl a2]
  | .app a1 a2 => by simp [beq, beq_refl a1, beq_refl a2]
  | .abs _ _ a3 => by simp [beq, beq_refl a3]
  | .kabs _ a2 => by simp [beq, beq_refl a2]
  | .kapp a1 _ => by simp [beq, beq_refl a1]
  | .arrow a1 a2 => by simp [beq, beq_refl a1, beq_refl a2]
  | .poly _ _ _ a4 => by simp [beq, beq_refl a4]
  | .kpoly _ a2 => by simp [beq, beq_refl a2]
  | .disjoint a1 a2 a3 => by simp [beq, beq_refl a1, beq_refl a2, beq_refl a3]
  | .record a1 => by simp [beq, beq_refl a1]
  | .variant a1 => by simp [beq, beq_refl a1]
  | .row _ a2 => by simp [beq, beqFields_refl a2]
  | .label _ => by simp [beq]
  | .concat a1 a2 => by simp [beq, beq_refl a1, beq_refl a2]
  | .map _ _ a3 a4 => by simp [beq, beq_refl a3, beq_refl a4]
  | .proj a1 a2 => by simp [beq, beq_refl a1, beq_refl a2]
  | .tuple a1 => by simp [beq, beqList_refl a1]
  | .component a1 _ => by simp [beq, beq_refl a1]
theorem beqList_refl : (cs : List Con) → beqList cs cs = true
  | [] => rfl
  | c :: cs => by simp [beqList, beq_refl c, beqList_refl cs]
theorem beqFields_refl : (fs : List (Con × Con)) → beqFields fs fs = true
  | [] => rfl
  | (n, v) :: fs => by simp [beqFields, beq_refl n, beq_refl v, beqFields_refl fs]
end

mutual
theorem eq_of_beq : (a b : Con) → beq a b = true → a = b
  | .prim _, b, h => by
    cases b <;> try exact Bool.noConfusion h
    simp only [beq, beq_iff_eq] at h
    rw [h]
  | .unit, b, h => by
    cases b <;> try exact Bool.noConfusion h
    rfl
  | .error, b, h => by
    cases b <;> try exact Bool.noConfusion h
    rfl
  | .bvar _, b, h => by
    cases b <;> try exact Bool.noConfusion h
    simp only [beq, beq_iff_eq] at h
    rw [h]
  | .global _, b, h => by
    cases b <;> try exact Bool.noConfusion h
    simp only [beq, beq_iff_eq] at h
    rw [h]
  | .member _ _ _, b, h => by
    cases b <;> try exact Bool.noConfusion h
    simp only [beq, Bool.and_eq_true, beq_iff_eq] at h
    rw [h.1.1, h.1.2, h.2]
  | .relative _ _ _, b, h => by
    cases b <;> try exact Bool.noConfusion h
    simp only [beq, Bool.and_eq_true, beq_iff_eq] at h
    rw [h.1.1, h.1.2, h.2]
  | .skolem _, b, h => by
    cases b <;> try exact Bool.noConfusion h
    simp only [beq, beq_iff_eq] at h
    rw [h]
  | .mvar _ _, b, h => by
    cases b <;> try exact Bool.noConfusion h
    simp only [beq, Bool.and_eq_true, beq_iff_eq] at h
    rw [h.1, eq_of_beqList _ _ h.2]
  | .app _ _, b, h => by
    cases b <;> try exact Bool.noConfusion h
    simp only [beq, Bool.and_eq_true] at h
    rw [eq_of_beq _ _ h.1, eq_of_beq _ _ h.2]
  | .abs _ _ _, b, h => by
    cases b <;> try exact Bool.noConfusion h
    simp only [beq, Bool.and_eq_true, beq_iff_eq] at h
    rw [h.1.1, h.1.2, eq_of_beq _ _ h.2]
  | .kabs _ _, b, h => by
    cases b <;> try exact Bool.noConfusion h
    simp only [beq, Bool.and_eq_true, beq_iff_eq] at h
    rw [h.1, eq_of_beq _ _ h.2]
  | .kapp _ _, b, h => by
    cases b <;> try exact Bool.noConfusion h
    simp only [beq, Bool.and_eq_true, beq_iff_eq] at h
    rw [eq_of_beq _ _ h.1, h.2]
  | .arrow _ _, b, h => by
    cases b <;> try exact Bool.noConfusion h
    simp only [beq, Bool.and_eq_true] at h
    rw [eq_of_beq _ _ h.1, eq_of_beq _ _ h.2]
  | .poly _ _ _ _, b, h => by
    cases b <;> try exact Bool.noConfusion h
    simp only [beq, Bool.and_eq_true, beq_iff_eq] at h
    rw [h.1.1.1, h.1.1.2, h.1.2, eq_of_beq _ _ h.2]
  | .kpoly _ _, b, h => by
    cases b <;> try exact Bool.noConfusion h
    simp only [beq, Bool.and_eq_true, beq_iff_eq] at h
    rw [h.1, eq_of_beq _ _ h.2]
  | .disjoint _ _ _, b, h => by
    cases b <;> try exact Bool.noConfusion h
    simp only [beq, Bool.and_eq_true] at h
    rw [eq_of_beq _ _ h.1.1, eq_of_beq _ _ h.1.2, eq_of_beq _ _ h.2]
  | .record _, b, h => by
    cases b <;> try exact Bool.noConfusion h
    simp only [beq] at h
    rw [eq_of_beq _ _ h]
  | .variant _, b, h => by
    cases b <;> try exact Bool.noConfusion h
    simp only [beq] at h
    rw [eq_of_beq _ _ h]
  | .row _ _, b, h => by
    cases b <;> try exact Bool.noConfusion h
    simp only [beq, Bool.and_eq_true, beq_iff_eq] at h
    rw [h.1, eq_of_beqFields _ _ h.2]
  | .label _, b, h => by
    cases b <;> try exact Bool.noConfusion h
    simp only [beq, beq_iff_eq] at h
    rw [h]
  | .concat _ _, b, h => by
    cases b <;> try exact Bool.noConfusion h
    simp only [beq, Bool.and_eq_true] at h
    rw [eq_of_beq _ _ h.1, eq_of_beq _ _ h.2]
  | .map _ _ _ _, b, h => by
    cases b <;> try exact Bool.noConfusion h
    simp only [beq, Bool.and_eq_true, beq_iff_eq] at h
    rw [h.1.1.1, h.1.1.2, eq_of_beq _ _ h.1.2, eq_of_beq _ _ h.2]
  | .proj _ _, b, h => by
    cases b <;> try exact Bool.noConfusion h
    simp only [beq, Bool.and_eq_true] at h
    rw [eq_of_beq _ _ h.1, eq_of_beq _ _ h.2]
  | .tuple _, b, h => by
    cases b <;> try exact Bool.noConfusion h
    simp only [beq] at h
    rw [eq_of_beqList _ _ h]
  | .component _ _, b, h => by
    cases b <;> try exact Bool.noConfusion h
    simp only [beq, Bool.and_eq_true, beq_iff_eq] at h
    rw [eq_of_beq _ _ h.1, h.2]
theorem eq_of_beqList : (as bs : List Con) → beqList as bs = true → as = bs
  | [], bs, h => by
    cases bs <;> try exact Bool.noConfusion h
    rfl
  | a :: as, bs, h => by
    cases bs <;> try exact Bool.noConfusion h
    simp only [beqList, Bool.and_eq_true] at h
    rw [eq_of_beq _ _ h.1, eq_of_beqList _ _ h.2]
theorem eq_of_beqFields : (as bs : List (Con × Con)) → beqFields as bs = true → as = bs
  | [], bs, h => by
    cases bs <;> try exact Bool.noConfusion h
    rfl
  | (_, _) :: _, [], h => Bool.noConfusion h
  | (_, _) :: _, (_, _) :: _, h => by
    simp only [beqFields, Bool.and_eq_true] at h
    rw [eq_of_beq _ _ h.1.1, eq_of_beq _ _ h.1.2, eq_of_beqFields _ _ h.2]
end
instance : DecidableEq Con := fun a b =>
  if h : beq a b = true then .isTrue (eq_of_beq a b h)
  else .isFalse fun e => h (e ▸ beq_refl a)

end Con

end RowML
