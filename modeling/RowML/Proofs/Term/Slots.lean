import Mathlib.Algebra.GroupWithZero.Nat
import RowML.Elaboration.Header
import RowML.Term.Basic

/-!
# The slots in a term

What is said of every slot in a term may depend on the number of term variables that the term binds
around it.
-/

namespace RowML

mutual
/-- Every slot in the term has the property, together with the number of term variables in scope
there; around the whole term there are `depth`. -/
def Term.Slots (P : Nat → SlotId → Prop) (depth : Nat) : Term → Prop
  | .lit _ | .bvar _ | .global _ | .member _ _ _ | .dict _ => True
  | .slot id => P depth id
  | .app f a => f.Slots P depth ∧ a.Slots P depth
  | .abs _ _ body => body.Slots P (depth + 1)
  | .capp f _ | .kapp f _ | .disjointApp f => f.Slots P depth
  | .cabs _ _ body | .kabs _ body | .disjointAbs _ _ body => body.Slots P depth
  | .record fields => Term.SlotsFields P depth fields
  | .field value _ _ | .cut value _ _ | .cutRow value _ _ => value.Slots P depth
  | .concat left right _ _ => left.Slots P depth ∧ right.Slots P depth
  | .inject _ value _ => value.Slots P depth
  | .case scrutinee arms _ => scrutinee.Slots P depth ∧ Term.SlotsArms P depth arms
  | .letVal _ _ value body => value.Slots P depth ∧ body.Slots P (depth + 1)
  | .letRec functions body =>
    Term.SlotsFunctions P (depth + functions.length) functions ∧
      body.Slots P (depth + functions.length)
  | .ite condition yes no => condition.Slots P depth ∧ yes.Slots P depth ∧ no.Slots P depth
def Term.SlotsFields (P : Nat → SlotId → Prop) (depth : Nat) : List (Con × Term) → Prop
  | [] => True
  | (_, value) :: fields => value.Slots P depth ∧ Term.SlotsFields P depth fields
def Term.SlotsArms (P : Nat → SlotId → Prop) (depth : Nat) : List (Pattern × Term) → Prop
  | [] => True
  | (pattern, body) :: arms =>
    body.Slots P (depth + pattern.boundCount) ∧ Term.SlotsArms P depth arms
def Term.SlotsFunctions (P : Nat → SlotId → Prop) (depth : Nat) :
    List (String × Con × Term) → Prop
  | [] => True
  | (_, _, body) :: functions => body.Slots P depth ∧ Term.SlotsFunctions P depth functions
end

namespace Term

variable {P : Nat → SlotId → Prop} {depth : Nat}

theorem slotsFields_iff {fields : List (Con × Term)} :
    SlotsFields P depth fields ↔ ∀ field ∈ fields, field.2.Slots P depth := by
  induction fields with
  | nil => simp [SlotsFields]
  | cons field fields ih => simp [SlotsFields, ih]

theorem slotsArms_iff {arms : List (Pattern × Term)} :
    SlotsArms P depth arms ↔ ∀ arm ∈ arms, arm.2.Slots P (depth + arm.1.boundCount) := by
  induction arms with
  | nil => simp [SlotsArms]
  | cons arm arms ih => simp [SlotsArms, ih]

theorem slotsFunctions_iff {functions : List (String × Con × Term)} :
    SlotsFunctions P depth functions ↔ ∀ function ∈ functions, function.2.2.Slots P depth := by
  induction functions with
  | nil => simp [SlotsFunctions]
  | cons function functions ih => simp [SlotsFunctions, ih]

end Term

/-! ## Headers -/

namespace HeaderParam

/-- The number of term variables that a parameter binds. -/
def valCount : HeaderParam → Nat
  | .val _ _ => 1
  | _ => 0

end HeaderParam

namespace Header

def valCount (header : Header) : Nat := (header.params.map HeaderParam.valCount).sum

/-- The parameters of a function are around its body. -/
theorem slots_abstract {P : Nat → SlotId → Prop} {depth : Nat} {header : Header} {body : Term}
    (h : body.Slots P (depth + header.valCount)) : (header.abstract body).Slots P depth := by
  obtain ⟨params, result⟩ := header
  change (params.foldr (fun param body => param.bindTerm body) body).Slots P depth
  change body.Slots P (depth + (params.map HeaderParam.valCount).sum) at h
  induction params generalizing depth with
  | nil => exact h
  | cons param params ih =>
    rw [List.map_cons, List.sum_cons, ← Nat.add_assoc] at h
    cases param with
    | con | disjoint | val => exact ih h

end Header

end RowML
