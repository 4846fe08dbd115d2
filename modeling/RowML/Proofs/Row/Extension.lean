import RowML.Proofs.Module.Contents
import RowML.Proofs.Row.Instantiation
import RowML.Proofs.Store.Termination

/-!
# Choices for what is unsolved

Anything may be put for the unsolved metavariables: the solutions then say what the solved ones
stand for.  As solutions do not lead in a circle, unfolding them as often as there are cells ends.
-/

namespace RowML

open RowML.Con Observed Traits

namespace Instantiation

variable {I I' : Instantiation} {env env' : Nat → Traits} {store : Store}

/-- Both give the same for everything but metavariables. -/
structure SameNames (I I' : Instantiation) : Prop where
  skolem : I'.skolem = I.skolem
  global : I'.global = I.global
  member : I'.member = I.member
  relative : I'.relative = I.relative

namespace SameNames

theorem refl (I : Instantiation) : I.SameNames I := ⟨rfl, rfl, rfl, rfl⟩

theorem op_eq (same : I.SameNames I') {c : Con}
    (hmvar : ∀ v spine, c = .mvar v spine → I'.metavar v = I.metavar v)
    (parts : List ((Nat → Traits) → Traits)) : I'.op c parts = I.op c parts := by
  cases c with
  | mvar v spine => simp only [op, hmvar v spine rfl]
  | _ =>
    rcases parts with _ | ⟨p, _ | ⟨q, _ | ⟨r, rest⟩⟩⟩ <;>
      simp only [op, same.skolem, same.global, same.member, same.relative]

/-- What a constructor stands for depends on the metavariables that it mentions and on the variables
below its bound. -/
theorem value_eq (same : I.SameNames I') {c : Con} {n : Nat} (hbound : c.bound ≤ n)
    (hmetas : ∀ v, c.Mentions v → I'.metavar v = I.metavar v) (henv : ∀ i < n, env' i = env i) :
    I'.value c env' = I.value c env := by
  induction c using inductionOnParts generalizing n env env' with
  | step c ih =>
    obtain ⟨hvar, hparts⟩ := bound_le_iff_parts.mp hbound
    have hpart : ∀ p ∈ c.parts, ∀ {e e' : Nat → Traits},
        (∀ i < n + c.binders.con, e' i = e i) → I'.value p e' = I.value p e :=
      fun p hp _ _ he => ih p hp (hparts p hp) (fun v hv => hmetas v (.part hp hv)) he
    have hop {frame : Con} {parts parts' : List ((Nat → Traits) → Traits)}
        (hframe : ∀ v spine, frame = .mvar v spine → I'.metavar v = I.metavar v)
        (h : List.Forall₂ (fun part part' => part env' = part' env) parts parts') :
        I'.algebra.op frame parts env' = I.algebra.op frame parts' env :=
      (congrFun (same.op_eq hframe parts) env').trans (I.algebra.congr frame h)
    have hall : c.binders.con = 0 → List.Forall₂ (fun part part' => part env' = part' env)
        (c.parts.map (meaning I'.algebra)) (c.parts.map (meaning I.algebra)) := by
      intro hbinders
      rw [List.forall₂_map_left_iff, List.forall₂_map_right_iff]
      exact List.forall₂_same.mpr fun p hp => hpart p hp (by simpa [hbinders] using henv)
    rw [value, value, meaning_eq, meaning_eq (A := I.algebra)]
    cases c with
    | bvar i => exact henv i (hvar i rfl)
    | abs x k body =>
      simp only [frame, parts, List.map_cons, List.map_nil, nodeMeaning]
      congr 1
      funext X
      refine hpart body (by simp [parts]) fun i hi => ?_
      cases i with
      | zero => rfl
      | succ i => exact henv i (Nat.lt_of_succ_lt_succ hi)
    | poly x implicit k body => exact hop (by rintro _ _ ⟨⟩) .nil
    | mvar v spine =>
      refine hop ?_ (hall rfl)
      rintro _ _ ⟨⟩
      exact hmetas v (.here spine)
    | _ => exact hop (by rintro _ _ ⟨⟩) (hall rfl)

end SameNames

/-! ## Unfolding solutions -/

/-- Solved metavariables stand for what their solutions do. -/
def unfolded (I : Instantiation) (store : Store) : Instantiation where
  __ := I
  metavar v := match store.solution? v with
    | some solution => I.value solution
    | none => I.metavar v
  finitary v := by
    split
    · exact meaning_finitary _
    · exact I.finitary v

/-- Unfolds the solutions `n` times. -/
def unfoldedTimes (I : Instantiation) (store : Store) : Nat → Instantiation
  | 0 => I
  | n + 1 => (I.unfoldedTimes store n).unfolded store

theorem metavar_unfolded_of_some {v : MetaId} {solution : Con}
    (h : store.solution? v = some solution) : (I.unfolded store).metavar v = I.value solution := by
  simp only [unfolded, h]

theorem metavar_unfolded_of_none {v : MetaId} (h : store.solution? v = none) :
    (I.unfolded store).metavar v = I.metavar v := by
  simp only [unfolded, h]

theorem sameNames_unfolded (I : Instantiation) (store : Store) : I.SameNames (I.unfolded store) :=
  ⟨rfl, rfl, rfl, rfl⟩

theorem sameNames_unfoldedTimes (I : Instantiation) (store : Store) (n : Nat) :
    I.SameNames (I.unfoldedTimes store n) := by
  induction n with
  | zero => exact .refl I
  | succ n ih => exact ⟨ih.skolem, ih.global, ih.member, ih.relative⟩

theorem metavar_unfoldedTimes {v : MetaId} (h : store.solution? v = none) (n : Nat) :
    (I.unfoldedTimes store n).metavar v = I.metavar v := by
  induction n with
  | zero => rfl
  | succ n ih => exact (metavar_unfolded_of_none h).trans ih

/-- A cell is settled once the solutions have been unfolded as often as its rank says. -/
theorem metavar_unfoldedTimes_succ {rank : MetaId → Nat} (hrank : Ranks store.Leads rank)
    (hpositive : ∀ i, store.isSolved i = true → 0 < rank i) {n : Nat} {v : MetaId}
    (hv : rank v ≤ n) :
    (I.unfoldedTimes store (n + 1)).metavar v = (I.unfoldedTimes store n).metavar v := by
  induction n generalizing v with
  | zero =>
    cases hsolution : store.solution? v with
    | none => exact metavar_unfolded_of_none hsolution
    | some solution =>
      have := hpositive v (by simp [Store.isSolved, hsolution])
      omega
  | succ n ih =>
    cases hsolution : store.solution? v with
    | none =>
      rw [metavar_unfoldedTimes hsolution, metavar_unfoldedTimes hsolution]
    | some solution =>
      rw [unfoldedTimes, metavar_unfolded_of_some hsolution, unfoldedTimes,
        metavar_unfolded_of_some hsolution]
      funext env
      refine (sameNames_unfolded _ store).value_eq le_rfl (fun w hw => ih ?_) fun _ _ => rfl
      have := hrank v w ⟨solution, hsolution, hw⟩
      omega

/-- The instantiation in which the unsolved metavariables stand for what they do in `I`, and the
solved ones for their solutions. -/
def solved (I : Instantiation) (store : Store) : Instantiation :=
  I.unfoldedTimes store store.cells.size

theorem solves_solved (ok : store.Steady) (I : Instantiation) :
    (I.solved store).algebra.Solves store := by
  obtain ⟨rank, hrank, hpositive, hle⟩ := ok.acyclic.exists_bounded_rank
  rintro _ _ ⟨hsolution, hlength⟩
  rename_i v solution spine
  funext env
  have hstable := metavar_unfoldedTimes_succ (I := I) hrank hpositive (hle v)
  rw [unfoldedTimes, metavar_unfolded_of_some hsolution] at hstable
  rw [meaning_instantiated]
  let Xs := spine.map fun part => meaning (I.solved store).algebra part env
  have hmvar : meaning (I.solved store).algebra (.mvar v spine) env =
      (I.solved store).metavar v (pushAll Xs fun _ => ⊥) := by
    rw [meaning, meanings_eq]
    exact congrArg (fun Ys => (I.solved store).metavar v (pushAll Ys fun _ => ⊥)) List.map_map
  rw [hmvar]
  refine (congrFun hstable.symm _).trans ?_
  refine SameNames.value_eq (.refl _) (ok.bounds hsolution) (fun _ _ => rfl) fun i hi => ?_
  have hi : i < Xs.reverse.length := by simpa [Xs, hlength] using hi
  rw [pushAll_apply, pushAll_apply, List.getElem?_eq_getElem hi]
  rfl

/-- Every choice for the unsolved metavariables is respected by some instantiation. -/
theorem respects_solved {globals : Globals} (ok : store.Steady)
    (hI : ∀ I', I.SameNames I' → I'.Knows globals) : (I.solved store).Respects globals store where
  toKnows := hI _ (sameNames_unfoldedTimes I store _)
  solves := solves_solved ok I

/-- The empty table defines nothing, and its modules are poison. -/
theorem knows_empty (h : I.member = fun _ _ _ => ⊤) : I.Knows Globals.empty where
  definition := nofun
  classDefinition := nofun
  item hitem := by
    cases Globals.eq_error_of_item_empty hitem
    funext env
    exact congrFun (congrFun (congrFun h _) _) _
  classItem hitem := by cases Globals.eq_error_of_item_empty hitem
  canonical module path item := by
    funext env
    change I.member _ _ _ = I.member _ _ _
    rw [h]

end Instantiation

end RowML
