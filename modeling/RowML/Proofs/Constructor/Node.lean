import RowML.Constructor.Feature
import Mathlib.Data.List.Basic

/-!
# One node at a time

A constructor is its outermost node together with the constructors below it.  The frame is the node
with the parts and the kind annotations blanked out; frame, annotations and parts determine the
constructor.  All parts of one node stand under the same binders, so facts about traversals need no
case for each form of node.
-/

namespace RowML

attribute [ext] Depth

namespace Depth

instance : Add Depth := ⟨fun d e => ⟨d.con + e.con, d.kind + e.kind⟩⟩

@[simp] theorem add_con (d e : Depth) : (d + e).con = d.con + e.con := rfl

@[simp] theorem add_kind (d e : Depth) : (d + e).kind = d.kind + e.kind := rfl

@[simp] theorem zero_con : zero.con = 0 := rfl

@[simp] theorem zero_kind : zero.kind = 0 := rfl

@[simp] theorem add_zero (d : Depth) : d + zero = d := rfl

@[simp] theorem zero_add (d : Depth) : zero + d = d := by
  ext <;> simp

theorem add_assoc (d e f : Depth) : d + e + f = d + (e + f) := by
  ext <;> simp [Nat.add_assoc]

theorem add_comm (d e : Depth) : d + e = e + d := by
  ext <;> simp [Nat.add_comm]

end Depth

namespace Con

/-- The constructors directly below the outermost node. -/
def parts : Con → List Con
  | .mvar _ spine => spine
  | .app f a => [f, a]
  | .abs _ _ body => [body]
  | .kabs _ body => [body]
  | .kapp f _ => [f]
  | .arrow a b => [a, b]
  | .poly _ _ _ body => [body]
  | .kpoly _ body => [body]
  | .disjoint l r body => [l, r, body]
  | .record r => [r]
  | .variant r => [r]
  | .row _ fields => fields.flatMap fun field => [field.1, field.2]
  | .concat l r => [l, r]
  | .map _ _ f r => [f, r]
  | .proj r f => [r, f]
  | .tuple cs => cs
  | .component t _ => [t]
  | _ => []

/-- The binders that the outermost node puts around its parts. -/
def binders : Con → Depth
  | .abs _ _ _ => ⟨1, 0⟩
  | .poly _ _ _ _ => ⟨1, 0⟩
  | .kabs _ _ => ⟨0, 1⟩
  | .kpoly _ _ => ⟨0, 1⟩
  | _ => .zero

/-- The outermost node with its annotations and parts blanked out. -/
def frame : Con → Con
  | .mvar v spine => .mvar v (spine.map fun _ => .unit)
  | .app _ _ => .app .unit .unit
  | .abs x _ _ => .abs x .type .unit
  | .kabs x _ => .kabs x .unit
  | .kapp _ _ => .kapp .unit .type
  | .arrow _ _ => .arrow .unit .unit
  | .poly x implicit _ _ => .poly x implicit .type .unit
  | .kpoly x _ => .kpoly x .unit
  | .disjoint _ _ _ => .disjoint .unit .unit .unit
  | .record _ => .record .unit
  | .variant _ => .variant .unit
  | .row _ fields => .row .type (fields.map fun _ => (.unit, .unit))
  | .concat _ _ => .concat .unit .unit
  | .map _ _ _ _ => .map .type .type .unit .unit
  | .proj _ _ => .proj .unit .unit
  | .tuple cs => .tuple (cs.map fun _ => .unit)
  | .component _ i => .component .unit i
  | leaf => leaf

/-- A list of names and values in turn, as fields. -/
def pairUp {α : Type} : List α → List (α × α)
  | name :: value :: rest => (name, value) :: pairUp rest
  | _ => []

theorem pairUp_flatMap {α : Type} (fields : List (α × α)) :
    pairUp (fields.flatMap fun field => [field.1, field.2]) = fields := by
  induction fields with
  | nil => rfl
  | cons field fields ih => simpa [pairUp] using ih

/-- Puts annotations and parts back into a frame. -/
def assemble : Con → List Kind → List Con → Con
  | .mvar v _, _, spine => .mvar v spine
  | .app _ _, _, [f, a] => .app f a
  | .abs x _ _, [k], [body] => .abs x k body
  | .kabs x _, _, [body] => .kabs x body
  | .kapp _ _, [k], [f] => .kapp f k
  | .arrow _ _, _, [a, b] => .arrow a b
  | .poly x implicit _ _, [k], [body] => .poly x implicit k body
  | .kpoly x _, _, [body] => .kpoly x body
  | .disjoint _ _ _, _, [l, r, body] => .disjoint l r body
  | .record _, _, [r] => .record r
  | .variant _, _, [r] => .variant r
  | .row _ _, [k], parts => .row k (pairUp parts)
  | .concat _ _, _, [l, r] => .concat l r
  | .map _ _ _ _, [d, c], [f, r] => .map d c f r
  | .proj _ _, _, [r, f] => .proj r f
  | .tuple _, _, cs => .tuple cs
  | .component _ i, _, [t] => .component t i
  | leaf, _, _ => leaf

theorem assemble_frame (c : Con) : assemble c.frame c.annotations c.parts = c := by
  cases c <;> simp [frame, annotations, parts, assemble, pairUp_flatMap]

/-- Constructors with the same frame, annotations and parts are the same. -/
theorem eq_of_frame {c c' : Con} (hframe : c.frame = c'.frame)
    (hkinds : c.annotations = c'.annotations) (hparts : c.parts = c'.parts) : c = c' := by
  rw [← assemble_frame c, ← assemble_frame c', hframe, hkinds, hparts]

theorem binders_frame (c : Con) : c.frame.binders = c.binders := by
  cases c <;> rfl

theorem length_parts_frame (c : Con) : c.frame.parts.length = c.parts.length := by
  cases c <;> simp [frame, parts, List.flatMap]
  case row => simp [Function.comp_def]

theorem length_annotations_frame (c : Con) :
    c.frame.annotations.length = c.annotations.length := by
  cases c <;> rfl

theorem binders_eq {c c' : Con} (h : c.frame = c'.frame) : c.binders = c'.binders := by
  rw [← binders_frame c, h, binders_frame]

theorem length_parts_eq {c c' : Con} (h : c.frame = c'.frame) :
    c.parts.length = c'.parts.length := by
  rw [← length_parts_frame c, h, length_parts_frame]

theorem length_annotations_eq {c c' : Con} (h : c.frame = c'.frame) :
    c.annotations.length = c'.annotations.length := by
  rw [← length_annotations_frame c, h, length_annotations_frame]

/-- A leaf is determined by its frame. -/
theorem eq_of_frame_leaf {c c' : Con} (h : c.frame = c'.frame) (hparts : c.parts = [])
    (hkinds : c.annotations = []) : c = c' := by
  have hparts' := length_parts_eq h
  have hkinds' := length_annotations_eq h
  rw [hparts, List.length_nil] at hparts'
  rw [hkinds, List.length_nil] at hkinds'
  rw [eq_comm, List.length_eq_zero_iff] at hparts' hkinds'
  exact eq_of_frame h (hkinds.trans hkinds'.symm) (hparts.trans hparts'.symm)

theorem eq_mvar_of_frame {v : MetaId} {spine : List Con} {c : Con}
    (h : (Con.mvar v spine).frame = c.frame) : c = .mvar v c.parts := by
  conv_lhs => rw [← assemble_frame c, ← h]
  rfl

theorem eq_row_of_frame {k : Kind} {fields : List (Con × Con)} {c : Con}
    (h : (Con.row k fields).frame = c.frame) : ∃ k' fields', c = .row k' fields' := by
  have hkinds := length_annotations_eq h
  obtain ⟨k', hk'⟩ := List.length_eq_one_iff.mp hkinds.symm
  refine ⟨k', pairUp c.parts, ?_⟩
  conv_lhs => rw [← assemble_frame c, ← h, hk']
  rfl

/-- Only a variable has the frame of a variable. -/
theorem ne_bvar_of_frame {c c' : Con} (h : c.frame = c'.frame) (hc : ∀ i, c' ≠ .bvar i) :
    ∀ i, c ≠ .bvar i := by
  rintro i rfl
  exact hc i (eq_of_frame_leaf h rfl rfl).symm

/-! ## Induction -/

mutual
/-- Induction from the parts of a node to the node. -/
theorem inductionOnParts {P : Con → Prop} (step : ∀ c, (∀ p ∈ c.parts, P p) → P c) :
    (c : Con) → P c
  | .prim _ => step _ (by simp [parts])
  | .unit => step _ (by simp [parts])
  | .error => step _ (by simp [parts])
  | .bvar _ => step _ (by simp [parts])
  | .global _ => step _ (by simp [parts])
  | .member _ _ _ => step _ (by simp [parts])
  | .relative _ _ _ => step _ (by simp [parts])
  | .skolem _ => step _ (by simp [parts])
  | .label _ => step _ (by simp [parts])
  | .mvar _ spine => step _ (by simpa [parts] using inductionOnList step spine)
  | .app f a => step _ (by simp [parts, inductionOnParts step f, inductionOnParts step a])
  | .abs _ _ body => step _ (by simp [parts, inductionOnParts step body])
  | .kabs _ body => step _ (by simp [parts, inductionOnParts step body])
  | .kapp f _ => step _ (by simp [parts, inductionOnParts step f])
  | .arrow a b => step _ (by simp [parts, inductionOnParts step a, inductionOnParts step b])
  | .poly _ _ _ body => step _ (by simp [parts, inductionOnParts step body])
  | .kpoly _ body => step _ (by simp [parts, inductionOnParts step body])
  | .disjoint l r body => step _ (by
      simp [parts, inductionOnParts step l, inductionOnParts step r, inductionOnParts step body])
  | .record r => step _ (by simp [parts, inductionOnParts step r])
  | .variant r => step _ (by simp [parts, inductionOnParts step r])
  | .row _ fields => step _ (by
      have h := inductionOnFields step fields
      simp only [parts, List.mem_flatMap]
      rintro p ⟨field, hfield, hp⟩
      rcases List.mem_pair.mp hp with rfl | rfl
      · exact (h field hfield).1
      · exact (h field hfield).2)
  | .concat l r => step _ (by simp [parts, inductionOnParts step l, inductionOnParts step r])
  | .map _ _ f r => step _ (by simp [parts, inductionOnParts step f, inductionOnParts step r])
  | .proj r f => step _ (by simp [parts, inductionOnParts step r, inductionOnParts step f])
  | .tuple cs => step _ (by simpa [parts] using inductionOnList step cs)
  | .component t _ => step _ (by simp [parts, inductionOnParts step t])
private theorem inductionOnList {P : Con → Prop} (step : ∀ c, (∀ p ∈ c.parts, P p) → P c) :
    (cs : List Con) → ∀ c ∈ cs, P c
  | [] => by simp
  | c :: cs => by simpa using ⟨inductionOnParts step c, inductionOnList step cs⟩
private theorem inductionOnFields {P : Con → Prop} (step : ∀ c, (∀ p ∈ c.parts, P p) → P c) :
    (fields : List (Con × Con)) → ∀ field ∈ fields, P field.1 ∧ P field.2
  | [] => by simp
  | (name, value) :: fields => by
      simpa using ⟨⟨inductionOnParts step name, inductionOnParts step value⟩,
        fun a b => inductionOnFields step fields (a, b)⟩
end

/-! ## Properties of every node -/

/-- Every node of `c` has the property `Q` at the depth where it stands, counted from `depth`. -/
inductive Nodes (Q : Depth → Con → Prop) : Depth → Con → Prop where
  | intro {depth : Depth} {c : Con} (top : Q depth c)
      (rest : ∀ p ∈ c.parts, Nodes Q (depth + c.binders) p) : Nodes Q depth c

namespace Nodes

variable {Q Q' : Depth → Con → Prop} {depth : Depth} {c : Con}

theorem top (h : Nodes Q depth c) : Q depth c := by
  cases h with
  | intro top _ => exact top

theorem part (h : Nodes Q depth c) : ∀ p ∈ c.parts, Nodes Q (depth + c.binders) p := by
  cases h with
  | intro _ rest => exact rest

theorem iff : Nodes Q depth c ↔ Q depth c ∧ ∀ p ∈ c.parts, Nodes Q (depth + c.binders) p :=
  ⟨fun h => ⟨h.top, h.part⟩, fun h => .intro h.1 h.2⟩

theorem mono (h : Nodes Q depth c) (himp : ∀ d n, Q d n → Q' d n) : Nodes Q' depth c := by
  induction h with
  | intro top _ ih => exact .intro (himp _ _ top) ih

theorem and (h : Nodes Q depth c) (h' : Nodes Q' depth c) :
    Nodes (fun d n => Q d n ∧ Q' d n) depth c := by
  induction h with
  | intro top _ ih => exact .intro ⟨top, h'.top⟩ fun p hp => ih p hp (h'.part p hp)

theorem of_forall (h : ∀ d n, Q d n) : Nodes Q depth c := by
  induction c using inductionOnParts generalizing depth with
  | step c ih => exact .intro (h depth c) fun p hp => ih p hp

/-- A property whose truth at a depth is that of another property at a shifted depth. -/
theorem shift (e : Depth) : Nodes Q (e + depth) c ↔ Nodes (fun d n => Q (e + d) n) depth c := by
  induction c using inductionOnParts generalizing depth with
  | step c ih =>
    rw [Nodes.iff, Nodes.iff (c := c)]
    refine and_congr Iff.rfl (forall₂_congr fun p hp => ?_)
    rw [Depth.add_assoc, ih p hp]

end Nodes

/-- Every node of `c` has the property `Q`. -/
inductive All (Q : Con → Prop) : Con → Prop where
  | intro {c : Con} (top : Q c) (rest : ∀ p ∈ c.parts, All Q p) : All Q c

namespace All

variable {Q Q' : Con → Prop} {c : Con}

theorem iff : All Q c ↔ Q c ∧ ∀ p ∈ c.parts, All Q p :=
  ⟨fun ⟨top, rest⟩ => ⟨top, rest⟩, fun h => .intro h.1 h.2⟩

theorem mono (h : All Q c) (himp : ∀ n, Q n → Q' n) : All Q' c := by
  induction h with
  | intro top _ ih => exact .intro (himp _ top) ih

end All

end Con

end RowML
