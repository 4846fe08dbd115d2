import RowML.Proofs.Constructor.Congruence
import RowML.Proofs.Kind.Reading
import RowML.Store.Basic

/-!
# Well-formed stores

A store is well formed if its solutions fit their cells: the spine of every metavariable has the
length that its cell asks for, a solution looks only at the variables of its cell, and no cell is
reached from its own solution.  Constructors and kinds are free of poison.

Two further conditions exclude constructors that no kind would allow.  Every component that is
taken of a tuple exists, which one common width guarantees; and a projection never meets a row of
which only a part is known, which is so if projections do not occur, or else concatenations and maps
do not occur and the labels of every row literal are distinct constants.  A last one excludes
references to modules that do not exist, since these stand for poison.
-/

namespace RowML

/-- Which of the row operators may occur. -/
inductive RowUse where
  | concatenating
  | projecting
deriving DecidableEq

/-- What is required of the nodes of constructors. -/
structure Layout where
  rows : RowUse
  /-- Tuples have at least that many components, and only these are taken. -/
  width : Nat
  /-- Only the first so many modules are referred to. -/
  modules : Nat

/-- The fields are called by different constant labels. -/
def DistinctLabels (fields : List (Con × Con)) : Prop :=
  ∃ names : List String, fields.map (·.1) = names.map Con.label ∧ names.Nodup

/-- What a layout asks of one node. -/
def Layout.Admits (layout : Layout) : Con → Prop
  | .member module _ _ => module < layout.modules
  | .tuple cs => layout.width ≤ cs.length
  | .component _ i => i < layout.width
  | .proj _ _ => layout.rows = .projecting
  | .concat _ _ => layout.rows = .concatenating
  | .map _ _ _ _ => layout.rows = .concatenating
  | .row _ fields => layout.rows = .projecting → DistinctLabels fields
  | _ => True

/-- One node that is free of poison, fits the store and is admitted by the layout. -/
structure Con.NodeSound (layout : Layout) (store : Store) (node : Con) : Prop where
  ne_error : node ≠ .error
  mvar : ∀ {id spine}, node = .mvar id spine →
    id < store.cells.size ∧ spine.length = (store.cell id).arity
  kinds : ∀ k ∈ node.annotations, k.Sound store.kinds.vars.size
  layout : layout.Admits node

/-- A constructor all of whose nodes are sound. -/
def Con.Sound (layout : Layout) (store : Store) (c : Con) : Prop :=
  c.All (Con.NodeSound layout store)

namespace Store

/-- A metavariable and its solution. -/
inductive Unfolds (store : Store) : Con → Con → Prop where
  | intro {id : MetaId} {solution : Con} {spine : List Con}
      (hsolution : store.solution? id = some solution)
      (hlength : spine.length = (store.cell id).arity) :
      Unfolds store (.mvar id spine) (solution.instantiated spine)

/-- Equality of constructors up to the solutions of metavariables. -/
abbrev Same (store : Store) : Con → Con → Prop := Con.Congr store.Unfolds (KindConv store.kinds)

/-- The solution of one cell mentions another cell. -/
def Leads (store : Store) (i j : MetaId) : Prop :=
  ∃ solution, store.solution? i = some solution ∧ solution.Mentions j

/-- No cell is reached from its own solution. -/
def Acyclic (store : Store) : Prop := ∃ rank, Ranks store.Leads rank

structure WellFormed (layout : Layout) (store : Store) : Prop where
  kinds : store.kinds.WellFormed
  cellKinds : ∀ i < store.cells.size, (store.cell i).kind.Sound store.kinds.vars.size
  solutions : ∀ {i solution}, store.solution? i = some solution → solution.Sound layout store
  bounds : ∀ {i solution}, store.solution? i = some solution →
    solution.bound ≤ (store.cell i).arity
  acyclic : store.Acyclic

/-- The second store knows all that the first one knows. -/
structure Grows (store store' : Store) : Prop where
  kinds : store.kinds.Grows store'.kinds
  size : store.cells.size ≤ store'.cells.size
  arity : ∀ i < store.cells.size, (store'.cell i).arity = (store.cell i).arity
  same : store'.kinds.Closed → ∀ {a b}, store.Unfolds a b → store'.Same a b

theorem lt_of_solution {store : Store} {i : MetaId} {solution : Con}
    (h : store.solution? i = some solution) : i < store.cells.size := by
  by_contra hi
  unfold solution? cell at h
  rw [Array.getElem?_eq_none (Nat.le_of_not_lt hi)] at h
  cases h

namespace Grows

variable {store store' store'' : Store}

theorem lift (h : Grows store store') (hclosed : store'.kinds.Closed) {a b : Con}
    (hab : store.Same a b) : store'.Same a b :=
  Con.Congr.lift (h.same hclosed) h.kinds.conv hab

theorem refl (store : Store) : Grows store store :=
  ⟨.refl _, Nat.le_refl _, fun _ _ => rfl, fun _ {_ _} => .step⟩

theorem trans (h : Grows store store') (h' : Grows store' store'') : Grows store store'' where
  kinds := h.kinds.trans h'.kinds
  size := Nat.le_trans h.size h'.size
  arity i hi := (h'.arity i (Nat.lt_of_lt_of_le hi h.size)).trans (h.arity i hi)
  same hclosed {_ _} hab := h'.lift hclosed (h.same (h'.kinds.closed hclosed) hab)

end Grows

/-- The discipline of every computation over a store. -/
def discipline (layout : Layout) : Discipline Store where
  Ok := WellFormed layout
  Grows := Grows
  refl store _ := Grows.refl store
  trans _ _ _ := Grows.trans

end Store

namespace Con.Sound

variable {layout : Layout} {store store' : Store} {c p : Con}

theorem extend (h : c.Sound layout store)
    (hkinds : store.kinds.vars.size ≤ store'.kinds.vars.size)
    (hsize : store.cells.size ≤ store'.cells.size)
    (harity : ∀ i < store.cells.size, (store'.cell i).arity = (store.cell i).arity) :
    c.Sound layout store' := by
  refine All.mono h fun node hnode => ?_
  refine ⟨hnode.ne_error, fun {id spine} hmvar => ?_, fun k hk => ?_, hnode.layout⟩
  · obtain ⟨hid, hspine⟩ := hnode.mvar hmvar
    exact ⟨Nat.lt_of_lt_of_le hid hsize, hspine.trans (harity id hid).symm⟩
  · exact (hnode.kinds k hk).mono hkinds

theorem mono (h : c.Sound layout store) (grows : store.Grows store') : c.Sound layout store' :=
  h.extend grows.kinds.size grows.size grows.arity

theorem part (h : c.Sound layout store) (hp : p ∈ c.parts) : p.Sound layout store :=
  (All.iff.mp h).2 p hp

theorem top (h : c.Sound layout store) : c.NodeSound layout store := (All.iff.mp h).1

theorem ne_error (h : c.Sound layout store) : c ≠ .error := h.top.ne_error

theorem kind (h : c.Sound layout store) {k : Kind} (hk : k ∈ c.annotations) :
    k.Sound store.kinds.vars.size :=
  h.top.kinds k hk

/-- A node other than a metavariable over sound parts. -/
theorem node (hne : c ≠ .error) (hmvar : ∀ id spine, c ≠ .mvar id spine)
    (hkinds : ∀ k ∈ c.annotations, k.Sound store.kinds.vars.size) (hlayout : layout.Admits c)
    (hparts : ∀ p ∈ c.parts, p.Sound layout store) : c.Sound layout store :=
  .intro ⟨hne, fun {id spine} h => absurd h (hmvar id spine), hkinds, hlayout⟩ hparts

theorem app {f a : Con} (hf : f.Sound layout store) (ha : a.Sound layout store) :
    (Con.app f a).Sound layout store :=
  node (by simp) (by simp) (by simp [annotations]) trivial (by simp [parts, hf, ha])

theorem map {d e : Kind} {f r : Con} (hrows : layout.rows = .concatenating)
    (hd : d.Sound store.kinds.vars.size) (he : e.Sound store.kinds.vars.size)
    (hf : f.Sound layout store) (hr : r.Sound layout store) :
    (Con.map d e f r).Sound layout store :=
  node (by simp) (by simp) (by simp [annotations, hd, he]) hrows (by simp [parts, hf, hr])

theorem concat {l r : Con} (hrows : layout.rows = .concatenating) (hl : l.Sound layout store)
    (hr : r.Sound layout store) : (Con.concat l r).Sound layout store :=
  node (by simp) (by simp) (by simp [annotations]) hrows (by simp [parts, hl, hr])

theorem proj {r f : Con} (hrows : layout.rows = .projecting) (hr : r.Sound layout store)
    (hf : f.Sound layout store) : (Con.proj r f).Sound layout store :=
  node (by simp) (by simp) (by simp [annotations]) hrows (by simp [parts, hr, hf])

theorem row {k : Kind} {fields : List (Con × Con)} (hk : k.Sound store.kinds.vars.size)
    (hlabels : layout.rows = .projecting → DistinctLabels fields)
    (hfields : ∀ field ∈ fields, field.1.Sound layout store ∧ field.2.Sound layout store) :
    (Con.row k fields).Sound layout store := by
  refine node (by simp) (by simp) (by simp [annotations, hk]) hlabels fun p hp => ?_
  obtain ⟨field, hfield, hp⟩ := List.mem_flatMap.mp hp
  rcases List.mem_pair.mp hp with rfl | rfl
  · exact (hfields field hfield).1
  · exact (hfields field hfield).2

theorem field {k : Kind} {fields : List (Con × Con)} (h : (Con.row k fields).Sound layout store)
    {field : Con × Con} (hfield : field ∈ fields) :
    field.1.Sound layout store ∧ field.2.Sound layout store :=
  ⟨h.part (List.mem_flatMap.mpr ⟨field, hfield, by simp⟩),
    h.part (List.mem_flatMap.mpr ⟨field, hfield, by simp⟩)⟩

end Con.Sound

/-! ## Soundness node by node -/

namespace Con

/-- The second constructor is the same label if the first one is a label. -/
def KeepsLabel (c c' : Con) : Prop := ∀ x, c = .label x → c' = .label x

private theorem DistinctLabels.transfer {fields fields' : List (Con × Con)}
    (hlength : fields.length = fields'.length)
    (h : List.Forall₂ KeepsLabel (fields.flatMap fun field => [field.1, field.2])
      (fields'.flatMap fun field => [field.1, field.2])) (hdistinct : DistinctLabels fields) :
    DistinctLabels fields' := by
  obtain ⟨names, hnames, hnodup⟩ := hdistinct
  refine ⟨names, ?_, hnodup⟩
  clear hnodup
  induction fields generalizing fields' names with
  | nil =>
    rw [List.length_nil, eq_comm, List.length_eq_zero_iff] at hlength
    rw [hlength, ← hnames]
  | cons field fields ih =>
    obtain _ | ⟨field', fields'⟩ := fields'
    · cases hlength
    obtain _ | ⟨name, names⟩ := names
    · cases hnames
    simp only [List.flatMap_cons, List.cons_append, List.nil_append, List.forall₂_cons] at h
    simp only [List.map_cons, List.cons.injEq] at hnames ⊢
    exact ⟨h.1 name hnames.1, ih (by simpa using hlength) h.2.2 names hnames.2⟩

theorem admits_frame {layout : Layout} {c : Con} (h : ∀ k fields, c ≠ .row k fields) :
    layout.Admits c.frame ↔ layout.Admits c := by
  cases c with
  | row k fields => exact absurd rfl (h k fields)
  | tuple cs => simp [frame, Layout.Admits]
  | _ => exact Iff.rfl

/-- A node with the frame of a sound node. -/
theorem NodeSound.of_frame {layout : Layout} {store : Store} {c c' : Con}
    (h : c.NodeSound layout store) (hframe : c.frame = c'.frame)
    (hkinds : ∀ k ∈ c'.annotations, k.Sound store.kinds.vars.size)
    (hlabels : List.Forall₂ KeepsLabel c.parts c'.parts) : c'.NodeSound layout store where
  ne_error := by
    rintro rfl
    exact h.ne_error (eq_of_frame_leaf hframe.symm rfl rfl).symm
  mvar := by
    rintro id spine rfl
    have hc := eq_mvar_of_frame hframe.symm
    have hlength : c.parts.length = spine.length := length_parts_eq hframe
    exact hlength ▸ h.mvar hc
  kinds := hkinds
  layout := by
    by_cases hrow : ∃ k fields, c' = .row k fields
    · obtain ⟨k', fields', rfl⟩ := hrow
      obtain ⟨k, fields, rfl⟩ := eq_row_of_frame hframe.symm
      intro huse
      refine DistinctLabels.transfer ?_ hlabels (h.layout huse)
      simp only [frame, Con.row.injEq, true_and] at hframe
      simpa using congrArg List.length hframe
    · have hc' : ∀ k fields, c' ≠ .row k fields := fun k fields hc' => hrow ⟨k, fields, hc'⟩
      have hc : ∀ k fields, c ≠ .row k fields := by
        rintro k fields rfl
        exact hrow (eq_row_of_frame hframe)
      rw [← admits_frame hc', ← hframe, admits_frame hc]
      exact h.layout

theorem KeepsLabel.of_frame {c c' : Con} (h : c.frame = c'.frame) : KeepsLabel c c' := by
  rintro x rfl
  exact (eq_of_frame_leaf h rfl rfl).symm

/-- Only the kinds of a constructor that is like a sound one have to be looked at. -/
theorem Sound.of_alike {layout : Layout} {store : Store} {kinds : Kind → Kind → Prop} {c c' : Con}
    (hc : c.Sound layout store) (h : Alike kinds c c')
    (hkinds : ∀ k k', kinds k k' → k'.Sound store.kinds.vars.size) : c'.Sound layout store := by
  induction c using inductionOnParts generalizing c' with
  | step c ih =>
    refine .intro (hc.top.of_frame h.frame_eq ?_ ?_) ?_
    · exact forall_mem_of_forall₂ h.annotations fun k _ k' hk => hkinds k k' hk
    · exact h.parts.imp fun p p' hp => .of_frame hp.frame_eq
    · exact forall_mem_of_forall₂ h.parts fun p hp p' hpp => ih p hp (hc.part hp) hpp

/-- A traversal that puts sound constructors and sound kinds into a sound constructor. -/
theorem Sound.traverse {layout : Layout} {store : Store} {vars : Depth → Nat → Con}
    {kinds : Depth → Kind → Kind} {c : Con} (hc : c.Sound layout store)
    (hvars : ∀ d i, (vars d i).Sound layout store)
    (hkinds : ∀ d k, k.Sound store.kinds.vars.size → (kinds d k).Sound store.kinds.vars.size)
    (d : Depth) : (c.traverse vars kinds d).Sound layout store := by
  induction c using inductionOnParts generalizing d with
  | step c ih =>
    by_cases hbvar : ∃ i, c = .bvar i
    · obtain ⟨i, rfl⟩ := hbvar
      exact hvars d i
    · have hbvar : ∀ i, c ≠ .bvar i := fun i hi => hbvar ⟨i, hi⟩
      refine .intro (hc.top.of_frame (frame_traverse hbvar).symm ?_ ?_) ?_
      · rw [annotations_traverse hbvar]
        exact List.forall_mem_map.mpr fun k hk => hkinds d k (hc.kind hk)
      · rw [parts_traverse hbvar, List.forall₂_map_right_iff]
        refine List.forall₂_same.mpr fun p _ x hp => ?_
        rw [hp]
        rfl
      · rw [parts_traverse hbvar]
        exact List.forall_mem_map.mpr fun p hp => ih p hp (hc.part hp) _

end Con

end RowML
