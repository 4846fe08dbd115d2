import RowML.Elaboration.Finish
import RowML.Proofs.Store.Integrity
import RowML.Proofs.Store.KindCommutation
import RowML.Proofs.Term.Slots

/-!
# The parameters of a group

Generalisation puts the same parameters in front of the type and of the body of every member of a
group: quantifiers, assumptions of disjointness, and dictionaries.  Inside the body the uses of
members are applied to the parameters, and the slots that have been lifted refer to them, under
whatever binders the place has around it.
-/

namespace RowML

/-- What is in front of every member of a group, the outermost first. -/
structure Parameters where
  quantifiers : List (String × Kind)
  facts : List Fact
  /-- The types of the dictionaries. -/
  dicts : List Con

namespace Parameters

/-- The type of a member: quantifiers, preconditions and dictionary arguments before its own type.
-/
def type (parameters : Parameters) (own : Con) : Con :=
  parameters.quantifiers.foldr (fun (name, kind) type => .poly name true kind type) <|
    parameters.facts.foldr (fun fact type => .disjoint fact.left fact.right type) <|
      parameters.dicts.foldr .arrow own

/-- The body of a member: binders for quantifiers, preconditions and dictionaries around its own
body. -/
def term (parameters : Parameters) (own : Term) : Term :=
  parameters.quantifiers.foldr (fun (name, kind) body => .cabs name kind body) <|
    parameters.facts.foldr (fun fact body => .disjointAbs fact.left fact.right body) <|
      parameters.dicts.foldr (fun type body => .abs dictName type body) own

/-- The type of a member mentions only what its own type or a parameter mentions. -/
theorem not_mentions_type {parameters : Parameters} {own : Con} {v : MetaId}
    (hown : ¬ own.Mentions v)
    (hfacts : ∀ fact ∈ parameters.facts, ¬ fact.left.Mentions v ∧ ¬ fact.right.Mentions v)
    (hdicts : ∀ c ∈ parameters.dicts, ¬ c.Mentions v) : ¬ (parameters.type own).Mentions v := by
  refine List.foldrRecOn (motive := fun c : Con => ¬ c.Mentions v) _ _ ?_ fun c hc _ _ =>
    Con.not_mentions_of_parts nofun (List.forall_mem_singleton.mpr hc)
  refine List.foldrRecOn (motive := fun c : Con => ¬ c.Mentions v) _ _ ?_ fun c hc fact hfact => ?_
  · exact List.foldrRecOn (motive := fun c : Con => ¬ c.Mentions v) _ _ hown
      fun c hc dict hdict => Con.not_mentions_of_parts nofun
        (List.forall_mem_cons.mpr ⟨hdicts dict hdict, List.forall_mem_singleton.mpr hc⟩)
  · obtain ⟨hleft, hright⟩ := hfacts fact hfact
    exact Con.not_mentions_of_parts nofun (List.forall_mem_cons.mpr
      ⟨hleft, List.forall_mem_cons.mpr ⟨hright, List.forall_mem_singleton.mpr hc⟩⟩)

end Parameters

/-- The parameters that a generalisation makes, in a store that has its quantifiers. -/
def Generalization.parameters (generalization : Generalization) (store : Store) : Parameters where
  quantifiers := generalization.skolems.map fun id =>
    ((store.skolem id).name, (store.skolem id).kind)
  facts := generalization.facts.map fun fact =>
    ⟨generalization.bindIn 0 fact.left, generalization.bindIn 0 fact.right⟩
  dicts := generalization.dicts.map (generalization.bindIn 0)

/-! ## Binding skolems -/

namespace Con

variable {skolems : List SkolemId} {base : Nat}

theorem abstractSkolems_of_has {c : Con} (hc : c.has .skolem = false) (skolems : List SkolemId)
    (base : Nat) : c.abstractSkolems skolems base = c := by
  unfold abstractSkolems
  split
  next => rfl
  next =>
    unfold rebuild
    cases c <;> simp [rebuildM, orRebuild, hc]

theorem abstractSkolems_arrow (a b : Con) :
    (Con.arrow a b).abstractSkolems skolems base =
      .arrow (a.abstractSkolems skolems base) (b.abstractSkolems skolems base) := by
  by_cases hhas : (Con.arrow a b).has .skolem = true
  · unfold abstractSkolems
    split
    next => rfl
    next =>
      unfold rebuild
      simp only [rebuildM, orRebuild, hhas]
      rfl
  · have hhas : (Con.arrow a b).has .skolem = false := by simpa using hhas
    rw [abstractSkolems_of_has hhas, abstractSkolems_of_has (has_of_part hhas (by
      simp [parts])), abstractSkolems_of_has (has_of_part hhas (by simp [parts]))]

theorem abstractSkolems_disjoint (left right body : Con) :
    (Con.disjoint left right body).abstractSkolems skolems base =
      .disjoint (left.abstractSkolems skolems base) (right.abstractSkolems skolems base)
        (body.abstractSkolems skolems base) := by
  by_cases hhas : (Con.disjoint left right body).has .skolem = true
  · unfold abstractSkolems
    split
    next => rfl
    next =>
      unfold rebuild
      simp only [rebuildM, orRebuild, hhas]
      rfl
  · have hhas : (Con.disjoint left right body).has .skolem = false := by simpa using hhas
    rw [abstractSkolems_of_has hhas, abstractSkolems_of_has (has_of_part hhas (by
      simp [parts])), abstractSkolems_of_has (has_of_part hhas (by simp [parts])),
      abstractSkolems_of_has (has_of_part hhas (by simp [parts]))]

/-- Binding skolems mentions nothing new. -/
theorem mentions_abstractSkolems {c : Con} {v : MetaId}
    (h : (c.abstractSkolems skolems base).Mentions v) : c.Mentions v := by
  by_contra hv
  refine all_ne_mvar_iff.mp ?_ h
  have hc := all_ne_mvar_iff.mpr hv
  unfold abstractSkolems
  split
  · exact hc
  · refine hc.rebuild (fun hframe _ hnode spine hmvar => ?_) fun d c c' hc hnode => ?_
    · exact hnode _ (eq_mvar_of_frame (hmvar ▸ hframe).symm)
    · split at hnode
      · cases hnode
        exact hc
      · split at hnode
        · obtain ⟨j, -, rfl⟩ := Option.map_eq_some_iff.mp hnode
          exact .intro nofun nofun
        · cases hnode

end Con

namespace Generalization

variable (generalization : Generalization) (store : Store)

/-- The type that a generalisation makes has the parameters in front of the member's own type. -/
theorem bindType_eq (type : Con) : generalization.bindType store type =
    (generalization.parameters store).type (generalization.bindIn 0 type) := by
  have hdicts : ∀ dicts : List Con, generalization.bindIn 0 (dicts.foldr .arrow type) =
      (dicts.map (generalization.bindIn 0)).foldr .arrow (generalization.bindIn 0 type) := by
    intro dicts
    induction dicts with
    | nil => rfl
    | cons dict dicts ih =>
      simp only [List.foldr_cons, List.map_cons, ← ih]
      exact Con.abstractSkolems_arrow _ _
  have hfacts : ∀ facts : List Fact, generalization.bindIn 0 (facts.foldr (fun fact type =>
      .disjoint fact.left fact.right type) (generalization.dicts.foldr .arrow type)) =
      (facts.map fun fact => (⟨generalization.bindIn 0 fact.left,
        generalization.bindIn 0 fact.right⟩ : Fact)).foldr (fun fact type =>
        .disjoint fact.left fact.right type)
        ((generalization.dicts.map (generalization.bindIn 0)).foldr .arrow
          (generalization.bindIn 0 type)) := by
    intro facts
    induction facts with
    | nil => exact hdicts _
    | cons fact facts ih =>
      simp only [List.foldr_cons, List.map_cons, ← ih]
      exact Con.abstractSkolems_disjoint _ _ _
  rw [bindType, Parameters.type, parameters, ← hfacts, List.foldr_map]

/-- The body that it makes has binders for the same parameters. -/
theorem bindBody_eq (body : Term) : Elaborate.bindBody generalization store body =
    (generalization.parameters store).term body := by
  rw [Elaborate.bindBody, Parameters.term, parameters]
  simp only [List.foldr_map]

end Generalization

/-! ## Referring to parameters -/

/-- The binders around a place, the innermost first: `inner` binders of its own, and outside these
`count` parameters, of which the first is the outermost. -/
def bindersAround (count inner : Nat) : List (Option Nat) :=
  List.replicate inner none ++ (List.range count).reverse.map some

/-- At a place under `inner` binders, `index` stands for the parameter at that position. -/
def PointsTo (count inner index position : Nat) : Prop :=
  (bindersAround count inner)[index]? = some (some position)

theorem pointsTo_iff {count inner index position : Nat} :
    PointsTo count inner index position ↔
      position < count ∧ index + position + 1 = inner + count := by
  rw [PointsTo, bindersAround, List.getElem?_append, List.length_replicate]
  split
  next h => simp [h]; omega
  next h =>
    rw [List.getElem?_map, Option.map_eq_some_iff]
    simp only [Option.some.injEq, exists_eq_right]
    rw [List.getElem?_eq_some_iff]
    simp only [List.getElem_reverse, List.getElem_range, List.length_reverse, List.length_range,
      exists_prop]
    omega

namespace Term

/-- A term applied to constructors, to proofs of disjointness and to dictionaries. -/
def applied (term : Term) (cons : List Con) (proofs : Nat) (dicts : List Dict) : Term :=
  dicts.foldl (fun term dict => .app term (.dict dict))
    (.disjointApp^[proofs] (cons.foldl .capp term))

end Term

namespace Elaborate

theorem foldl_disjointApp (facts : List Fact) (term : Term) :
    facts.foldl (fun term _ => .disjointApp term) term = Term.disjointApp^[facts.length] term := by
  induction facts generalizing term with
  | nil => rfl
  | cons fact facts ih => rw [List.foldl_cons, ih, List.length_cons, Function.iterate_succ_apply]

/-- A use of a member is applied to the parameters, each of them once and in order. -/
theorem recursiveUse_eq (generalization : Generalization) (depth : TermDepth) (id : DefId) :
    ∃ cons dicts : List Nat,
      recursiveUse generalization depth id = Term.applied (.global id) (cons.map .bvar)
        generalization.facts.length (dicts.map .local) ∧
      List.Forall₂ (PointsTo generalization.skolems.length depth.con) cons
        (List.range generalization.skolems.length) ∧
      List.Forall₂ (PointsTo generalization.dicts.length depth.val) dicts
        (List.range generalization.dicts.length) := by
  have points (count inner : Nat) : List.Forall₂ (PointsTo count inner)
      ((List.range count).map fun j => inner + count - 1 - j) (List.range count) := by
    rw [List.forall₂_map_left_iff, List.forall₂_same]
    intro j hj
    have hj := List.mem_range.mp hj
    exact pointsTo_iff.mpr ⟨hj, by omega⟩
  refine ⟨_, _, ?_, points _ depth.con, points _ depth.val⟩
  simp only [recursiveUse, Term.applied, foldl_disjointApp, List.foldl_map]

end Elaborate

/-! ## Finished bodies -/

open Elaborate (TermDepth)

/-- What a finished body refers to: the parameters, the members of the group, and the uses of
dictionaries that became parameters. -/
structure Closing where
  generalization : Generalization
  group : List DefId
  lifted : List LiftedUse

/-- The second term is the first one, finished, at a place under that many binders: uses of members
are applied to the parameters, lifted slots refer to the dictionaries that they were lifted to, and
the other slots hold dictionaries too.  What the constructors in it are is left open. -/
inductive Closing.Finishes (closing : Closing) : TermDepth → Term → Term → Prop where
  | lit {depth : TermDepth} (value : Literal) : Finishes closing depth (.lit value) (.lit value)
  | bvar {depth : TermDepth} (index : Nat) : Finishes closing depth (.bvar index) (.bvar index)
  | member {depth : TermDepth} (module : ModuleId) (path : List String) (item : String) :
      Finishes closing depth (.member module path item) (.member module path item)
  | global {depth : TermDepth} {id : DefId} (h : id ∉ closing.group) :
      Finishes closing depth (.global id) (.global id)
  | recursive {depth : TermDepth} {id : DefId} (h : id ∈ closing.group) {cons dicts : List Nat}
      (hcons : List.Forall₂ (PointsTo closing.generalization.skolems.length depth.con) cons
        (List.range closing.generalization.skolems.length))
      (hdicts : List.Forall₂ (PointsTo closing.generalization.dicts.length depth.val) dicts
        (List.range closing.generalization.dicts.length)) :
      Finishes closing depth (.global id) (Term.applied (.global id) (cons.map .bvar)
        closing.generalization.facts.length (dicts.map .local))
  | dict {depth : TermDepth} (dict dict' : Dict) : Finishes closing depth (.dict dict) (.dict dict')
  | slot {depth : TermDepth} {id : SlotId} {dict : Dict}
      (h : ∀ use ∈ closing.lifted, use.slot = id → ∃ index, dict = .local index ∧
        PointsTo closing.generalization.dicts.length depth.val index use.position) :
      Finishes closing depth (.slot id) (.dict dict)
  | app {depth : TermDepth} {f f' a a' : Term} (hf : Finishes closing depth f f')
      (ha : Finishes closing depth a a') : Finishes closing depth (.app f a) (.app f' a')
  | abs {depth : TermDepth} (x : String) (type type' : Con) {body body' : Term}
      (h : Finishes closing (depth.underVals 1) body body') :
      Finishes closing depth (.abs x type body) (.abs x type' body')
  | capp {depth : TermDepth} {f f' : Term} (a a' : Con) (h : Finishes closing depth f f') :
      Finishes closing depth (.capp f a) (.capp f' a')
  | cabs {depth : TermDepth} (x : String) (k k' : Kind) {body body' : Term}
      (h : Finishes closing depth.underCon body body') :
      Finishes closing depth (.cabs x k body) (.cabs x k' body')
  | kapp {depth : TermDepth} {f f' : Term} (k k' : Kind) (h : Finishes closing depth f f') :
      Finishes closing depth (.kapp f k) (.kapp f' k')
  | kabs {depth : TermDepth} (x : String) {body body' : Term}
      (h : Finishes closing depth body body') :
        Finishes closing depth (.kabs x body) (.kabs x body')
  | disjointAbs {depth : TermDepth} (l l' r r' : Con) {body body' : Term}
      (h : Finishes closing depth body body') :
      Finishes closing depth (.disjointAbs l r body) (.disjointAbs l' r' body')
  | disjointApp {depth : TermDepth} {f f' : Term} (h : Finishes closing depth f f') :
      Finishes closing depth (.disjointApp f) (.disjointApp f')
  | record {depth : TermDepth} {fields fields' : List (Con × Term)}
      (hlength : fields.length = fields'.length)
      (h : ∀ (i : Nat) (field field' : Con × Term), fields[i]? = some field →
        fields'[i]? = some field' → Finishes closing depth field.2 field'.2) :
      Finishes closing depth (.record fields) (.record fields')
  | field {depth : TermDepth} {e e' : Term} (name name' rest rest' : Con)
      (h : Finishes closing depth e e') :
      Finishes closing depth (.field e name rest) (.field e' name' rest')
  | concat {depth : TermDepth} {l l' r r' : Term} (left left' right right' : Con)
      (hl : Finishes closing depth l l') (hr : Finishes closing depth r r') :
      Finishes closing depth (.concat l r left right) (.concat l' r' left' right')
  | cut {depth : TermDepth} {e e' : Term} (field field' rest rest' : Con)
      (h : Finishes closing depth e e') :
      Finishes closing depth (.cut e field rest) (.cut e' field' rest')
  | cutRow {depth : TermDepth} {e e' : Term} (row row' rest rest' : Con)
      (h : Finishes closing depth e e') :
      Finishes closing depth (.cutRow e row rest) (.cutRow e' row' rest')
  | inject {depth : TermDepth} {e e' : Term} (field field' row row' : Con)
      (h : Finishes closing depth e e') :
      Finishes closing depth (.inject field e row) (.inject field' e' row')
  | case {depth : TermDepth} {e e' : Term} {arms arms' : List (Pattern × Term)} (type type' : Con)
      (he : Finishes closing depth e e') (hlength : arms.length = arms'.length)
      (hbound : ∀ (i : Nat) (arm arm' : Pattern × Term), arms[i]? = some arm →
        arms'[i]? = some arm' → arm'.1.boundCount = arm.1.boundCount)
      (h : ∀ (i : Nat) (arm arm' : Pattern × Term), arms[i]? = some arm → arms'[i]? = some arm' →
        Finishes closing (depth.underVals arm.1.boundCount) arm.2 arm'.2) :
      Finishes closing depth (.case e arms type) (.case e' arms' type')
  | letVal {depth : TermDepth} (x : String) (type type' : Con) {value value' body body' : Term}
      (hvalue : Finishes closing depth value value')
      (hbody : Finishes closing (depth.underVals 1) body body') :
      Finishes closing depth (.letVal x type value body) (.letVal x type' value' body')
  | letRec {depth : TermDepth} {functions functions' : List (String × Con × Term)}
      {body body' : Term} (hlength : functions.length = functions'.length)
      (h : ∀ (i : Nat) (function function' : String × Con × Term), functions[i]? = some function →
        functions'[i]? = some function' →
        Finishes closing (depth.underVals functions.length) function.2.2 function'.2.2)
      (hbody : Finishes closing (depth.underVals functions.length) body body') :
      Finishes closing depth (.letRec functions body) (.letRec functions' body')
  | ite {depth : TermDepth} {c c' yes yes' no no' : Term} (hc : Finishes closing depth c c')
      (hyes : Finishes closing depth yes yes') (hno : Finishes closing depth no no') :
      Finishes closing depth (.ite c yes no) (.ite c' yes' no')

end RowML
