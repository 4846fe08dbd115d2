import RowML.Scope
import Mathlib.Data.List.Basic

/-!
# Lookup is weakening

Binders are counted as they are added and forgotten, and each one remembers the counts where it was
made.  So a lookup finds the innermost binder with a name, the index counts the binders of its class
further in, and what the binder carries is shifted past the constructor binders and kind binders
that were added after it.  Assumptions of disjointness and dictionaries are shifted past the
constructor binders only, which is the same as long as no kind binder was added after them.
-/

namespace RowML

namespace Scope

/-! ## Binders further in -/

/-- Each binder of a list, which starts with the innermost one, after the binders further in. -/
def nested : List Binder → List (List Binder × Binder)
  | [] => []
  | binder :: outer => ([], binder) :: (nested outer).map fun (inner, b) => (binder :: inner, b)

/-- The numbers of constructor and kind binders. -/
def depthOf (binders : List Binder) : Depth where
  con := binders.countP (·.classifier.isCon)
  kind := binders.countP (·.classifier.isKind)

variable {binders inner outer : List Binder} {binder : Binder}

theorem mem_nested : (inner, binder) ∈ nested binders ↔
    ∃ outer, binders = inner ++ binder :: outer := by
  induction binders generalizing inner with
  | nil => simp [nested]
  | cons first rest ih =>
    simp only [nested, List.mem_cons, List.mem_map, Prod.mk.injEq, Prod.exists]
    constructor
    · rintro (⟨rfl, rfl⟩ | ⟨inner, b, hmem, rfl, rfl⟩)
      · exact ⟨rest, rfl⟩
      · obtain ⟨outer, rfl⟩ := ih.mp hmem
        exact ⟨outer, rfl⟩
    · rintro ⟨outer, heq⟩
      cases inner with
      | nil =>
        cases heq
        exact .inl ⟨rfl, rfl⟩
      | cons b inner =>
        cases heq
        exact .inr ⟨inner, binder, ih.mpr ⟨outer, rfl⟩, rfl, rfl⟩

theorem map_snd_nested (binders : List Binder) : (nested binders).map Prod.snd = binders := by
  induction binders with
  | nil => rfl
  | cons binder outer ih => simpa [nested, Function.comp_def] using ih

/-- Every binder remembers how many constructor and kind binders were around it. -/
def Placed : List Binder → Prop
  | [] => True
  | binder :: outer => binder.depth = depthOf outer ∧ Placed outer

theorem Placed.append (h : Placed (inner ++ outer)) : Placed outer := by
  induction inner with
  | nil => exact h
  | cons _ _ ih => exact ih h.2

/-! ## Counting -/

/-- The binders are counted, and they remember the counts that they found. -/
structure Counted (scope : Scope) : Prop where
  depth : scope.depth = depthOf scope.binders
  valDepth : scope.valDepth = scope.binders.countP (·.classifier.isVal)
  placed : Placed scope.binders

variable {scope outerScope : Scope}

/-- What a binder adds to the numbers of constructor and kind binders. -/
theorem depthOf_cons (binder : Binder) (binders : List Binder) :
    depthOf (binder :: binders) =
      match binder.classifier with
      | .con _ => (depthOf binders).underCon
      | .kind => (depthOf binders).underKind
      | .val _ _ | .fact _ => depthOf binders := by
  cases h : binder.classifier <;>
    simp [depthOf, h, Depth.underCon, Depth.underKind, Classifier.isCon, Classifier.isKind]

theorem countP_isVal_cons (binder : Binder) (binders : List Binder) :
    (binder :: binders).countP (·.classifier.isVal) =
      match binder.classifier with
      | .val _ _ => binders.countP (·.classifier.isVal) + 1
      | .con _ | .kind | .fact _ => binders.countP (·.classifier.isVal) := by
  cases h : binder.classifier <;> simp [h, Classifier.isVal]

theorem Counted.push (h : scope.Counted) (name : String) (classifier : Classifier) :
    Placed (scope.push name classifier).binders :=
  ⟨h.depth, h.placed⟩

theorem Counted.pushCon (h : scope.Counted) (name : String) (kind : Kind) :
    (scope.pushCon name kind).Counted where
  depth := (congrArg Depth.underCon h.depth).trans (depthOf_cons ⟨name, .con kind, _⟩ _).symm
  valDepth := h.valDepth.trans (countP_isVal_cons ⟨name, .con kind, _⟩ _).symm
  placed := h.push name (.con kind)

theorem Counted.pushKind (h : scope.Counted) (name : String) : (scope.pushKind name).Counted where
  depth := (congrArg Depth.underKind h.depth).trans (depthOf_cons ⟨name, .kind, _⟩ _).symm
  valDepth := h.valDepth.trans (countP_isVal_cons ⟨name, .kind, _⟩ _).symm
  placed := h.push name .kind

theorem Counted.pushVal (h : scope.Counted) (name : String) (type : Con) (isDict : Bool) :
    (scope.pushVal name type isDict).Counted where
  depth := h.depth.trans (depthOf_cons ⟨name, .val type isDict, _⟩ _).symm
  valDepth := (congrArg (· + 1) h.valDepth).trans
    (countP_isVal_cons ⟨name, .val type isDict, _⟩ _).symm
  placed := h.push name (.val type isDict)

theorem Counted.pushFact (h : scope.Counted) (left right : Con) :
    (scope.pushFact left right).Counted where
  depth := h.depth.trans (depthOf_cons ⟨"", .fact ⟨left, right⟩, _⟩ _).symm
  valDepth := h.valDepth.trans (countP_isVal_cons ⟨"", .fact ⟨left, right⟩, _⟩ _).symm
  placed := h.push "" (.fact ⟨left, right⟩)

theorem counted_empty : empty.Counted := ⟨rfl, rfl, trivial⟩

/-! ## Forgetting binders -/

/-- The second scope is what the first one was before binders and names were added. -/
structure Extends (scope outerScope : Scope) : Prop where
  binders : outerScope.binders <:+ scope.binders
  names : outerScope.names <:+ scope.names

theorem foldl_leave (binders : List Binder) (scope : Scope) :
    binders.foldl leave scope = { scope with
      depth := ⟨scope.depth.con - (depthOf binders).con, scope.depth.kind - (depthOf binders).kind⟩
      valDepth := scope.valDepth - binders.countP (·.classifier.isVal) } := by
  induction binders generalizing scope with
  | nil => rfl
  | cons binder binders ih =>
    rw [List.foldl_cons, ih]
    rw [depthOf_cons, countP_isVal_cons]
    cases hclassifier : binder.classifier <;>
      simp [leave, hclassifier, Depth.underCon, Depth.underKind] <;> omega

/-- Going back to a scope gives that scope. -/
theorem Extends.reset (h : scope.Extends outerScope) (hscope : scope.Counted)
    (houter : outerScope.Counted) : scope.reset outerScope.mark = outerScope := by
  obtain ⟨⟨inner, hbinders⟩, ⟨newer, hnames⟩⟩ := h
  have hextra : scope.binders.length - outerScope.mark.binders = inner.length := by
    simp [← hbinders, mark]
  have hnewer : scope.names.length - outerScope.mark.names = newer.length := by
    simp [← hnames, mark]
  obtain ⟨binders, names, depth, valDepth⟩ := outerScope
  simp only [Scope.reset, hextra, hnewer, foldl_leave]
  simp only [← hbinders, ← hnames, List.take_left, List.drop_left, mk.injEq, true_and]
  constructor
  · rw [show depth = _ from houter.depth, hscope.depth, ← hbinders]
    simp [depthOf]
  · rw [show valDepth = _ from houter.valDepth, hscope.valDepth, ← hbinders]
    simp

/-- Scopes that arise from the empty one, with the marks taken on the way that are not passed yet,
the newest first. -/
inductive History : List Scope → Scope → Prop where
  | empty : History [] empty
  | con {marks : List Scope} {scope : Scope} (h : History marks scope)
    (name : String) (kind : Kind) :
      History marks (scope.pushCon name kind)
  | kind {marks : List Scope} {scope : Scope} (h : History marks scope) (name : String) :
      History marks (scope.pushKind name)
  | val {marks : List Scope} {scope : Scope} (h : History marks scope) (name : String) (type : Con)
      (isDict : Bool) : History marks (scope.pushVal name type isDict)
  | fact {marks : List Scope} {scope : Scope} (h : History marks scope) (left right : Con) :
      History marks (scope.pushFact left right)
  | bind {marks : List Scope} {scope : Scope} (h : History marks scope) (name : String)
      (sort : Namespace) (meaning : Meaning) : History marks (scope.bind name sort meaning)
  | mark {marks : List Scope} {scope : Scope} (h : History marks scope) :
      History (scope :: marks) scope
  /-- Going back to a mark passes the newer ones. -/
  | reset {newer marks : List Scope} {marked scope : Scope}
      (h : History (newer ++ marked :: marks) scope) :
      History (marked :: marks) (scope.reset marked.mark)

/-- What has been kept of a history: the scope is counted, and it and the marks are what the older
marks have become. -/
structure Recorded (marks : List Scope) (scope : Scope) : Prop where
  counted : scope.Counted
  marked : ∀ m ∈ marks, m.Counted
  extends_marks : ∀ m ∈ marks, scope.Extends m
  nested : marks.Pairwise Extends

theorem Extends.refl (scope : Scope) : scope.Extends scope := ⟨List.suffix_rfl, List.suffix_rfl⟩

theorem Recorded.add {marks : List Scope} {scope' : Scope} (h : Recorded marks scope)
    (hbinders : scope.binders <:+ scope'.binders) (hnames : scope.names <:+ scope'.names)
    (hcounted : scope'.Counted) : Recorded marks scope' :=
  { h with
    counted := hcounted
    extends_marks := fun m hm =>
      ⟨(h.extends_marks m hm).binders.trans hbinders, (h.extends_marks m hm).names.trans hnames⟩ }

theorem History.recorded {marks : List Scope} (h : History marks scope) : Recorded marks scope := by
  induction h with
  | empty => exact ⟨counted_empty, by simp, by simp, .nil⟩
  | con _ name kind ih =>
    exact ih.add (List.suffix_cons _ _) List.suffix_rfl (ih.counted.pushCon name kind)
  | kind _ name ih =>
    exact ih.add (List.suffix_cons _ _) List.suffix_rfl (ih.counted.pushKind name)
  | val _ name type isDict ih =>
    exact ih.add (List.suffix_cons _ _) List.suffix_rfl (ih.counted.pushVal name type isDict)
  | fact _ left right ih =>
    exact ih.add (List.suffix_cons _ _) List.suffix_rfl (ih.counted.pushFact left right)
  | bind _ name sort meaning ih =>
    exact ih.add List.suffix_rfl (List.suffix_cons _ _)
      ⟨ih.counted.depth, ih.counted.valDepth, ih.counted.placed⟩
  | @mark marks scope _ ih =>
    exact ⟨ih.counted, List.forall_mem_cons.mpr ⟨ih.counted, ih.marked⟩,
      List.forall_mem_cons.mpr ⟨.refl scope, ih.extends_marks⟩,
      List.pairwise_cons.mpr ⟨ih.extends_marks, ih.nested⟩⟩
  | @reset newer marks marked scope _ ih =>
    obtain ⟨-, hnested, -⟩ := List.pairwise_append.mp ih.nested
    have hmarked := ih.marked marked (by simp)
    rw [(ih.extends_marks marked (by simp)).reset ih.counted hmarked]
    refine ⟨hmarked, fun m hm => ih.marked m (List.mem_append_right _ hm),
      List.forall_mem_cons.mpr ⟨.refl marked, (List.pairwise_cons.mp hnested).1⟩, hnested⟩

/-! ## Lookups -/

/-- The innermost binder of a class with a name, after the binders further in. -/
def innermost? (scope : Scope) (ofClass : Classifier → Bool) (name : String) :
    Option (List Binder × Binder) :=
  (nested scope.binders).find? fun (_, binder) =>
    ofClass binder.classifier && binder.name == name

/-- The first of the candidates with a name, after its position. -/
def firstNamed (name : String) (candidates : List Binder) : Option (Nat × Binder) :=
  (candidates.findIdx? (·.name == name)).bind fun index => (candidates[index]?).map (index, ·)

theorem firstNamed_cons (name : String) (binder : Binder) (rest : List Binder) :
    firstNamed name (binder :: rest) =
      if binder.name == name then some (0, binder)
      else (firstNamed name rest).map fun (index, b) => (index + 1, b) := by
  rw [firstNamed, List.findIdx?_cons, firstNamed]
  cases binder.name == name with
  | true => simp
  | false => cases rest.findIdx? (·.name == name) <;> simp [Function.comp_def]

theorem find?_eq_firstNamed (scope : Scope) (ofClass : Classifier → Bool) (name : String) :
    scope.find? ofClass name =
      firstNamed name (scope.binders.filter (ofClass ·.classifier)) := by
  unfold find? firstNamed
  simp only
  cases (scope.binders.filter (ofClass ·.classifier)).findIdx? (·.name == name) <;> rfl

/-- The index of the binder that a lookup finds is the number of binders of the class further in. -/
theorem find?_eq (scope : Scope) (ofClass : Classifier → Bool) (name : String) :
    scope.find? ofClass name = (scope.innermost? ofClass name).map fun (inner, binder) =>
      (inner.countP (ofClass ·.classifier), binder) := by
  rw [find?_eq_firstNamed, innermost?]
  generalize scope.binders = binders
  induction binders with
  | nil => rfl
  | cons binder outer ih =>
    simp only [nested, List.find?_cons, List.find?_map, List.filter_cons, Function.comp_def]
    cases hclass : ofClass binder.classifier with
    | false => simpa [hclass, Option.map_map, Function.comp_def] using ih
    | true =>
      simp only [if_true, firstNamed_cons, Bool.true_and, ih]
      cases binder.name == name <;> simp [hclass, Option.map_map, Function.comp_def]

/-- What was added after a binder of the scope, and the binder itself. -/
theorem Counted.above (h : scope.Counted) (hbinders : scope.binders = inner ++ binder :: outer) :
    scope.above binder = depthOf (inner ++ [binder]) := by
  have hplaced : binder.depth = depthOf outer := by
    have := h.placed
    rw [hbinders] at this
    exact this.append.1
  rw [Scope.above, h.depth, hplaced, hbinders]
  simp only [depthOf, List.countP_append, List.countP_cons, List.countP_nil, Depth.mk.injEq]
  omega

/-! ## What is handed out -/

/-- The assumptions of disjointness, the outermost first, after the binders further in. -/
def factsIn (binders : List Binder) : List (List Binder × Fact) :=
  (nested binders).reverse.filterMap fun (inner, binder) =>
    match binder.classifier with
    | .fact fact => some (inner, fact)
    | _ => none

/-- The types of the dictionaries, the outermost first, after the binders further in. -/
def dictionariesIn (binders : List Binder) : List (List Binder × Con) :=
  (nested binders).reverse.filterMap fun (inner, binder) =>
    match binder.classifier with
    | .val type true => some (inner, type)
    | _ => none

/-- A fact where the binders `inner` have been added after it. -/
def weakenFact (inner : List Binder) (fact : Fact) : KindM Fact :=
  return ⟨← fact.left.weaken (depthOf inner), ← fact.right.weaken (depthOf inner)⟩

/-- How a search reads a dictionary in a scope: the index of the variable, and its type. -/
def readDictionary (scope : Scope) (dict : LocalDict) : Nat × Con :=
  (scope.valDepth - (dict.level + 1), dict.type.lift (scope.depth.con - dict.depth))

theorem Counted.facts (h : scope.Counted) :
    scope.facts = (factsIn scope.binders).map fun (inner, fact) =>
      ⟨fact.left.lift (depthOf inner).con, fact.right.lift (depthOf inner).con⟩ := by
  rw [Scope.facts, factsIn, List.map_filterMap]
  conv_lhs => rw [← map_snd_nested scope.binders, ← List.map_reverse, List.filterMap_map]
  refine List.filterMap_congr fun (inner, binder) hmem => ?_
  obtain ⟨outer, hbinders⟩ := mem_nested.mp (List.mem_reverse.mp hmem)
  have habove := h.above hbinders
  simp only [Function.comp_apply]
  cases hclassifier : binder.classifier with
  | fact fact => simp [habove, depthOf, hclassifier, Classifier.isCon]
  | _ => rfl

theorem zipIdx_vals (binders : List Binder) :
    (binders.reverse.filter (·.classifier.isVal)).zipIdx =
      ((nested binders).reverse.filter (·.2.classifier.isVal)).map fun (inner, binder) =>
        (binder, binders.countP (·.classifier.isVal) -
          (inner.countP (·.classifier.isVal) + 1)) := by
  induction binders with
  | nil => rfl
  | cons binder outer ih =>
    have houter : ((nested outer).map fun (inner, b) => (binder :: inner, b)).reverse.filter
        (·.2.classifier.isVal) =
        ((nested outer).reverse.filter (·.2.classifier.isVal)).map fun (inner, b) =>
          (binder :: inner, b) := by
      rw [← List.map_reverse, List.filter_map]
      rfl
    rw [nested, List.reverse_cons, List.reverse_cons, List.filter_append, List.filter_append,
      List.zipIdx_append, ih, List.map_append, houter, List.map_map]
    congr 1
    · refine List.map_congr_left fun (inner, b) _ => ?_
      cases hval : binder.classifier.isVal <;> simp [hval]
    · cases hval : binder.classifier.isVal <;>
        simp [hval, List.countP_eq_length_filter, List.filter_reverse]

theorem Counted.dictionaries (h : scope.Counted) :
    scope.dictionaries.map scope.readDictionary =
      (dictionariesIn scope.binders).map fun (inner, type) =>
        (inner.countP (·.classifier.isVal), type.lift (depthOf inner).con) := by
  rw [Scope.dictionaries, zipIdx_vals, dictionariesIn, List.filterMap_map, List.map_filterMap,
    List.map_filterMap, List.filterMap_filter]
  refine List.filterMap_congr fun (inner, binder) hmem => ?_
  obtain ⟨outer, hbinders⟩ := mem_nested.mp (List.mem_reverse.mp hmem)
  have habove := h.above hbinders
  simp only [Function.comp_apply]
  cases hclassifier : binder.classifier with
  | val type isDict =>
    cases isDict with
    | false => simp
    | true =>
      have hdepth : scope.depth.con - binder.depth.con = (depthOf inner).con := by
        simpa [Scope.above, depthOf, hclassifier, Classifier.isCon] using congrArg Depth.con habove
      have hindex : scope.binders.countP (·.classifier.isVal) -
          (scope.binders.countP (·.classifier.isVal) -
            (inner.countP (·.classifier.isVal) + 1) + 1) =
          inner.countP (·.classifier.isVal) := by
        rw [hbinders, List.countP_append, List.countP_cons, hclassifier]
        simp only [show (Classifier.val type true).isVal = true from rfl, if_true]
        omega
      simp [show (Classifier.val type true).isVal = true from rfl, readDictionary, hdepth,
        h.valDepth, hindex]
  | _ => simp [Classifier.isVal]

/-- The kind and the index of a constructor variable. -/
theorem Counted.findCon? (h : scope.Counted) (name : String) :
    scope.findCon? name =
      match scope.innermost? Classifier.isCon name with
      | some (inner, ⟨_, .con kind, _⟩) => do
        return some ((depthOf inner).con, ← KindStore.lift kind (depthOf inner).kind 0)
      | _ => pure none := by
  rw [Scope.findCon?, find?_eq]
  cases hfound : scope.innermost? Classifier.isCon name with
  | none => rfl
  | some found =>
    obtain ⟨inner, binder⟩ := found
    obtain ⟨outer, hbinders⟩ := mem_nested.mp (List.mem_of_find?_eq_some hfound)
    have habove := congrArg Depth.kind (h.above hbinders)
    obtain ⟨x, classifier, depth⟩ := binder
    cases classifier with
    | con kind =>
      have hkind : (scope.above ⟨x, .con kind, depth⟩).kind = (depthOf inner).kind := by
        simpa [depthOf, Classifier.isKind] using habove
      simp only [Option.map_some, hkind]
      rfl
    | _ => rfl

theorem findKind?_eq (scope : Scope) (name : String) :
    scope.findKind? name =
      (scope.innermost? Classifier.isKind name).map fun (inner, _) => (depthOf inner).kind := by
  rw [findKind?, find?_eq, Option.map_map]
  rfl

theorem Counted.findVal? (h : scope.Counted) (name : String) :
    scope.findVal? name =
      match scope.innermost? Classifier.isVal name with
      | some (inner, ⟨_, .val type _, _⟩) => do
        return some (inner.countP (·.classifier.isVal), ← type.weaken (depthOf inner))
      | _ => pure none := by
  rw [Scope.findVal?, find?_eq]
  cases hfound : scope.innermost? Classifier.isVal name with
  | none => rfl
  | some found =>
    obtain ⟨inner, binder⟩ := found
    obtain ⟨outer, hbinders⟩ := mem_nested.mp (List.mem_of_find?_eq_some hfound)
    have habove := h.above hbinders
    obtain ⟨x, classifier, depth⟩ := binder
    cases classifier with
    | val type isDict =>
      have hdepth : scope.above ⟨x, .val type isDict, depth⟩ = depthOf inner := by
        simpa [depthOf, Classifier.isCon, Classifier.isKind] using habove
      simp only [Option.map_some, hdepth]
    | _ => rfl

/-- Past constructor binders only, shifting is weakening. -/
theorem weaken_eq_lift {inner : List Binder} (h : (depthOf inner).kind = 0) (c : Con) :
    c.weaken (depthOf inner) = pure (c.lift (depthOf inner).con) := by
  rw [Con.weaken, h, Con.liftKinds, if_pos rfl]

/-- The counts are those of the binders; a lookup finds the innermost binder of its class with the
name, and hands out the number of binders of the class further in and what the binder carries, as it
reads after the binders further in; and the facts and dictionaries are those of the scope in order,
shifted past the constructor binders further in, and read as after the binders further in where no
kind binder is among them. -/
structure Weakens (scope : Scope) : Prop where
  cons : scope.depth.con = scope.binders.countP (·.classifier.isCon)
  kinds : scope.depth.kind = scope.binders.countP (·.classifier.isKind)
  vals : scope.valDepth = scope.binders.countP (·.classifier.isVal)
  findCon? (name : String) : scope.findCon? name =
    match scope.innermost? Classifier.isCon name with
    | some (inner, ⟨_, .con kind, _⟩) => do
      return some (inner.countP (·.classifier.isCon),
        ← KindStore.lift kind (inner.countP (·.classifier.isKind)) 0)
    | _ => pure none
  findKind? (name : String) : scope.findKind? name =
    (scope.innermost? Classifier.isKind name).map fun (inner, _) =>
      inner.countP (·.classifier.isKind)
  findVal? (name : String) : scope.findVal? name =
    match scope.innermost? Classifier.isVal name with
    | some (inner, ⟨_, .val type _, _⟩) => do
      return some (inner.countP (·.classifier.isVal), ← type.weaken (depthOf inner))
    | _ => pure none
  facts : scope.facts = (factsIn scope.binders).map fun (inner, fact) =>
    ⟨fact.left.lift (depthOf inner).con, fact.right.lift (depthOf inner).con⟩
  facts_weakened : (∀ entry ∈ factsIn scope.binders, (depthOf entry.1).kind = 0) →
    (pure scope.facts : KindM (List Fact)) =
      (factsIn scope.binders).mapM fun (inner, fact) => weakenFact inner fact
  dictionaries : scope.dictionaries.map scope.readDictionary =
    (dictionariesIn scope.binders).map fun (inner, type) =>
      (inner.countP (·.classifier.isVal), type.lift (depthOf inner).con)
  dictionaries_weakened : (∀ entry ∈ dictionariesIn scope.binders, (depthOf entry.1).kind = 0) →
    (pure (scope.dictionaries.map scope.readDictionary) : KindM (List (Nat × Con))) =
      (dictionariesIn scope.binders).mapM fun (inner, type) => do
        return (inner.countP (·.classifier.isVal), ← type.weaken (depthOf inner))

private theorem pure_map_eq_mapM {α β : Type} {f : α → β} {g : α → KindM β} {xs : List α}
    (h : ∀ x ∈ xs, g x = pure (f x)) : (pure (xs.map f) : KindM (List β)) = xs.mapM g := by
  induction xs with
  | nil => rfl
  | cons x xs ih =>
    obtain ⟨hx, hxs⟩ := List.forall_mem_cons.mp h
    rw [List.mapM_cons, hx, ← ih hxs]
    rfl

theorem Counted.weakens (h : scope.Counted) : scope.Weakens where
  cons := congrArg Depth.con h.depth
  kinds := congrArg Depth.kind h.depth
  vals := h.valDepth
  findCon? := h.findCon?
  findKind? := findKind?_eq scope
  findVal? := h.findVal?
  facts := h.facts
  facts_weakened hkinds := by
    rw [h.facts]
    refine pure_map_eq_mapM fun entry hentry => ?_
    simp only [weakenFact, weaken_eq_lift (hkinds entry hentry)]
    rfl
  dictionaries := h.dictionaries
  dictionaries_weakened hkinds := by
    rw [h.dictionaries]
    refine pure_map_eq_mapM fun entry hentry => ?_
    simp only [weaken_eq_lift (hkinds entry hentry)]
    rfl

/-- In every scope that binders, names, marks and returns to marks lead to, lookups weaken what they
find, and going back to a mark gives the scope of the mark with all its answers. -/
theorem History.lookups_weaken {marks : List Scope} (h : History marks scope) :
    scope.Weakens ∧ ∀ marked ∈ marks, scope.reset marked.mark = marked := by
  obtain ⟨hcounted, hmarked, hextends, -⟩ := h.recorded
  exact ⟨hcounted.weakens, fun marked hmem =>
    (hextends marked hmem).reset hcounted (hmarked marked hmem)⟩

/-- A row that takes a kind and another row are assumed to be disjoint. -/
def assumingScope : Scope :=
  (((empty.pushKind "K").pushCon "r" (.poly "X" (.record .type))).pushCon "s"
    (.record .type)).pushFact
    (.kapp (.bvar 1) (.bvar 0)) (.bvar 0)

theorem lookups_weaken_assuming :
    ((assumingScope.pushVal "x" (.bvar 1) true).pushCon "t" .type).Weakens ∧
      ((assumingScope.pushVal "x" (.bvar 1) true).pushCon "t" .type).reset assumingScope.mark =
        assumingScope := by
  have hassuming : History [] assumingScope :=
    (((History.empty.kind "K").con "r" _).con "s" _).fact _ _
  have h := History.lookups_weaken ((hassuming.mark.val "x" (.bvar 1) true).con "t" .type)
  exact ⟨h.1, h.2 assumingScope (by simp)⟩

/-- Under another kind binder the assumption is still about the variable that was the innermost one
before. -/
theorem facts_miss_kind : History [] (assumingScope.pushKind "J") ∧
    (pure (assumingScope.pushKind "J").facts : KindM (List Fact)) ≠
      (factsIn (assumingScope.pushKind "J").binders).mapM fun (inner, fact) =>
        weakenFact inner fact := by
  refine ⟨((((History.empty.kind "K").con "r" _).con "s" _).fact _ _).kind "J", fun h => ?_⟩
  have hrun := congrArg (fun facts => ((facts.run KindStore.empty).1.map Fact.left)) h
  revert hrun
  decide +kernel

end Scope

end RowML
