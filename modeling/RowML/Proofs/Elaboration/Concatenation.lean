import RowML.Proofs.Elaboration.Frame
import RowML.Proofs.Elaboration.Idle
import RowML.Proofs.Row.Disjointness

/-!
# Concatenation of record literals

A declaration that concatenates two record literals gets the type of a record with the fields of
both, unless a label is in both; then the label is reported, and nothing else.
-/

namespace RowML

open Value

/-! ## Rows of values -/

variable {globals : Globals} {store : Store} {v : MetaId} {fields : Fields}

/-- The row of a record of values. -/
def valueRow (fields : Fields) : Con := .row .type (rowFields fields)

/-- The pieces of the row. -/
def valuePieces (fields : Fields) : List Piece :=
  fields.map fun (label, value) => .field (.label label.node) value.type

theorem valueRow_complete (fields : Fields) : (valueRow fields).Complete := by
  refine .row fun field hfield => ?_
  obtain ⟨source, -, rfl⟩ := List.mem_map.mp hfield
  exact ⟨.label _, source.2.type_complete⟩

theorem summarize_valueRow (globals : Globals) (hv : store.solution? v = some (valueRow fields))
    (fuel : Nat) :
    Row.summarize globals (fuel + 2) (.mvar v []) store = some (valuePieces fields, store) := by
  rw [Row.summarize, bind_of_run (headNormal_solved globals hv (valueRow_complete fields) fuel)]
  simp only [rowFields, List.mapM_map]
  refine mapM_of_run fun field _ => ?_
  exact (bind_of_run (headNormal_label globals store field.1.node fuel) _).trans rfl

theorem valuePieces_allKnown (fields : Fields) :
    Row.AllKnown (valuePieces fields) := by
  intro piece hpiece
  obtain ⟨field, -, rfl⟩ := List.mem_map.mp hpiece
  exact ⟨_, _, rfl⟩

/-- The labels of a record of values. -/
def Value.labels (fields : Fields) : List String := fields.map (·.1.node)

theorem mem_knownLabels {x : String} :
    x ∈ Row.knownLabels (valuePieces fields) ↔ x ∈ labels fields := by
  constructor
  · rintro ⟨value, hpiece⟩
    obtain ⟨field, hfield, heq⟩ := List.mem_map.mp hpiece
    cases heq
    exact List.mem_map_of_mem hfield
  · intro hx
    obtain ⟨field, hfield, rfl⟩ := List.mem_map.mp hx
    exact ⟨field.2.type, List.mem_map_of_mem hfield⟩

theorem disjoint_knownLabels {fields' : Fields} :
    Disjoint (Row.knownLabels (valuePieces fields)) (Row.knownLabels (valuePieces fields')) ↔
      (labels fields).Disjoint (labels fields') := by
  rw [Set.disjoint_left]
  simp only [mem_knownLabels]
  rfl

/-- The concatenation of two literals is the literal with the fields of both. -/
theorem concatHeads_row (fields fields' : List (Con × Con)) :
    Con.concatHeads (.row .type fields) (.row .type fields') = .row .type (fields ++ fields') := by
  cases fields with
  | nil => rfl
  | cons field fields =>
    cases fields' with
    | nil => simp [Con.concatHeads]
    | cons => rfl

/-! ## The cells of a concatenation -/

/-- The session while a concatenation is elaborated, with what its type and the rows of its two
sides are known to be. -/
def joining (type left right : Option Con) : Session :=
  { Session.empty with
    store := ⟨KindStore.empty, #[⟨.type, 0, type⟩, ⟨.typeRow, 0, left⟩, ⟨.typeRow, 0, right⟩], #[],
      [], 0, #[]⟩ }

theorem joining_idle (type left right : Option Con) : (joining type left right).Idle := ⟨rfl, rfl⟩

/-- The same when both rows are known. -/
def joined (type : Option Con) (ls rs : Fields) : Session :=
  joining type (some (valueRow ls)) (some (valueRow rs))

/-- The type of a concatenation, before the rows of its sides are known. -/
def joinedType : Con := .record (.concat (.mvar 1 []) (.mvar 2 []))

namespace Elaborate

variable {config : Config} {ls rs : Fields} {lspan rspan : Span}

def concatExpr (ls rs : Fields) (lspan rspan span : Span) : Surface.Expr :=
  ⟨.concat (Value.record ls lspan).expr (Value.record rs rspan).expr, span⟩

theorem unify_left (span : Span) (fuel : Nat) :
    ((unify (fuel + 4) span (.record (.mvar 1 [])) (Value.record ls lspan).type).run config).run
      (joining none none none) = some (.ok (), joining none (some (valueRow ls)) none) := by
  have hassign : (Store.assign 1 (valueRow ls)).run.run (joining none none none).store =
      (.ok (), { (joining none (some (valueRow ls)) none).store with solved := #[1] }) := rfl
  rw [type_record]
  exact unify_run (s := joining none none none) Queue.quiet_empty
    (unify_record rfl (valueRow_complete ls) rfl hassign) span

theorem unify_right (span : Span) (fuel : Nat) (left : Con) :
    ((unify (fuel + 4) span (.record (.mvar 2 [])) (Value.record rs rspan).type).run config).run
      (joining none (some left) none) =
        some (.ok (), joining none (some left) (some (valueRow rs))) := by
  have hassign : (Store.assign 2 (valueRow rs)).run.run (joining none (some left) none).store =
      (.ok (), { (joining none (some left) (some (valueRow rs))).store with solved := #[2] }) := rfl
  rw [type_record]
  exact unify_run (s := joining none (some left) none) Queue.quiet_empty
    (unify_record rfl (valueRow_complete rs) rfl hassign) span

/-- The session in which a value without a type is checked. -/
def checking : Session :=
  { Session.empty with store := ⟨KindStore.empty, #[⟨.type, 0, none⟩], #[], [], 0, #[]⟩ }

def joinedTerm (ls rs : Fields) (lspan rspan : Span) (leftRow rightRow : Con) :
    Term :=
  .concat (Value.record ls lspan).term (Value.record rs rspan).term leftRow rightRow

/-- Inference finds the rows of both sides before it asks whether they are disjoint. -/
theorem inferExpr_sides (hls : (Value.record ls lspan).Distinct)
    (hrs : (Value.record rs rspan).Distinct) {fuel : Nat}
    (hleft : (Value.record ls lspan).height + 2 ≤ fuel + 4)
    (hright : (Value.record rs rspan).height + 2 ≤ fuel + 4) (span : Span) :
    ((inferExpr (fuel + 5) (concatExpr ls rs lspan rspan span)).run config).run checking =
      ((do
        requireDisjoint (fuel + 4) span (.mvar 1 []) (.mvar 2 [])
        pure (joinedTerm ls rs lspan rspan (.mvar 1 []) (.mvar 2 []), joinedType) :
          ElaborateM (Term × Con)).run config).run
        (joined none ls rs) := by
  rw [concatExpr, inferExpr]
  refine (run_bind_of_ok (inferExpr_value _ hls hleft) _).trans ?_
  refine (run_bind_of_ok (inferExpr_value _ hrs hright) _).trans ?_
  refine (run_bind_of_ok (a := .mvar 1 []) rfl _).trans ?_
  refine (run_bind_of_ok (t := joining none none none) (a := .mvar 2 []) rfl _).trans ?_
  refine (run_bind_of_ok (unify_left span fuel) _).trans ?_
  exact (run_bind_of_ok (unify_right span fuel _) _).trans rfl

/-- The check of the two rows finds a label that is in both, if there is one. -/
theorem checkDisjoint_sides (globals : Globals) (facts : List Fact) (fuel : Nat)
    (type : Option Con) :
    ((labels ls).Disjoint (labels rs) →
      (Row.checkDisjoint globals (fuel + 2) (.mvar 1 []) (.mvar 2 []) facts).run
        (joined type ls rs).store = some (.ok .definite, (joined type ls rs).store)) ∧
    (¬ (labels ls).Disjoint (labels rs) → ∃ x ∈ labels ls, x ∈ labels rs ∧
      (Row.checkDisjoint globals (fuel + 2) (.mvar 1 []) (.mvar 2 []) facts).run
        (joined type ls rs).store =
          some (.error ⟨.label x, .mvar 1 [], .mvar 2 []⟩, (joined type ls rs).store)) := by
  have hleft : (joined type ls rs).store.solution? 1 = some (valueRow ls) := rfl
  have hright : (joined type ls rs).store.solution? 2 = some (valueRow rs) := rfl
  have hdecided := Row.checkDisjoint_of_allKnown facts (valuePieces_allKnown ls)
    (valuePieces_allKnown rs) (summarize_valueRow globals hleft fuel)
    (summarize_valueRow globals hright fuel)
  rw [disjoint_knownLabels] at hdecided
  refine ⟨hdecided.1, fun hshared => ?_⟩
  obtain ⟨x, ⟨hl, hr⟩, hcheck⟩ := hdecided.2 hshared
  exact ⟨x, mem_knownLabels.mp hl, mem_knownLabels.mp hr, hcheck⟩

/-- The type of the declaration is solved by the type of the concatenation. -/
theorem unify_joinedType (span : Span) (fuel : Nat) {left right : Con} (hleft : left.Complete)
    (hright : right.Complete) :
    ((unify (fuel + 3) span (.mvar 0 []) joinedType).run config).run
      (joining none (some left) (some right)) =
        some (.ok (), joining (some (.record (.concat left right))) (some left) (some right)) := by
  let before := joining none (some left) (some right)
  let after := joining (some (.record (.concat left right))) (some left) (some right)
  have hassign : (Store.assign 0 (.record (.concat left right))).run.run before.store =
      (.ok (), { after.store with solved := #[0] }) := rfl
  have hzonk (n : Nat) : Store.zonk (n + 2) joinedType before.store =
      some (.record (.concat left right), before.store) :=
    Store.zonk_record rfl _ (Store.zonk_concat rfl _ (Store.zonk_solved rfl hleft n)
      (Store.zonk_solved rfl hright n))
  exact unify_run (s := before) Queue.quiet_empty
    (unify_unsolved rfl (headNormal_record _ _ _) nofun nofun hzonk (.record (.concat hleft hright))
      rfl rfl hassign) span

/-- An unknown type asks for nothing, so the concatenation is inferred. -/
theorem checkExpr_concat (span : Span) (fuel : Nat) :
    ((checkExpr (fuel + 7) (concatExpr ls rs lspan rspan span) (.mvar 0 [])).run config).run
        checking =
      ((do
        let (term, found) ← inferExpr (fuel + 5) (concatExpr ls rs lspan rspan span)
        unify (fuel + 5) span (.mvar 0 []) found
        pure term : ElaborateM Term).run config).run checking := by
  have hhead : ((head (fuel + 6) (.mvar 0 [])).run config).run checking =
      some (.ok (.mvar 0 []), checking) := by
    refine (run_bind_of_ok (a := Globals.empty) rfl _).trans ?_
    exact onStore_run (headNormal_unsolved _ rfl _)
  rw [checkExpr]
  refine (run_bind_of_ok hhead _).trans ?_
  change ((checkForm (fuel + 6) _ _ _).run config).run checking = _
  rw [checkForm]
  rfl

/-- The session after the declaration. -/
def declared (name : String) (span : Span) (type : Con) (s : Session) : Session :=
  { s with
    globals := (s.globals.addDefinition ⟨name, s.path ++ [name], .val type, span⟩).2
    scope := s.scope.bind name .val (.definition s.globals.definitions.size) }

/-- The type of a concatenation of records of values. -/
def concatType (ls rs : Fields) : Con :=
  .record (.concat (valueRow ls) (valueRow rs))

theorem concatType_complete : (concatType ls rs).Complete :=
  .record (.concat (valueRow_complete ls) (valueRow_complete rs))

theorem finishGroup_joined (ls rs : Fields) (lspan rspan : Span) (fuel : Nat)
    (span : Span) :
    ((finishGroup (fuel + 7) [⟨none, .mvar 0 [],
      joinedTerm ls rs lspan rspan (.mvar 1 []) (.mvar 2 []), span⟩]).run config).run
        (joined (some (concatType ls rs)) ls rs) =
      some (.ok [⟨none, concatType ls rs,
        joinedTerm ls rs lspan rspan (valueRow ls) (valueRow rs), span⟩],
        joined (some (concatType ls rs)) ls rs) := by
  refine finishGroup_known (joining_idle _ _ _) span
    (Store.zonk_solved rfl concatType_complete _) concatType_complete ?_
  rw [joinedTerm, finishTerm]
  refine (run_state_bind_of_ok (Value.final _ rfl _ _) _).trans ?_
  refine (run_state_bind_of_ok (Value.final _ rfl _ _) _).trans ?_
  refine (run_state_bind_of_ok (finishCon_complete rfl
    (Store.zonk_solved rfl (valueRow_complete ls) _) (valueRow_complete ls) _) _).trans ?_
  exact (run_state_bind_of_ok (finishCon_complete rfl
    (Store.zonk_solved rfl (valueRow_complete rs) _) (valueRow_complete rs) _) _).trans rfl

variable (hls : (Value.record ls lspan).Distinct) (hrs : (Value.record rs rspan).Distinct)
  (fuel : Nat) (hleft : (Value.record ls lspan).height ≤ fuel + 2)
  (hright : (Value.record rs rspan).height ≤ fuel + 2)

include hls hrs hleft hright

theorem declareVal_concat
    (h : (labels ls).Disjoint (labels rs)) (config : Config)
    (name : String) (span declSpan : Span) :
    ((declareVal (fuel + 7) declSpan name none (concatExpr ls rs lspan rspan span)).run config).run
      Session.empty =
        some (.ok (.val 0 (concatType ls rs)
          (joinedTerm ls rs lspan rspan (valueRow ls) (valueRow rs))),
          declared name declSpan (concatType ls rs)
            (joined (some (concatType ls rs)) ls rs)) := by
  refine (run_bind_of_ok (a := ()) rfl _).trans ?_
  refine (run_bind_of_ok (t := checking) (a := .mvar 0 []) rfl _).trans ?_
  have hinfer : ((inferExpr (fuel + 5) (concatExpr ls rs lspan rspan span)).run config).run
      checking = some (.ok (joinedTerm ls rs lspan rspan (.mvar 1 []) (.mvar 2 []), joinedType),
        joined none ls rs) := by
    refine (inferExpr_sides hls hrs (by omega) (by omega) span).trans ?_
    exact (run_bind_of_ok (requireDisjoint_run (joining_idle _ _ _)
      ((checkDisjoint_sides _ _ _ _).1 h) span) _).trans rfl
  have hcheck : ((checkExpr (fuel + 7) (concatExpr ls rs lspan rspan span) (.mvar 0 [])).run
      config).run checking =
        some (.ok (joinedTerm ls rs lspan rspan (.mvar 1 []) (.mvar 2 [])),
          joined (some (concatType ls rs)) ls rs) := by
    refine (checkExpr_concat span fuel).trans ?_
    refine (run_bind_of_ok hinfer _).trans ?_
    exact (run_bind_of_ok (unify_joinedType span _ (valueRow_complete ls) (valueRow_complete rs))
      _).trans rfl
  refine (run_bind_of_ok hcheck _).trans ?_
  refine (run_bind_of_ok (finishGroup_joined ls rs lspan rspan fuel declSpan) _).trans ?_
  refine (run_bind_of_ok (a := 0) rfl _).trans ?_
  refine (run_bind_of_ok (a := ()) rfl _).trans ?_
  refine (run_bind_of_ok (registerValue_record _ _ _) _).trans rfl

theorem declareVal_overlap
    (h : ¬ (labels ls).Disjoint (labels rs)) (config : Config)
    (name : String) (span declSpan : Span) :
    ∃ x ∈ labels ls, x ∈ labels rs ∧
      ((declareVal (fuel + 7) declSpan name none (concatExpr ls rs lspan rspan span)).run
        config).run Session.empty =
          some (.error ⟨span, .fieldOverlap (.label x) (.mvar 1 []) (.mvar 2 [])⟩,
            joined none ls rs) := by
  obtain ⟨x, hl, hr, hcheck⟩ := (checkDisjoint_sides Globals.empty [] (fuel + 2) none).2 h
  refine ⟨x, hl, hr, ?_⟩
  refine (run_bind_of_ok (a := ()) rfl _).trans ?_
  refine (run_bind_of_ok (t := checking) (a := .mvar 0 []) rfl _).trans ?_
  refine run_bind_of_error ?_ _
  refine (checkExpr_concat span fuel).trans ?_
  refine run_bind_of_error ?_ _
  refine (inferExpr_sides hls hrs (by omega) (by omega) span).trans ?_
  exact run_bind_of_error (requireDisjoint_overlap (s := joined none ls rs) hcheck span) _

end Elaborate

open Elaborate

/-! ## Programs of one value -/

variable {config : Config} {fuel : Nat} {name : String} {body : Surface.Expr} {span : Span}
  {s : Session}

theorem elaborate_val {declaration : Declaration}
    (h : ((declareVal fuel span name none body).run config).run Session.empty =
      some (.ok declaration, s)) :
    elaborate config (fuel + 2) [⟨.val name none body, span⟩] =
      some ⟨(exportDecl s Block.empty declaration).decls, s.errors, s.store, s.globals⟩ := by
  have hdecl : ((elaborateDecl (fuel + 1) ⟨.val name none body, span⟩).run config).run
      Session.empty = some (.ok declaration, s) := by
    rw [elaborateDecl]
    exact h
  have hadd : ((addDeclaration (fuel + 1) Block.empty ⟨.val name none body, span⟩).run config).run
      Session.empty = some (.ok (exportDecl s Block.empty declaration), s) := by
    refine (run_bind_of_ok (a := Session.empty) rfl _).trans ?_
    exact (run_bind_of_ok (run_outcome hdecl) _).trans rfl
  have hrun : ((elaborateDecls (fuel + 2) [⟨.val name none body, span⟩]).run config).run
      Session.empty = some (.ok (exportDecl s Block.empty declaration), s) := by
    rw [elaborateDecls_eq]
    exact (run_bind_of_ok hadd _).trans rfl
  rw [elaborate, hrun]

/-- A declaration that fails leaves its failure behind. -/
theorem elaborate_val_error {diagnostic : Diagnostic}
    (h : ((declareVal fuel span name none body).run config).run Session.empty =
      some (.error diagnostic, s)) : ∃ elaborated,
    elaborate config (fuel + 2) [⟨.val name none body, span⟩] = some elaborated ∧
      elaborated.errors = s.errors ++ [diagnostic] := by
  have hdecl : ((elaborateDecl (fuel + 1) ⟨.val name none body, span⟩).run config).run
      Session.empty = some (.error diagnostic, s) := by
    rw [elaborateDecl]
    exact h
  have hadd : ∃ block s', ((addDeclaration (fuel + 1) Block.empty
      ⟨.val name none body, span⟩).run config).run Session.empty = some (.ok block, s') ∧
        s'.errors = s.errors ++ [diagnostic] := by
    refine ⟨_, _, (run_bind_of_ok (a := Session.empty) rfl _).trans
      ((run_bind_of_ok (run_outcome hdecl) _).trans rfl), rfl⟩
  obtain ⟨block, s', hadd, herrors⟩ := hadd
  have hrun : ((elaborateDecls (fuel + 2) [⟨.val name none body, span⟩]).run config).run
      Session.empty = some (.ok block, s') := by
    rw [elaborateDecls_eq]
    exact (run_bind_of_ok hadd _).trans rfl
  refine ⟨⟨block.decls, s'.errors, s'.store, s'.globals⟩, ?_, herrors⟩
  rw [elaborate, hrun]

/-- The only definition is found by its name. -/
theorem valType?_declared (decls : List Declaration) (errors : List Diagnostic) (store : Store)
    (name : String) (type : Con) (span : Span) :
    Elaborated.valType? ⟨decls, errors, store, { Globals.empty with
      definitions := #[⟨name, [name], .val type, span⟩] }⟩ [name] = some type := by
  have hfind : Globals.findDefinition? { Globals.empty with
      definitions := #[⟨name, [name], .val type, span⟩] } [name] = some 0 := by
    simp [Globals.findDefinition?, List.range_succ]
  rw [Elaborated.valType?, hfind]
  rfl

/-- The declaration of `name` as the concatenation of two record literals. -/
def concatDecl (name : String) (ls rs : Fields) (lspan rspan span : Span)
    (declSpan : Span) : Surface.Decl :=
  ⟨.val name none (concatExpr ls rs lspan rspan span), declSpan⟩

/-- A declaration that concatenates two record literals without a common label has no error, and its
type is the record with the fields of both, each with the type of its value.  If the two have a
common label, the only error is at the concatenation and names such a label. -/
theorem elaborate_concat (config : Config) (name : String) {ls rs : Fields}
    {lspan rspan : Span} (span declSpan : Span) (hls : (Value.record ls lspan).Distinct)
    (hrs : (Value.record rs rspan).Distinct) (fuel : Nat)
    (hleft : (Value.record ls lspan).height + 8 ≤ fuel)
    (hright : (Value.record rs rspan).height + 8 ≤ fuel) : ∃ elaborated : Elaborated,
    elaborate config fuel [concatDecl name ls rs lspan rspan span declSpan] = some elaborated ∧
    ((labels ls).Disjoint (labels rs) → elaborated.errors = [] ∧
      ∃ row, elaborated.valType? [name] = some (.record row) ∧
        headNormal elaborated.globals fuel row elaborated.store =
          some (.row .type (rowFields ls ++ rowFields rs), elaborated.store)) ∧
    (¬ (labels ls).Disjoint (labels rs) → ∃ x ∈ labels ls, x ∈ labels rs ∧
      ∃ left right cause, cause = .fieldOverlap (.label x) left right ∧ cause.code = "E2004" ∧
        elaborated.errors = [⟨span, cause⟩]) := by
  have hpositive := height_record ls lspan
  obtain ⟨n, rfl⟩ := Nat.exists_eq_add_of_le' (by omega : 9 ≤ fuel)
  by_cases h : (labels ls).Disjoint (labels rs)
  · have hrun := declareVal_concat hls hrs n (by omega) (by omega) h config name span declSpan
    refine ⟨_, elaborate_val hrun,
      fun _ => ⟨rfl, .concat (valueRow ls) (valueRow rs), ?_, ?_⟩, absurd h⟩
    · exact valType?_declared _ _ _ name (concatType ls rs) declSpan
    · refine (headNormal_concat (headNormal_row _ _ _ _ _) (headNormal_row _ _ _ _ _)).trans ?_
      rw [concatHeads_row]
  · obtain ⟨x, hl, hr, hrun⟩ :=
      declareVal_overlap hls hrs n (by omega) (by omega) h config name span declSpan
    obtain ⟨elaborated, helaborate, herrors⟩ := elaborate_val_error hrun
    exact ⟨elaborated, helaborate, fun hdisjoint => absurd hdisjoint h, fun _ =>
      ⟨x, hl, hr, _, _, _, rfl, rfl, herrors⟩⟩

/-- `{a = 1, b = {c = "x"}}` -/
def nestedFields : Fields :=
  [(⟨"a", default⟩, .lit (.int 1) default),
    (⟨"b", default⟩, .record [(⟨"c", default⟩, .lit (.string "x") default)] default)]

/-- `{x = v}` -/
def singleField (x : String) (v : Value) : Fields := [(⟨x, default⟩, v)]

theorem distinct_nestedFields : (Value.record nestedFields default).Distinct := by
  simp [nestedFields, distinct_record, distinct_lit]

theorem distinct_singleField (x : String) (value : Literal) :
    (Value.record (singleField x (.lit value default)) default).Distinct := by
  simp [singleField, distinct_record, distinct_lit]

/-- `{a = 1, b = {c = "x"}} ++ {d = true}` has three fields, and in
`{a = 1, b = {c = "x"}} ++ {b = true}` the label `b` is in both. -/
theorem elaborate_concat_nested :
    (∃ elaborated row, elaborate Config.default 10 [concatDecl "joined" nestedFields
        (singleField "d" (.lit (.bool true) default)) default default default default] =
          some elaborated ∧
      elaborated.errors = [] ∧ elaborated.valType? ["joined"] = some (.record row) ∧
      headNormal elaborated.globals 10 row elaborated.store = some (.row .type
        [(.label "a", .int), (.label "b", .record (.row .type [(.label "c", .string)])),
          (.label "d", .bool)], elaborated.store)) ∧
    ∃ elaborated left right, elaborate Config.default 10 [concatDecl "joined" nestedFields
        (singleField "b" (.lit (.bool true) default)) default default default default] =
          some elaborated ∧
      elaborated.errors = [⟨default, .fieldOverlap (.label "b") left right⟩] := by
  constructor
  · obtain ⟨elaborated, hrun, hdisjoint, -⟩ := elaborate_concat Config.default "joined" default
      default distinct_nestedFields (distinct_singleField "d" (.bool true)) 10 (by decide)
      (by decide)
    have hlabels : (labels nestedFields).Disjoint
        (labels (singleField "d" (.lit (.bool true) default))) := by
      simp [labels, nestedFields, singleField]
    obtain ⟨herrors, row, htype, hhead⟩ := hdisjoint hlabels
    exact ⟨elaborated, row, hrun, herrors, htype, hhead⟩
  · obtain ⟨elaborated, hrun, -, hshared⟩ := elaborate_concat Config.default "joined" default
      default distinct_nestedFields (distinct_singleField "b" (.bool true)) 10 (by decide)
      (by decide)
    have hlabels : ¬ (labels nestedFields).Disjoint
        (labels (singleField "b" (.lit (.bool true) default))) := by
      simp [labels, nestedFields, singleField]
    obtain ⟨x, hl, hr, left, right, _, rfl, -, herrors⟩ := hshared hlabels
    obtain rfl : x = "b" := List.mem_singleton.mp hr
    exact ⟨elaborated, left, right, hrun, herrors⟩

end RowML
