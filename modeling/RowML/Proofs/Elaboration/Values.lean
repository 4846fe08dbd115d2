import RowML.Elaboration.Finish
import RowML.Proofs.Elaboration.Expression
import RowML.Proofs.Unify.Assigning

/-!
# Literals and records of them

A value is a literal or a record of values.  If no record in it has a label twice, inference gives
it a type of which everything is known, and leaves the session as it is.
-/

namespace RowML

/-- A literal, or a record of such values. -/
inductive Value where
  | lit (value : Literal) (span : Span)
  | record (fields : List (Located String × Value)) (span : Span)

namespace Value

/-- What is written in the braces of a record. -/
abbrev Fields := List (Located String × Value)

variable {α : Type}

mutual
/-- The value with `lit` and `record` for its forms. -/
def fold (lit : Literal → Span → α) (record : List (Located String × α) → Span → α) : Value → α
  | .lit value span => lit value span
  | .record fields span => record (foldFields lit record fields) span
def foldFields (lit : Literal → Span → α) (record : List (Located String × α) → Span → α) :
    Fields → List (Located String × α)
  | [] => []
  | (label, value) :: fields => (label, value.fold lit record) :: foldFields lit record fields
end

theorem foldFields_eq (lit : Literal → Span → α) (record : List (Located String × α) → Span → α)
    (fields : Fields) :
    foldFields lit record fields = fields.map fun field => (field.1, field.2.fold lit record) := by
  induction fields with
  | nil => rfl
  | cons field fields ih => rw [foldFields, ih, List.map_cons]

/-- What holds of literals, and of records of values that it holds of, holds of every value. -/
theorem induct {P : Value → Prop} (lit : ∀ value span, P (.lit value span))
    (record : ∀ fields span, (∀ field ∈ fields, P field.2) → P (.record fields span)) (v : Value) :
    P v := by
  refine @Value.rec P (fun fields => ∀ field ∈ fields, P field.2) (fun field => P field.2) lit
    record nofun ?_ (fun _ _ h => h) v
  intro field fields hfield hfields
  exact List.forall_mem_cons.mpr ⟨hfield, hfields⟩

/-- The expression that is written for a value. -/
def expr : Value → Surface.Expr :=
  fold (fun value span => ⟨.lit value, span⟩) fun fields span =>
    ⟨.record (fields.map fun (label, value) => (⟨.label label.node, label.span⟩, value)), span⟩

def term : Value → Term :=
  fold (fun value _ => .lit value) fun fields _ =>
    .record (fields.map fun (label, value) => (.label label.node, value))

def type : Value → Con :=
  fold (fun value _ => value.type) fun fields _ =>
    .record (.row .type (fields.map fun (label, type) => (.label label.node, type)))

/-- The number of records around each other. -/
def height : Value → Nat :=
  fold (fun _ _ => 0) fun fields _ => (fields.map (·.2)).foldr max 0 + 1

/-- No record has a label twice. -/
def Distinct : Value → Prop :=
  fold (fun _ _ => True) fun fields _ =>
    (fields.map (·.1.node)).Nodup ∧ ∀ field ∈ fields, field.2

variable {fields : Fields} {span : Span}

/-- The fields of the type of a record. -/
def rowFields (fields : Fields) : List (Con × Con) :=
  fields.map fun (label, value) => (.label label.node, value.type)

theorem expr_record : (record fields span).expr =
    ⟨.record (fields.map fun (label, value) => (⟨.label label.node, label.span⟩, value.expr)),
      span⟩ := by
  simp [expr, fold, foldFields_eq]

theorem term_record : (record fields span).term =
    .record (fields.map fun (label, value) => (.label label.node, value.term)) := by
  simp [term, fold, foldFields_eq]

theorem type_record : (record fields span).type = .record (.row .type (rowFields fields)) := by
  simp [type, fold, foldFields_eq, rowFields]

theorem height_record (fields : Fields) (span : Span) : (record fields span).height =
    (fields.map fun field => field.2.height).foldr max 0 + 1 := by
  simp [height, fold, foldFields_eq, Function.comp_def]

theorem height_lt {field : Located String × Value} (h : field ∈ fields) (span : Span) :
    field.2.height < (record fields span).height := by
  rw [height_record]
  refine Nat.lt_succ_of_le ?_
  induction fields with
  | nil => cases h
  | cons first fields ih =>
    rw [List.map_cons, List.foldr_cons]
    rcases List.mem_cons.mp h with rfl | h
    · exact Nat.le_max_left _ _
    · exact (ih h).trans (Nat.le_max_right _ _)

theorem distinct_record : (record fields span).Distinct ↔
    (fields.map (·.1.node)).Nodup ∧ ∀ field ∈ fields, field.2.Distinct := by
  change ((foldFields _ _ fields).map (·.1.node)).Nodup ∧
    (∀ field ∈ foldFields _ _ fields, field.2) ↔ _
  rw [foldFields_eq, List.map_map, List.forall_mem_map]
  rfl

theorem distinct_lit (value : Literal) (span : Span) : (lit value span).Distinct := trivial

theorem type_complete (v : Value) : v.type.Complete := by
  induction v using induct with
  | lit value span => cases value <;> exact .prim _
  | record fields span ih =>
    rw [type_record]
    refine .record (.row fun field hfield => ?_)
    obtain ⟨source, hsource, rfl⟩ := List.mem_map.mp hfield
    exact ⟨.label _, ih source hsource⟩

end Value

namespace Elaborate

variable {config : Config} {s : Session}

/-- A loop of which no step changes anything. -/
theorem run_mapM_still {α β : Type} {f : α → ElaborateM β} {g : α → β} {as : List α}
    (h : ∀ a ∈ as, ((f a).run config).run s = some (.ok (g a), s)) :
    ((as.mapM f).run config).run s = some (.ok (as.map g), s) := by
  induction as with
  | nil => rfl
  | cons a as ih =>
    rw [List.forall_mem_cons] at h
    rw [List.mapM_cons, run_bind_of_ok h.1, run_bind_of_ok (ih h.2)]
    rfl

theorem run_forM_still {α : Type} {f : α → ElaborateM Unit} {as : List α}
    (h : ∀ a ∈ as, ((f a).run config).run s = some (.ok (), s)) :
    ((as.forM f).run config).run s = some (.ok (), s) := by
  induction as with
  | nil => rfl
  | cons a as ih =>
    rw [List.forall_mem_cons] at h
    exact (run_bind_of_ok h.1 _).trans (ih h.2)

theorem onStore_run {α : Type} {x : FuelM α} {a : α} {store : Store}
    (h : x s.store = some (a, store)) :
    ((onStore x).run config).run s = some (.ok a, { s with store }) := by
  change Option.map _ (x s.store) = _
  rw [h]
  rfl

/-- A constant label is a name. -/
theorem checkCon_label (label : Located String) (fuel : Nat) :
    ((checkCon (fuel + 2) ⟨.label label.node, label.span⟩ .name).run config).run s =
      some (.ok (.label label.node), s) := by
  have hinfer : ((inferCon (fuel + 1) ⟨.label label.node, label.span⟩).run config).run s =
      some (.ok (.label label.node, .name), s) := by
    rw [inferCon]
    rfl
  have hkinds : ((unifyKinds (fuel + 1) label.span (some (.label label.node)) .name .name).run
      config).run s = some (.ok (), s) :=
    (run_bind_of_ok (onStore_run (unify_same_kind s.store .name fuel)) _).trans rfl
  rw [checkCon]
  exact (run_bind_of_ok hinfer _).trans ((run_bind_of_ok hkinds _).trans rfl)

theorem checkFieldsApart_labels {fields : Value.Fields}
    (h : (fields.map (·.1.node)).Nodup) (fuel : Nat) (span : Span) :
    ((checkFieldsApart fuel span .type (Value.rowFields fields)).run config).run s =
      some (.ok (), s) := by
  induction fields with
  | nil => rfl
  | cons field fields ih =>
    rw [List.map_cons, List.nodup_cons] at h
    obtain ⟨hnew, hnodup⟩ := h
    refine (run_bind_of_ok (run_forM_still fun other hother => ?_) _).trans (ih hnodup)
    obtain ⟨source, hsource, rfl⟩ := List.mem_map.mp hother
    have hne : Con.label field.1.node ≠ .label source.1.node := by
      intro hname
      exact hnew (List.mem_map.mpr ⟨source, hsource, (Con.label.inj hname).symm⟩)
    exact congrArg (fun x : ElaborateM Unit => (x.run config).run s) (if_neg hne)

/-- Inference gives a value its type. -/
theorem inferExpr_value (v : Value) (hv : v.Distinct) {fuel : Nat} (hfuel : v.height + 2 ≤ fuel) :
    ((inferExpr fuel v.expr).run config).run s = some (.ok (v.term, v.type), s) := by
  induction v using Value.induct generalizing fuel with
  | lit value span =>
    obtain ⟨n, rfl⟩ := Nat.exists_eq_add_of_le' (by omega : 1 ≤ fuel)
    change ((inferExpr (n + 1) ⟨.lit value, span⟩).run config).run s = _
    rw [inferExpr]
    rfl
  | record fields span ih =>
    obtain ⟨hnodup, hfields⟩ := Value.distinct_record.mp hv
    have hpositive := Value.height_record fields span
    obtain ⟨n, rfl⟩ := Nat.exists_eq_add_of_le' (by omega : 3 ≤ fuel)
    rw [Value.expr_record, Value.term_record, Value.type_record, inferExpr]
    simp only [List.mapM_map]
    refine (run_bind_of_ok (run_mapM_still (g := fun field =>
      (Con.label field.1.node, field.2.term, field.2.type)) fun field hfield => ?_) _).trans ?_
    · refine (run_bind_of_ok (checkCon_label field.1 n) _).trans ?_
      have hheight := Value.height_lt hfield span
      refine (run_bind_of_ok (ih field hfield (hfields field hfield) (by omega)) _).trans ?_
      rfl
    · simp only [List.map_map]
      refine (run_bind_of_ok (checkFieldsApart_labels hnodup _ _) _).trans ?_
      rfl

/-! ## Finishing -/

section Finishing

variable {τ α β : Type} {t t' : τ} {s' : Session}

theorem run_state_bind_of_ok {x : StateT τ ElaborateM α} {a : α}
    (h : ((x.run t).run config).run s = some (.ok (a, t'), s'))
    (f : α → StateT τ ElaborateM β) :
    (((x >>= f).run t).run config).run s = (((f a).run t').run config).run s' :=
  (run_bind_of_ok h _).trans rfl

theorem run_state_lift {x : ElaborateM α} {a : α}
    (h : (x.run config).run s = some (.ok a, s')) :
    (((liftM x : StateT τ ElaborateM α).run t).run config).run s = some (.ok (a, t), s') :=
  (run_bind_of_ok h _).trans rfl

theorem closeKindsIn_complete {c : Con} (h : c.Complete) (fuel : Nat) :
    ((closeKindsIn fuel c).run config).run s = some (.ok c, s) := by
  refine (run_bind_of_ok (a := config) rfl _).trans ?_
  rw [h.kindMVar, Bool.and_false]
  rfl

/-- Nothing is waited for in a complete constructor. -/
theorem unsolvedMVars_complete {c : Con} (h : c.Complete) (store : Store) (fuel : Nat) :
    Store.unsolvedMVars (fuel + 1) c store = some ([], store) := by
  refine (bind_of_run (Store.zonk_complete h fuel) _).trans ?_
  rw [h.mvars_eq]
  rfl

variable {generalization : Generalization} {recursive : List DefId} {fuel : Nat}
  {unfinished : Unfinished}

/-- Without quantifiers, what reads as a complete constructor becomes this constructor. -/
theorem finishCon_complete {c c' : Con} (hskolems : generalization.skolems = [])
    (hzonk : Store.zonk (fuel + 1) c s.store = some (c', s.store)) (h : c'.Complete)
    (depth : TermDepth) :
    (((finishCon ⟨fuel + 1, generalization, recursive⟩ depth c).run unfinished).run config).run s =
      some (.ok (c', unfinished), s) := by
  have hbind : generalization.bindIn depth.con c' = c' := by
    rw [Generalization.bindIn, hskolems]
    rfl
  refine (run_state_bind_of_ok (run_state_lift (onStore_run hzonk)) _).trans ?_
  rw [hbind]
  refine (run_state_bind_of_ok (run_state_lift (closeKindsIn_complete h _)) _).trans ?_
  refine (run_state_bind_of_ok
    (run_state_lift (onStore_run (unsolvedMVars_complete h _ fuel))) _).trans ?_
  change some (Except.ok (c', { unfinished with var := unfinished.var.or none }), s) = _
  rw [Option.or_none]

/-- A value whose term is final. -/
def Final (config : Config) (s : Session) (finishing : Finishing) (depth : TermDepth) (v : Value) :
    Prop :=
  ∀ unfinished, (((finishTerm finishing depth v.term).run unfinished).run config).run s =
    some (.ok (v.term, unfinished), s)

theorem finishFields_values {fields : Value.Fields} {depth : TermDepth}
    (hskolems : generalization.skolems = [])
    (h : ∀ field ∈ fields,
      Final config s ⟨fuel + 1, generalization, recursive⟩ depth field.2) :
    (((finishFields ⟨fuel + 1, generalization, recursive⟩ depth
      (fields.map fun (label, value) => (.label label.node, value.term))).run unfinished).run
        config).run s =
      some (.ok (fields.map fun (label, value) => (.label label.node, value.term), unfinished),
        s) := by
  induction fields with
  | nil => rfl
  | cons field fields ih =>
    rw [List.forall_mem_cons] at h
    rw [List.map_cons, finishFields]
    refine (run_state_bind_of_ok (finishCon_complete hskolems
      (Store.zonk_complete (.label field.1.node) fuel) (.label field.1.node) depth) _).trans ?_
    exact (run_state_bind_of_ok (h.1 _) _).trans ((run_state_bind_of_ok (ih h.2) _).trans rfl)

theorem Value.final (v : Value) (hskolems : generalization.skolems = []) (depth : TermDepth) :
    Final config s ⟨fuel + 1, generalization, recursive⟩ depth v := by
  intro unfinished
  induction v using Value.induct generalizing unfinished with
  | lit value span => rfl
  | record fields span ih =>
    rw [Value.term_record, finishTerm]
    exact (run_state_bind_of_ok (finishFields_values hskolems ih) _).trans rfl

end Finishing

end Elaborate

end RowML
