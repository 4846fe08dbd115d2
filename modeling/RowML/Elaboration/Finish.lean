import RowML.Elaboration.Generalize
import RowML.Term.Basic

/-!
# Finishing a group of declarations

When a group is complete, its obligations are decided, its types are generalised, and its terms get
their final form: constructors are zonked, skolems become variables, slots become dictionaries, and
the uses of members inside the group are applied to the new parameters.
-/

namespace RowML

/-- A member of a group; members that can be used inside the group have a definition already. -/
structure Member where
  definition : Option DefId
  type : Con
  body : Term
  span : Span
deriving Inhabited

namespace Elaborate

/-- What does not change while a term is finished. -/
structure Finishing where
  fuel : Nat
  generalization : Generalization
  /-- The members of the group. -/
  recursive : List DefId

/-- The first things found that have no final form. -/
structure Unfinished where
  var : Option MetaId
  slot : Option SlotId
deriving Inhabited

/-- Computations that finish a term. -/
abbrev FinishM := StateT Unfinished ElaborateM

/-- The numbers of binders between the top of a term and a place in it. -/
structure TermDepth where
  con : Nat
  val : Nat
deriving DecidableEq, Repr, Inhabited

namespace TermDepth

def zero : TermDepth := ⟨0, 0⟩

def underCon (depth : TermDepth) : TermDepth := { depth with con := depth.con + 1 }

def underVals (depth : TermDepth) (count : Nat) : TermDepth :=
  { depth with val := depth.val + count }

end TermDepth

def finishCon (finishing : Finishing) (depth : TermDepth) (c : Con) : FinishM Con := do
  let c ← zonk finishing.fuel c
  let c ← closeKindsIn finishing.fuel (finishing.generalization.bindIn depth.con c)
  let unknown ← onStore (Store.unsolvedMVars finishing.fuel c)
  modify fun unfinished => { unfinished with var := unfinished.var.or unknown.head? }
  pure c

def finishKind (finishing : Finishing) (kind : Kind) : FinishM Kind := closeKind finishing.fuel kind

mutual
def finishDict (finishing : Finishing) (depth : TermDepth) : Dict → FinishM Dict
  | .local index => pure (.local index)
  | .instance source kinds cons dicts => do
    let kinds ← kinds.mapM (finishKind finishing)
    let cons ← cons.mapM (finishCon finishing depth)
    let dicts ← finishDicts finishing depth dicts
    pure (.instance source kinds cons dicts)
  | .record fields => return .record (← finishDictFields finishing depth fields)
def finishDicts (finishing : Finishing) (depth : TermDepth) : List Dict → FinishM (List Dict)
  | [] => pure []
  | dict :: rest => do
    let dict ← finishDict finishing depth dict
    let rest ← finishDicts finishing depth rest
    pure (dict :: rest)
def finishDictFields (finishing : Finishing) (depth : TermDepth) :
    List (Con × Dict) → FinishM (List (Con × Dict))
  | [] => pure []
  | (name, dict) :: rest => do
    let name ← finishCon finishing depth name
    let dict ← finishDict finishing depth dict
    let rest ← finishDictFields finishing depth rest
    pure ((name, dict) :: rest)
end

mutual
def finishPattern (finishing : Finishing) (depth : TermDepth) : Pattern → FinishM Pattern
  | .wild => pure .wild
  | .lit value => pure (.lit value)
  | .var name type => return .var name (← finishCon finishing depth type)
  | .variant field payload => do
    let field ← finishCon finishing depth field
    let payload ← finishPattern finishing depth payload
    pure (.variant field payload)
  | .record fields rest => do
    let fields ← finishPatternFields finishing depth fields
    let rest ← rest.mapM (finishCon finishing depth)
    pure (.record fields rest)
def finishPatternFields (finishing : Finishing) (depth : TermDepth) :
    List (Con × Pattern) → FinishM (List (Con × Pattern))
  | [] => pure []
  | (name, pattern) :: rest => do
    let name ← finishCon finishing depth name
    let pattern ← finishPattern finishing depth pattern
    let rest ← finishPatternFields finishing depth rest
    pure ((name, pattern) :: rest)
end

/-- The use of a member inside the group, applied to the new parameters. -/
def recursiveUse (generalization : Generalization) (depth : TermDepth) (id : DefId) : Term :=
  let n := generalization.skolems.length
  let m := generalization.dicts.length
  let term := (List.range n).foldl
    (fun term j => .capp term (.bvar (depth.con + n - 1 - j))) (.global id)
  let term := generalization.facts.foldl (fun term _ => .disjointApp term) term
  (List.range m).foldl
    (fun term k => .app term (.dict (.local (depth.val + m - 1 - k)))) term

/-- The dictionary in a slot. -/
def finishSlot (finishing : Finishing) (depth : TermDepth) (slot : SlotId) : FinishM Term := do
  match (← getThe Session).queue.slotDict? slot with
  | some dict => return .dict (← finishDict finishing depth dict)
  | none =>
    modify fun unfinished => { unfinished with slot := unfinished.slot.or (some slot) }
    pure (.slot slot)

mutual
def finishTerm (finishing : Finishing) (depth : TermDepth) : Term → FinishM Term
  | .lit value => pure (.lit value)
  | .bvar index => pure (.bvar index)
  | .member module path item => pure (.member module path item)
  | .global id =>
    if finishing.recursive.contains id then
      pure (recursiveUse finishing.generalization depth id)
    else pure (.global id)
  | .app f argument => do
    let f ← finishTerm finishing depth f
    let argument ← finishTerm finishing depth argument
    pure (.app f argument)
  | .abs x type body => do
    let type ← finishCon finishing depth type
    let body ← finishTerm finishing (depth.underVals 1) body
    pure (.abs x type body)
  | .capp f argument => do
    let f ← finishTerm finishing depth f
    let argument ← finishCon finishing depth argument
    pure (.capp f argument)
  | .cabs x kind body => do
    let kind ← finishKind finishing kind
    let body ← finishTerm finishing depth.underCon body
    pure (.cabs x kind body)
  | .kapp f argument => do
    let f ← finishTerm finishing depth f
    let argument ← finishKind finishing argument
    pure (.kapp f argument)
  | .kabs x body => return .kabs x (← finishTerm finishing depth body)
  | .disjointAbs left right body => do
    let left ← finishCon finishing depth left
    let right ← finishCon finishing depth right
    let body ← finishTerm finishing depth body
    pure (.disjointAbs left right body)
  | .disjointApp f => return .disjointApp (← finishTerm finishing depth f)
  | .record fields => return .record (← finishFields finishing depth fields)
  | .field record name rest => do
    let record ← finishTerm finishing depth record
    let name ← finishCon finishing depth name
    let rest ← finishCon finishing depth rest
    pure (.field record name rest)
  | .concat left right leftRow rightRow => do
    let left ← finishTerm finishing depth left
    let right ← finishTerm finishing depth right
    let leftRow ← finishCon finishing depth leftRow
    let rightRow ← finishCon finishing depth rightRow
    pure (.concat left right leftRow rightRow)
  | .cut record field rest => do
    let record ← finishTerm finishing depth record
    let field ← finishCon finishing depth field
    let rest ← finishCon finishing depth rest
    pure (.cut record field rest)
  | .cutRow record row rest => do
    let record ← finishTerm finishing depth record
    let row ← finishCon finishing depth row
    let rest ← finishCon finishing depth rest
    pure (.cutRow record row rest)
  | .inject field value row => do
    let field ← finishCon finishing depth field
    let value ← finishTerm finishing depth value
    let row ← finishCon finishing depth row
    pure (.inject field value row)
  | .case scrutinee arms type => do
    let scrutinee ← finishTerm finishing depth scrutinee
    let arms ← finishArms finishing depth arms
    let type ← finishCon finishing depth type
    pure (.case scrutinee arms type)
  | .letVal x type value body => do
    let type ← finishCon finishing depth type
    let value ← finishTerm finishing depth value
    let body ← finishTerm finishing (depth.underVals 1) body
    pure (.letVal x type value body)
  | .letRec functions body => do
    let depth := depth.underVals functions.length
    let functions ← finishFunctions finishing depth functions
    let body ← finishTerm finishing depth body
    pure (.letRec functions body)
  | .ite condition yes no => do
    let condition ← finishTerm finishing depth condition
    let yes ← finishTerm finishing depth yes
    let no ← finishTerm finishing depth no
    pure (.ite condition yes no)
  | .dict dict => return .dict (← finishDict finishing depth dict)
  | .slot slot => finishSlot finishing depth slot
def finishFields (finishing : Finishing) (depth : TermDepth) :
    List (Con × Term) → FinishM (List (Con × Term))
  | [] => pure []
  | (name, value) :: rest => do
    let name ← finishCon finishing depth name
    let value ← finishTerm finishing depth value
    let rest ← finishFields finishing depth rest
    pure ((name, value) :: rest)
def finishArms (finishing : Finishing) (depth : TermDepth) :
    List (Pattern × Term) → FinishM (List (Pattern × Term))
  | [] => pure []
  | (pattern, body) :: rest => do
    let bound := pattern.boundCount
    let pattern ← finishPattern finishing depth pattern
    let body ← finishTerm finishing (depth.underVals bound) body
    let rest ← finishArms finishing depth rest
    pure ((pattern, body) :: rest)
def finishFunctions (finishing : Finishing) (depth : TermDepth) :
    List (String × Con × Term) → FinishM (List (String × Con × Term))
  | [] => pure []
  | (name, type, body) :: rest => do
    let type ← finishCon finishing depth type
    let body ← finishTerm finishing depth body
    let rest ← finishFunctions finishing depth rest
    pure ((name, type, body) :: rest)
end

/-! ## Members -/

/-- The final type of a member. -/
def finishType (finishing : Finishing) (span : Span) (type : Con) : ElaborateM Con := do
  let type ← zonk finishing.fuel type
  let type ← closeKindsIn finishing.fuel
    (finishing.generalization.bindType (← get).store type)
  requireKnown finishing.fuel span type
  pure type

/-- A body with its new parameters. -/
def bindBody (generalization : Generalization) (store : Store) (body : Term) : Term :=
  let body := generalization.dicts.foldr
    (fun type body => .abs dictName (generalization.bindIn 0 type) body) body
  let body := generalization.facts.foldr
    (fun fact body => .disjointAbs (generalization.bindIn 0 fact.left)
      (generalization.bindIn 0 fact.right) body) body
  generalization.skolems.foldr
    (fun id body => .cabs (store.skolem id).name (store.skolem id).kind body) body

/-- The final body of a member. -/
def finishBody (finishing : Finishing) (span : Span) (body : Term) : ElaborateM Term := do
  let (body, unfinished) ← (finishTerm finishing TermDepth.zero body).run ⟨none, none⟩
  match unfinished.var, unfinished.slot with
  | some var, _ => fail span (.ambiguousType var)
  | none, some slot =>
    let goal := ((← get).queue.slotGoal? slot).getD .error
    fail span (.noInstance (← zonk finishing.fuel goal))
  | none, none => return bindBody finishing.generalization (← get).store body

/-- Fails for the first equation among the obligations that are left. -/
def rejectEquations (fuel : Nat) (residue : List (Obligation × List MetaId)) : ElaborateM Unit :=
  residue.forM fun (obligation, blockers) =>
    match obligation.demand with
    | .unify _ _ => do fail obligation.span (← residualCause fuel obligation blockers)
    | _ => pure ()

/-- Puts the parameter that a lifted use refers to into its slot. -/
def fillLifted (count : Nat) (use : LiftedUse) : ElaborateM Unit :=
  modifyQueue (·.fillSlot use.slot (.local (use.valDepth + count - 1 - use.position)))

/-- Finishes a group of values. -/
def finishGroup (fuel : Nat) (members : List Member) : ElaborateM (List Member) := do
  let residue ← force fuel
  rejectEquations fuel residue
  let skolems ← if (← read).generalize then generalizeTypes fuel (members.map (·.type))
    else pure []
  let (_, generalization, lifted) ← (settleAll fuel (residue.map (·.1))).run
    ({ Generalization.empty with skolems }, [])
  lifted.forM (fillLifted generalization.dicts.length)
  let finishing : Finishing := ⟨fuel, generalization, members.filterMap (·.definition)⟩
  members.mapM fun member => do
    let type ← finishType finishing member.span member.type
    let body ← finishBody finishing member.span member.body
    pure { member with type, body }

end Elaborate

end RowML
