import RowML.Elaboration.Signature
import RowML.Proofs.Elaboration.Idle
import RowML.Proofs.Module.Manifest
import RowML.Proofs.Unify.Soundness

/-!
# Elaboration of where clauses

A where clause on an abstract constructor gives it the definition and changes nothing else.  On a
constructor that has a definition it succeeds if the two definitions unify, and the signature stays
as it is.  The definition is unified as it stands, so the two are compared at one level only if the
constructor is at the root of the signature or the definition mentions no level.
-/

namespace RowML

namespace Elaborate

open Signature

variable {sig sig' : Signature} {span : Span} {path : List String} {item : String}
  {fuel : Nat} {con : Surface.Con} {found : SignatureItem} {kind : Kind} {existing : Option Con}
  {config : Config} {s s' : Session}

theorem nestedSignature_eq {inner : Signature} (h : sig.nestedAt? path = some inner) :
    nestedSignature span sig path = pure inner := by
  induction path generalizing sig with
  | nil =>
    cases h
    rfl
  | cons step rest ih =>
    obtain ⟨next, hnext, hrest⟩ := Option.bind_eq_some_iff.mp h
    simp only [nestedSignature, hnext]
    exact ih hrest

/-- The constructor of a where clause. -/
def whereDefinition (fuel : Nat) (span : Span) (con : Surface.Con) (kind : Kind) :
    ElaborateM Con := do
  beginGroup
  let con ← checkCon fuel con kind
  closeCon fuel span con

/-- What becomes of the signature when the constructor of the clause is known. -/
def whereAgain (fuel : Nat) (span : Span) (sig : Signature) (path : List String) (item : String)
    (existing : Option Con) (definition : Con) : ElaborateM Signature :=
  match existing with
  | some existing => do
    unify fuel span existing definition
    pure sig
  | none => pure (withManifest item definition path sig)

theorem whereCon_eq (hfound : sig.itemAt? path item .con = some found)
    (hkinded : found.kinded? = some (kind, existing)) :
    whereCon fuel span sig (path ++ [item]) con =
      whereDefinition fuel span con kind >>= whereAgain fuel span sig path item existing := by
  obtain ⟨target, htarget, hitem⟩ := Option.bind_eq_some_iff.mp hfound
  unfold whereCon
  simp only [List.getLast?_concat, List.dropLast_concat, nestedSignature_eq htarget, pure_bind]
  cases target with
  | functor | error => cases hitem
  | items entries =>
    simp only [hitem]
    cases found with
    | con x k d | «class» x k d =>
      cases hkinded
      simp only [whereDefinition, bind_assoc]
      rfl
    | _ => cases hkinded

theorem run_bind_ok_iff {α β : Type} {x : ElaborateM α} {f : α → ElaborateM β} {b : β} :
    ((x >>= f).run config).run s = some (.ok b, s') ↔
      ∃ a t, (x.run config).run s = some (.ok a, t) ∧
        ((f a).run config).run t = some (.ok b, s') :=
  ⟨run_bind_ok, fun ⟨_, _, hx, hf⟩ => (run_bind_of_ok hx f).trans hf⟩

/-- A where clause on an abstract constructor makes it equal to the constructor of the clause and
leaves every other item alone; on a constructor with a definition it succeeds exactly if the
definition unifies with that of the clause, and changes nothing. -/
theorem whereCon_manifests (hfound : sig.itemAt? path item .con = some found)
    (hkinded : found.kinded? = some (kind, existing)) :
    ((whereCon fuel span sig (path ++ [item]) con).run config).run s = some (.ok sig', s') ↔
      ∃ c t, ((whereDefinition fuel span con kind).run config).run s = some (.ok c, t) ∧
        (existing = none → s' = t ∧ sig' = withManifest item c path sig ∧
          sig.Manifests sig' path item c) ∧
        ∀ definition, existing = some definition → sig' = sig ∧
          ((unify fuel span definition c).run config).run t = some (.ok (), s') := by
  rw [whereCon_eq hfound hkinded, run_bind_ok_iff]
  refine exists_congr fun c => exists_congr fun t => and_congr_right fun _ => ?_
  cases existing with
  | none =>
    have hmanifests : sig.Manifests (withManifest item c path sig) path item c :=
      ⟨definitionThrough_withManifest hfound, fun h => itemAt?_withManifest_other c h sig⟩
    have hpure : ((whereAgain fuel span sig path item none c).run config).run t =
        some (.ok (withManifest item c path sig), t) := rfl
    rw [hpure]
    constructor
    · intro h
      cases h
      exact ⟨fun _ => ⟨rfl, rfl, hmanifests⟩, nofun⟩
    · rintro ⟨h, -⟩
      obtain ⟨rfl, rfl, -⟩ := h rfl
      rfl
  | some definition =>
    have hunify : ((whereAgain fuel span sig path item (some definition) c).run config).run t =
        some (.ok sig', s') ↔ sig' = sig ∧
          ((unify fuel span definition c).run config).run t = some (.ok (), s') := by
      rw [show whereAgain fuel span sig path item (some definition) c =
        (unify fuel span definition c >>= fun _ => pure sig) from rfl, run_bind_ok_iff]
      constructor
      · rintro ⟨⟨⟩, t', hrun, hpure⟩
        cases hpure
        exact ⟨rfl, hrun⟩
      · rintro ⟨rfl, hrun⟩
        exact ⟨(), s', hrun, rfl⟩
    rw [hunify]
    constructor
    · intro h
      exact ⟨nofun, fun _ heq => Option.some.inj heq ▸ h⟩
    · intro h
      exact h.2 definition rfl

/-- A signature with an abstract constructor inside a structure. -/
def nestedAbstract : Signature :=
  .items [.structure "B" (.items [.con "t" .type none])]

/-- The clause that makes this constructor equal to the one with that name. -/
def nestedClause (name : String) : ElaborateM Signature :=
  whereCon 10 default nestedAbstract (["B"] ++ ["t"]) ⟨.var name, default⟩

/-- Whether the clause succeeds, with a signature and a constructor that satisfy `p`. -/
def clauseLeadsTo (s : Session) (name : String) (p : Signature → Con → Bool) : Bool :=
  match ((nestedClause name).run default).run s,
    ((whereDefinition 10 default ⟨.var name, default⟩ .type).run default).run s with
  | some (.ok sig, _), some (.ok c, _) => p sig c
  | _, _ => false

theorem exists_of_clauseLeadsTo (name : String) {p : Signature → Con → Bool}
    (h : clauseLeadsTo s name p = true) :
    ∃ sig' s' c t, ((nestedClause name).run default).run s = some (.ok sig', s') ∧
      ((whereDefinition 10 default ⟨.var name, default⟩ .type).run default).run s =
        some (.ok c, t) ∧ p sig' c = true := by
  unfold clauseLeadsTo at h
  split at h
  · exact ⟨_, _, _, _, ‹_›, ‹_›, h⟩
  · cases h

theorem whereCon_manifests_nested :
    ∃ sig' s', ((nestedClause "int").run default).run Session.empty = some (.ok sig', s') ∧
      ∀ here outer, sig'.definitionThrough here outer ["B"] "t" = some (some .int) := by
  obtain ⟨sig', s', c, t, hrun, hc, hint⟩ := exists_of_clauseLeadsTo "int"
    (s := Session.empty) (p := fun _ c => c = .int) (by decide +kernel)
  obtain rfl : c = .int := by simpa using hint
  obtain ⟨c, t', hc', habstract, -⟩ := (whereCon_manifests rfl rfl).mp hrun
  cases hc.symm.trans hc'
  obtain ⟨-, -, hmanifests⟩ := habstract rfl
  exact ⟨sig', s', hrun, fun here outer => by
    rw [hmanifests.manifest (.inr rfl), Con.seenFrom_of_has rfl]⟩

/-- Inside the signature of a structure, below a signature with a constructor `u`. -/
def besideAbstract : Session :=
  { Session.empty with
    level := 2
    scope := Scope.empty.bind "u" .con (.signatureCon 1 [] .type) }

/-- A definition that is put further in is read a level further in than it was written: the
constructor becomes equal to an item of the structure that the clause is about, not of the one
around it. -/
theorem whereCon_misses_level :
    ∃ sig' s' c t, ((nestedClause "u").run default).run besideAbstract = some (.ok sig', s') ∧
      ((whereDefinition 10 default ⟨.var "u", default⟩ .type).run default).run besideAbstract =
        some (.ok c, t) ∧
      sig'.definitionThrough ⟨1, []⟩ [⟨0, []⟩] ["B"] "t" = some (some (.member 1 [] "u")) ∧
      c.seenFrom ⟨1, []⟩ [⟨0, []⟩] = .member 0 [] "u" := by
  obtain ⟨sig', s', c, t, hrun, hc, hread⟩ := exists_of_clauseLeadsTo "u" (s := besideAbstract)
    (p := fun sig' c =>
      sig'.definitionThrough ⟨1, []⟩ [⟨0, []⟩] ["B"] "t" = some (some (.member 1 [] "u")) ∧
        c.seenFrom ⟨1, []⟩ [⟨0, []⟩] = .member 0 [] "u")
    (by decide +kernel)
  exact ⟨sig', s', c, t, hrun, hc, by simpa using hread⟩

/-! ## A constructor that has a definition -/

theorem onStore_keepsQueue {α : Type} (x : FuelM α) {result : Except Diagnostic α}
    (h : ((onStore x).run config).run s = some (result, s')) : s'.queue = s.queue := by
  obtain ⟨_, -, hr⟩ := Option.map_eq_some_iff.mp h
  cases hr
  rfl

theorem force_quiet {residue : Pending}
    (h : ((force fuel).run config).run s = some (.ok residue, s')) : s'.queue.Quiet := by
  obtain ⟨_, _, -, h⟩ := run_bind_ok h
  obtain ⟨_, _, -, h⟩ := run_bind_ok h
  obtain ⟨_, t, -, h⟩ := run_bind_ok h
  cases h
  exact Queue.quiet_drain t.queue

/-- Closing a constructor leaves no obligation behind. -/
theorem closeCon_quiet {c c' : Con}
    (h : ((closeCon fuel span c).run config).run s = some (.ok c', s')) : s'.queue.Quiet := by
  obtain ⟨⟨⟩, t₁, hforce, h⟩ := run_bind_ok h
  obtain ⟨c₁, t₂, hzonk, h⟩ := run_bind_ok h
  obtain ⟨c₂, t₃, hkinds, h⟩ := run_bind_ok h
  obtain ⟨⟨⟩, t₄, hknown, h⟩ := run_bind_ok h
  cases h
  obtain ⟨residue, t, hresidue, hforce⟩ := run_bind_ok hforce
  have hforced : t₁.queue.Quiet := by
    cases residue with
    | nil =>
      cases hforce
      exact force_quiet hresidue
    | cons entry residue =>
      obtain ⟨_, _, -, h⟩ := run_bind_ok hforce
      cases h
  have hclosed : t₃.queue = t₂.queue := by
    obtain ⟨_, _, hread, hkinds⟩ := run_bind_ok hkinds
    cases hread
    split at hkinds
    · exact onStore_keepsQueue _ hkinds
    · cases hkinds
      rfl
  have hend : s'.queue = t₃.queue := by
    obtain ⟨vars, t, hvars, hknown⟩ := run_bind_ok hknown
    cases vars with
    | nil =>
      cases hknown
      exact onStore_keepsQueue _ hvars
    | cons => cases hknown
  rw [hend, hclosed, onStore_keepsQueue _ hzonk]
  exact hforced

theorem discharge_unify_error {a b : Con} {depth : Nat} {error : UnifyError}
    {postponed : List Postponed} {store : Store}
    (hunify : RowML.unify s.globals fuel depth a b s.store =
      some ((.error error, postponed), store)) :
    ((discharge fuel ⟨.unify a b, depth, span⟩).run config).run s =
      some (.error ⟨span, .ofUnifyError error⟩, { s with store }) := by
  refine (run_bind_of_ok (a := s.globals) rfl _).trans ?_
  exact (run_bind_of_ok (onStore_run hunify) _).trans rfl

theorem whereDefinition_quiet {c : Con}
    (h : ((whereDefinition fuel span con kind).run config).run s = some (.ok c, s')) :
    s'.queue.Quiet := by
  obtain ⟨_, _, -, h⟩ := run_bind_ok h
  obtain ⟨_, _, -, h⟩ := run_bind_ok h
  exact closeCon_quiet h

/-- With nothing in the queue, unifying at the current place is one unification, as long as that
postpones nothing. -/
theorem unify_answers {a b : Con} {answer : Except UnifyError Unit} {store : Store}
    {result : Except Diagnostic Unit} (hqueue : s.queue.Quiet)
    (hunify : RowML.unify s.globals fuel s.scope.depth.con a b s.store = some ((answer, []), store))
    (hrun : ((unify fuel span a b).run config).run s = some (result, s')) :
    result = answer.mapError fun error => ⟨span, .ofUnifyError error⟩ := by
  cases fuel with
  | zero => cases hunify
  | succ fuel =>
    cases answer with
    | ok =>
      cases (unify_run hqueue hunify span).symm.trans hrun
      rfl
    | error error =>
      have hfails : ((unify (fuel + 1) span a b).run config).run s =
          some (.error ⟨span, .ofUnifyError error⟩, { s with store }) :=
        (run_bind_of_ok (a := s.scope.depth.con) rfl _).trans
          (run_bind_of_error (discharge_unify_error hunify) _)
      cases hfails.symm.trans hrun
      rfl

/-- Unifying at the current place begins with one unification, and fails if that does. -/
theorem unify_begins {a b : Con} {result : Except Diagnostic Unit}
    (hrun : ((unify fuel span a b).run config).run s = some (result, s')) :
    ∃ answer postponed store, RowML.unify s.globals fuel s.scope.depth.con a b s.store =
      some ((answer, postponed), store) ∧ (result = .ok () → answer = .ok ()) := by
  obtain ⟨⟨first, t⟩, hdischarge, -⟩ := Option.bind_eq_some_iff.mp
    (show Option.bind
      (((discharge fuel ⟨.unify a b, s.scope.depth.con, span⟩).run config).run s) _ =
      _ from hrun)
  obtain ⟨_, hmap, -⟩ := Option.bind_eq_some_iff.mp
    (show Option.bind (Option.map _ (RowML.unify s.globals fuel s.scope.depth.con a b s.store)) _ =
      _ from hdischarge)
  obtain ⟨⟨⟨answer, postponed⟩, store⟩, hunify, -⟩ := Option.map_eq_some_iff.mp hmap
  refine ⟨answer, postponed, store, hunify, ?_⟩
  rintro rfl
  cases answer with
  | ok => rfl
  | error error =>
    obtain ⟨_, _, hdepth, hrun⟩ := run_bind_ok hrun
    cases hdepth
    obtain ⟨_, _, hok, -⟩ := run_bind_ok hrun
    cases (discharge_unify_error hunify).symm.trans hok

/-- A where clause on a constructor that has a definition leaves the signature as it is.  If it
succeeds and nothing is postponed, the definition is convertible to the constructor of the clause;
first-order constructors that can mean the same are always accepted.  The definition reads as it
stands if it is at the root of the signature or mentions no level. -/
theorem whereCon_agrees {layout : Layout} {definition c : Con} {t : Session} {Γ : List Kind}
    {g : Kind} {result : Except Diagnostic Signature}
    (hfound : sig.itemAt? path item .con = some found)
    (hkinded : found.kinded? = some (kind, some definition))
    (hclause : ((whereDefinition fuel span con kind).run config).run s = some (.ok c, t))
    (hrun : ((whereCon fuel span sig (path ++ [item]) con).run config).run s =
      some (result, s')) :
    ∃ answer postponed store,
      RowML.unify t.globals fuel t.scope.depth.con definition c t.store =
        some ((answer, postponed), store) ∧
      (∀ sig', result = .ok sig' → sig' = sig ∧ answer = .ok ()) ∧
      (t.store.WellFormed layout → t.globals.Sound layout t.store →
        definition.Sound layout t.store →
        c.Sound layout t.store → store.kinds.Closed → answer = .ok () → postponed = [] →
        Convertible t.globals store definition c) ∧
      (t.store.FirstOrder → definition.FirstOrder t.store Γ g → c.FirstOrder t.store Γ g →
        (∃ θ, t.store.SolvedBy θ ∧ definition.Agree θ c) → result = .ok sig) ∧
      (path = [] ∨ definition.has .relative = false → ∀ here outer,
        sig.definitionThrough here outer path item =
          some (some (definition.seenFrom here outer))) := by
  rw [whereCon_eq hfound hkinded, run_bind_of_ok hclause] at hrun
  obtain ⟨⟨unified, u⟩, hunified, hrest⟩ := Option.bind_eq_some_iff.mp
    (show Option.bind (((unify fuel span definition c).run config).run t) _ = _ from hrun)
  obtain ⟨answer, postponed, store, hunify, hok⟩ := unify_begins hunified
  have hdefined : found.definition? = some (some definition) := by
    rw [SignatureItem.definition?, hkinded, Option.map_some]
  refine ⟨answer, postponed, store, hunify, fun sig' hsig => ?_,
    fun ok hg hdefinition hc hclosed => ?_, fun ok hdefinition hc hagree => ?_,
    fun hpath here outer => definitionThrough_of_defined hfound hdefined hpath here outer⟩
  · subst hsig
    cases unified with
    | ok =>
      cases hrest
      exact ⟨rfl, hok rfl⟩
    | error => cases hrest
  · intro hanswer hpostponed
    exact (unify_convertible ok hg hdefinition hc hunify hclosed).1 hanswer hpostponed
  · obtain ⟨rfl, hsucceeds, -⟩ := unify_principal ok hdefinition hc hunify
    have hunified := unify_answers (whereDefinition_quiet hclause) hunify hunified
    rw [hsucceeds hagree] at hunified
    subst hunified
    cases hrest
    rfl

end Elaborate

end RowML
