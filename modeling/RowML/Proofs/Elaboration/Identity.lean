import RowML.Proofs.Elaboration.Waking
import RowML.Proofs.Module.Identity
import RowML.Proofs.Normal.Model

/-!
# Modules that stand for structures share their items

A structure gets the module that stands for it once, and every later reference to the structure gets
the same module.  What the module shows is settled at that moment: outside functor bodies, and in
them for the parameter and what the body declares, its items are those of the structure.  Inside a
functor body another structure gets a module with abstract items of its own, and that module is
found ever after, outside the body too.
-/

namespace RowML

namespace Session

variable {s s' s'' : Session}

/-! ## Sessions in which structures are named -/

/-- A structure is named, or modules, structures and functor results stay what they are. -/
inductive IdentityStep : Session → Session → Prop
  | name {s s' : Session} (config : Config) (ref : ModuleRef) {id : ModuleId}
      (hrun : ((Elaborate.aliasOf ref).run config).run s = some (.ok id, s')) : IdentityStep s s'
  | other {s s' : Session} (h : s.KeepsIdentities s') : IdentityStep s s'

/-- Such steps lead from the first session to the second one. -/
def Develops : Session → Session → Prop := Relation.ReflTransGen IdentityStep

theorem KeepsIdentities.develops (h : s.KeepsIdentities s') : s.Develops s' := .single (.other h)

instance : AllowsSolving Develops where
  refl _ := .refl
  trans _ _ _ := .trans
  of_solving h := h.keepsIdentities.develops
  of_entering _ := .single (.other (.of_eq rfl rfl rfl))
  of_leaving h := h.tail (.other (.of_eq rfl rfl rfl))

instance : AllowsRevising Develops where
  of_naming _ _ _ _ := .single (.other (.of_eq rfl rfl rfl))
  of_extends _ _ _ _ h := h.develops
  of_alias ref h := by
    obtain ⟨config, result, hrun⟩ := h
    obtain ⟨id, rfl, -⟩ := Elaborate.aliasOf_cases hrun
    exact .single (.name config ref hrun)
  of_restart _ := .single (.other (.of_eq rfl rfl rfl))
  of_revision _ _ _ h := h.develops

/-- Naming a structure changes no other one. -/
theorem withAlias_keeps (s : Session) (ref : ModuleRef) (name : String) :
    s.globals.modules.toList <+: (s.withAlias ref name).globals.modules.toList ∧
      ∀ ref', (s.withAlias ref name).globals.canonical ref' = s.globals.canonical ref' :=
  ⟨(Globals.addModule_extends _ _).modules, Globals.canonical_addModule rfl⟩

theorem IdentityStep.keeps (h : IdentityStep s s') :
    s.globals.modules.toList <+: s'.globals.modules.toList ∧
      (∀ {key : ModuleId × ModuleId} {id : ModuleId},
        s.globals.applications.lookup key = some id →
        s'.globals.applications.lookup key = some id) ∧
      ∀ {ref : ModuleRef} {id : ModuleId}, s.aliases.lookup ref = some id →
        s'.aliases.lookup ref = some id := by
  cases h with
  | @name config ref id hrun =>
    obtain ⟨_, -, ⟨-, -, rfl⟩ | ⟨-, -, rfl⟩ | ⟨-, hnew, -, name, rfl⟩⟩ :=
      Elaborate.aliasOf_cases hrun
    · exact ⟨List.prefix_rfl, fun h => h, fun h => h⟩
    · exact ⟨List.prefix_rfl, fun h => h, fun h => h⟩
    · refine ⟨(s.withAlias_keeps _ _).1, fun h => h, fun {ref'} {id} h => ?_⟩
      have hne : ref' ≠ s.globals.canonical ref := by
        rintro rfl
        cases hnew.symm.trans h
      simpa [withAlias, List.lookup_cons, beq_eq_false_iff_ne.mpr hne] using h
  | other h => exact ⟨h.modules, h.applications, fun hknown => h.aliases ▸ hknown⟩

/-- What has been named keeps its name for good. -/
theorem Develops.keeps (h : s.Develops s') :
    s.globals.modules.toList <+: s'.globals.modules.toList ∧
      (∀ {key : ModuleId × ModuleId} {id : ModuleId},
        s.globals.applications.lookup key = some id →
        s'.globals.applications.lookup key = some id) ∧
      ∀ {ref : ModuleRef} {id : ModuleId}, s.aliases.lookup ref = some id →
        s'.aliases.lookup ref = some id := by
  induction h with
  | refl => exact ⟨List.prefix_rfl, fun h => h, fun h => h⟩
  | tail _ hstep ih =>
    obtain ⟨hmodules, happlications, haliases⟩ := hstep.keeps
    exact ⟨ih.1.trans hmodules, fun h => happlications (ih.2.1 h), fun h => haliases (ih.2.2 h)⟩

/-! ## Where a structure was named -/

/-- The structure `ref` was named in the session `start`, for the first time unless it is a whole
module, and `s` is a later session. -/
structure NamedIn (start : Session) (ref : ModuleRef) (id : ModuleId) (s : Session) : Prop where
  reached : Session.empty.Develops start
  canonical : start.globals.canonical ref = ref
  new : start.aliases.lookup ref = none
  named : ∃ config t, ((Elaborate.aliasOf ref).run config).run start = some (.ok id, t) ∧
    t.Develops s

theorem NamedIn.later {start : Session} {ref : ModuleRef} {id : ModuleId}
    (h : start.NamedIn ref id s) (hlater : s.Develops s') : start.NamedIn ref id s' := by
  obtain ⟨config, t, hrun, ht⟩ := h.named
  exact ⟨h.reached, h.canonical, h.new, config, t, hrun, ht.trans hlater⟩

/-- Naming a reference names its canonical form. -/
theorem aliasOf_canonical {config : Config} (ref : ModuleRef) :
    ((Elaborate.aliasOf (s.globals.canonical ref)).run config).run s =
      ((Elaborate.aliasOf ref).run config).run s := by
  rw [Elaborate.aliasOf_eq, Elaborate.aliasOf_eq, Globals.canonical_canonical]

/-- Every structure that has a module of its own got it in some earlier session. -/
theorem Develops.namedIn (h : Session.empty.Develops s) {ref : ModuleRef} {id : ModuleId}
    (hknown : s.aliases.lookup ref = some id) :
    ref.path ≠ [] ∧ ∃ start : Session, start.NamedIn ref id s := by
  induction h with
  | refl => cases hknown
  | @tail s s' hreach hstep ih =>
    have hlater : s.Develops s' := .single hstep
    suffices hnow : s.aliases.lookup ref = some id ∨ ref.path ≠ [] ∧ s.NamedIn ref id s' by
      rcases hnow with hearlier | ⟨hpath, hnow⟩
      · obtain ⟨hpath, start, hnamed⟩ := ih hearlier
        exact ⟨hpath, start, hnamed.later hlater⟩
      · exact ⟨hpath, s, hnow⟩
    cases hstep with
    | other hkeeps => exact .inl (hkeeps.aliases ▸ hknown)
    | @name config ref' _ hrun =>
      obtain ⟨_, hok, hcases⟩ := Elaborate.aliasOf_cases hrun
      cases hok
      rcases hcases with ⟨-, -, rfl⟩ | ⟨-, -, rfl⟩ | ⟨hpath, hnew, rfl, name, rfl⟩
      · exact .inl hknown
      · exact .inl hknown
      · by_cases href : ref = s.globals.canonical ref'
        · subst href
          obtain rfl : s.globals.modules.size = id := by simpa [withAlias] using hknown
          refine .inr ⟨hpath, hreach, Globals.canonical_canonical _ ref', hnew,
            config, _, ?_, .refl⟩
          rw [aliasOf_canonical, hrun]
        · left
          simpa [withAlias, List.lookup_cons, beq_eq_false_iff_ne.mpr href] using hknown

/-! ## What the module shows -/

/-- A structure that gets a module now gets one that shows its items: no functor body is being
elaborated, or the body may refer to the structure. -/
def Shows (s : Session) (ref : ModuleRef) : Prop :=
  s.functorDepth = 0 ∨ Elaborate.isAnchorable s ref.module = true

theorem itemSignature_of_shows {ref : ModuleRef} {sig : Signature}
    (hcanonical : s.globals.canonical ref = ref) (hsig : s.globals.moduleSignature? ref = some sig)
    (hshows : s.Shows ref) : Elaborate.itemSignature s ref = s.globals.selfify ref sig := by
  have hopen : ¬ (0 < s.functorDepth && !Elaborate.isAnchorable s ref.module) = true := by
    rcases hshows with h | h <;> simp [h]
  unfold Elaborate.itemSignature
  simp only [hsig, hcanonical]
  rw [if_neg hopen]

/-- The module shares its items with the structure for good. -/
theorem NamedIn.convertible {start : Session} {ref : ModuleRef} {id : ModuleId} {sig : Signature}
    {name : String} {store : Store} (h : start.NamedIn ref id s) (hpath : ref.path ≠ [])
    (hshows : start.Shows ref) (hsig : start.globals.moduleSignature? ref = some sig)
    (hitem : sig.Founded [] name) :
    Convertible s.globals store (.member id [] name) (.member ref.module ref.path name) := by
  obtain ⟨config, t, hrun, hlater⟩ := h.named
  obtain ⟨_, hok, hcases⟩ := Elaborate.aliasOf_cases hrun
  cases hok
  rw [h.canonical] at hcases
  obtain ⟨hpath', -⟩ | ⟨-, hknown, -⟩ | ⟨-, -, rfl, called, rfl⟩ := hcases
  · exact absurd hpath' hpath
  · cases h.new.symm.trans hknown
  have hkept := hlater.keeps.1
  have hentry : s.globals.module start.globals.modules.size =
      ⟨called, [], start.globals.selfify ref sig, .struct, []⟩ := by
    rw [Globals.module_eq_of_grown hkept (by simp [withAlias, Globals.addModule]),
      ← itemSignature_of_shows h.canonical hsig hshows]
    exact (Globals.module_addModule ..).trans (if_pos rfl)
  have hdouble := Globals.Reads.of_module s.globals (congrArg (·.members) hentry)
  rw [hentry] at hdouble
  obtain ⟨outer, href⟩ := Globals.Reads.of_structure h.canonical hpath hsig
  have hmodule := Globals.module_eq_of_grown
    ((start.withAlias_keeps ref called).1.trans hkept)
    (Globals.lt_of_moduleSignature? h.canonical hpath hsig)
  have hshared := hitem.convertible store h.canonical hpath (href.of_module_eq hmodule) hdouble
  rwa [List.append_nil] at hshared

end Session

namespace Elaborate

variable {config : Config} {s s' : Session} {ref : ModuleRef} {id : ModuleId}

theorem exists_namedIn (reached : Session.empty.Develops s)
    (hrun : ((aliasOf ref).run config).run s = some (.ok id, s')) :
    ∃ start, Session.NamedIn start (s.globals.canonical ref) id s' := by
  have hrun' : ((aliasOf (s.globals.canonical ref)).run config).run s = some (.ok id, s') :=
    (Session.aliasOf_canonical ref).trans hrun
  have hcanonical := s.globals.canonical_canonical ref
  obtain ⟨_, hok, hcases⟩ := aliasOf_cases hrun
  cases hok
  rcases hcases with ⟨hpath, -, rfl⟩ | ⟨-, hknown, rfl⟩ | ⟨-, hnew, -, -⟩
  · refine ⟨s', reached, hcanonical, ?_, config, s', hrun', .refl⟩
    -- only structures inside modules are on the list
    rw [← Option.not_isSome_iff_eq_none]
    intro hsome
    obtain ⟨known, hknown⟩ := Option.isSome_iff_exists.mp hsome
    exact (reached.namedIn hknown).1 hpath
  · exact (reached.namedIn hknown).2
  · exact ⟨s, reached, hcanonical, hnew, config, s', hrun', .refl⟩

/-- The module that stands for a structure was made in some session.  If it was made to show the
items of the structure, each of them is convertible to the item of the structure itself.  Every
later reference with the same canonical form gets the same module, and what a functor gives for it
once it gives ever after. -/
theorem aliasOf_shares_identity (reached : Session.empty.Develops s)
    (hrun : ((aliasOf ref).run config).run s = some (.ok id, s')) :
    (∃ start, Session.NamedIn start (s.globals.canonical ref) id s') ∧
    (∀ start sig name, Session.NamedIn start (s.globals.canonical ref) id s' →
      start.globals.moduleSignature? (s.globals.canonical ref) = some sig →
      (s.globals.canonical ref).path = [] ∨
        start.Shows (s.globals.canonical ref) ∧ sig.Founded [] name →
      ∀ store, Convertible s'.globals store (.member id [] name)
        (.member ref.module ref.path name)) ∧
    ∀ t ref', s'.Develops t → t.globals.canonical ref' = s.globals.canonical ref →
      ((aliasOf ref').run config).run t = some (.ok id, t) ∧
      ∀ functor name result globals,
        t.globals.applyFunctor functor id name = some (result, globals) →
        ∀ u name', Session.Develops { t with globals } u →
          u.globals.applyFunctor functor id name' = some (result, u.globals) := by
  have hcanonical : s'.globals.canonical ref = s.globals.canonical ref := by
    rcases aliasOf_effect ⟨config, _, hrun⟩ with rfl | ⟨name, rfl⟩
    · rfl
    · exact (s.withAlias_keeps _ name).2 ref
  have hid : (s.globals.canonical ref).path = [] ∧ id = (s.globals.canonical ref).module ∨
      (s.globals.canonical ref).path ≠ [] ∧
        s'.aliases.lookup (s.globals.canonical ref) = some id := by
    obtain ⟨_, hok, hcases⟩ := aliasOf_cases hrun
    cases hok
    rcases hcases with ⟨hpath, hid, rfl⟩ | ⟨hpath, hknown, rfl⟩ | ⟨hpath, -, rfl, name, rfl⟩
    · exact .inl ⟨hpath, hid⟩
    · exact .inr ⟨hpath, hknown⟩
    · exact .inr ⟨hpath, by simp [Session.withAlias]⟩
  refine ⟨exists_namedIn reached hrun, fun start sig name hnamed hsig hshows store => ?_,
    fun t ref' hlater href => ⟨?_, ?_⟩⟩
  · have hspelling : Convertible s'.globals store (.member ref.module ref.path name)
        (.member (s.globals.canonical ref).module (s.globals.canonical ref).path name) :=
      hcanonical ▸ .law (.canonical _ _ _)
    refine .trans ?_ hspelling.symm
    rcases hid with ⟨hpath, rfl⟩ | ⟨hpath, -⟩
    · rw [hpath]
      exact .refl _
    · obtain hpath' | ⟨hshows, hitem⟩ := hshows
      · exact absurd hpath' hpath
      · exact hnamed.convertible hpath hshows hsig hitem
  · rcases hid with ⟨hpath, rfl⟩ | ⟨hpath, hknown⟩
    · rw [aliasOf_module (href ▸ hpath), href]
    · exact aliasOf_known (href ▸ hpath) (href ▸ hlater.keeps.2.2 hknown)
  · intro functor name result globals happly u name' hu
    exact Globals.applyFunctor_known
      (hu.keeps.2.1 (Globals.applyFunctor_applications happly).1) name'

/-- A module with a structure inside, seen from inside `depth` functor bodies. -/
def aroundStructure (depth : Nat) (sig : Signature) : Session :=
  { Session.empty with
    globals := { Globals.empty with
      modules := #[⟨"P", ["P"], .items [.structure "N" sig], .struct, []⟩] }
    functorDepth := depth }

theorem aroundStructure_reached (depth : Nat) (sig : Signature) :
    Session.empty.Develops (aroundStructure depth sig) :=
  Session.KeepsIdentities.develops ⟨List.nil_prefix, nofun, rfl⟩

theorem aliasOf_aroundStructure (depth : Nat) (sig : Signature) :
    ((aliasOf ⟨0, ["N"]⟩).run default).run (aroundStructure depth sig) =
      some (.ok 1, (aroundStructure depth sig).withAlias ⟨0, ["N"]⟩ "N") := rfl

/-- An abstract constructor, and one that is defined by it. -/
def definedSig : Signature :=
  .items [.con "t" .type none, .con "u" .type (some (.relative 0 [] "t"))]

theorem definedSig_founded : definedSig.Founded [] "u" := by
  refine .manifest (c := .relative 0 [] "t") rfl rfl ?_ ?_
  · intro level below x hrefers
    cases hrefers with
    | here => exact le_rfl
    | part hp => cases hp
  · intro level below x hrefers
    cases hrefers with
    | here => exact .abstract rfl rfl
    | part hp => cases hp

theorem aliasOf_shares_identity_defined :
    Session.empty.Develops (aroundStructure 0 definedSig) ∧
    ((aliasOf ⟨0, ["N"]⟩).run default).run (aroundStructure 0 definedSig) =
      some (.ok 1, (aroundStructure 0 definedSig).withAlias ⟨0, ["N"]⟩ "N") ∧
    ∀ store, Convertible ((aroundStructure 0 definedSig).withAlias ⟨0, ["N"]⟩ "N").globals store
      (.member 1 [] "u") (.member 0 ["N"] "u") := by
  have reached := aroundStructure_reached 0 definedSig
  have hrun := aliasOf_aroundStructure 0 definedSig
  obtain ⟨-, hshares, -⟩ := aliasOf_shares_identity reached hrun
  exact ⟨reached, hrun, hshares (aroundStructure 0 definedSig) definedSig "u"
    ⟨reached, rfl, rfl, default, _, hrun, .refl⟩ rfl (.inr ⟨.inl rfl, definedSig_founded⟩)⟩

/-! ## Inside a functor body -/

section Hidden

open RowML.Con Observed

/-- A signature with an abstract constructor. -/
def abstractSig : Signature := .items [.con "t" .type none]

/-- The table after the structure has been named inside a functor body. -/
def hidingGlobals : Globals := ((aroundStructure 1 abstractSig).withAlias ⟨0, ["N"]⟩ "N").globals

theorem hidingGlobals_canonical (ref : ModuleRef) : hidingGlobals.canonical ref = ref := by
  refine Globals.canonical_eq_iff.mpr fun name _ => ?_
  match ref.module with
  | 0 => rfl
  | 1 => rfl
  | n + 2 => rfl

/-- Neither the structure nor the module defines an item. -/
theorem hidingGlobals_abstract {ref : ModuleRef} {name : String} {kind : Kind} {body : Con}
    (hsig : hidingGlobals.moduleSignature? ref = some abstractSig) :
    ¬ (hidingGlobals.moduleItem? ref name .con = some (.con kind (some body)) ∨
      hidingGlobals.moduleItem? ref name .con = some (.class kind (some body))) := by
  unfold Globals.moduleItem?
  simp only [hidingGlobals_canonical, hsig, abstractSig, Signature.item?, List.reverse_singleton,
    List.find?_singleton]
  by_cases hname : "t" = name <;> simp [SignatureItem.name, SignatureItem.sort, hname]

/-- The items of the structure mean one thing, and those of the module that stands for it another
one. -/
def apartMembers : ModuleId → List String → String → Observed
  | 0, ["N"], _ => approx [.prim .int]
  | 1, [], _ => approx [.prim .string]
  | _, _, _ => ⊥

theorem describes_hidingGlobals (metas : MetaId → Observed) :
    Describes hidingGlobals metas apartMembers where
  definition := by rintro _ _ _ (h | h) <;> cases h
  canonical ref item := by rw [hidingGlobals_canonical]
  item := by
    intro ref item kind body h
    -- the table has abstract constructors only, so what has a definition is poison
    obtain rfl : body = .error := by
      refine Globals.moduleItem_holds (P := (· = .error)) (fun c first refs hc => ?_) rfl ?_ h
      · rw [hc, substModules_of_has rfl]
      · intro c hc
        cases hc
    rw [hidingGlobals_canonical] at h
    obtain ⟨module, path⟩ := ref
    unfold apartMembers
    split
    next hmodule hpath =>
      obtain ⟨rfl, rfl⟩ : module = 0 ∧ path = ["N"] := ⟨hmodule, hpath⟩
      exact absurd h (hidingGlobals_abstract rfl)
    next hmodule hpath =>
      obtain ⟨rfl, rfl⟩ : module = 1 ∧ path = [] := ⟨hmodule, hpath⟩
      exact absurd h (hidingGlobals_abstract rfl)
    next => rfl

/-- A structure that is named inside a functor body gets a module whose items are not convertible to
its own. -/
theorem aliasOf_hides_identity :
    ∃ s s', Session.empty.Develops s ∧
      ((aliasOf ⟨0, ["N"]⟩).run default).run s = some (.ok 1, s') ∧
      (s.globals.moduleItem? ⟨0, ["N"]⟩ "t" .con).isSome ∧
      ¬ Convertible s'.globals Store.empty (.member 1 [] "t") (.member 0 ["N"] "t") := by
  refine ⟨_, _, aroundStructure_reached 1 abstractSig, aliasOf_aroundStructure 1 abstractSig, rfl,
    fun h => ?_⟩
  have hmeaning := meaning_convertible (describes_hidingGlobals fun _ => ⊥)
    (fun {a b} hab => by rcases hab with ⟨⟨⟩, -⟩) h
  have happrox : approx [Token.prim .string] = approx [Token.prim .int] :=
    congrFun hmeaning fun _ => ⊥
  have hmem : Token.prim .string ∈ approx [Token.prim .int] := happrox ▸ prim_mem_approx.mpr rfl
  exact absurd (prim_mem_approx.mp hmem) (by decide)

end Hidden

end Elaborate

/-- Every program leads to a session in which structures have been named in this way. -/
theorem elaborate_develops {config : Config} {fuel : Nat} {decls : List Surface.Decl}
    {elaborated : Elaborated} (h : elaborate config fuel decls = some elaborated) :
    ∃ s, Session.empty.Develops s ∧ elaborated.store = s.store ∧
      elaborated.globals = s.globals ∧ elaborated.errors = s.errors :=
  elaborate_within h

end RowML
