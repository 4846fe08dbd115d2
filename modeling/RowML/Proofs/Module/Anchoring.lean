import RowML.Proofs.Module.Growth
import RowML.Proofs.Module.Identity

/-!
# Anchoring references to modules outside a signature

Abstracting a signature over modules makes their items relative: one that belongs to the `i`-th
module counts `i` levels outwards from the root of the signature, wherever in the signature it is
written.  A closed signature has no references to these levels before, so that reading them through
the modules again gives the signature back.  This is what happens when a functor is applied to the
structure that its body was elaborated with.
-/

namespace RowML

/-- Anchors the first module at the level around the root, the next one at the level around that,
and so on. -/
def Abstraction.outside (modules : List ModuleId) : Abstraction where
  definitions := []
  modules := modules.zipIdx.map fun (module, i) => (module, ⟨i + 1, []⟩)

namespace Abstraction

variable {modules : List ModuleId} {m : ModuleId}

private theorem lookup_anchors (modules : List ModuleId) (n : Nat) (m : ModuleId) :
    ((modules.zipIdx n).map fun (module, i) => (module, (⟨i + 1, []⟩ : Anchor))).lookup m =
      (modules.idxOf? m).map fun i => ⟨n + i + 1, []⟩ := by
  induction modules generalizing n with
  | nil => rfl
  | cons module rest ih =>
    rw [List.zipIdx_cons, List.map_cons, List.lookup_cons, List.idxOf?_cons, ih]
    by_cases h : module = m
    · simp [h]
    · have hne : (m == module) = false := beq_eq_false_iff_ne.mpr fun heq => h heq.symm
      simp [h, hne, Option.map_map, Function.comp_def, Nat.add_assoc, Nat.add_comm 1]

/-- Each module is anchored where it is listed first. -/
theorem lookup_outside (modules : List ModuleId) (m : ModuleId) :
    (outside modules).modules.lookup m = (modules.idxOf? m).map fun i => ⟨i + 1, []⟩ := by
  simpa [outside] using lookup_anchors modules 0 m

end Abstraction

namespace Con

/-! ## Lowering references to modules -/

/-- The second constructor, which is written `level` levels below a root, is the first one with the
items of `modules` as items of the levels around the root.  The other levels in it are not outside
the root. -/
inductive Lowered (modules : List ModuleId) (level : Nat) : Con → Con → Prop where
  | item {i : Nat} {m : ModuleId} (hm : modules[i]? = some m) (path : List String) (name : String) :
      Lowered modules level (.member m path name) (.relative (level + (i + 1)) path name)
  | inside {up : Nat} (h : up ≤ level) (path : List String) (name : String) :
      Lowered modules level (.relative up path name) (.relative up path name)
  | node {c c' : Con} (hlevel : ∀ up path name, c ≠ .relative up path name)
      (hitem : ∀ m path name, c = .member m path name → m ∉ modules)
      (hframe : c.frame = c'.frame) (hkinds : c.annotations = c'.annotations)
      (hparts : ∀ (i : Nat) (p p' : Con), c.parts[i]? = some p → c'.parts[i]? = some p' →
        Lowered modules level p p') :
      Lowered modules level c c'

variable {modules : List ModuleId} {level : Nat} {c c' : Con}

theorem Lowered.of_forall₂ (hlevel : ∀ up path name, c ≠ .relative up path name)
    (hitem : ∀ m path name, c = .member m path name → m ∉ modules)
    (hframe : c.frame = c'.frame) (hkinds : c.annotations = c'.annotations)
    (hparts : List.Forall₂ (Lowered modules level) c.parts c'.parts) :
      Lowered modules level c c' := by
  refine .node hlevel hitem hframe hkinds fun i p p' hp hp' => ?_
  obtain ⟨hi, rfl⟩ := List.getElem?_eq_some_iff.mp hp
  obtain ⟨hi', rfl⟩ := List.getElem?_eq_some_iff.mp hp'
  exact (List.forall₂_iff_get.mp hparts).2 i hi hi'

/-- A constructor without items of the modules is lowered as it is. -/
theorem Lowered.same {d : Depth} (hlevels : ∀ up path name, c.Refers up path name → up ≤ level)
    (hitems : Nodes (fun _ node => ∀ m path name, node = .member m path name → m ∉ modules) d c) :
    Lowered modules level c c := by
  induction c using inductionOnParts generalizing d with
  | step c ih =>
    by_cases hrelative : ∃ up path name, c = .relative up path name
    · obtain ⟨up, path, name, rfl⟩ := hrelative
      exact .inside (hlevels up path name .here) path name
    · refine .of_forall₂ (fun up path name heq => hrelative ⟨up, path, name, heq⟩) hitems.top rfl
        rfl (List.forall₂_same.mpr fun p hp => ?_)
      exact ih p hp (fun up path name h => hlevels up path name (.part hp h)) (hitems.part p hp)

/-- What a pass that lowers references establishes. -/
def lowering (modules : List ModuleId) (level : Nat) : PassSpec Unit where
  Pre _ _ c := ∀ up path name, c.Refers up path name → up ≤ level
  KindPre _ _ _ := True
  Enters _ _ c := (∀ up path name, c ≠ .relative up path name) ∧
    ∀ m path name, c = .member m path name → m ∉ modules
  Post _ _ c c' := Lowered modules level c c'
  KindPost _ _ κ κ' := κ = κ'

theorem lowering_pass {node : Depth → Con → Option Con}
    (hnode : ∀ d c, (lowering modules level).Pre () d c →
      (lowering modules level).Hook d c (node d c) ()) :
    Pass (m := Id) (.indifferent Unit) (lowering modules level) (fun d c => pure (node d c))
      (fun _ κ => pure κ) where
  pre_grows _ _ h := h
  kindPre_grows _ _ h := h
  enters_grows _ _ h := h
  post_grows _ _ h := h
  kindPost_grows _ _ h := h
  pre_part h hp up path name hrefers := h up path name (.part hp hrefers)
  pre_kind _ _ := trivial
  node_yields _ hpre := Yields.pure trivial (hnode _ _ hpre)
  kind_yields _ _ := Yields.pure trivial rfl
  close _ _ henters related :=
    .of_forall₂ henters.1 henters.2 related.frame
      (List.forall₂_eq_eq_eq ▸ related.annotations) related.parts

/-- Abstracting over modules lowers the references to them. -/
theorem lowered_abstractModules (hc : ∀ up path name, c.Refers up path name → up ≤ level) :
    Lowered modules level c (c.abstractModules level (.outside modules)) := by
  unfold abstractModules
  split
  next hempty =>
    -- without modules there is nothing to lower
    obtain rfl : modules = [] := by simpa [Abstraction.isEmpty, Abstraction.outside] using hempty
    exact .same (d := Depth.zero) hc (.of_forall fun _ _ _ _ _ _ => List.not_mem_nil)
  next =>
    refine ((lowering_pass fun d node hpre => ?_).rebuildM_yields c (s := ()) (d := Depth.zero)
      trivial hc _ _ rfl).2.2 _ rfl
    split
    next hhas =>
      have hmember : node.has .member = false := by simp_all
      refine .same hpre ((has_eq_false_iff (d := Depth.zero).mp hmember).mono ?_)
      rintro _ _ hnode m path name rfl
      cases hnode
    next hhas =>
      split
      next _ id =>
        have enters : (lowering modules level).Enters () d (.global id) :=
          ⟨fun _ _ _ heq => (nomatch heq), fun _ _ _ heq => (nomatch heq)⟩
        exact enters
      next _ m path name =>
        rw [Abstraction.lookup_outside modules]
        cases hfirst : modules.idxOf? m with
        | none =>
          have enters : (lowering modules level).Enters () d (.member m path name) := by
            refine ⟨fun _ _ _ heq => (nomatch heq), fun _ _ _ heq => ?_⟩
            cases heq
            exact List.idxOf?_eq_none_iff.mp hfirst
          exact enters
        | some i =>
          obtain ⟨hi, hm, -⟩ := List.idxOf?_eq_some_iff.mp hfirst
          exact Lowered.item (List.getElem?_eq_some_iff.mpr ⟨hi, hm⟩) path name
      next hglobal hmember =>
        refine ⟨fun up path name heq => ?_, fun m path name heq => absurd heq (hmember m path name)⟩
        subst heq
        exact hhas rfl

/-- Lowering leaves no item of the modules behind. -/
theorem Lowered.forgets (h : Lowered modules level c c') :
    c'.All fun node => ∀ m path name, node = .member m path name → m ∉ modules := by
  induction h with
  | item | inside =>
    exact .intro (fun _ _ _ heq => nomatch heq) fun p hp => absurd hp List.not_mem_nil
  | @node c c' _ hitem hframe _ _ ih =>
    refine .intro (fun m path name heq => ?_) fun p' hp' => ?_
    · subst heq
      exact hitem m path name (eq_of_frame_leaf hframe.symm rfl rfl).symm
    · obtain ⟨i, hi', rfl⟩ := List.getElem_of_mem hp'
      have hi : i < c.parts.length := length_parts_eq hframe ▸ hi'
      exact ih i _ _ (List.getElem?_eq_getElem hi) (List.getElem?_eq_getElem hi')

/-! ## Reading the levels through the modules -/

theorem eq_of_frame_of_parts (hframe : c.frame = c'.frame) (hkinds : c.annotations = c'.annotations)
    (hparts : ∀ (i : Nat) (p p' : Con), c.parts[i]? = some p → c'.parts[i]? = some p' → p = p') :
    c = c' :=
  eq_of_frame hframe hkinds <| List.ext_getElem (length_parts_eq hframe) fun i hi hi' =>
    hparts i _ _ (List.getElem?_eq_getElem hi) (List.getElem?_eq_getElem hi')

/-- Lowering changes nothing in a constructor that ends up without levels. -/
theorem Lowered.eq_of_has (h : Lowered modules level c c') (hc' : c'.has .relative = false) :
    c = c' := by
  have hnodes := has_eq_false_iff (d := Depth.zero).mp hc'
  clear hc'
  generalize Depth.zero = d at hnodes
  induction h generalizing d with
  | item | inside => cases hnodes.top
  | node _ _ hframe hkinds _ ih =>
    exact eq_of_frame_of_parts hframe hkinds fun i p p' hp hp' =>
      ih i p p' hp hp' _ (hnodes.part p' (List.mem_of_getElem? hp'))

theorem Lowered.eq_of_nil (h : Lowered [] level c c') : c = c' := by
  induction h with
  | item hm => cases hm
  | inside => rfl
  | node _ _ hframe hkinds _ ih => exact eq_of_frame_of_parts hframe hkinds ih

/-- Where a level of a lowered constructor comes from. -/
theorem Lowered.relative_cases {up : Nat} {path : List String} {name : String}
    (h : Lowered modules level c (.relative up path name)) :
    (up ≤ level ∧ c = .relative up path name) ∨
      ∃ i m, modules[i]? = some m ∧ up = level + (i + 1) ∧ c = .member m path name := by
  cases h with
  | item hm => exact .inr ⟨_, _, hm, rfl, rfl⟩
  | inside hup => exact .inl ⟨hup, rfl⟩
  | node hlevel _ hframe => exact absurd (eq_of_frame_leaf hframe.symm rfl rfl).symm (hlevel _ _ _)

/-- What a pass that reads the levels through the modules establishes. -/
def lifting (modules : List ModuleId) (level : Nat) : PassSpec Unit where
  Pre _ _ _ := True
  KindPre _ _ _ := True
  Enters _ _ c' := ∀ up path name, c' ≠ .relative up path name
  Post _ _ c' c'' := ∀ c, Lowered modules level c c' → c'' = c
  KindPost _ _ κ κ' := κ = κ'

theorem lifting_pass {node : Depth → Con → Option Con}
    (hnode : ∀ d c', (lifting modules level).Hook d c' (node d c') ()) :
    Pass (m := Id) (.indifferent Unit) (lifting modules level) (fun d c => pure (node d c))
      (fun _ κ => pure κ) where
  pre_grows _ _ h := h
  kindPre_grows _ _ h := h
  enters_grows _ _ h := h
  post_grows _ _ h := h
  kindPost_grows _ _ h := h
  pre_part _ _ := trivial
  pre_kind _ _ := trivial
  node_yields _ _ := Yields.pure trivial (hnode _ _)
  kind_yields _ _ := Yields.pure trivial rfl
  close _ _ henters related c h := by
    cases h with
    | item | inside => exact absurd rfl (henters _ _ _)
    | node _ _ hframe hkinds hparts =>
      have hannotations := List.forall₂_eq_eq_eq ▸ related.annotations
      refine (eq_of_frame_of_parts (hframe.trans related.frame) (hkinds.trans hannotations)
        fun i p p'' hp hp'' => ?_).symm
      obtain ⟨hi'', rfl⟩ := List.getElem?_eq_some_iff.mp hp''
      obtain ⟨hlength, hrelated⟩ := List.forall₂_iff_get.mp related.parts
      have hi' := hlength ▸ hi''
      exact (hrelated i hi' hi'' p (hparts i p _ hp (List.getElem?_eq_getElem hi'))).symm

/-- Reading the levels around the root through the modules raises the references again. -/
theorem Lowered.substModules (h : Lowered modules level c c') :
    c'.substModules (level + 1) (modules.map .root) = c := by
  unfold Con.substModules
  split
  next hempty =>
    obtain rfl : modules = [] := by simpa using hempty
    exact h.eq_of_nil.symm
  next =>
    refine ((lifting_pass fun d node => ?_).rebuildM_yields c' (s := ()) (d := Depth.zero) trivial
      trivial _ _ rfl).2.2 _ rfl c h
    split
    next hhas => exact fun c h => (h.eq_of_has (by simpa using hhas)).symm
    next =>
      split
      next up path name _ =>
        split
        next hup =>
          rintro c h
          obtain ⟨-, rfl⟩ | ⟨i, m, -, rfl, -⟩ := h.relative_cases
          · rfl
          · omega
        next hup =>
          have hitem : ∀ c, Lowered modules level c (.relative up path name) →
              ∃ m, modules[up - (level + 1)]? = some m ∧ c = .member m path name := by
            intro c h
            obtain ⟨hinside, -⟩ | ⟨i, m, hm, rfl, hc⟩ := h.relative_cases
            · omega
            · exact ⟨m, by rwa [show level + (i + 1) - (level + 1) = i by omega], hc⟩
          cases htarget : (modules.map ModuleRef.root)[up - (level + 1)]? with
          | none =>
            intro c h
            obtain ⟨m, hm, -⟩ := hitem c h
            simp [hm] at htarget
          | some target =>
            intro c h
            obtain ⟨m, hm, rfl⟩ := hitem c h
            obtain rfl : ModuleRef.root m = target := by simpa [hm] using htarget
            rfl
      next hlevel => exact hlevel

/-- A constructor whose levels end at the root survives being abstracted over modules and read
through them. -/
theorem substModules_abstractModules (hc : ∀ up path name, c.Refers up path name → up ≤ level) :
    (c.abstractModules level (.outside modules)).substModules (level + 1) (modules.map .root) = c :=
  (lowered_abstractModules hc).substModules

end Con

/-! ## Signatures -/

namespace Signature

mutual
/-- Every constructor in a signature has a property, which may depend on how many levels it lies
below the root. -/
def Everywhere (P : Nat → Con → Prop) (level : Nat) : Signature → Prop
  | .error => True
  | .functor _ paramSig result =>
    paramSig.Everywhere P (level + 1) ∧ result.Everywhere P (level + 2)
  | .items entries => EverywhereItems P level entries
def EverywhereItem (P : Nat → Con → Prop) (level : Nat) : SignatureItem → Prop
  | .con _ _ definition => ∀ c ∈ definition, P level c
  | .class _ _ definition => ∀ c ∈ definition, P level c
  | .val _ type => P level type
  | .structure _ sig => sig.Everywhere P (level + 1)
  | .signature _ sig => sig.Everywhere P (level + 1)
def EverywhereItems (P : Nat → Con → Prop) (level : Nat) : List SignatureItem → Prop
  | [] => True
  | entry :: rest => EverywhereItem P level entry ∧ EverywhereItems P level rest
end

section Everywhere

variable {P : Nat → Con → Prop} {f : Nat → Con → Con}

mutual
/-- Rebuilding does nothing to a signature if it does nothing to the constructors in it. -/
theorem mapCons_eq_self (hf : ∀ level c, P level c → f level c = c) (sig : Signature)
    (level : Nat) (h : sig.Everywhere P level) : sig.mapCons f level = sig := by
  cases sig with
  | items entries => rw [mapCons, mapConsItems_eq_self hf entries level h]
  | functor param paramSig result =>
    rw [mapCons, mapCons_eq_self hf paramSig _ h.1, mapCons_eq_self hf result _ h.2]
  | error => rfl
theorem mapConsItem_eq_self (hf : ∀ level c, P level c → f level c = c) (item : SignatureItem)
    (level : Nat) (h : EverywhereItem P level item) : mapConsItem f level item = item := by
  cases item with
  | con x k definition | «class» x k definition =>
    cases definition with
    | none => rfl
    | some c => rw [mapConsItem, Option.map_some, hf level c (h c rfl)]
  | val x type => rw [mapConsItem, hf level type h]
  | «structure» x sig | signature x sig => rw [mapConsItem, mapCons_eq_self hf sig _ h]
theorem mapConsItems_eq_self (hf : ∀ level c, P level c → f level c = c)
    (entries : List SignatureItem) (level : Nat) (h : EverywhereItems P level entries) :
    mapConsItems f level entries = entries := by
  cases entries with
  | nil => rfl
  | cons entry rest =>
    rw [mapConsItems, mapConsItem_eq_self hf entry level h.1,
      mapConsItems_eq_self hf rest level h.2]
end

end Everywhere

/-- No level that is written in the signature lies outside its root. -/
def Closed (sig : Signature) : Prop :=
  sig.Everywhere (fun level c => ∀ up path name, c.Refers up path name → up ≤ level) 0

/-- A closed signature survives being abstracted over modules and rebased on them. -/
theorem Closed.rebased_abstractOver {sig : Signature} (h : sig.Closed) (modules : List ModuleId) :
    (sig.abstractOver (.outside modules)).rebase (modules.map .root) = sig := by
  rw [abstractOver, rebase, mapCons_mapCons]
  exact mapCons_eq_self (fun _ _ hc => Con.substModules_abstractModules hc) sig 0 h

end Signature

/-! ## Functors -/

namespace Globals

variable {globals globals' : Globals}

/-- What a functor has been recorded to give for an argument is a module with the result of the
functor, read through the argument. -/
structure Remembers (globals : Globals) : Prop where
  known : ∀ {functor argument id : ModuleId},
    globals.applications.lookup (functor, argument) = some id →
      id < globals.modules.size ∧ ∃ param paramSig result,
        (globals.module functor).sig = .functor param paramSig result ∧
        (globals.module id).sig = result.rebase [.root argument]

theorem lt_of_functor {id : ModuleId} {param : String} {paramSig result : Signature}
    (h : (globals.module id).sig = .functor param paramSig result) : id < globals.modules.size := by
  by_contra hid
  rw [module, Array.getElem?_eq_none (Nat.le_of_not_lt hid)] at h
  cases h

/-- Only new modules and their signatures matter for what functors have given. -/
theorem Remembers.keep (h : globals.Remembers)
    (hsize : globals.modules.size ≤ globals'.modules.size)
    (hsig : ∀ id < globals.modules.size, (globals'.module id).sig = (globals.module id).sig)
    (happlications : globals'.applications = globals.applications) : globals'.Remembers := by
  refine ⟨fun {functor argument id} hid => ?_⟩
  obtain ⟨hlt, param, paramSig, result, hfunctor, hresult⟩ := h.known (happlications ▸ hid)
  exact ⟨Nat.lt_of_lt_of_le hlt hsize, param, paramSig, result,
    (hsig functor (lt_of_functor hfunctor)).trans hfunctor, (hsig id hlt).trans hresult⟩

theorem Remembers.grow (h : globals.Remembers)
    (hmodules : globals.modules.toList <+: globals'.modules.toList)
    (happlications : globals'.applications = globals.applications) : globals'.Remembers :=
  h.keep (by simpa using hmodules.length_le)
    (fun _ hid => by rw [module_eq_of_grown hmodules hid]) happlications

theorem Remembers.record (h : globals.Remembers) {functor argument id : ModuleId} {param : String}
    {paramSig result : Signature}
    (hfunctor : (globals.module functor).sig = .functor param paramSig result)
    (hmodules : globals.modules.toList <+: globals'.modules.toList)
    (hid : id < globals'.modules.size)
    (hsig : (globals'.module id).sig = result.rebase [.root argument])
    (happlications : globals'.applications = ((functor, argument), id) :: globals.applications) :
    globals'.Remembers := by
  refine ⟨fun {functor' argument' id'} hknown => ?_⟩
  rw [happlications, List.lookup_cons] at hknown
  split at hknown
  next hkey =>
    cases hknown
    cases eq_of_beq hkey
    refine ⟨hid, param, paramSig, result, ?_, hsig⟩
    rw [module_eq_of_grown hmodules (lt_of_functor hfunctor), hfunctor]
  next =>
    have hgrown : Remembers { globals' with applications := globals.applications } :=
      h.grow hmodules rfl
    exact hgrown.known hknown

/-- A functor gives a module with its result, read through the argument, the first time and every
other time, and the table remembers that. -/
theorem Remembers.applyFunctor (h : globals.Remembers) {functor : ModuleId} {param : String}
    {paramSig result : Signature}
    (hfunctor : (globals.module functor).sig = .functor param paramSig result)
    (argument : ModuleId) (name : String) :
    ∃ id globals', globals.applyFunctor functor argument name = some (id, globals') ∧
      (globals'.module id).sig = result.rebase [.root argument] ∧ globals'.Remembers := by
  unfold Globals.applyFunctor
  cases hknown : globals.applications.lookup (functor, argument) with
  | some id =>
    obtain ⟨-, param', paramSig', result', hfunctor', hresult⟩ := h.known hknown
    rw [hfunctor] at hfunctor'
    cases hfunctor'
    exact ⟨id, globals, rfl, hresult, h⟩
  | none =>
    simp only [hfunctor]
    have hnew : ((globals.addModule
        ⟨name, [], result.rebase [.root argument], .applied functor argument, []⟩).2.module
          globals.modules.size).sig = result.rebase [.root argument] := by
      rw [module_addModule, if_pos rfl]
    exact ⟨_, _, rfl, hnew, h.record hfunctor (addModule_extends globals _).modules
      (by simp [addModule]) hnew rfl⟩

end Globals

/-- A closed signature survives being abstracted over modules outside and rebased on them.  So the
result of a functor that was abstracted over the structure that stood for the parameter is what the
functor gives for that structure. -/
theorem Signature.rebase_abstractOver (sig : Signature) (h : sig.Closed) :
    (∀ modules : List ModuleId,
      (sig.abstractOver (.outside modules)).rebase (modules.map .root) = sig) ∧
    ∀ (globals : Globals) (functor placeholder : ModuleId) (param name : String)
      (paramSig : Signature), globals.Remembers →
      (globals.module functor).sig =
        .functor param paramSig (sig.abstractOver (.outside [placeholder])) →
      ∃ id globals', globals.applyFunctor functor placeholder name = some (id, globals') ∧
        globals'.moduleSignature? (.root id) = some sig := by
  refine ⟨h.rebased_abstractOver, fun globals functor placeholder param name paramSig hremembers
    hfunctor => ?_⟩
  obtain ⟨id, globals', happly, hresult, -⟩ := hremembers.applyFunctor hfunctor placeholder name
  have hsig : (globals'.module id).sig = sig := hresult.trans (h.rebased_abstractOver [placeholder])
  exact ⟨id, globals', happly, congrArg some hsig⟩

/-- A signature with a nested structure, a functor and references to module 0, which is the
placeholder for the parameter of the functor that module 1 is. -/
def anchoredSignature : Signature :=
  .items [
    .con "t" .type none,
    .structure "Inner" (.items [
      .val "x" (.arrow (.relative 1 [] "t") (.member 0 ["A"] "u")),
      .structure "Make" (.functor "X" (.items [.con "k" .type none])
        (.items [.val "y" (.arrow (.relative 1 [] "k") (.member 0 [] "u"))]))])]

def anchoredTable : Globals :=
  { Globals.empty with
    modules := #[
      ⟨"P", [], .items [], .param, []⟩,
      ⟨"F", ["F"], .functor "P" (.items []) (anchoredSignature.abstractOver (.outside [0])),
        .struct, []⟩] }

/-- The types in it, of an item of the structure outwards to an item of the placeholder, have one
level each. -/
theorem up_of_refers {up up' : Nat} {path path' path'' : List String} {name name' name'' : String}
    {m : ModuleId}
    (h : (Con.arrow (.relative up path name) (.member m path' name')).Refers up' path'' name'') :
    up' = up := by
  obtain _ | ⟨hp, h⟩ := h
  simp only [Con.parts, List.mem_cons, List.not_mem_nil, or_false] at hp
  obtain rfl | rfl := hp
  · obtain _ | ⟨hq, -⟩ := h
    · rfl
    · cases hq
  · obtain _ | ⟨hq, -⟩ := h
    cases hq

theorem anchoredSignature_closed : anchoredSignature.Closed := by
  have htype : ∀ {path path' : List String} {name name' : String} {m : ModuleId} (level : Nat),
      ∀ up path'' name'', (Con.arrow (.relative 1 path name) (.member m path' name')).Refers up
        path'' name'' → up ≤ level + 1 :=
    fun level up path'' name'' h => by have := up_of_refers h; omega
  exact ⟨nofun, ⟨htype 0, ⟨⟨nofun, trivial⟩, htype 3, trivial⟩, trivial⟩, trivial⟩

theorem rebase_abstractOver_anchored :
    anchoredSignature.Closed ∧ anchoredTable.Remembers ∧
    (anchoredSignature.abstractOver (.outside [0])).rebase [.root 0] = anchoredSignature ∧
    ∃ id globals', anchoredTable.applyFunctor 1 0 "G" = some (id, globals') ∧
      globals'.moduleSignature? (.root id) = some anchoredSignature := by
  have hremembers : anchoredTable.Remembers := ⟨fun h => nomatch h⟩
  obtain ⟨hrebase, happly⟩ := anchoredSignature.rebase_abstractOver anchoredSignature_closed
  exact ⟨anchoredSignature_closed, hremembers, hrebase [0],
    happly anchoredTable 1 0 "P" "G" (.items []) hremembers rfl⟩

end RowML
