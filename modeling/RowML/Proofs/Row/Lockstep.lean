import RowML.Proofs.Module.Contents
import RowML.Proofs.Normal.Exposure
import RowML.Proofs.Store.Lockstep
import RowML.Row.Summary

/-!
# Head normal forms and rows side by side

Two global tables that differ in their instances only reduce twins to twins.  What the tables are
made of has to be its own twin: the metavariables that it mentions, if any, keep their numbers.  The
pieces of two rows that are twins are twins, in the same order, and wait for metavariables that are
partners.
-/

namespace RowML

/-! ## Global tables -/

/-- The tables have the same definitions and modules, and these are their own twins. -/
structure Globals.Twin (ρ : Renumbering) (globals globals' : Globals) : Prop where
  definitions : globals'.definitions = globals.definitions
  modules : globals'.modules = globals.modules
  cons : ∀ c ∈ globals.cons, c.Twin ρ c

namespace Globals.Twin

variable {ρ ρ' : Renumbering} {globals globals' : Globals}

theorem mono (h : globals.Twin ρ globals') (hρ : ρ ≤ ρ') : globals.Twin ρ' globals' :=
  { h with cons := fun c hc => (h.cons c hc).mono hρ }

theorem definition?_eq (h : globals.Twin ρ globals') (id : DefId) :
    globals'.definition? id = globals.definition? id := by
  rw [definition?, definition?, h.definitions]

theorem module_eq (h : globals.Twin ρ globals') (id : ModuleId) :
    globals'.module id = globals.module id := by
  rw [module, module, h.modules]

theorem canonical_eq (h : globals.Twin ρ globals') (ref : ModuleRef) :
    globals'.canonical ref = globals.canonical ref := by
  obtain ⟨id, path⟩ := ref
  simp only [canonical]
  induction path generalizing id with
  | nil => rfl
  | cons name rest ih =>
    simp only [canonicalFrom, h.module_eq]
    split
    next inner _ => exact ih inner
    next => rfl

theorem moduleItem?_eq (h : globals.Twin ρ globals') (ref : ModuleRef) (name : String)
    (sort : Namespace) :
    globals'.moduleItem? ref name sort = globals.moduleItem? ref name sort := by
  simp only [moduleItem?, moduleSignature?, h.canonical_eq, h.module_eq]

theorem isClassHead_eq (h : globals.Twin ρ globals') (c : Con) :
    globals'.isClassHead c = globals.isClassHead c := by
  cases c <;> simp only [isClassHead, isClassDefinition, h.definition?_eq, h.moduleItem?_eq]

theorem isClassHead_twins (h : globals.Twin ρ globals') {c c' : Con} (hc : c.Twin ρ c') :
    globals.isClassHead c = globals'.isClassHead c' := by
  rw [h.isClassHead_eq]
  cases hc <;> rfl

theorem definition (h : globals.Twin ρ globals') {id : DefId} {kind : Kind} {body : Con}
    (hid : globals.definition? id = some (.con kind body) ∨
      globals.definition? id = some (.class kind (some body))) : body.Twin ρ body :=
  Globals.definition_holds h.cons hid

theorem item (h : globals.Twin ρ globals') {ref : ModuleRef} {name : String} {kind : Kind}
    {body : Con} (hitem : globals.moduleItem? ref name .con = some (.con kind (some body)) ∨
      globals.moduleItem? ref name .con = some (.class kind (some body))) : body.Twin ρ body := by
  refine Globals.moduleItem_holds (P := fun c => c.Twin ρ c) (fun c first refs hc => ?_) .error
    h.cons hitem
  unfold Con.substModules
  split
  · exact hc
  · refine hc.rebuild fun d n n' hn => ?_
    rw [hn.has_eq]
    split
    · exact .some hn
    cases hn with
    | relative level path item =>
      simp only
      split
      · exact .some (.relative level path item)
      · split <;> exact .some (by constructor)
    | _ => exact .none

end Globals.Twin

/-! ## Rows -/

namespace Con.Twin

variable {ρ : Renumbering} {l l' r r' f f' c c' : Con} {k k' domain domain' : Kind}

theorem concatHeads (hl : l.Twin ρ l') (hr : r.Twin ρ r') :
    (Con.concatHeads l r).Twin ρ (Con.concatHeads l' r') := by
  have hempty : ∀ {k : Kind} (r : Con), Con.concatHeads (.row k []) r = r := fun r => by
    cases r <;> rfl
  have herror : ∀ l, Con.concatHeads l .error = .error := fun l => by cases l <;> rfl
  have hempty' : ∀ {k : Kind} {l : Con}, (∀ k, l ≠ .row k []) →
    Con.concatHeads l (.row k []) = l := by
    intro k l hl
    cases l with
    | row k' fields =>
      cases fields with
      | nil => exact absurd rfl (hl k')
      | cons => rfl
    | _ => rfl
  have hnonempty : ∀ {c c' : Con}, c.Twin ρ c' → (∀ k, c ≠ .row k []) → ∀ k, c' ≠ .row k [] := by
    rintro c _ hc hne k rfl
    cases hc with
    | row _ hfields =>
      cases hfields
      exact hne _ rfl
  by_cases hstuck : Con.concatHeads l r = .concat l r
  · have hstuck' : Con.concatHeads l' r' = .concat l' r' := by
      rw [concatHeads_eq_concat_iff] at hstuck ⊢
      obtain ⟨hle, hre, hlne, hrne, hrows⟩ := hstuck
      refine ⟨mt (hl.eq_iff .error).mpr hle, mt (hr.eq_iff .error).mpr hre, hnonempty hl hlne,
        hnonempty hr hrne, ?_⟩
      rintro ⟨⟨k, fields, rfl⟩, k', fields', rfl⟩
      cases hl
      cases hr
      exact hrows ⟨⟨_, _, rfl⟩, _, _, rfl⟩
    rw [hstuck, hstuck']
    exact .concat hl hr
  · by_cases hle : l = .error
    · subst hle
      cases hl
      exact .error
    by_cases hre : r = .error
    · subst hre
      cases hr
      rw [herror, herror]
      exact .error
    by_cases hlne : ∃ k, l = .row k []
    · obtain ⟨k, rfl⟩ := hlne
      cases hl with
      | row _ hfields =>
        cases hfields
        rwa [hempty, hempty]
    have hlne : ∀ k, l ≠ .row k [] := fun k hk => hlne ⟨k, hk⟩
    by_cases hrne : ∃ k, r = .row k []
    · obtain ⟨k, rfl⟩ := hrne
      cases hr with
      | row _ hfields =>
        cases hfields
        rwa [hempty' hlne, hempty' (hnonempty hl hlne)]
    have hrne : ∀ k, r ≠ .row k [] := fun k hk => hrne ⟨k, hk⟩
    by_contra hrows
    refine hstuck (concatHeads_eq_concat_iff.mpr ⟨hle, hre, hlne, hrne, ?_⟩)
    rintro ⟨⟨k, fields, rfl⟩, k', fields', rfl⟩
    cases hl with
    | row hk hfields =>
      cases hr with
      | row hk' hfields' =>
        cases hfields with
        | nil => exact hlne k rfl
        | cons hfield hfields =>
          cases hfields' with
          | nil => exact hrne k' rfl
          | cons hfield' hfields' =>
            exact hrows (.row hk (.cons hfield (List.rel_append hfields (.cons hfield' hfields'))))

theorem isIdentity_eq (h : f.Twin ρ f') : f.isIdentity = f'.isIdentity := by
  cases h with
  | abs x hk hc =>
    cases hc with
    | bvar i => cases i <;> rfl
    | _ => rfl
  | _ => rfl

theorem compose (hdomain : domain.Twin ρ domain') (hf : f.Twin ρ f') (hc : c.Twin ρ c') :
    (Con.compose domain f c).Twin ρ (Con.compose domain' f' c') :=
  .abs "" hdomain (.app (hf.lift 1) (.app (hc.lift 1) (.bvar 0)))

theorem mapRow (hdomain : domain.Twin ρ domain') (hk : k.Twin ρ k') (hf : f.Twin ρ f')
    (hc : c.Twin ρ c') : (Con.mapRow domain k f c).Twin ρ (Con.mapRow domain' k' f' c') := by
  induction c using inductionOnParts generalizing c' with
  | step c ih =>
    cases hc with
    | error => exact .error
    | row _ hfields =>
      refine .row hk (List.rel_map (fun field field' hfield => ?_) hfields)
      exact .intro hfield.fst (.app hf hfield.snd)
    | concat hl hr =>
      exact concatHeads (ih _ (by simp [Con.parts]) hl) (ih _ (by simp [Con.parts]) hr)
    | map hd _ hg hbase => exact .map hd hk (compose hd hf hg) hbase
    | _ => exact .map hdomain hk hf (by constructor <;> assumption)

theorem mapHead (hdomain : domain.Twin ρ domain') (hk : k.Twin ρ k') (hf : f.Twin ρ f')
    (hc : c.Twin ρ c') : (Con.mapHead domain k f c).Twin ρ (Con.mapHead domain' k' f' c') := by
  simp only [Con.mapHead, hc.eq_iff .error, hf.eq_iff .error, hf.isIdentity_eq]
  split
  · exact .error
  split
  · exact hc
  · exact mapRow hdomain hk hf hc

end Con.Twin

/-! ## Reduction -/

open Store (fuelledLockstep)

variable {ρ : Renumbering} {globals globals' : Globals} {c c' : Con}

theorem findField_lockstep {reduce reduce' : Con → FuelM Con}
    (hreduce : ∀ {c c' : Con}, c.Twin ρ c' →
      fuelledLockstep.Rel ρ Con.Twin (reduce c) (reduce' c'))
    {field field' : Con} (hfield : field.Twin ρ field') (fuel : Nat) (h : c.Twin ρ c') :
    fuelledLockstep.Rel ρ (fun ρ => Option.Rel (Con.Twin ρ)) (Con.findField reduce field fuel c)
      (Con.findField reduce' field' fuel c') := by
  induction fuel generalizing c c' with
  | zero => exact fun _ _ _ => .none
  | succ fuel ih =>
    cases h with
    | row hk hfields =>
      refine fuelledLockstep.pure (optionRel_map
        (optionRel_find? hfields fun entry entry' hentry => ?_)
        fun _ _ hentry => hentry.snd)
      simp only [hentry.fst.eq_iff hfield]
    | concat hl hr =>
      refine Lifting.bind_still (hreduce hl) fun l l' hl => ?_
      refine Lifting.bind_still (ih hl) fun found found' hfound => ?_
      cases hfound with
      | some hvalue => exact fuelledLockstep.pure (.some hvalue)
      | none => exact Lifting.bind_still (hreduce hr) fun r r' hr => ih hr
    | _ => exact fuelledLockstep.pure .none

theorem headNormal_lockstep (hg : globals.Twin ρ globals') (fuel : Nat) (h : c.Twin ρ c') :
    fuelledLockstep.Rel ρ Con.Twin (headNormal globals fuel c) (headNormal globals' fuel c') := by
  induction fuel generalizing c c' with
  | zero => exact fun _ _ _ => .none
  | succ fuel ih =>
    refine Lifting.bind_still (Store.resolve_lockstep h) fun r r' hr => ?_
    cases hr with
    | global id =>
      simp only [hg.definition?_eq]
      split
      next hid => exact ih (hg.definition (.inl hid))
      next hid => exact ih (hg.definition (.inr hid))
      next => exact fuelledLockstep.pure (.global id)
    | member module path item =>
      simp only [hg.canonical_eq, hg.moduleItem?_eq]
      split
      next hitem => exact ih (hg.item (.inl hitem))
      next hitem => exact ih (hg.item (.inr hitem))
      next => exact fuelledLockstep.pure (.member _ _ item)
    | app hf ha =>
      refine Lifting.bind_still (ih hf) fun f f' hf => ?_
      cases hf with
      | abs x hk hbody =>
        exact Lifting.bind_still (Store.onKinds_lockstep (Con.subst_lockstep hbody ha))
          fun _ _ hreduced => ih hreduced
      | error => exact fuelledLockstep.pure .error
      | _ => exact fuelledLockstep.pure (.app (by constructor <;> assumption) ha)
    | kapp hf hk =>
      refine Lifting.bind_still (ih hf) fun f f' hf => ?_
      cases hf with
      | kabs x hbody =>
        exact Lifting.bind_still (Store.onKinds_lockstep (Con.substKind_lockstep hbody hk))
          fun _ _ hreduced => ih hreduced
      | error => exact fuelledLockstep.pure .error
      | _ => exact fuelledLockstep.pure (.kapp (by constructor <;> assumption) hk)
    | concat hl hr =>
      exact Lifting.bind_still (ih hl) fun _ _ hl => Lifting.bind_still (ih hr) fun _ _ hr =>
        fuelledLockstep.pure (hl.concatHeads hr)
    | map hd hk hf hr =>
      exact Lifting.bind_still (ih hf) fun _ _ hf => Lifting.bind_still (ih hr) fun _ _ hr =>
        fuelledLockstep.pure (.mapHead hd hk hf hr)
    | proj hr hfield =>
      refine Lifting.bind_still (ih hr) fun r r' hr =>
        Lifting.bind_still (ih hfield) fun f f' hf => ?_
      simp only [hr.eq_iff .error, hf.eq_iff .error]
      split
      · exact fuelledLockstep.pure .error
      refine Lifting.bind_still (findField_lockstep ih hf fuel hr) fun found found' hfound => ?_
      cases hfound with
      | some hvalue => exact ih hvalue
      | none =>
        cases hr with
        | map _ _ hg hbase => exact ih (.app hg (.proj hbase hf))
        | _ => exact fuelledLockstep.pure (.proj (by constructor <;> assumption) hf)
    | component ht i =>
      refine Lifting.bind_still (ih ht) fun t t' ht => ?_
      cases ht with
      | @tuple cs cs' hcs =>
        have hcomponent := optionRel_getElem? hcs i
        simp only
        revert hcomponent
        generalize cs[i]? = component, cs'[i]? = component'
        rintro (hcomponent | _)
        · exact ih hcomponent
        · exact fuelledLockstep.pure .error
      | error => exact fuelledLockstep.pure .error
      | _ => exact fuelledLockstep.pure (.component (by constructor <;> assumption) i)
    | _ => exact fuelledLockstep.pure (by constructor <;> assumption)

/-! ## Row summaries -/

variable {ρ' : Renumbering}

/-- The same piece. -/
inductive Piece.Twin (ρ : Renumbering) : Piece → Piece → Prop where
  | field {name value name' value' : Con} (hname : name.Twin ρ name')
    (hvalue : value.Twin ρ value') :
    Twin ρ (.field name value) (.field name' value')
  | atom {c c' : Con} (hc : c.Twin ρ c') : Twin ρ (.atom c) (.atom c')
  | flex {c c' : Con} {i j : MetaId} (hc : c.Twin ρ c') (hi : ρ.cells i j) :
    Twin ρ (.flex c i) (.flex c' j)
  | error : Twin ρ .error .error

namespace Piece.Twin

variable {p p' : Piece}

theorem mono (h : p.Twin ρ p') (hρ : ρ ≤ ρ') : p.Twin ρ' p' := by
  cases h with
  | field hname hvalue => exact .field (hname.mono hρ) (hvalue.mono hρ)
  | atom hc => exact .atom (hc.mono hρ)
  | flex hc hi => exact .flex (hc.mono hρ) (hρ.cells _ _ hi)
  | error => exact .error

theorem isField_eq (h : p.Twin ρ p') : p.isField = p'.isField := by
  cases h <;> rfl

theorem isFlex_eq (h : p.Twin ρ p') : p.isFlex = p'.isFlex := by
  cases h <;> rfl

theorem eq_error_iff (h : p.Twin ρ p') : p = .error ↔ p' = .error := by
  cases h <;> simp

theorem field? (h : p.Twin ρ p') : Option.Rel (Both (Con.Twin ρ)) p.field? p'.field? := by
  cases h with
  | field hname hvalue => exact .some (.intro hname hvalue)
  | _ => exact .none

theorem rest? (h : p.Twin ρ p') : Option.Rel (Con.Twin ρ) p.rest? p'.rest? := by
  cases h with
  | atom hc | flex hc _ => exact .some hc
  | _ => exact .none

theorem hasRest_eq (h : p.Twin ρ p') : p.rest?.isSome = p'.rest?.isSome := by
  cases h <;> rfl

theorem blocker? (h : p.Twin ρ p') : Option.Rel ρ.cells p.blocker? p'.blocker? := by
  cases h with
  | flex _ hi => exact .some hi
  | field hname _ =>
    cases hname with
    | mvar hi _ => exact .some hi
    | _ => exact .none
  | _ => exact .none

end Piece.Twin

/-- The same pieces. -/
abbrev Row.Twins (ρ : Renumbering) : List Piece → List Piece → Prop := List.Forall₂ (Piece.Twin ρ)

/-! ## Metavariables that are waited for -/

theorem insertLast_twins {is js : List MetaId} {i j : MetaId} (h : List.Forall₂ ρ.cells is js)
    (hi : ρ.cells i j) : List.Forall₂ ρ.cells (insertLast is i) (insertLast js j) := by
  simp only [insertLast, contains_eq_of_forall₂ ρ.cells_unique h hi]
  split
  · exact h
  · exact List.rel_append h (.cons hi .nil)

theorem foldl_insertLast_twins {is js is' js' : List MetaId} (h : List.Forall₂ ρ.cells is js)
    (h' : List.Forall₂ ρ.cells is' js') :
    List.Forall₂ ρ.cells (is'.foldl insertLast is) (js'.foldl insertLast js) :=
  List.rel_foldl (P := List.Forall₂ ρ.cells) (R := ρ.cells)
    (fun _ _ h _ _ hi => insertLast_twins h hi) h h'

namespace Row

theorem blocker?_twins (h : c.Twin ρ c') : Option.Rel ρ.cells (blocker? c) (blocker? c') := by
  induction c using Con.inductionOnParts generalizing c' with
  | step c ih =>
    cases h with
    | mvar hi _ => exact .some hi
    | app hf _ | kapp hf _ | component hf _ =>
      have ih := ih _ (by simp [Con.parts]) hf
      exact ih
    | map _ _ ha hb =>
      exact optionRel_or (ih _ (by simp [Con.parts]) hb) (ih _ (by simp [Con.parts]) ha)
    | proj ha hb =>
      exact optionRel_or (ih _ (by simp [Con.parts]) ha) (ih _ (by simp [Con.parts]) hb)
    | concat ha hb =>
      exact optionRel_or (ih _ (by simp [Con.parts]) ha) (ih _ (by simp [Con.parts]) hb)
    | _ => exact .none

theorem remainder_twins (h : c.Twin ρ c') : (remainder c).Twin ρ (remainder c') := by
  have hblocker := blocker?_twins h
  simp only [remainder]
  revert hblocker
  generalize blocker? c = b, blocker? c' = b'
  rintro (hi | _)
  · exact .flex h hi
  · exact .atom h

/-! ## Lists of pieces -/

variable {ps ps' : List Piece}

theorem fields_twins (h : Twins ρ ps ps') :
    List.Forall₂ (Both (Con.Twin ρ)) (fields ps) (fields ps') :=
  List.rel_filterMap (fun _ _ hp => hp.field?) h

theorem hasError_eq (h : Twins ρ ps ps') : hasError ps = hasError ps' := by
  rw [Bool.eq_iff_iff]
  simp only [hasError, List.contains_iff_mem]
  induction h with
  | nil => simp
  | cons hp _ ih => simp only [List.mem_cons, ih, eq_comm (a := Piece.error), hp.eq_error_iff]

theorem blockers_twins (h : Twins ρ ps ps') :
    List.Forall₂ ρ.cells (blockers ps) (blockers ps') :=
  foldl_insertLast_twins .nil (List.rel_filterMap (fun _ _ hp => hp.blocker?) h)

theorem unnamed_twins (h : Twins ρ ps ps') :
    Twins ρ (ps.filter (!·.isField)) (ps'.filter (!·.isField)) :=
  List.rel_filter (fun _ _ hp => by simp only [hp.isField_eq]) h

theorem rebuild_twins {k k' : Kind} (hk : k.Twin ρ k') (h : Twins ρ ps ps') :
    (rebuild k ps).Twin ρ (rebuild k' ps') := by
  have hrests : ∀ {f : Piece → Option Con}, (∀ {p p' : Piece}, p.Twin ρ p' →
      Option.Rel (Con.Twin ρ) (f p) (f p')) →
      List.Forall₂ (Con.Twin ρ) (ps.filterMap f) (ps'.filterMap f) :=
    fun hf => List.rel_filterMap (fun _ _ hp => hf hp) h
  have hconcat : ∀ {first first' : Con} {others others' : List Con}, first.Twin ρ first' →
      List.Forall₂ (Con.Twin ρ) others others' →
      (others.foldl .concat first).Twin ρ (others'.foldl .concat first') :=
    fun hfirst hothers => List.rel_foldl (fun _ _ ha _ _ hb => .concat ha hb) hfirst hothers
  have hfields := fields_twins h
  unfold rebuild
  generalize hrows : List.filterMap _ ps = rows, hrows' : List.filterMap _ ps' = rows'
  have htwins : List.Forall₂ (Con.Twin ρ) rows rows' := by
    rw [← hrows, ← hrows']
    refine hrests fun hp => ?_
    cases hp with
    | field => exact .none
    | error => exact .some .error
    | atom hc | flex hc _ => exact .some hc
  revert hfields htwins
  generalize fields ps = known, fields ps' = known'
  rintro (_ | ⟨hfield, hfields⟩) (_ | ⟨hfirst, hothers⟩)
  · exact .row hk .nil
  · exact hconcat hfirst hothers
  · exact .row hk (.cons hfield hfields)
  · exact hconcat (.row hk (.cons hfield hfields)) (.cons hfirst hothers)

theorem elementKind_twins (h : c.Twin ρ c') : (elementKind c).Twin ρ (elementKind c') := by
  cases h with
  | row hk _ => exact hk
  | _ => exact .type

/-! ## Summaries -/

theorem summarize_lockstep (hg : globals.Twin ρ globals') (fuel : Nat) (h : c.Twin ρ c') :
    fuelledLockstep.Rel ρ Twins (summarize globals fuel c) (summarize globals' fuel c') := by
  induction fuel generalizing c c' with
  | zero => exact fun _ _ _ => .none
  | succ fuel ih =>
    refine Lifting.bind_still (headNormal_lockstep hg fuel h) fun r r' hr => ?_
    cases hr with
    | row _ hfields =>
      refine Lifting.mapM hfields (fun hle h => hle ▸ h) fun _ hle field field' hfield => ?_
      subst hle
      exact Lifting.bind_still (headNormal_lockstep hg fuel hfield.fst) fun _ _ hname =>
        fuelledLockstep.pure (.field hname hfield.snd)
    | concat hl hr =>
      exact Lifting.bind_still (ih hl) fun _ _ hl => Lifting.bind_still (ih hr) fun _ _ hr =>
        fuelledLockstep.pure (List.rel_append hl hr)
    | error => exact fuelledLockstep.pure (.cons .error .nil)
    | _ => exact fuelledLockstep.pure (.cons (remainder_twins (by constructor <;> assumption)) .nil)

/-- The same knowledge of the fields of a row. -/
inductive FieldSet.Twin (ρ : Renumbering) : FieldSet → FieldSet → Prop where
  | closed {fields fields' : List (Con × Con)}
    (hfields : List.Forall₂ (Both (Con.Twin ρ)) fields fields') :
    Twin ρ (.closed fields) (.closed fields')
  | opened {fields fields' : List (Con × Con)} {tail tail' : Con}
    (hfields : List.Forall₂ (Both (Con.Twin ρ)) fields fields') (htail : tail.Twin ρ tail') :
    Twin ρ (.opened fields tail) (.opened fields' tail')
  | unknown {i j : MetaId} (hi : ρ.cells i j) : Twin ρ (.unknown i) (.unknown j)

theorem fieldsOf_lockstep (hg : globals.Twin ρ globals') (fuel : Nat) (h : c.Twin ρ c') :
    fuelledLockstep.Rel ρ FieldSet.Twin (fieldsOf globals fuel c) (fieldsOf globals' fuel c') := by
  refine Lifting.bind_still (summarize_lockstep hg fuel h) fun ps ps' hps => ?_
  have hfields := fields_twins hps
  have hrests := unnamed_twins hps
  have hopened : ∀ {known known' : List (Con × Con)} {rest rest' : List Piece},
      List.Forall₂ (Both (Con.Twin ρ)) known known' → Twins ρ rest rest' →
      fuelledLockstep.Rel ρ FieldSet.Twin
        (pure (.opened known (rebuild (elementKind c) rest)))
        (pure (.opened known' (rebuild (elementKind c') rest'))) :=
    fun hknown hrest => fuelledLockstep.pure
      (.opened hknown (rebuild_twins (elementKind_twins h) hrest))
  simp only
  revert hfields hrests
  generalize fields ps = known, fields ps' = known'
  generalize ps.filter _ = rest, ps'.filter _ = rest'
  intro hknown hrest
  cases hrest with
  | nil => exact fuelledLockstep.pure (.closed hknown)
  | cons hp hrest =>
    have hopened := hopened hknown (.cons hp hrest)
    cases hp with
    | flex hc hi =>
      cases hknown with
      | cons => cases hrest <;> exact hopened
      | nil =>
        cases hrest with
        | nil => exact fuelledLockstep.pure (.unknown hi)
        | cons => exact hopened
    | _ => cases hknown <;> cases hrest <;> exact hopened

end Row

end RowML
