import RowML.Kind.Unify
import RowML.Proofs.Kind.Variables

/-!
# Assignments of kinds to metavariables

A store of kinds is read as the set of assignments that satisfy it: every link is an equation, and
every unbound variable stands for a kind that meets its predicate and has the components demanded of
it.  Kinds are compared up to the names of binders.

The kinds of an assignment may have metavariables of their own, the holes.  What is known of a hole
is given separately; an assignment of closed kinds has none.
-/

namespace RowML

namespace Kind

mutual
/-- Replaces the names of binders and the metavariables of a kind. -/
def replace (rename : String → String) (θ : KindVar → Kind) : Kind → Kind
  | .mvar v => θ v
  | .arrow a b => .arrow (a.replace rename θ) (b.replace rename θ)
  | .record a => .record (a.replace rename θ)
  | .tuple ks => .tuple (replaceList rename θ ks)
  | .poly x body => .poly (rename x) (body.replace rename θ)
  | .type => .type
  | .unit => .unit
  | .name => .name
  | .error => .error
  | .bvar i => .bvar i
def replaceList (rename : String → String) (θ : KindVar → Kind) : List Kind → List Kind
  | [] => []
  | k :: ks => k.replace rename θ :: replaceList rename θ ks
end

/-- Puts the kinds of an assignment for the metavariables. -/
def assign (θ : KindVar → Kind) (k : Kind) : Kind := k.replace id θ

/-- Forgets the names of binders. -/
def nameless (k : Kind) : Kind := k.replace (fun _ => "") .mvar

/-- What a kind stands for under an assignment, up to the names of binders. -/
def reading (θ : KindVar → Kind) (k : Kind) : Kind := (k.assign θ).nameless

@[simp] theorem replaceList_eq (rename : String → String) (θ : KindVar → Kind) (ks : List Kind) :
    replaceList rename θ ks = ks.map (replace rename θ) := by
  induction ks with
  | nil => rfl
  | cons k ks ih => simp [replaceList, ih]

@[simp] theorem mvarsList_eq (ks : List Kind) : mvarsList ks = ks.flatMap mvars := by
  induction ks with
  | nil => rfl
  | cons k ks ih => simp [mvarsList, ih]

theorem replace_tuple (rename : String → String) (θ : KindVar → Kind) (ks : List Kind) :
    (tuple ks).replace rename θ = .tuple (ks.map (replace rename θ)) :=
  congrArg tuple (replaceList_eq rename θ ks)

section Reading

variable (θ : KindVar → Kind)

@[simp] theorem assign_mvar (v : KindVar) : (mvar v).assign θ = θ v := rfl

@[simp] theorem assign_tuple (ks : List Kind) :
    (tuple ks).assign θ = .tuple (ks.map (assign θ)) :=
  replace_tuple id θ ks

@[simp] theorem reading_mvar (v : KindVar) : (mvar v).reading θ = (θ v).nameless := rfl

@[simp] theorem reading_type : type.reading θ = .type := rfl

@[simp] theorem reading_unit : unit.reading θ = .unit := rfl

@[simp] theorem reading_name : name.reading θ = .name := rfl

@[simp] theorem reading_error : error.reading θ = .error := rfl

@[simp] theorem reading_bvar (i : Nat) : (bvar i).reading θ = .bvar i := rfl

@[simp] theorem reading_arrow (a b : Kind) :
    (arrow a b).reading θ = .arrow (a.reading θ) (b.reading θ) :=
  rfl

@[simp] theorem reading_record (a : Kind) : (record a).reading θ = .record (a.reading θ) := rfl

@[simp] theorem reading_poly (x : String) (body : Kind) :
    (poly x body).reading θ = .poly "" (body.reading θ) :=
  rfl

@[simp] theorem reading_tuple (ks : List Kind) :
    (tuple ks).reading θ = .tuple (ks.map (reading θ)) := by
  rw [reading, assign_tuple, nameless, replace_tuple, List.map_map]
  rfl

end Reading

/-! ## Replacements -/

section Replacements

variable {rename rename' : String → String} {σ θ : KindVar → Kind}

theorem mvars_replace (k : Kind) :
    (k.replace rename θ).mvars = k.mvars.flatMap fun v => (θ v).mvars := by
  induction k using inductionOnParts with
  | step k ih =>
    cases k with
    | arrow a b => simp [replace, mvars, ih a (by simp [parts]), ih b (by simp [parts])]
    | record a => simp [replace, mvars, ih a (by simp [parts])]
    | poly x body => simp [replace, mvars, ih body (by simp [parts])]
    | tuple ks =>
      simp only [replace_tuple, mvars, mvarsList_eq, List.flatMap_map, List.flatMap_assoc]
      exact List.flatMap_congr fun k hk => ih k hk
    | mvar v => simp [replace, mvars]
    | type | unit | name | error | bvar => rfl

theorem replace_replace (k : Kind) : (k.replace rename σ).replace rename' θ =
    k.replace (rename' ∘ rename) fun v => (σ v).replace rename' θ := by
  induction k using inductionOnParts with
  | step k ih =>
    cases k with
    | arrow a b => exact congrArg₂ arrow (ih a (by simp [parts])) (ih b (by simp [parts]))
    | record a => exact congrArg record (ih a (by simp [parts]))
    | poly x body => exact congrArg (poly _) (ih body (by simp [parts]))
    | tuple ks =>
      simp only [replace_tuple, List.map_map, Kind.tuple.injEq]
      exact List.map_congr_left fun k hk => ih k hk
    | mvar | type | unit | name | error | bvar => rfl

theorem replace_congr {k : Kind} (h : ∀ v ∈ k.mvars, σ v = θ v) :
    k.replace rename σ = k.replace rename θ := by
  induction k using inductionOnParts with
  | step k ih =>
    have hpart : ∀ p ∈ k.parts, (∀ v ∈ p.mvars, v ∈ k.mvars) →
        p.replace rename σ = p.replace rename θ :=
      fun p hp hmem => ih p hp fun v hv => h v (hmem v hv)
    cases k with
    | mvar v => exact h v (by simp [mvars])
    | arrow a b =>
      exact congrArg₂ arrow (hpart a (by simp [parts]) (by simp +contextual [mvars]))
        (hpart b (by simp [parts]) (by simp +contextual [mvars]))
    | record a => exact congrArg record (hpart a (by simp [parts]) (by simp [mvars]))
    | poly x body => exact congrArg (poly _) (hpart body (by simp [parts]) (by simp [mvars]))
    | tuple ks =>
      simp only [replace_tuple, Kind.tuple.injEq]
      refine List.map_congr_left fun k hk => hpart k hk fun v hv => ?_
      simpa [mvars] using ⟨k, hk, hv⟩
    | type | unit | name | error | bvar => rfl

theorem assign_self (k : Kind) : k.assign .mvar = k := by
  induction k using inductionOnParts with
  | step k ih =>
    cases k with
    | arrow a b => exact congrArg₂ arrow (ih a (by simp [parts])) (ih b (by simp [parts]))
    | record a => exact congrArg record (ih a (by simp [parts]))
    | poly x body => exact congrArg (poly x) (ih body (by simp [parts]))
    | tuple ks =>
      have hks : ∀ k ∈ ks, k.assign .mvar = id k := fun k hk => ih k hk
      rw [assign_tuple, List.map_congr_left hks, List.map_id]
    | mvar | type | unit | name | error | bvar => rfl

end Replacements

section Assignments

variable {σ θ : KindVar → Kind} {k : Kind}

theorem assign_assign (σ θ : KindVar → Kind) (k : Kind) :
    (k.assign σ).assign θ = k.assign fun v => (σ v).assign θ :=
  replace_replace k

theorem assign_congr (h : ∀ v ∈ k.mvars, σ v = θ v) : k.assign σ = k.assign θ :=
  replace_congr h

theorem mem_mvars_assign {w : KindVar} :
    w ∈ (k.assign θ).mvars ↔ ∃ v ∈ k.mvars, w ∈ (θ v).mvars := by
  rw [assign, mvars_replace, List.mem_flatMap]

@[simp] theorem mvars_nameless (k : Kind) : k.nameless.mvars = k.mvars := by
  simp [nameless, mvars_replace, mvars]

/-- A reading depends on the readings of the metavariables only. -/
theorem reading_eq_replace (θ : KindVar → Kind) (k : Kind) :
    k.reading θ = k.replace (fun _ => "") fun v => (θ v).nameless :=
  replace_replace k

/-- Assignments that read the metavariables of a kind alike read the kind alike. -/
theorem reading_congr (h : ∀ v ∈ k.mvars, (mvar v).reading σ = (mvar v).reading θ) :
    k.reading σ = k.reading θ := by
  rw [reading_eq_replace, reading_eq_replace]
  exact replace_congr h

theorem reading_assign (σ θ : KindVar → Kind) (k : Kind) :
    (k.assign σ).reading θ = k.reading fun v => (σ v).assign θ :=
  congrArg nameless (assign_assign σ θ k)

end Assignments

/-- Kinds that stand for the same kind have the same outermost constructor, or one of them is a
metavariable. -/
theorem heads_of_reading_eq {a b : Kind} {θ : KindVar → Kind} (ha : ∀ v, a ≠ .mvar v)
    (hb : ∀ v, b ≠ .mvar v) (h : a.reading θ = b.reading θ) :
    a = b ∨ (∃ d c d' c', a = .arrow d c ∧ b = .arrow d' c') ∨
      (∃ e e', a = .record e ∧ b = .record e') ∨ (∃ ks ks', a = .tuple ks ∧ b = .tuple ks') ∨
      ∃ x body y body', a = .poly x body ∧ b = .poly y body' := by
  cases a <;> cases b <;> simp_all

/-! ## Sizes -/

private theorem sizeOf_le_of_mem {θ : KindVar → Kind} {ks : List Kind} {k : Kind} (hk : k ∈ ks) :
    sizeOf (k.reading θ) < sizeOf ((Kind.tuple ks).reading θ) := by
  have := List.sizeOf_lt_of_mem (List.mem_map_of_mem (f := reading θ) hk)
  rw [reading_tuple, Kind.tuple.sizeOf_spec]
  omega

theorem sizeOf_part_lt (θ : KindVar → Kind) {k p : Kind} (hp : p ∈ k.parts) :
    sizeOf (p.reading θ) < sizeOf (k.reading θ) := by
  cases k with
  | arrow a b =>
    simp only [parts, List.mem_cons, List.not_mem_nil, or_false] at hp
    rw [reading_arrow, Kind.arrow.sizeOf_spec]
    rcases hp with rfl | rfl <;> omega
  | record a =>
    simp only [parts, List.mem_cons, List.not_mem_nil, or_false] at hp
    rw [reading_record, Kind.record.sizeOf_spec, hp]
    omega
  | poly x body =>
    simp only [parts, List.mem_cons, List.not_mem_nil, or_false] at hp
    rw [reading_poly, Kind.poly.sizeOf_spec, hp]
    omega
  | tuple ks => exact sizeOf_le_of_mem hp
  | type | unit | name | error | bvar | mvar => cases hp

theorem exists_part_of_mem_mvars {k : Kind} {v : KindVar} (hv : v ∈ k.mvars) (hk : k ≠ .mvar v) :
    ∃ p ∈ k.parts, v ∈ p.mvars := by
  cases k with
  | mvar w =>
    rw [mvars, List.mem_singleton] at hv
    exact absurd (congrArg mvar hv.symm) hk
  | arrow | record | poly | tuple => simpa [mvars, parts] using hv
  | type | unit | name | error | bvar => cases hv

theorem mem_mvars_of_part {k p : Kind} {v : KindVar} (hp : p ∈ k.parts) (hv : v ∈ p.mvars) :
    v ∈ k.mvars := by
  have h : ∃ p ∈ k.parts, v ∈ p.mvars := ⟨p, hp, hv⟩
  cases k with
  | arrow | record | poly | tuple => simpa [mvars, parts] using h
  | type | unit | name | error | bvar | mvar => cases hp

theorem sizeOf_mvar_le (θ : KindVar → Kind) {k : Kind} {v : KindVar} (hv : v ∈ k.mvars) :
    sizeOf ((mvar v).reading θ) ≤ sizeOf (k.reading θ) := by
  induction k using inductionOnParts with
  | step k ih =>
    by_cases hk : k = .mvar v
    · exact hk ▸ Nat.le_refl _
    · obtain ⟨p, hp, hvp⟩ := exists_part_of_mem_mvars hv hk
      exact Nat.le_trans (ih p hp hvp) (Nat.le_of_lt (sizeOf_part_lt θ hp))

/-- A metavariable inside a kind stands for less than the kind. -/
theorem reading_mvar_ne (θ : KindVar → Kind) {k : Kind} {v : KindVar} (hv : v ∈ k.mvars)
    (hk : k ≠ .mvar v) : (mvar v).reading θ ≠ k.reading θ := by
  obtain ⟨p, hp, hvp⟩ := exists_part_of_mem_mvars hv hk
  have hlt := Nat.lt_of_le_of_lt (sizeOf_mvar_le θ hvp) (sizeOf_part_lt θ hp)
  exact fun heq => absurd (congrArg sizeOf heq) (Nat.ne_of_lt hlt)

end Kind

/-! ## Predicates -/

namespace KindPredicate

/-- Whatever meets the first predicate meets the second. -/
def Entails (p q : KindPredicate) : Prop := p.meet q = some p

theorem Entails.refl (p : KindPredicate) : p.Entails p := by
  cases p <;> simp [Entails]

theorem entails_meet {p q r : KindPredicate} (s : KindPredicate) (h : p.meet q = some r) :
    s.Entails r ↔ s.Entails p ∧ s.Entails q := by
  cases p <;> cases q <;> cases s <;> grind [Entails, meet]

theorem meet_ne_none {p q s : KindPredicate} (hp : s.Entails p) (hq : s.Entails q) :
    p.meet q ≠ none := by
  cases p <;> cases q <;> cases s <;> simp_all [Entails]

/-- A demand on the width is never dropped. -/
theorem exists_width_of_meet {p q r : KindPredicate} {width : Nat} (h : p.meet q = some r)
    (hwidth : p = .tupleWidth width ∨ q = .tupleWidth width) :
    ∃ width', r = .tupleWidth width' ∧ width ≤ width' := by
  cases p <;> cases q <;> grind [meet]

theorem admits_meet {p q r : KindPredicate} (k : Kind) (h : p.meet q = some r) :
    KindStore.admits r k = true ↔ KindStore.admits p k = true ∧ KindStore.admits q k = true := by
  cases p <;> cases q <;> cases k <;> grind [KindStore.admits, meet]

theorem meet_ne_none_of_admits {p q : KindPredicate} {k : Kind} (hp : KindStore.admits p k = true)
    (hq : KindStore.admits q k = true) : p.meet q ≠ none := by
  cases p <;> cases q <;> cases k <;> simp_all

end KindPredicate

/-- What is known of the holes in the kinds of an assignment. -/
structure Holes where
  predicate : KindVar → KindPredicate
  component : KindVar → Nat → Option Kind

namespace Holes

variable (holes : Holes)

/-- The kind meets a predicate, as far as can be told. -/
def Meets (p : KindPredicate) : Kind → Prop
  | .mvar w => (holes.predicate w).Entails p
  | k => KindStore.admits p k = true

/-- The kind of a component, as far as can be told. -/
def component? : Kind → Nat → Option Kind
  | .mvar w, i => holes.component w i
  | .tuple ks, i => ks[i]?
  | _, _ => none

variable {holes}

theorem meets_iff_admits {p : KindPredicate} {k : Kind} (hk : ∀ w, k ≠ .mvar w) :
    holes.Meets p k ↔ KindStore.admits p k = true := by
  cases k with
  | mvar w => exact absurd rfl (hk w)
  | _ => exact Iff.rfl

theorem meets_meet {p q r : KindPredicate} (h : p.meet q = some r) (k : Kind) :
    holes.Meets r k ↔ holes.Meets p k ∧ holes.Meets q k := by
  cases k with
  | mvar w => exact KindPredicate.entails_meet _ h
  | _ => exact KindPredicate.admits_meet _ h

theorem meet_ne_none {p q : KindPredicate} {k : Kind} (hp : holes.Meets p k)
    (hq : holes.Meets q k) : p.meet q ≠ none := by
  cases k with
  | mvar w => exact KindPredicate.meet_ne_none hp hq
  | _ => exact KindPredicate.meet_ne_none_of_admits hp hq

end Holes

/-! ## Satisfied stores -/

namespace KindVarState

variable (holes : Holes) (θ : KindVar → Kind) (k : Kind)

/-- What is known of a variable holds of the kind that it stands for, if one leaves aside what is
demanded of components. -/
def ObeyedBy : KindVarState → Prop
  | .link target => k = target.reading θ
  | .unbound predicate _ => holes.Meets predicate k

/-- The kind has the components that are demanded. -/
def Holds (components : List (Nat × Kind)) : Prop :=
  ∀ demand ∈ components, holes.component? k demand.1 = some (demand.2.reading θ)

/-- What is known of a variable holds of the kind that it stands for. -/
def SatisfiedBy : KindVarState → Prop
  | .link target => k = target.reading θ
  | .unbound predicate components => holes.Meets predicate k ∧ Holds holes θ k components

variable {holes θ k}

theorem SatisfiedBy.obeyedBy {state : KindVarState} (h : state.SatisfiedBy holes θ k) :
    state.ObeyedBy holes θ k := by
  cases state with
  | link target => exact h
  | unbound predicate components => exact h.1

end KindVarState

namespace KindStore

/-- Every linked variable stands for what it is linked to. -/
def Equates (store : KindStore) (θ : KindVar → Kind) : Prop :=
  ∀ ⦃v target⦄, store.stateOf v = .link target → (Kind.mvar v).reading θ = target.reading θ

def Obeys (store : KindStore) (holes : Holes) (θ : KindVar → Kind) : Prop :=
  ∀ v, (store.stateOf v).ObeyedBy holes θ ((Kind.mvar v).reading θ)

def Satisfies (store : KindStore) (holes : Holes) (θ : KindVar → Kind) : Prop :=
  ∀ v, (store.stateOf v).SatisfiedBy holes θ ((Kind.mvar v).reading θ)

section Satisfies

variable {store : KindStore} {holes : Holes} {θ : KindVar → Kind} {v : KindVar}
  {predicate : KindPredicate} {components : List (Nat × Kind)}

theorem Satisfies.obeys (h : store.Satisfies holes θ) : store.Obeys holes θ :=
  fun v => (h v).obeyedBy

theorem Obeys.equates (h : store.Obeys holes θ) : store.Equates θ :=
  fun v _ hv => (congrArg (KindVarState.ObeyedBy holes θ _) hv).mp (h v)

theorem Obeys.meets (h : store.Obeys holes θ)
    (hv : store.stateOf v = .unbound predicate components) :
    holes.Meets predicate ((Kind.mvar v).reading θ) :=
  (congrArg (KindVarState.ObeyedBy holes θ _) hv).mp (h v)

theorem Satisfies.holds (h : store.Satisfies holes θ)
    (hv : store.stateOf v = .unbound predicate components) :
    KindVarState.Holds holes θ ((Kind.mvar v).reading θ) components :=
  ((congrArg (KindVarState.SatisfiedBy holes θ _) hv).mp (h v)).2

end Satisfies

/-- An assignment of closed kinds that satisfies every link, every predicate and every demand on a
component. -/
structure Solution (store : KindStore) (θ : KindVar → Kind) : Prop where
  closed : ∀ v, (θ v).mvars = []
  links : ∀ {v target}, store.stateOf v = .link target → (θ v).nameless = target.reading θ
  predicates : ∀ {v predicate components}, store.stateOf v = .unbound predicate components →
    admits predicate (θ v) = true
  demands : ∀ {v predicate components}, store.stateOf v = .unbound predicate components →
    ∀ demand ∈ components, ∃ ks component, θ v = .tuple ks ∧ ks[demand.1]? = some component ∧
      component.nameless = demand.2.reading θ

theorem admits_nameless (p : KindPredicate) (k : Kind) : admits p k.nameless = admits p k := by
  cases k <;> cases p <;> simp [Kind.nameless, Kind.replace]

private theorem component?_nameless {holes : Holes} {k k' : Kind} {i : Nat}
    (hk : ∀ w, k ≠ .mvar w) : holes.component? k.nameless i = some k' ↔
      ∃ ks component, k = .tuple ks ∧ ks[i]? = some component ∧ component.nameless = k' := by
  cases k with
  | mvar w => exact absurd rfl (hk w)
  | tuple ks =>
    simp only [Kind.nameless, Kind.replace, Kind.replaceList_eq, Holes.component?,
      List.getElem?_map, Option.map_eq_some_iff, Kind.tuple.injEq]
    exact ⟨fun ⟨c, hc, hk⟩ => ⟨ks, c, rfl, hc, hk⟩, fun ⟨_, c, h, hc, hk⟩ => ⟨c, h ▸ hc, hk⟩⟩
  | _ => simp [Kind.nameless, Kind.replace, Holes.component?]

theorem meets_nameless {holes : Holes} {p : KindPredicate} {k : Kind} (hk : k.mvars = []) :
    holes.Meets p k.nameless ↔ admits p k = true := by
  rw [Holes.meets_iff_admits, admits_nameless]
  intro w hw
  have := k.mvars_nameless
  simp [hw, hk, Kind.mvars] at this

/-- For closed kinds it does not matter what is known of holes. -/
theorem solution_iff {store : KindStore} {θ : KindVar → Kind} (holes : Holes) :
    store.Solution θ ↔ (∀ v, (θ v).mvars = []) ∧ store.Satisfies holes θ := by
  have hne : (∀ v, (θ v).mvars = []) → ∀ v w, θ v ≠ .mvar w := by
    intro hclosed v w h
    simpa [h, Kind.mvars] using hclosed v
  constructor
  · refine fun h => ⟨h.closed, fun v => ?_⟩
    cases hv : store.stateOf v with
    | link target => exact h.links hv
    | unbound predicate components =>
      refine ⟨(meets_nameless (h.closed v)).mpr (h.predicates hv), fun demand hmem => ?_⟩
      exact (component?_nameless (hne h.closed v)).mpr (h.demands hv demand hmem)
  · rintro ⟨hclosed, h⟩
    refine ⟨hclosed, fun hv => h.obeys.equates hv, fun {v _ _} hv => ?_,
      fun {v _ _} hv demand hmem => ?_⟩
    · exact (meets_nameless (hclosed v)).mp (h.obeys.meets hv)
    · exact (component?_nameless (hne hclosed v)).mp (h.holds hv demand hmem)

end KindStore

end RowML
