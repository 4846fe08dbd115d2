import Mathlib
import RowML.Proofs.Row.Extension
import RowML.Proofs.Row.Labels

/-!
# The check for disjointness

A check answers that two rows are disjoint only if the labels that they have under an instantiation
are, and that they overlap only if the label is one of both.  Facts are what is assumed of the
instantiation.  Rows of which all labels are known are always decided.
-/

namespace RowML

open RowML.Con Observed Traits

namespace Row

variable {P Q : List Piece} {known : List (List Con × List Con)}

/-! ## Answers -/

theorem run_checkDisjoint (globals : Globals) (fuel : Nat) (left right : Con) (facts : List Fact) :
    (checkDisjoint globals fuel left right facts).run = (do
      let P ← summarize globals fuel left
      let Q ← summarize globals fuel right
      if hasError P || hasError Q then pure (.ok .definite)
      else
        match sharedLabel? P Q with
        | some field => pure (.error ⟨field, left, right⟩)
        | none => .ok <$> separate globals fuel P Q facts) := by
  have hlift {α β : Type} (x : FuelM α) (f : α → ExceptT Overlap FuelM β) :
      (liftM x >>= f : ExceptT Overlap FuelM β).run = x >>= fun a => (f a).run :=
    ExceptT.run_bind_lift x f
  unfold checkDisjoint
  rw [hlift]
  refine congrArg _ (funext fun P => ?_)
  rw [hlift]
  refine congrArg _ (funext fun Q => ?_)
  split
  · rfl
  · cases sharedLabel? P Q <;> rfl

theorem mem_fields {name value : Con} : (name, value) ∈ fields P ↔ .field name value ∈ P := by
  rw [fields, List.mem_filterMap]
  constructor
  · rintro ⟨piece, hpiece, h⟩
    cases piece with
    | field =>
      cases h
      exact hpiece
    | atom | flex | error => cases h
  · exact fun h => ⟨_, h, rfl⟩

theorem sharedLabel?_eq_some {name : Con} (h : sharedLabel? P Q = some name) :
    ∃ v w, .field name v ∈ P ∧ .field name w ∈ Q := by
  obtain ⟨⟨name', v⟩, hfind, rfl⟩ := Option.map_eq_some_iff.mp h
  have hany := List.find?_some hfind
  simp only [List.any_eq_true, decide_eq_true_eq] at hany
  obtain ⟨⟨name', w⟩, hw, rfl⟩ := hany
  exact ⟨v, w, mem_fields.mp (List.mem_of_find?_eq_some hfind), mem_fields.mp hw⟩

theorem sharedLabel?_eq_none (h : sharedLabel? P Q = none) {name v w : Con}
    (hv : .field name v ∈ P) : .field name w ∉ Q := by
  intro hw
  have hall := List.find?_eq_none.mp (Option.map_eq_none_iff.mp h) _ (mem_fields.mpr hv)
  refine hall (List.any_eq_true.mpr ⟨_, mem_fields.mpr hw, ?_⟩)
  exact decide_eq_true rfl

/-- No label can be in both pieces, as far as the facts go. -/
def Pairing.Settled (known : List (List Con × List Con)) : Pairing → Prop
  | .apart => True
  | .waits _ => False
  | .needsFact a b => covers known a b

/-- A check that answers definitely has settled every pair of pieces. -/
theorem settled_of_waits (hwaits : waits P Q = [])
    (hquestions : ∀ question ∈ questions P Q, covers known question.1 question.2)
    {p q : Piece} (hp : p ∈ P) (hq : q ∈ Q) : (pairing p q).Settled known := by
  have hmem : pairing p q ∈ P.flatMap fun p => Q.map (pairing p) :=
    List.mem_flatMap.mpr ⟨p, hp, List.mem_map_of_mem hq⟩
  cases hpairing : pairing p q with
  | apart => trivial
  | waits var =>
    have hvar : var ∈ waits P Q :=
      mem_foldl_insertLast.mpr (.inr (List.mem_filterMap.mpr ⟨_, hmem, by rw [hpairing]⟩))
    rw [hwaits] at hvar
    cases hvar
  | needsFact a b =>
    exact hquestions (a, b) (List.mem_filterMap.mpr ⟨_, hmem, by rw [hpairing]⟩)

end Row

/-! ## Facts -/

/-- The two rows of the fact have no label in common. -/
structure Fact.Holds (I : Instantiation) (env : Nat → Traits) (fact : Fact) : Prop where
  left : (I.value fact.left env).Proper
  right : (I.value fact.right env).Proper
  disjoint : Disjoint (labels (I.value fact.left env)) (labels (I.value fact.right env))

namespace Instantiation

variable {I : Instantiation} {env : Nat → Traits} {globals : Globals} {store : Store}
  {P Q : List Piece} {known : List (List Con × List Con)}

/-- No constructor of one list shares a label with one of the other. -/
def Separates (I : Instantiation) (env : Nat → Traits) (keys : List Con × List Con) : Prop :=
  ∀ a ∈ keys.1, ∀ b ∈ keys.2, Disjoint (labels (I.value a env)) (labels (I.value b env))

theorem factKeys_separates (hI : I.Knows globals) (fuel : Nat) {fact : Fact}
    (ok : (Store.interpreted I.algebra).Ok store) (hg : globals.Fits store)
    (hleft : fact.left.Fits store) (hright : fact.right.Fits store) :
    Yields (Store.interpreted I.algebra) store (Row.factKeys globals fuel fact) fun keys _ =>
      ∀ env, fact.Holds I env → I.Separates env keys := by
  refine Yields.bind ok (summarize_comprises hI fuel ok hg hleft) ?_
  intro lefts store₁ ok₁ compresses₁ hlefts
  refine Yields.bind ok₁ (summarize_comprises hI fuel ok₁ (hg.evolves compresses₁.toEvolves)
    (hright.evolves compresses₁.toEvolves)) ?_
  intro rights store₂ ok₂ _ hrights
  refine Yields.pure ok₂ fun env hfact a ha b hb => ?_
  exact hfact.disjoint.mono ((hlefts env hfact.left).labels_key ha)
    ((hrights env hfact.right).labels_key hb)

theorem disjoint_of_covers {a b : Con} (h : Row.covers known a b)
    (hknown : ∀ keys ∈ known, I.Separates env keys) :
    Disjoint (labels (I.value a env)) (labels (I.value b env)) := by
  obtain ⟨keys, hkeys, h⟩ := List.any_eq_true.mp h
  simp only [Bool.or_eq_true, Bool.and_eq_true, List.contains_iff_mem] at h
  rcases h with ⟨ha, hb⟩ | ⟨hb, ha⟩
  · exact hknown keys hkeys a ha b hb
  · exact (hknown keys hkeys b hb a ha).symm

/-! ## Soundness -/

/-- Pieces that are settled have no label in common. -/
theorem disjoint_of_settled {p q : Piece} (hp : (I.value p.subject env).Proper)
    (hq : (I.value q.subject env).Proper)
    (hdifferent : ∀ name v w, p = .field name v → q ≠ .field name w)
    (hknown : ∀ keys ∈ known, I.Separates env keys) (h : (Row.pairing p q).Settled known) :
    Disjoint (labels (I.value p.subject env)) (labels (I.value q.subject env)) := by
  unfold Row.pairing at h
  split at h
  · exact h.elim
  · split at h
    next x _ y _ _ =>
      change Disjoint (labels (I.value (.label x) env)) (labels (I.value (.label y) env))
      rw [labels_label, labels_label, Set.disjoint_singleton]
      rintro rfl
      exact hdifferent _ _ _ rfl rfl
    next =>
      split at h
      next a b ha hb =>
        rw [← labels_key ha hp, ← labels_key hb hq]
        exact disjoint_of_covers h hknown
      next hkey =>
        -- only poison has no key
        cases p with
        | error => exact absurd hp not_proper_error
        | field | atom | flex =>
          cases q with
          | error => exact absurd hq not_proper_error
          | field | atom | flex => exact absurd rfl (hkey _ _ rfl)

/-- What is undefined has no labels. -/
theorem disjoint_of_proper {X Y : Traits} (hX : .poison ∉ X) (hY : .poison ∉ Y)
    (h : X.Proper → Y.Proper → Disjoint (labels X) (labels Y)) :
    Disjoint (labels X) (labels Y) := by
  rw [Set.disjoint_left]
  intro x hx hy
  exact Set.disjoint_left.mp (h ⟨⟨_, hx⟩, hX⟩ ⟨⟨_, hy⟩, hY⟩) hx hy

/-- The answer is right about what the rows stand for. -/
structure Decides (I : Instantiation) (left right : Con) (facts : List Fact)
    (answer : Except Overlap Disjointness) : Prop where
  definite : answer = .ok .definite → ∀ env, (∀ fact ∈ facts, fact.Holds I env) →
    .poison ∉ I.value left env → .poison ∉ I.value right env →
      Disjoint (labels (I.value left env)) (labels (I.value right env))
  overlap : ∀ overlap, answer = .error overlap → ∀ env,
    (I.value left env).Proper → (I.value right env).Proper →
      ∃ x, labels (I.value overlap.field env) = {x} ∧
        x ∈ labels (I.value left env) ∧ x ∈ labels (I.value right env)

theorem Comprises.no_error {row : Con} (h : I.Comprises env row P) : ¬ Row.hasError P := by
  intro herror
  have hmem : Piece.error ∈ P := List.contains_iff_mem.mp herror
  exact not_proper_error (h.proper _ hmem)

/-- What the facts say settles every pair of pieces. -/
def Justifies (I : Instantiation) (facts : List Fact) (P Q : List Piece) : Prop :=
  ∃ known, (∀ env, (∀ fact ∈ facts, fact.Holds I env) → ∀ keys ∈ known, I.Separates env keys) ∧
    ∀ p ∈ P, ∀ q ∈ Q, (Row.pairing p q).Settled known

theorem separate_justifies (hI : I.Knows globals) (fuel : Nat) {facts : List Fact}
    (ok : (Store.interpreted I.algebra).Ok store) (hg : globals.Fits store)
    (hfacts : ∀ fact ∈ facts, fact.left.Fits store ∧ fact.right.Fits store) :
    Yields (Store.interpreted I.algebra) store (Row.separate globals fuel P Q facts)
      fun answer _ => answer = .definite → I.Justifies facts P Q := by
  unfold Row.separate
  extract_lets questions blockers decided
  have hdecided {known : List (List Con × List Con)} {store' : Store}
      (ok' : (Store.interpreted I.algebra).Ok store')
      (hknown : ∀ env, (∀ fact ∈ facts, fact.Holds I env) → ∀ keys ∈ known, I.Separates env keys) :
      Yields (Store.interpreted I.algebra) store' (decided known) fun answer _ =>
        answer = .definite → I.Justifies facts P Q := by
    simp only [decided]
    split
    next h =>
      rw [Bool.and_eq_true, List.all_eq_true] at h
      refine Yields.pure ok' fun _ => ⟨known, hknown, fun p hp q hq => ?_⟩
      exact Row.settled_of_waits (List.isEmpty_iff.mp h.1) (fun question => h.2 question) hp hq
    next => exact Yields.pure ok' nofun
  split
  · exact hdecided ok (by simp)
  · have hrun : Yields (Store.interpreted I.algebra) store
        (facts.mapM (Row.factKeys globals fuel)) fun known _ =>
        List.Forall₂ (fun fact keys => ∀ env, fact.Holds I env → I.Separates env keys)
          facts known := by
      refine Yields.mapM ok (fun _ _ h => h) fun fact hfact store₁ ok₁ compresses₁ => ?_
      obtain ⟨hleft, hright⟩ := hfacts fact hfact
      exact factKeys_separates hI fuel ok₁ (hg.evolves compresses₁.toEvolves)
        (hleft.evolves compresses₁.toEvolves) (hright.evolves compresses₁.toEvolves)
    refine Yields.bind ok hrun fun known store₁ ok₁ _ h => hdecided ok₁ fun env hholds => ?_
    exact forall_mem_of_forall₂ h fun fact hfact keys hkeys => hkeys env (hholds fact hfact)

theorem checkDisjoint_yields (hI : I.Knows globals) (fuel : Nat) {left right : Con}
    {facts : List Fact} (ok : (Store.interpreted I.algebra).Ok store) (hg : globals.Fits store)
    (hleft : left.Fits store) (hright : right.Fits store)
    (hfacts : ∀ fact ∈ facts, fact.left.Fits store ∧ fact.right.Fits store) :
    Yields (Store.interpreted I.algebra) store
      (Row.checkDisjoint globals fuel left right facts).run
      fun answer _ => I.Decides left right facts answer := by
  rw [Row.run_checkDisjoint]
  refine Yields.bind ok (summarize_comprises hI fuel ok hg hleft) ?_
  intro P store₁ ok₁ compresses₁ hP
  have hg₁ := hg.evolves compresses₁.toEvolves
  refine Yields.bind ok₁ (summarize_comprises hI fuel ok₁ hg₁
    (hright.evolves compresses₁.toEvolves)) ?_
  intro Q store₂ ok₂ compresses₂ hQ
  have evolves := (compresses₁.trans compresses₂).toEvolves
  split
  next herror =>
    refine Yields.pure ok₂ ⟨fun _ env _ hL hR => disjoint_of_proper hL hR fun hL hR => ?_, by simp⟩
    rcases Bool.or_eq_true_iff.mp herror with h | h
    · exact absurd h (hP env hL).no_error
    · exact absurd h (hQ env hR).no_error
  next =>
  split
  next name hname =>
    refine Yields.pure ok₂ ⟨by simp, ?_⟩
    rintro _ ⟨⟩ env hL hR
    obtain ⟨v, w, hv, hw⟩ := Row.sharedLabel?_eq_some hname
    obtain ⟨x, hx⟩ := (hP env hL).name name v hv
    have hmem : x ∈ labels (I.value name env) := by simp [hx]
    refine ⟨x, hx, ?_, ?_⟩
    · rw [(hP env hL).labels]
      exact ⟨_, hv, hmem⟩
    · rw [(hQ env hR).labels]
      exact ⟨_, hw, hmem⟩
  next hnone =>
    refine Yields.map ok₂ ((separate_justifies hI fuel ok₂ (hg.evolves evolves)
      fun fact hfact => ?_).mono fun answer _ _ _ h => ⟨?_, by simp⟩)
    · exact ⟨(hfacts fact hfact).1.evolves evolves, (hfacts fact hfact).2.evolves evolves⟩
    · rintro ⟨⟩ env hholds hL hR
      refine disjoint_of_proper hL hR fun hL hR => ?_
      obtain ⟨known, hknown, hsettled⟩ := h rfl
      rw [(hP env hL).labels, (hQ env hR).labels, Set.disjoint_left]
      rintro x ⟨p, hp, hxp⟩ ⟨q, hq, hxq⟩
      have hdisjoint := disjoint_of_settled ((hP env hL).proper p hp) ((hQ env hR).proper q hq)
        (fun name v w hv hw => Row.sharedLabel?_eq_none hnone (hv ▸ hp) (hw ▸ hq))
        (hknown env hholds) (hsettled p hp q hq)
      exact Set.disjoint_left.mp hdisjoint hxp hxq

end Instantiation

/-! ## Known labels -/

namespace Row

variable {P Q : List Piece}

/-- Every piece is a field with a constant label. -/
def AllKnown (pieces : List Piece) : Prop :=
  ∀ piece ∈ pieces, ∃ x value, piece = .field (.label x) value

/-- The constant labels among the pieces. -/
def knownLabels (pieces : List Piece) : Set String :=
  {x | ∃ value, Piece.field (.label x) value ∈ pieces}

theorem AllKnown.labels {I : Instantiation} {env : Nat → Traits} {row : Con} (hP : AllKnown P)
    (h : I.Comprises env row P) : labels (I.value row env) = knownLabels P := by
  rw [h.labels]
  ext x
  constructor
  · rintro ⟨piece, hpiece, hx⟩
    obtain ⟨y, value, rfl⟩ := hP piece hpiece
    have hxy : x ∈ Traits.labels (I.value (.label y) env) := hx
    rw [Instantiation.labels_label, Set.mem_singleton_iff] at hxy
    exact ⟨value, hxy ▸ hpiece⟩
  · rintro ⟨value, hpiece⟩
    refine ⟨_, hpiece, ?_⟩
    change x ∈ Traits.labels (I.value (.label x) env)
    rw [Instantiation.labels_label]
    rfl

theorem AllKnown.hasError (hP : AllKnown P) : hasError P = false := by
  refine Bool.eq_false_iff.mpr fun herror => ?_
  obtain ⟨x, value, h⟩ := hP _ (List.contains_iff_mem.mp herror)
  cases h

theorem sharedLabel?_eq_none_iff (hP : AllKnown P) :
    sharedLabel? P Q = none ↔ Disjoint (knownLabels P) (knownLabels Q) := by
  constructor
  · rintro hnone
    rw [Set.disjoint_left]
    rintro x ⟨v, hv⟩ ⟨w, hw⟩
    exact sharedLabel?_eq_none hnone hv hw
  · intro hdisjoint
    refine Option.eq_none_iff_forall_ne_some.mpr fun name hname => ?_
    obtain ⟨v, w, hv, hw⟩ := sharedLabel?_eq_some hname
    obtain ⟨x, _, heq⟩ := hP _ hv
    cases heq
    exact Set.disjoint_left.mp hdisjoint ⟨v, hv⟩ ⟨w, hw⟩

/-- Without anything unknown, nothing is asked and nothing waits. -/
theorem separate_of_allKnown (globals : Globals) (fuel : Nat) (facts : List Fact)
    (hP : AllKnown P) (hQ : AllKnown Q) :
    separate globals fuel P Q facts = pure .definite := by
  have hpairings : ∀ pair ∈ P.flatMap fun p => Q.map (pairing p), pair = .apart := by
    intro pair hpair
    obtain ⟨p, hp, hpair⟩ := List.mem_flatMap.mp hpair
    obtain ⟨q, hq, rfl⟩ := List.mem_map.mp hpair
    obtain ⟨x, v, rfl⟩ := hP p hp
    obtain ⟨y, w, rfl⟩ := hQ q hq
    rfl
  have hquestions : questions P Q = [] :=
    List.filterMap_eq_nil_iff.mpr fun pair hpair => by rw [hpairings pair hpair]
  have hwaits : waits P Q = [] := by
    rw [waits, List.filterMap_eq_nil_iff.mpr fun pair hpair => by rw [hpairings pair hpair]]
    rfl
  rw [separate, hquestions, hwaits]
  rfl

/-- Two rows of which all labels are known are disjoint, or the answer is a label that both have. -/
theorem checkDisjoint_of_allKnown {globals : Globals} {fuel : Nat} {left right : Con}
    {store store₁ store₂ : Store} (facts : List Fact) (hP : AllKnown P) (hQ : AllKnown Q)
    (hleft : summarize globals fuel left store = some (P, store₁))
    (hright : summarize globals fuel right store₁ = some (Q, store₂)) :
    (Disjoint (knownLabels P) (knownLabels Q) →
      (checkDisjoint globals fuel left right facts).run store = some (.ok .definite, store₂)) ∧
    (¬ Disjoint (knownLabels P) (knownLabels Q) → ∃ x ∈ knownLabels P ∩ knownLabels Q,
      (checkDisjoint globals fuel left right facts).run store =
        some (.error ⟨.label x, left, right⟩, store₂)) := by
  have hrun : (checkDisjoint globals fuel left right facts).run store =
      (match sharedLabel? P Q with
        | some field => pure (.error ⟨field, left, right⟩)
        | none => .ok <$> separate globals fuel P Q facts : FuelM _) store₂ := by
    rw [run_checkDisjoint]
    change Option.bind (summarize globals fuel left store) _ = _
    rw [hleft]
    change Option.bind (summarize globals fuel right store₁) _ = _
    rw [hright]
    simp only [Option.bind_some, hP.hasError, hQ.hasError, Bool.or_self, Bool.false_eq_true,
      if_false]
  rw [← sharedLabel?_eq_none_iff hP, hrun, separate_of_allKnown globals fuel facts hP hQ]
  cases hshared : sharedLabel? P Q with
  | none => exact ⟨fun _ => rfl, fun h => absurd rfl h⟩
  | some name =>
    obtain ⟨v, w, hv, hw⟩ := sharedLabel?_eq_some hshared
    obtain ⟨x, _, heq⟩ := hP _ hv
    cases heq
    exact ⟨by simp, fun _ => ⟨x, ⟨⟨v, hv⟩, ⟨w, hw⟩⟩, rfl⟩⟩

/-- Rows that a check calls disjoint have no label in common, and a label that it calls shared is in
both, whatever is put for the unsolved metavariables and the rigid variables, as long as the facts
hold and neither row is poison, which a projection at a repeated label is.  The answer for rows of
which all labels are known is never put off. -/
theorem checkDisjoint_decides {globals : Globals} {store : Store} {fuel : Nat} {left right : Con}
    {facts : List Fact} (ok : store.Steady) (hg : globals.Fits store) (hleft : left.Fits store)
    (hright : right.Fits store)
    (hfacts : ∀ fact ∈ facts, fact.left.Fits store ∧ fact.right.Fits store) :
    (∀ {I : Instantiation} {answer : Except Overlap Disjointness} {store' : Store},
      I.Respects globals store →
      (checkDisjoint globals fuel left right facts).run store = some (answer, store') →
      I.Decides left right facts answer) ∧
    ∀ {P Q : List Piece} {store₁ store₂ : Store}, AllKnown P → AllKnown Q →
      summarize globals fuel left store = some (P, store₁) →
      summarize globals fuel right store₁ = some (Q, store₂) →
      (∀ {I : Instantiation} {env : Nat → Traits}, I.Respects globals store →
        (I.value left env).Proper → (I.value right env).Proper →
        labels (I.value left env) = knownLabels P ∧ labels (I.value right env) = knownLabels Q) ∧
      (Disjoint (knownLabels P) (knownLabels Q) →
        (checkDisjoint globals fuel left right facts).run store = some (.ok .definite, store₂)) ∧
      (¬ Disjoint (knownLabels P) (knownLabels Q) → ∃ x ∈ knownLabels P ∩ knownLabels Q,
        (checkDisjoint globals fuel left right facts).run store =
          some (.error ⟨.label x, left, right⟩, store₂)) := by
  have hexec {α : Type} {x : FuelM α} {s s' : Store} {a : α} (h : x s = some (a, s')) :
      exec x s = some (some a, s') := congrArg (Option.map fun r => (some r.1, r.2)) h
  refine ⟨fun {I answer store'} hI hrun => ?_, fun {P Q store₁ store₂} hP hQ hsummary hsummary' =>
    ⟨fun {I env} hI hL hR => ?_, checkDisjoint_of_allKnown facts hP hQ hsummary hsummary'⟩⟩
  · obtain ⟨-, -, hdecides⟩ := Instantiation.checkDisjoint_yields hI.toKnows fuel ⟨ok, hI.solves⟩ hg
      hleft hright hfacts _ _ (hexec hrun)
    exact hdecides answer rfl
  · obtain ⟨ok₁, compresses, hcomprises⟩ := Instantiation.summarize_comprises hI.toKnows fuel
      ⟨ok, hI.solves⟩ hg hleft _ _ (hexec hsummary)
    obtain ⟨-, -, hcomprises'⟩ := Instantiation.summarize_comprises hI.toKnows fuel ok₁
      (hg.evolves compresses.toEvolves) (hright.evolves compresses.toEvolves) _ _ (hexec hsummary')
    exact ⟨hP.labels (hcomprises P rfl env hL), hQ.labels (hcomprises' Q rfl env hR)⟩

/-- A row with one field. -/
def oneLabel (x : String) (value : Con) : Con := .row .type [(.label x, value)]

theorem oneLabel_fits {store : Store} (x : String) {value : Con} (h : value.Fits store) :
    (oneLabel x value).Fits store :=
  .node (by simp [oneLabel]) (by simpa [oneLabel, parts] using ⟨.leaf (by simp) rfl, h⟩)

theorem labels_oneLabel (I : Instantiation) (env : Nat → Traits) (x : String) (value : Con) :
    IsRow (I.value (oneLabel x value) env) ∧ labels (I.value (oneLabel x value) env) = {x} := by
  have hconstant : ∀ field ∈ [(Con.label x, value)], ∃ y, field.1 = .label y :=
    List.forall_mem_singleton.mpr ⟨x, rfl⟩
  obtain ⟨hrow, hlabels⟩ := Instantiation.isRow_of_constant hconstant
  exact ⟨hrow, hlabels.trans (by simp)⟩

/-- A rigid row with a field at its side, which a fact keeps apart from another field. -/
theorem checkDisjoint_decides_rigid : ∃ (I : Instantiation) (env : Nat → Traits),
    I.Respects Globals.empty Store.empty ∧
    Fact.Holds I env ⟨.skolem 0, oneLabel "B" .int⟩ ∧
    labels (I.value (.concat (.skolem 0) (oneLabel "A" .int)) env) = {"C", "A"} ∧
    Disjoint (labels (I.value (.concat (.skolem 0) (oneLabel "A" .int)) env))
      (labels (I.value (oneLabel "B" .int) env)) ∧
    ∃ x, (checkDisjoint Globals.empty 10 (oneLabel "A" .int) (oneLabel "A" .bool) []).run
      Store.empty =
        some (.error ⟨.label x, oneLabel "A" .int, oneLabel "A" .bool⟩, Store.empty) := by
  let I₀ : Instantiation := {
    metavar := fun _ _ => ⊥
    skolem := fun _ => Traits.fieldOf (approx [.label "C"]) ⊥
    global := fun _ => ⊥
    member := fun _ _ _ => ⊤
    relative := fun _ _ _ => ⊥
    finitary := fun _ => .const ⊥ }
  let I := I₀.solved Store.empty
  let env : Nat → Traits := fun _ => ⊥
  have ok := Store.steady_empty
  have hI : I.Respects Globals.empty Store.empty :=
    Instantiation.respects_solved ok fun _ same => Instantiation.knows_empty same.member
  have hC : labels (approx [.label "C"]) = {"C"} := labels_approx_label "C"
  have hskolem : I.value (.skolem 0) env = Traits.fieldOf (approx [.label "C"]) ⊥ := by
    change I.skolem 0 = _
    exact congrFun (Instantiation.sameNames_unfoldedTimes I₀ Store.empty _).skolem 0
  have hrigid : labels (I.value (.skolem 0) env) = {"C"} := by
    rw [hskolem]
    exact Set.ext fun _ => label_mem_fieldOf hC
  have hrow : IsRow (I.value (.skolem 0) env) := hskolem ▸ isRow_fieldOf hC
  obtain ⟨hrowA, hlabelsA⟩ := labels_oneLabel I env "A" .int
  obtain ⟨hrowB, hlabelsB⟩ := labels_oneLabel I env "B" .int
  have hfact : Fact.Holds I env ⟨.skolem 0, oneLabel "B" .int⟩ := by
    refine ⟨hrow.proper, hrowB.proper, ?_⟩
    rw [hrigid, hlabelsB]
    simp
  have hwhole : IsRow (I.value (.concat (.skolem 0) (oneLabel "A" .int)) env) := hrow.concat hrowA
  have hprim : ∀ p, (Con.prim p).Fits Store.empty := fun p => .leaf (by simp) rfl
  have hskolemFits : (Con.skolem 0).Fits Store.empty := .leaf (by simp) rfl
  have hg : Globals.empty.Fits Store.empty := by simp [Globals.Fits, Globals.cons, Globals.empty]
  obtain ⟨hsound, -⟩ := @checkDisjoint_decides Globals.empty Store.empty 10
    (.concat (.skolem 0) (oneLabel "A" .int)) (oneLabel "B" .int)
    [⟨.skolem 0, oneLabel "B" .int⟩] ok hg (.concat hskolemFits (oneLabel_fits "A" (hprim _)))
    (oneLabel_fits "B" (hprim _)) (by simpa using ⟨hskolemFits, oneLabel_fits "B" (hprim _)⟩)
  obtain ⟨-, hexact⟩ := @checkDisjoint_decides Globals.empty Store.empty 10
    (oneLabel "A" .int) (oneLabel "A" .bool) [] ok hg (oneLabel_fits "A" (hprim _))
    (oneLabel_fits "A" (hprim _)) (by simp)
  refine ⟨I, env, hI, hfact, ?_, ?_, ?_⟩
  · exact (labels_concat hrow.row hrowA.row).trans (by rw [hrigid, hlabelsA]; rfl)
  · exact (hsound hI rfl).definite rfl env (by simpa using hfact) hwhole.clean hrowB.clean
  · have hA : ∀ value, AllKnown [.field (.label "A") value] := fun value =>
      List.forall_mem_singleton.mpr ⟨"A", value, rfl⟩
    obtain ⟨-, -, hoverlap⟩ := hexact (hA .int) (hA .bool) rfl rfl
    have hboth : ¬ Disjoint (knownLabels [.field (.label "A") .int])
        (knownLabels [.field (.label "A") .bool]) :=
      Set.not_disjoint_iff.mpr ⟨"A", ⟨.int, by simp⟩, ⟨.bool, by simp⟩⟩
    obtain ⟨x, -, hrun⟩ := hoverlap hboth
    exact ⟨x, hrun⟩

/-! ## Projections from rows that overlap -/

/-- The field `A` of an unknown row next to a field `A` that holds the row `[X = int]`. -/
def fieldBeside : Con :=
  .proj (.concat (.mvar 0 []) (.row .typeRow [(.label "A", oneLabel "X" .int)])) (.label "A")

/-- A row metavariable, unsolved or solved. -/
def rowOfRows (solution : Option Con) (solved : Array MetaId) : Store :=
  ⟨KindStore.empty, #[⟨.record .typeRow, 0, solution⟩], #[], [], 0, solved⟩

/-- A projection finds the known field although the unknown row may have the label too.  The check
answers that what it finds is apart from `[Y = int]`; once the unknown row has a field `A` that
holds `[Y = int]`, the projection finds that one, and both rows are `[Y = int]`. -/
theorem checkDisjoint_overlooks_repeated :
    let store := rowOfRows none #[]
    let solution := Con.row .typeRow [(.label "A", oneLabel "Y" .int)]
    let store' := rowOfRows (some solution) #[0]
    (checkDisjoint Globals.empty 10 fieldBeside (oneLabel "Y" .int) []).run store =
      some (.ok .definite, store) ∧
    (Store.assign 0 solution).run.run store = (.ok (), store') ∧
    summarize Globals.empty 10 fieldBeside store' =
      some ([.field (.label "Y") .int], store') ∧
    summarize Globals.empty 10 (oneLabel "Y" .int) store' =
      some ([.field (.label "Y") .int], store') :=
  ⟨rfl, rfl, rfl, rfl⟩

end Row

end RowML
