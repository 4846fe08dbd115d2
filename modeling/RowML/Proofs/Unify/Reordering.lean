import RowML.Proofs.Row.Shape
import RowML.Proofs.Unify.Principal

/-!
# Rows with the same pieces

Two rows whose summaries are the same up to order unify whatever their pieces are.  Every field
finds its partner by name and has the same value, every remainder cancels with itself, and nothing
is left that a metavariable would have to take.  If one of the rows is no literal and no
concatenation, its only piece is the row itself, and so the rows are equal.
-/

namespace RowML

open RowML.Con

namespace Unify

variable {globals : Globals} {store : Store} {left right extra pieces : List Piece}

/-! ## Fields -/

theorem exists_takeField {name value : Con} (h : .field name value ∈ pieces) :
    ∃ other rest, takeField name pieces = some (other, rest) := by
  induction pieces with
  | nil => cases h
  | cons piece pieces ih =>
    have hlater : .field name value ∈ pieces → ∃ other rest,
        (takeField name pieces).map (fun r => (r.1, piece :: r.2)) = some (other, rest) := by
      intro hmem
      obtain ⟨other, rest, htake⟩ := ih hmem
      exact ⟨other, piece :: rest, by rw [htake]; rfl⟩
    cases piece with
    | field name' value' =>
      simp only [takeField]
      split
      next => exact ⟨_, _, rfl⟩
      next hne =>
        refine hlater ((List.mem_cons.mp h).resolve_left fun heq => ?_)
        cases heq
        exact hne rfl
    | _ => exact hlater ((List.mem_cons.mp h).resolve_left fun heq => by cases heq)

/-- The unifier finds every constructor equal to itself at once. -/
def Reflexive (unify : Con → Con → UnifyM Unit) : Prop :=
  ∀ c state, exec (unify c c) state = some (some (), state)

/-- Fields with distinct names find their partners, of the same value, and what remains is what was
no field. -/
theorem matchFields_of_perm (hextra : ∀ p ∈ extra, p.isField = false)
    (perm : right.Perm (left ++ extra)) (hnames : ((Row.fields left).map (·.1)).Nodup) :
    ∃ rest, rest.Perm (left.filter (!·.isField) ++ extra) ∧
      ∀ {unify : Con → Con → UnifyM Unit}, Reflexive unify → ∀ state,
        exec (matchFields unify left right) state =
          some (some (left.filter (!·.isField), rest), state) := by
  induction left generalizing right extra with
  | nil => exact ⟨right, perm, fun _ _ => by simp [matchFields]⟩
  | cons piece left ih =>
    have hkept : piece.isField = false → ∃ rest,
        rest.Perm (piece :: left.filter (!·.isField) ++ extra) ∧
        ∀ {unify : Con → Con → UnifyM Unit}, Reflexive unify → ∀ state, exec
          (matchFields unify left right >>= fun r => pure (piece :: r.1, r.2)) state =
            some (some (piece :: left.filter (!·.isField), rest), state) := by
      intro hpiece
      have hnames' : ((Row.fields left).map (·.1)).Nodup := by
        cases piece with
        | field => cases hpiece
        | _ => exact hnames
      -- the piece stays where it is on the other side
      obtain ⟨rest, hrest, hrun⟩ := ih (List.forall_mem_cons.mpr ⟨hpiece, hextra⟩)
        (perm.trans List.perm_middle.symm) hnames'
      exact ⟨rest, hrest.trans List.perm_middle, fun h state => by
        rw [exec_bind, hrun h]
        rfl⟩
    cases piece with
    | field name value =>
      obtain ⟨hname, hnames⟩ := List.nodup_cons.mp hnames
      obtain ⟨other, rest, htake⟩ := exists_takeField
        (perm.mem_iff.mpr (List.mem_cons_self (a := Piece.field name value)))
      have htaken := takeField_perm htake
      obtain rfl : value = other := by
        have hmem : .field name other ∈ .field name value :: left ++ extra :=
          perm.mem_iff.mp (htaken.mem_iff.mpr (by simp))
        rcases List.mem_append.mp hmem with hmem | hmem
        · rcases List.mem_cons.mp hmem with heq | hmem
          · cases heq
            rfl
          · exact absurd (List.mem_map.mpr
              ⟨(name, other), List.mem_filterMap.mpr ⟨_, hmem, rfl⟩, rfl⟩) hname
        · cases hextra _ hmem
      obtain ⟨rest', hrest', hrun⟩ := ih hextra ((htaken.symm.trans perm).cons_inv) hnames
      refine ⟨rest', hrest', fun h state => ?_⟩
      simp only [matchFields, htake]
      rw [exec_bind, h]
      exact hrun h state
    | _ => exact hkept rfl

/-! ## Remainders -/

theorem takeRest_ne_none {c : Con} (h : c ∈ pieces.filterMap Piece.rest?) :
    takeRest c pieces ≠ none := by
  induction pieces with
  | nil => cases h
  | cons piece pieces ih =>
    simp only [takeRest]
    split
    next => exact Option.some_ne_none _
    next hne =>
      rw [ne_eq, Option.map_eq_none_iff]
      refine ih ?_
      obtain ⟨found, hfound, hrest⟩ := List.mem_filterMap.mp h
      refine List.mem_filterMap.mpr ⟨found, (List.mem_cons.mp hfound).resolve_left ?_, hrest⟩
      rintro rfl
      exact hne hrest

/-- The same remainders cancel. -/
theorem cancelRests_of_perm (hleft : ∀ p ∈ left, p.rest? ≠ none)
    (hright : ∀ p ∈ right, p.rest? ≠ none)
    (perm : (left.filterMap Piece.rest?).Perm (right.filterMap Piece.rest?)) :
    cancelRests left right = ([], []) := by
  induction left generalizing right with
  | nil =>
    cases right with
    | nil => rfl
    | cons piece right =>
      obtain ⟨c, hc⟩ := Option.ne_none_iff_exists'.mp (hright piece (by simp))
      rw [List.filterMap_cons_some hc] at perm
      cases perm.nil_eq
  | cons piece left ih =>
    obtain ⟨hpiece, hleft⟩ := List.forall_mem_cons.mp hleft
    obtain ⟨c, hc⟩ := Option.ne_none_iff_exists'.mp hpiece
    rw [List.filterMap_cons_some hc] at perm
    obtain ⟨rest, htake⟩ := Option.ne_none_iff_exists'.mp
      (takeRest_ne_none (perm.mem_iff.mp List.mem_cons_self))
    obtain ⟨found, hfound, hperm⟩ := takeRest_perm htake
    have hrest : ∀ p ∈ rest, p.rest? ≠ none := fun p hp =>
      hright p (hperm.mem_iff.mpr (List.mem_cons_of_mem found hp))
    have hnext : (left.filterMap Piece.rest?).Perm (rest.filterMap Piece.rest?) := by
      have := perm.trans (hperm.filterMap Piece.rest?)
      rw [List.filterMap_cons_some hfound] at this
      exact this.cons_inv
    simp only [cancelRests, hc, Option.bind_some, htake]
    exact ih hleft hrest hnext

/-! ## Rows -/

/-- The discipline of unification where it only reads: nothing is postponed. -/
def rereading : Discipline (List Postponed × Store) where
  Ok state := Store.rereading.Ok state.2
  Grows state state' := state'.1 = state.1 ∧ state.2.SameReadings state'.2
  refl _ ok := ⟨rfl, .refl ok.2⟩
  trans _ _ _ h h' := ⟨h'.1.trans h.1, h.2.trans h'.2⟩

theorem ends_of_store {α : Type} {x : Nat → FuelM α} {state : List Postponed × Store}
    {Post : α → Store → Prop} (h : Ends Store.rereading state.2 x Post) :
    Ends rereading state (fun n => (liftM (x n) : UnifyM α)) fun a state' => Post a state'.2 := by
  obtain ⟨n, a, s', hrun, ok, same, post⟩ := h
  refine ⟨n, a, (state.1, s'), fun fuel hfuel => ?_, ok, ⟨rfl, same⟩, post⟩
  rw [exec_fuelM, hrun fuel hfuel]
  rfl

theorem unifyAt_reflexive (n depth : Nat) : Reflexive (unifyAt globals (n + 1) depth) := by
  intro c state
  simp [unifyAt]

variable {a b head head' : Con} {pieces' : List Piece}

theorem unifyRows_of_perm {state : List Postponed × Store} (depth : Nat)
    (h : Row.Summarized globals store a head pieces)
    (h' : Row.Summarized globals store b head' pieces') (perm : pieces.Perm pieces')
    (hnames : ((Row.fields pieces).map (·.1)).Nodup) (halike : store.ReadAlike state.2) :
    Ends rereading state (fun n => unifyRows globals n depth (unifyAt globals n depth) head head')
      fun _ _ => True := by
  unfold unifyRows
  refine .bind halike.ok.2 (ends_of_store (h.summarizes halike)) ?_
  rintro pieces state₁ ok₁ ⟨-, same₁⟩ rfl
  have halike₁ : store.ReadAlike state₁.2 :=
    ⟨halike.toSameReadings.trans same₁, halike.ok.1, ok₁⟩
  refine .bind ok₁ (ends_of_store (h'.summarizes halike₁)) ?_
  rintro pieces' state₂ ok₂ - rfl
  by_cases herror : Row.hasError pieces ∨ Row.hasError pieces'
  · simp only [if_pos herror]
    exact .pure ok₂ trivial
  simp only [if_neg herror]
  rw [not_or] at herror
  obtain ⟨rest, hmatched, hrest⟩ : ∃ rest,
      Ends rereading state₂ (fun n => matchFields (unifyAt globals n depth) pieces pieces')
        (fun sides state => sides = (pieces.filter (!·.isField), rest) ∧ state = state₂) ∧
      rest.Perm (pieces.filter (!·.isField)) := by
    have hright : pieces'.Perm (pieces ++ []) := by simpa using perm.symm
    obtain ⟨rest, hrest, hrun⟩ := matchFields_of_perm (by simp) hright hnames
    refine ⟨rest, ⟨1, _, state₂, fun fuel hfuel => ?_, ok₂, rereading.refl _ ok₂, rfl, rfl⟩,
      by simpa using hrest⟩
    obtain ⟨fuel, rfl⟩ := Nat.exists_eq_add_one_of_ne_zero (Nat.ne_zero_of_lt hfuel)
    exact hrun (unifyAt_reflexive fuel depth) state₂
  refine .bind ok₂ hmatched ?_
  rintro _ _ - - ⟨rfl, rfl⟩
  have hcancel : cancelRests (pieces.filter (!·.isField)) rest = ([], []) := by
    have hrests : ∀ p ∈ pieces.filter (!·.isField), p.rest? ≠ none := by
      intro p hp
      obtain ⟨hp, hfield⟩ := List.mem_filter.mp hp
      cases p with
      | field => cases hfield
      | error => exact absurd (List.contains_iff_mem.mpr hp) herror.1
      | _ => nofun
    exact cancelRests_of_perm hrests (fun p hp => hrests p (hrest.mem_iff.mp hp))
      (hrest.symm.filterMap Piece.rest?)
  simp only [hcancel]
  exact .pure ok₂ trivial

/-! ## Heads -/

/-- If one of two rows is a single remainder, both are. -/
theorem eq_of_shaped (h : Row.Shaped head pieces) (h' : Row.Shaped head' pieces')
    (perm : pieces.Perm pieces') (hrow : ∀ k fields, head ≠ .row k fields)
    (hconcat : ∀ l r, head ≠ .concat l r) (herror : head ≠ .error) : head' = head := by
  have hlone : pieces = [Row.remainder head] := by
    cases head with
    | row k fields => exact absurd rfl (hrow k fields)
    | concat l r => exact absurd rfl (hconcat l r)
    | error => exact absurd rfl herror
    | _ => exact h
  subst hlone
  obtain rfl := List.perm_singleton.mp perm.symm
  exact h'.eq_of_rest? (Row.rest?_remainder head)

theorem unifyHeads_of_perm {state : List Postponed × Store} (depth : Nat)
    (h : Row.Summarized globals store a head pieces)
    (h' : Row.Summarized globals store b head' pieces') (perm : pieces.Perm pieces')
    (hnames : ((Row.fields pieces).map (·.1)).Nodup) (halike : store.ReadAlike state.2)
    (hne : head ≠ head') (herror : head ≠ .error) (herror' : head' ≠ .error) :
    Ends rereading state (fun n => unifyHeads globals n depth (unifyAt globals n) head head')
      fun _ _ => True := by
  have hrows := unifyRows_of_perm depth h h' perm hnames halike
  have hform : (∃ k fields, head = .row k fields) ∨ ∃ l r, head = .concat l r := by
    by_contra hform
    rw [not_or] at hform
    push Not at hform
    exact hne (eq_of_shaped h.shaped h'.shaped perm hform.1 hform.2 herror).symm
  have hform' : (∃ k fields, head' = .row k fields) ∨ ∃ l r, head' = .concat l r := by
    by_contra hform'
    rw [not_or] at hform'
    push Not at hform'
    exact hne (eq_of_shaped h'.shaped h.shaped perm.symm hform'.1 hform'.2 herror')
  rcases hform with ⟨k, fields, rfl⟩ | ⟨l, r, rfl⟩ <;>
    rcases hform' with ⟨k', fields', rfl⟩ | ⟨l', r', rfl⟩ <;>
    simpa [unifyHeads, isRowForm] using hrows

theorem unifyAt_of_perm (depth : Nat) (ok : Store.rereading.Ok store)
    (h : Row.Summarized globals store a head pieces)
    (h' : Row.Summarized globals store b head' pieces') (perm : pieces.Perm pieces')
    (hnames : ((Row.fields pieces).map (·.1)).Nodup) :
    Ends rereading ([], store) (fun n => unifyAt globals n depth a b) fun _ _ => True := by
  refine .of_succ ?_
  simp only [unifyAt]
  by_cases hself : a = b
  · simp only [if_pos hself]
    exact .pure ok trivial
  simp only [if_neg hself]
  have halike := Store.ReadAlike.refl ok
  refine .bind ok (ends_of_store (h.reduces halike)) ?_
  rintro head state₁ ok₁ ⟨-, same₁⟩ rfl
  have halike₁ : store.ReadAlike state₁.2 := ⟨same₁, ok, ok₁⟩
  refine .bind ok₁ (ends_of_store (h'.reduces halike₁)) ?_
  rintro head' state₂ ok₂ ⟨-, same₂⟩ rfl
  have halike₂ : store.ReadAlike state₂.2 := ⟨same₁.trans same₂, ok, ok₂⟩
  by_cases hdone : head = head' ∨ head = .error ∨ head' = .error
  · simp only [if_pos hdone]
    exact .pure ok₂ trivial
  simp only [if_neg hdone]
  simp only [not_or] at hdone
  exact unifyHeads_of_perm depth h h' perm hnames halike₂ hdone.1 hdone.2.1 hdone.2.2

end Unify

/-- Where no solution is a variable, two rows with the same pieces unify, in whatever order and
grouping their pieces are written: with enough fuel the answer is yes, no equation is postponed and
no metavariable is solved. -/
theorem unify_reordered {globals : Globals} {store s s' : Store} {a b : Con}
    {pieces pieces' : List Piece} (steady : store.Steady) (himitates : store.Imitates)
    (hacyclic : store.kinds.Acyclic) (hg : globals.Fits store) (ha : a.Fits store)
    (hb : b.Fits store) {m n : Nat}
    (hpieces : Row.summarize globals m a store = some (pieces, s))
    (hpieces' : Row.summarize globals n b store = some (pieces', s'))
    (perm : pieces.Perm pieces') (hnames : ((Row.fields pieces).map (·.1)).Nodup) (depth : Nat) :
    ∃ enough store', (∀ fuel, enough ≤ fuel →
        unify globals fuel depth a b store = some ((.ok (), []), store')) ∧
      (∀ i, store'.isSolved i = store.isSolved i) ∧ store'.solved = store.solved ∧
      store'.cells.size = store.cells.size := by
  have ok : Store.rereading.Ok store := ⟨⟨steady, himitates⟩, hacyclic⟩
  obtain ⟨head, h⟩ := Row.exists_summarized ok hg ha hpieces
  obtain ⟨head', h'⟩ := Row.exists_summarized ok hg hb hpieces'
  obtain ⟨enough, ⟨⟩, ⟨postponed, store'⟩, hruns, -, ⟨hpostponed, same⟩, -⟩ :=
    Unify.unifyAt_of_perm depth ok h h' perm hnames
  obtain rfl : postponed = [] := hpostponed
  refine ⟨enough, store', fun fuel hfuel => ?_, same.solved, same.recorded, same.size⟩
  have hexec := hruns fuel hfuel
  change Option.map _ (Option.map _ (Unify.unifyAt globals fuel depth a b [] store)) = _ at hexec
  rw [Option.map_map, Option.map_eq_some_iff] at hexec
  obtain ⟨⟨⟨result, postponed⟩, final⟩, hrun, heq⟩ := hexec
  change Option.bind (Unify.unifyAt globals fuel depth a b [] store) _ = _
  rw [hrun]
  cases result with
  | ok =>
    cases heq
    rfl
  | error => cases heq

/-- Two fields, one of them named by a variable, before a tail and a rigid row. -/
def fieldsFirst : Con :=
  .concat (.row .type [(.label "A", .prim .int), (.bvar 1, .prim .string)])
    (.concat (.mvar 0 []) (.bvar 0))

/-- The same pieces in another order and grouping. -/
def fieldsScattered : Con :=
  .concat (.concat (.bvar 0) (.row .type [(.bvar 1, .prim .string)]))
    (.concat (.mvar 0 []) (.row .type [(.label "A", .prim .int)]))

theorem unify_reordered_scattered :
    ∃ enough store', (∀ fuel, enough ≤ fuel →
        unify Globals.empty fuel 2 fieldsFirst fieldsScattered (rowCells [none] #[]) =
          some ((.ok (), []), store')) ∧
      (∀ i, store'.isSolved i = (rowCells [none] #[]).isSolved i) ∧ store'.solved = #[] ∧
      store'.cells.size = 1 := by
  have hstore : (rowCells [none] #[]).FirstOrder := by
    refine Store.firstOrder_unsolved ?_ rfl
    rintro (_ | i) <;> rfl
  have htail : (Con.mvar 0 []).Fits (rowCells [none] #[]) := by
    refine .intro ?_ (by simp [parts])
    rintro _ _ ⟨⟩
    exact ⟨Nat.zero_lt_one, rfl⟩
  have hfield : ∀ {name : Con} {p : Prim}, name.Fits (rowCells [none] #[]) →
      (Con.row .type [(name, .prim p)]).Fits (rowCells [none] #[]) := fun hname =>
    .row (List.forall_mem_singleton.mpr ⟨hname, .leaf (by simp) rfl⟩)
  have hfirst : fieldsFirst.Fits (rowCells [none] #[]) := by
    refine .concat (.row ?_) (.concat htail (.bvar 0))
    simp only [List.forall_mem_cons]
    exact ⟨⟨.leaf (by simp) rfl, .leaf (by simp) rfl⟩, ⟨.bvar 1, .leaf (by simp) rfl⟩, by simp⟩
  have hscattered : fieldsScattered.Fits (rowCells [none] #[]) :=
    .concat (.concat (.bvar 0) (hfield (.bvar 1))) (.concat htail (hfield (.leaf (by simp) rfl)))
  have hacyclic : (rowCells [none] #[]).kinds.Acyclic := by
    refine ⟨fun _ => 0, ?_⟩
    rintro v w ⟨_, h, -⟩
    cases h
  exact unify_reordered (m := 10) (n := 10) hstore.steady hstore.imitates hacyclic
    (fun c hc => by cases hc) hfirst hscattered rfl rfl (by decide) (by decide) 2

/-- Where a solution is a variable, rows with the same pieces may be told apart: the argument put
for the variable is solved by the empty row, but it is not followed, so the row that ends in the
tail looks longer than the tail. -/
theorem unify_not_reordered :
    ∃ (store : Store) (a b : Con) (pieces : List Piece),
      Row.summarize Globals.empty 5 a store = some (pieces, store) ∧
      Row.summarize Globals.empty 5 b store = some (pieces, store) ∧
      unify Globals.empty 10 0 a b store = some ((.error (.mismatch a b .occurs), []), store) :=
  ⟨⟨KindStore.empty, #[⟨.typeRow, 0, none⟩, ⟨.typeRow, 0, some (.row .type [])⟩,
      ⟨.typeRow, 1, some (.bvar 0)⟩], #[], [], 0, #[1, 2]⟩, .mvar 0 [],
    .concat (.mvar 2 [.mvar 1 []]) (.mvar 0 []), [.flex (.mvar 0 []) 0], rfl, rfl, rfl⟩

end RowML
