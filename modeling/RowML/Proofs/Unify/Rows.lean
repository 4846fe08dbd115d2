import RowML.Proofs.Row.Pieces
import RowML.Proofs.Unify.Equations
import RowML.Unify.Rows

/-!
# Unification of rows is sound

Matching fields and cancelling remainders splits both rows into a common part and what is left of
each, up to the order of the pieces.  Whatever strategy then makes the leftovers convertible makes
the rows convertible.
-/

namespace RowML

namespace Unify

open Row (sum)

variable {globals : Globals} {layout : Layout} {state state' : List Postponed × Store}

/-- Unification of two constructors, as the steps of unification use it. -/
def Unifies (globals : Globals) (layout : Layout) (unify : Con → Con → UnifyM Unit) : Prop :=
  ∀ {state a b}, state.2.WellFormed layout → globals.Sound layout state.2 →
    a.Sound layout state.2 → b.Sound layout state.2 →
    Yields (discipline layout) state (unify a b) fun _ state' => Solved globals a b state'

/-- Two rows with a common part and the leftovers of each. -/
inductive Matched (globals : Globals) (state : List Postponed × Store)
    (left right left' right' : List Piece) : Prop where
  | intro (common common' : List Piece) (hleft : left.Perm (common ++ left'))
      (hright : right.Perm (common' ++ right'))
      (hcommon : Settled state → Convertible globals state.2 (sum common) (sum common')) :
      Matched globals state left right left' right'

namespace Matched

variable {left right left' right' left'' right'' : List Piece}

theorem refl (left right : List Piece) : Matched globals state left right left right :=
  .intro [] [] (.refl left) (.refl right) fun _ => .refl _

theorem advances (h : Matched globals state left right left' right')
    (advances : Advances state state') : Matched globals state' left right left' right' := by
  cases h with
  | intro common common' hleft hright hcommon =>
    refine .intro common common' hleft hright fun hsettled => ?_
    exact (hcommon (advances.settled hsettled)).lift advances.store hsettled.2

theorem trans (h : Matched globals state left right left' right')
    (h' : Matched globals state left' right' left'' right'') :
    Matched globals state left right left'' right'' := by
  obtain ⟨left₁, right₁, hleft, hright, hcommon⟩ := h
  obtain ⟨left₂, right₂, hleft', hright', hcommon'⟩ := h'
  refine .intro (left₁ ++ left₂) (right₁ ++ right₂) ?_ ?_ fun hsettled => ?_
  · rw [List.append_assoc]
    exact hleft.trans (hleft'.append_left left₁)
  · rw [List.append_assoc]
    exact hright.trans (hright'.append_left right₁)
  · exact (Row.sum_append _ _).trans ((Con.Congr.concat (hcommon hsettled)
      (hcommon' hsettled)).trans (Row.sum_append _ _).symm)

/-- A piece of each side that are convertible. -/
theorem pair {p q : Piece} {rest : List Piece} (hright : right.Perm (q :: rest))
    (hpq : Settled state → Convertible globals state.2 p.con q.con) :
    Matched globals state (p :: left) right left rest := by
  refine .intro [p] [q] (.refl _) hright fun hsettled => ?_
  exact .concat (hpq hsettled) (.refl _)

/-- A piece that finds no partner. -/
theorem skip (p : Piece) (h : Matched globals state left right left' right') :
    Matched globals state (p :: left) right (p :: left') right' := by
  obtain ⟨common, common', hleft, hright, hcommon⟩ := h
  exact .intro common common' ((hleft.cons p).trans List.perm_middle.symm) hright hcommon

theorem reorder (h : Matched globals state left right left' right')
    (hleft' : left'.Perm left'') (hright' : right'.Perm right'') :
    Matched globals state left right left'' right'' := by
  obtain ⟨common, common', hleft, hright, hcommon⟩ := h
  exact .intro common common' (hleft.trans (hleft'.append_left common))
    (hright.trans (hright'.append_left common')) hcommon

theorem solved (h : Matched globals state left right left' right')
    (hrest : Solved globals (sum left') (sum right') state) :
    Solved globals (sum left) (sum right) state := by
  obtain ⟨common, common', hleft, hright, hcommon⟩ := h
  intro hsettled
  have hsum := Con.Congr.concat (hcommon hsettled) (hrest hsettled)
  exact (Row.sum_perm hleft).trans ((Row.sum_append _ _).trans (hsum.trans
    ((Row.sum_append _ _).symm.trans (Row.sum_perm hright).symm)))

theorem sound_left (h : Matched globals state left right left' right') {store : Store}
    (hleft : Row.Sound layout store left) : Row.Sound layout store left' := by
  obtain ⟨common, -, hperm, -, -⟩ := h
  exact (hleft.perm hperm).sublist (List.sublist_append_right _ _)

theorem sound_right (h : Matched globals state left right left' right') {store : Store}
    (hright : Row.Sound layout store right) : Row.Sound layout store right' := by
  obtain ⟨-, common', -, hperm, -⟩ := h
  exact (hright.perm hperm).sublist (List.sublist_append_right _ _)

end Matched

/-! ## Matching -/

theorem takeField_perm {name value : Con} {pieces rest : List Piece}
    (h : takeField name pieces = some (value, rest)) :
    pieces.Perm (.field name value :: rest) := by
  induction pieces generalizing rest with
  | nil => cases h
  | cons piece pieces ih =>
    have other : (takeField name pieces).map (fun r => (r.1, piece :: r.2)) = some (value, rest) →
        (piece :: pieces).Perm (.field name value :: rest) := by
      intro h
      obtain ⟨⟨value', rest'⟩, hrest, hr⟩ := Option.map_eq_some_iff.mp h
      cases hr
      exact ((ih hrest).cons piece).trans (.swap _ _ _)
    cases piece with
    | field name' value' =>
      simp only [takeField] at h
      split at h
      next hname =>
        cases h
        rw [hname]
      next => exact other h
    | atom | flex | error => exact other h

theorem takeRest_perm {c : Con} {pieces rest : List Piece} (h : takeRest c pieces = some rest) :
    ∃ piece, piece.rest? = some c ∧ pieces.Perm (piece :: rest) := by
  induction pieces generalizing rest with
  | nil => cases h
  | cons piece pieces ih =>
    simp only [takeRest] at h
    split at h
    next hpiece =>
      cases h
      exact ⟨piece, hpiece, .refl _⟩
    next =>
      obtain ⟨rest', hrest, rfl⟩ := Option.map_eq_some_iff.mp h
      obtain ⟨found, hfound, hperm⟩ := ih hrest
      exact ⟨found, hfound, (hperm.cons piece).trans (.swap _ _ _)⟩

theorem con_of_rest {piece : Piece} {c : Con} (h : piece.rest? = some c) : piece.con = c := by
  cases piece <;> cases h <;> rfl

theorem cancelRests_matched (left right : List Piece) :
    Matched globals state left right (cancelRests left right).1 (cancelRests left right).2 := by
  induction left generalizing right with
  | nil => exact .refl _ _
  | cons piece left ih =>
    simp only [cancelRests]
    split
    next rest h =>
      obtain ⟨c, hc, htake⟩ := Option.bind_eq_some_iff.mp h
      obtain ⟨found, hfound, hperm⟩ := takeRest_perm htake
      refine (Matched.pair hperm fun _ => ?_).trans (ih rest)
      rw [con_of_rest hc, con_of_rest hfound]
      exact .refl c
    next => exact (ih right).skip piece

theorem matchFields_yields {unify : Con → Con → UnifyM Unit} (H : Unifies globals layout unify)
    {left right : List Piece} (ok : state.2.WellFormed layout)
    (hg : globals.Sound layout state.2) (hleft : Row.Sound layout state.2 left)
    (hright : Row.Sound layout state.2 right) :
    Yields (discipline layout) state (matchFields unify left right) fun rest state' =>
      Matched globals state' left right rest.1 rest.2 := by
  induction left generalizing right state with
  | nil => exact Yields.pure ok (.refl _ _)
  | cons piece left ih =>
    have htail : Row.Sound layout state.2 left := hleft.sublist (List.sublist_cons_self _ _)
    have skip : Yields (discipline layout) state (do
        let rest ← matchFields unify left right
        pure (piece :: rest.1, rest.2)) fun rest state' =>
          Matched globals state' (piece :: left) right rest.1 rest.2 := by
      refine Yields.bind ok (ih ok hg htail hright) fun rest state' ok' _ hrest => ?_
      exact Yields.pure ok' (hrest.skip piece)
    cases piece with
    | field name value =>
      simp only [matchFields]
      split
      next other rest htake =>
        have hperm := takeField_perm htake
        have hvalue := (hleft.each (.field name value) (by simp)).2
        have hother := (hright.each (.field name other) (hperm.mem_iff.mpr (by simp))).2
        refine Yields.bind ok (H ok hg hvalue hother) fun _ state₁ ok₁ advances₁ hsolved => ?_
        have hrest : Row.Sound layout state.2 rest :=
          (hright.perm hperm).sublist (List.sublist_cons_self _ _)
        refine (ih ok₁ (hg.mono advances₁.store) (htail.mono advances₁.store)
          (hrest.mono advances₁.store)).mono fun rest' state₂ _ advances₂ hmatched => ?_
        refine (Matched.pair hperm fun hsettled => ?_).trans hmatched
        exact .row (.refl _) (.cons ⟨.refl _, hsolved.advances advances₂ hsettled⟩ .nil)
      next => exact skip
    | atom | flex | error => exact skip

/-! ## What to do with the leftovers -/

theorem Leftover.pieces_perm (pieces : List Piece) :
    pieces.Perm (Leftover.ofPieces pieces).pieces :=
  Row.perm_fields_rests pieces

theorem Leftover.pieces_of_isEmpty {side : Leftover} (h : side.isEmpty = true) :
    side.pieces = [] := by
  simp only [Leftover.isEmpty, Bool.and_eq_true, List.isEmpty_iff] at h
  simp [Leftover.pieces, h]

section Strategies

variable {unify : Con → Con → UnifyM Unit} {left right side other : Leftover}

theorem unifyLeftoverFields_yields (H : Unifies globals layout unify) (depth : Nat) (a b : Con)
    (ok : state.2.WellFormed layout) (hg : globals.Sound layout state.2)
    (hleft : Row.Sound layout state.2 left.pieces) (hright : Row.Sound layout state.2 right.pieces)
    (hrests : left.rests = [] ∧ right.rests = []) :
    Yields (discipline layout) state (unifyLeftoverFields unify depth a b left right)
      fun _ state' => Solved globals (sum left.pieces) (sum right.pieces) state' := by
  obtain ⟨fields, rests⟩ := left
  obtain ⟨fields', rests'⟩ := right
  obtain ⟨hnil, hnil'⟩ : rests = [] ∧ rests' = [] := hrests
  subst hnil hnil'
  have hdecide : ∀ {left right : Leftover} {blockers : List MetaId} {p : Prop} [Decidable p],
      Yields (discipline layout) state
        (if p then mismatch a b (leftoverReason left right) else postpone depth a b blockers)
        fun _ state' => Solved globals (sum (Leftover.pieces ⟨fields, []⟩))
          (sum (Leftover.pieces ⟨fields', []⟩)) state' := by
    intro left right blockers p _
    split
    · exact mismatch_yields ok
    · exact postpone_yields ok
  unfold unifyLeftoverFields
  dsimp only
  split
  next name value name' value' =>
    split
    next =>
      obtain ⟨hname, hvalue⟩ := hleft.each (.field name value) (by simp [Leftover.pieces])
      obtain ⟨hname', hvalue'⟩ := hright.each (.field name' value') (by simp [Leftover.pieces])
      refine Yields.bind ok (H ok hg hname hname') fun _ state₁ ok₁ advances₁ hnames => ?_
      have grows := advances₁.store
      refine (H ok₁ (hg.mono grows) (hvalue.mono grows) (hvalue'.mono grows)).mono ?_
      intro _ state₂ _ advances₂ hvalues hsettled
      refine .concat (.row (.refl _) (.cons ⟨?_, hvalues hsettled⟩ .nil)) (.refl _)
      exact hnames.advances advances₂ hsettled
    next => exact hdecide
  next => exact hdecide

theorem elementKind_yields {id : MetaId} (ok : state.2.WellFormed layout)
    (hid : id < state.2.cells.size) :
    Yields (discipline layout) state (elementKind id) fun k state' =>
      state.2.Reads state'.2 ∧ k.Sound state'.2.kinds.vars.size := by
  refine Yields.read (rfl : exec getStore state = some (some state.2, state)) ok ?_
  have hrun := KindStore.resolve_yields ok.kinds (ok.cellKinds id hid)
  refine Yields.bind ok
    (yields_of_store (exec_storeM _ _) (Store.onKinds_yields ok hrun).of_reading) ?_
  rintro root state₁ ok₁ - ⟨reads, -, resolved⟩
  split
  next element => exact Yields.pure ok₁ ⟨reads, resolved.sound.part (by simp [Kind.parts])⟩
  next => exact Yields.pure ok₁ ⟨reads, .intro ⟨by simp, by simp⟩ (by simp [Kind.parts])⟩

theorem solveTail_yields (H : Unifies globals layout unify) (ok : state.2.WellFormed layout)
    (hg : globals.Sound layout state.2) (hside : Row.Sound layout state.2 side.pieces)
    (hother : Row.Sound layout state.2 other.pieces) :
    Yields (discipline layout) state (solveTail unify side other) fun solved state' =>
      solved = true → Solved globals (sum side.pieces) (sum other.pieces) state' := by
  unfold solveTail
  split
  next id spine v hfields hrests =>
    have hpieces : side.pieces = [.flex (.mvar id spine) v] := by
      rw [Leftover.pieces, hfields, hrests]
      rfl
    have hmvar : (Con.mvar id spine).Sound layout state.2 :=
      hside.each (.flex (.mvar id spine) v) (by simp [hpieces])
    refine Yields.bind ok (elementKind_yields ok (hmvar.top.mvar rfl).1) ?_
    rintro element state₁ ok₁ - ⟨reads, helement⟩
    refine Yields.bind ok₁ (H ok₁ (hg.mono reads.toGrows) (hmvar.mono reads.toGrows)
      (Row.rebuild_sound helement (hother.mono reads.toGrows))) ?_
    intro _ state₂ ok₂ _ hsolved
    refine Yields.pure ok₂ fun _ hsettled => ?_
    rw [hpieces]
    exact (Row.sum_singleton _).trans ((hsolved hsettled).trans (Row.rebuild_sum _ _))
  next => exact Yields.pure ok (by simp)

/-- The sum of a row whose last piece is itself a sum. -/
theorem sum_last {store : Store} {pieces rest : List Piece} {piece : Piece}
    (h : Convertible globals store piece.con (sum rest)) :
    Convertible globals store (sum (pieces ++ [piece])) (sum (pieces ++ rest)) :=
  (Row.sum_append _ _).trans ((Con.Congr.concat (.refl _) ((Row.sum_singleton _).trans h)).trans
    (Row.sum_append _ _).symm)

/-- Two lists of pieces before the same tail may change places. -/
theorem sum_exchange {store : Store} (pieces pieces' : List Piece) (tail : Con) (u u' : MetaId) :
    Convertible globals store (sum (pieces ++ (pieces' ++ [.flex tail u])))
      (sum (pieces' ++ (pieces ++ [.flex tail u']))) := by
  have htail : sum (pieces ++ (pieces' ++ [.flex tail u])) =
      sum (pieces ++ (pieces' ++ [.flex tail u'])) := by
    simp [sum, Piece.con]
  rw [htail]
  exact Row.sum_perm (List.perm_append_comm_assoc _ _ _)

theorem solveCommonTail_yields (H : Unifies globals layout unify) (ok : state.2.WellFormed layout)
    (hg : globals.Sound layout state.2) (hleft : Row.Sound layout state.2 left.pieces)
    (hright : Row.Sound layout state.2 right.pieces) :
    Yields (discipline layout) state (solveCommonTail unify left right) fun solved state' =>
      solved = true → Solved globals (sum left.pieces) (sum right.pieces) state' := by
  unfold solveCommonTail
  split
  next l leftSpine v r rightSpine w hlefts hrights =>
    have hpieces : left.pieces =
        left.fields.map (fun f => .field f.1 f.2) ++ [.flex (.mvar l leftSpine) v] := by
      rw [Leftover.pieces, hlefts]
    have hpieces' : right.pieces =
        right.fields.map (fun f => .field f.1 f.2) ++ [.flex (.mvar r rightSpine) w] := by
      rw [Leftover.pieces, hrights]
    rw [hpieces] at hleft ⊢
    rw [hpieces'] at hright ⊢
    have hl : (Con.mvar l leftSpine).Sound layout state.2 :=
      hleft.each (.flex (.mvar l leftSpine) v) (by simp)
    have hr : (Con.mvar r rightSpine).Sound layout state.2 :=
      hright.each (.flex (.mvar r rightSpine) w) (by simp)
    split
    next => exact Yields.pure ok (by simp)
    next =>
    refine Yields.bind ok (yields_of_store (exec_storeM _ _)
      (patternVars_yields ok fun c hc => hl.part hc).of_reading) ?_
    rintro found state₁ ok₁ - ⟨reads₁, -⟩
    split
    next => exact Yields.pure ok₁ (by simp)
    next =>
    have hr₁ := hr.mono reads₁.toGrows
    refine Yields.bind ok₁ (yields_of_store (exec_storeM _ _)
      (patternVars_yields ok₁ fun c hc => hr₁.part hc).of_reading) ?_
    rintro found state₂ ok₂ - ⟨reads₂, -⟩
    split
    next => exact Yields.pure ok₂ (by simp)
    next =>
    have hl₂ := hl.mono (reads₁.trans reads₂).toGrows
    refine Yields.read (rfl : exec getStore state₂ = some (some state₂.2, state₂)) ok₂ ?_
    refine Yields.bind ok₂ (elementKind_yields ok₂ (hl₂.top.mvar rfl).1) ?_
    rintro element state₃ ok₃ - ⟨reads₃, helement⟩
    have hkind := (ok₂.cellKinds l (hl₂.top.mvar rfl).1).mono reads₃.kinds.size
    have hl₃ := hl₂.mono reads₃.toGrows
    have hcommon : ∀ c ∈ leftSpine.filter (rightSpine.contains ·), c.Sound layout state₃.2 :=
      fun c hc => hl₃.part (List.mem_filter.mp hc).1
    refine Yields.bind ok₃ (yields_of_store (exec_storeM _ _)
      (Store.freshWithSpine_yields ok₃ hkind hcommon)) ?_
    intro tail state₄ ok₄ advances₄ htail
    have grows₄ : state.2.Grows state₄.2 :=
      (reads₁.trans (reads₂.trans reads₃)).toGrows.trans advances₄.store
    have helement₄ := helement.mono advances₄.store.kinds.size
    have hsolution : ∀ {pieces : List Piece} {c : Con} {u u' : MetaId},
        Row.Sound layout state.2 (pieces ++ [.flex c u]) →
        (Row.rebuild element (pieces ++ [.flex tail u'])).Sound layout state₄.2 :=
      fun h => Row.rebuild_sound helement₄ ((h.mono grows₄).replaceLast rfl rfl htail)
    refine Yields.bind ok₄ (H ok₄ (hg.mono grows₄) (hl.mono grows₄) (hsolution hright)) ?_
    intro _ state₅ ok₅ advances₅ hsolved
    have grows₅ := grows₄.trans advances₅.store
    refine Yields.bind ok₅ (H ok₅ (hg.mono grows₅) (hr.mono grows₅)
      ((hsolution hleft).mono advances₅.store)) ?_
    intro _ state₆ ok₆ advances₆ hsolved'
    refine Yields.pure ok₆ fun _ hsettled => ?_
    -- both rows are the fields of both sides and the tail
    have hlefts := (hsolved.advances advances₆ hsettled).trans (Row.rebuild_sum _ _)
    have hrights := (hsolved' hsettled).trans (Row.rebuild_sum _ _)
    refine (sum_last hlefts).trans (.trans ?_ (sum_last hrights).symm)
    exact sum_exchange _ _ tail l r
  next => exact Yields.pure ok (by simp)

theorem solveMapped_yields (H : Unifies globals layout unify) (fuel depth : Nat) {a b : Con}
    (ok : state.2.WellFormed layout) (hg : globals.Sound layout state.2)
    (ha : a.Sound layout state.2) (hb : b.Sound layout state.2)
    (hside : Row.Sound layout state.2 side.pieces)
    (hother : Row.Sound layout state.2 other.pieces) :
    Yields (discipline layout) state (solveMapped globals fuel depth unify a b side other)
      fun solved state' => solved = true → Solved globals a b state' := by
  unfold solveMapped
  split
  next domain codomain f row v field fields hfields hrests hfields' hrests' =>
    have hmap : (Con.map domain codomain f row).Sound layout state.2 :=
      hside.each (.flex (.map domain codomain f row) v) (by simp [Leftover.pieces, hrests])
    have hdomain : domain.Sound state.2.kinds.vars.size := hmap.kind (by simp [Con.annotations])
    have hpieces : Row.fields other.pieces = other.fields := by
      rw [Leftover.pieces, hrests', List.append_nil, Row.fields, List.filterMap_map]
      exact List.filterMap_some
    refine Yields.bind ok (yields_of_store (exec_fuelM _ _)
      (headNormal_yields fuel ok hg (hmap.part (by simp [Con.parts]))).of_reading) ?_
    rintro head state₁ ok₁ - ⟨reads₁, hhead⟩
    split
    next =>
      have hrun : Yields (discipline layout) state₁ (other.fields.mapM fun field =>
          return (field.1, ← Store.fresh domain depth) : UnifyM _) fun fields' state' =>
          List.Forall₂ (fun field field' => field'.1 = field.1 ∧
            field'.2.Sound layout state'.2) other.fields fields' := by
        refine Yields.mapM ok₁ (fun _ advances h => ⟨h.1, h.2.mono advances.store⟩) ?_
        intro field _ state₂ ok₂ advances₂
        refine Yields.bind ok₂ (yields_of_store (exec_storeM _ _)
          (Store.fresh_yields ok₂ depth (hdomain.mono (reads₁.toGrows.trans
            advances₂.store).kinds.size))) fun c state₃ ok₃ _ hc => ?_
        exact Yields.pure ok₃ ⟨rfl, hc⟩
      refine Yields.bind ok₁ hrun fun fields' state₂ ok₂ advances₂ hfields'' => ?_
      have grows₂ := reads₁.toGrows.trans advances₂.store
      have hnames : fields'.map (·.1) = other.fields.map (·.1) :=
        Con.map_eq_of_forall₂ (List.forall₂_map_right_iff.mpr (hfields''.flip.imp fun _ _ h => h.1))
      have hliteral : (Con.row domain fields').Sound layout state₂.2 := by
        refine .row (hdomain.mono grows₂.kinds.size) (fun hrows => ?_) fun field' hfield' => ?_
        · obtain ⟨names, hlabels, hnodup⟩ := (hother.plain hrows).1
          rw [hpieces] at hlabels
          exact ⟨names, hnames.trans hlabels, hnodup⟩
        · have hmem : ∀ field' ∈ fields', field'.1.Sound layout state₂.2 ∧
              field'.2.Sound layout state₂.2 := by
            refine Con.forall_mem_of_forall₂ hfields'' fun field hfield field' h => ?_
            rw [h.1]
            exact ⟨(hother.field (hpieces ▸ hfield)).1.mono grows₂, h.2⟩
          exact hmem field' hfield'
      refine Yields.bind ok₂ (H ok₂ (hg.mono grows₂) (hhead.sound.mono advances₂.store)
        hliteral) fun _ state₃ ok₃ advances₃ _ => ?_
      have grows₃ := grows₂.trans advances₃.store
      refine Yields.bind ok₃ (H ok₃ (hg.mono grows₃) (ha.mono grows₃) (hb.mono grows₃)) ?_
      exact fun _ state₄ ok₄ _ hsolved => Yields.pure ok₄ fun _ => hsolved
    next => exact Yields.pure ok₁ (by simp)
  next => exact Yields.pure ok (by simp)

end Strategies

/-! ## Rows -/

/-- One strategy, and what follows if it does not apply. -/
theorem orElse_yields {attempt : UnifyM Bool} {otherwise : UnifyM Unit}
    {Q : List Postponed × Store → Prop} (ok : state.2.WellFormed layout)
    (hattempt : Yields (discipline layout) state attempt fun solved state' =>
      solved = true → Q state')
    (hotherwise : ∀ state', state'.2.WellFormed layout → Advances state state' →
      Yields (discipline layout) state' otherwise fun _ => Q) :
    Yields (discipline layout) state (do if ← attempt then pure () else otherwise) fun _ => Q := by
  refine Yields.bind ok hattempt fun solved state' ok' advances h => ?_
  cases solved with
  | true => exact Yields.pure ok' (h rfl)
  | false => exact hotherwise state' ok' advances

theorem unifyRows_yields {unify : Con → Con → UnifyM Unit} (H : Unifies globals layout unify)
    (fuel depth : Nat) : Unifies globals layout (unifyRows globals fuel depth unify) := by
  intro state a b ok hg ha hb
  refine Yields.bind ok (yields_of_store (exec_fuelM _ _)
    (Row.summarize_yields fuel ok hg ha).of_reading) ?_
  rintro lefts state₁ ok₁ - ⟨reads₁, hlefts⟩
  refine Yields.bind ok₁ (yields_of_store (exec_fuelM _ _) (Row.summarize_yields fuel ok₁
    (hg.mono reads₁.toGrows) (hb.mono reads₁.toGrows)).of_reading) ?_
  rintro rights state₂ ok₂ - ⟨reads₂, hrights⟩
  have hlefts := hlefts.grows reads₂.toGrows
  have hg₂ := hg.mono (reads₁.trans reads₂).toGrows
  split
  next herror =>
    exfalso
    rcases herror with h | h
    · exact hlefts.sound.each .error (List.contains_iff_mem.mp h)
    · exact hrights.sound.each .error (List.contains_iff_mem.mp h)
  next =>
  refine Yields.bind ok₂ (matchFields_yields H ok₂ hg₂ hlefts.sound hrights.sound) ?_
  rintro ⟨left', right'⟩ state₃ ok₃ advances₃ hmatched
  have hmatched := (hmatched.trans (cancelRests_matched left' right')).reorder
    (Leftover.pieces_perm _) (Leftover.pieces_perm _)
  simp only
  generalize Leftover.ofPieces (cancelRests left' right').1 = left at hmatched ⊢
  generalize Leftover.ofPieces (cancelRests left' right').2 = right at hmatched ⊢
  have hleft := hmatched.sound_left (hlefts.sound.mono advances₃.store)
  have hright := hmatched.sound_right (hrights.sound.mono advances₃.store)
  have grows₃ := (reads₁.trans reads₂).toGrows.trans advances₃.store
  have hg₃ := hg.mono grows₃
  -- it is enough to make the leftovers convertible
  have hsolved : ∀ {state'}, Advances state₃ state' →
      Solved globals (sum left.pieces) (sum right.pieces) state' → Solved globals a b state' := by
    intro state' advances h hsettled
    have hclosed₂ : state₂.2.kinds.Closed := (advances₃.settled (advances.settled hsettled)).2
    have grows := advances₃.store.trans advances.store
    have ha := (hlefts.conv hclosed₂).lift grows hsettled.2
    have hb := (hrights.conv hclosed₂).lift grows hsettled.2
    exact ha.trans (((hmatched.advances advances).solved h hsettled).trans hb.symm)
  suffices h : Yields (discipline layout) state₃ _ fun _ state' =>
      Solved globals (sum left.pieces) (sum right.pieces) state' ∨ Solved globals a b state' from
    h.mono fun _ state' _ advances h => h.elim (hsolved advances) id
  split
  next hempty =>
    refine Yields.pure ok₃ (.inl fun _ => ?_)
    rw [Leftover.pieces_of_isEmpty hempty.1, Leftover.pieces_of_isEmpty hempty.2]
    exact .refl _
  next =>
  split
  next hrests =>
    refine (unifyLeftoverFields_yields H depth a b ok₃ hg₃ hleft hright
      ⟨List.isEmpty_iff.mp hrests.1, List.isEmpty_iff.mp hrests.2⟩).mono ?_
    exact fun _ _ _ _ h => .inl h
  next =>
  refine orElse_yields ok₃ ((solveTail_yields H ok₃ hg₃ hleft hright).mono
    fun _ _ _ _ h hs => .inl (h hs)) fun state₄ ok₄ advances₄ => ?_
  have hg₄ := hg₃.mono advances₄.store
  have hleft₄ := hleft.mono advances₄.store
  have hright₄ := hright.mono advances₄.store
  refine orElse_yields ok₄ ((solveTail_yields H ok₄ hg₄ hright₄ hleft₄).mono
    fun _ _ _ _ h hs => .inl (h hs).symm) fun state₅ ok₅ advances₅ => ?_
  have hg₅ := hg₄.mono advances₅.store
  have hleft₅ := hleft₄.mono advances₅.store
  have hright₅ := hright₄.mono advances₅.store
  refine orElse_yields ok₅ ((solveCommonTail_yields H ok₅ hg₅ hleft₅ hright₅).mono
    fun _ _ _ _ h hs => .inl (h hs)) fun state₆ ok₆ advances₆ => ?_
  have grows₆ := grows₃.trans (advances₄.store.trans (advances₅.store.trans advances₆.store))
  have hleft₆ := hleft₅.mono advances₆.store
  have hright₆ := hright₅.mono advances₆.store
  refine orElse_yields ok₆ ((solveMapped_yields H fuel depth ok₆ (hg.mono grows₆)
    (ha.mono grows₆) (hb.mono grows₆) hleft₆ hright₆).mono fun _ _ _ _ h hs => .inr (h hs))
    fun state₇ ok₇ advances₇ => ?_
  have grows₇ := grows₆.trans advances₇.store
  refine orElse_yields ok₇ ((solveMapped_yields H fuel depth ok₇ (hg.mono grows₇)
    (ha.mono grows₇) (hb.mono grows₇) (hright₆.mono advances₇.store)
    (hleft₆.mono advances₇.store)).mono fun _ _ _ _ h hs => .inr (h hs))
    fun state₈ ok₈ _ => ?_
  split
  · exact mismatch_yields ok₈
  · exact (postpone_yields ok₈).mono fun _ _ _ _ h => .inr h

end Unify

end RowML
