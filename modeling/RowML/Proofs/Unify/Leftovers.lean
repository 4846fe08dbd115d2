import RowML.Proofs.Unify.Deciding

/-!
# Unification of first-order rows

Matching fields and cancelling tails leaves two rows without a common label or tail.  Fields that
are left on one side have no partner unless the other side has a tail.  A tail that stands alone is
the other side; two tails after fields are the fields of the other side and a new tail.
-/

namespace RowML

open Ground

namespace Unify

variable {goal : (MetaId → Ground) → Prop} {store store' : Store} {postponed : List Postponed}
  {Γ : List Kind} {g : Kind} {left right left' right' : List Piece}

/-- Unification of two constructors, as the steps of unification use it. -/
def Solves (unify : Con → Con → UnifyM Unit) : Prop :=
  ∀ {goal postponed store Γ g a b}, store.FirstOrder → a.FirstOrder store Γ g →
    b.FirstOrder store Γ g → (∀ θ, store.SolvedBy θ → goal θ → a.Agree θ b) →
    Decides goal postponed store (unify a b) fun _ store' =>
      ∀ θ, store'.SolvedBy θ → a.Coincides θ b

/-! ## Matching -/

theorem takeField_none {x : String} {value : Con} {pieces : List Piece}
    (h : takeField (.label x) pieces = none) : .field (.label x) value ∉ pieces := by
  induction pieces with
  | nil => simp
  | cons piece pieces ih =>
    cases piece with
    | field name value' =>
      simp only [takeField] at h
      split at h
      next => cases h
      next hname =>
        rw [Option.map_eq_none_iff] at h
        simp only [List.mem_cons, Piece.field.injEq, not_or]
        exact ⟨fun heq => hname heq.1.symm, ih h⟩
    | atom | flex | error =>
      have h := Option.map_eq_none_iff.mp h
      simpa using ih h

theorem takeRest_none {c : Con} {pieces : List Piece} (h : takeRest c pieces = none) :
    ∀ piece ∈ pieces, piece.rest? ≠ some c := by
  induction pieces with
  | nil => simp
  | cons piece pieces ih =>
    simp only [takeRest] at h
    split at h
    next => cases h
    next hpiece => exact List.forall_mem_cons.mpr ⟨hpiece, ih (Option.map_eq_none_iff.mp h)⟩

/-- Fields with the same name have to agree if the rows are parts of one row. -/
theorem matchFields_decides {unify : Con → Con → UnifyM Unit} (H : Solves unify)
    (ok : store.FirstOrder) (hleft : ∀ p ∈ left, p.FirstOrder store Γ g)
    (hright : ∀ p ∈ right, p.FirstOrder store Γ g)
    (hgoal : ∀ θ, store.SolvedBy θ → goal θ → Row.Compatible θ left right) :
    Decides goal postponed store (matchFields unify left right) fun rest store' =>
      Row.Cancels store' left right rest.1 rest.2 ∧ Row.Apart rest.1 rest.2 := by
  induction left generalizing right store with
  | nil =>
    refine .pure ok ⟨.refl _ _, ?_⟩
    intro x value value' hmem
    cases hmem
  | cons piece left ih =>
    obtain ⟨hpiece, htail⟩ := List.forall_mem_cons.mp hleft
    have skip : (∀ x value value', piece = .field (.label x) value →
        .field (.label x) value' ∉ right) →
        Decides goal postponed store (do
          let rest ← matchFields unify left right
          pure (piece :: rest.1, rest.2)) fun rest store' =>
          Row.Cancels store' (piece :: left) right rest.1 rest.2 ∧ Row.Apart rest.1 rest.2 := by
      intro hnone
      refine .bind (ih ok htail hright fun θ hθ hθ' => (hgoal θ hθ hθ').tail) ?_
      rintro ⟨left', right'⟩ store' ok' - ⟨hcancels, hapart⟩
      refine .pure ok' ⟨hcancels.skip piece, fun x value value' hmem hmem' => ?_⟩
      rcases List.mem_cons.mp hmem with hmem | hmem
      · exact hnone x value value' hmem.symm (hcancels.mem_right hmem')
      · exact hapart x value value' hmem hmem'
    cases hpiece with
    | flex => exact skip (by simp)
    | @field x value hvalue =>
      simp only [matchFields]
      split
      next other rest htake =>
        have hperm := takeField_perm htake
        have hpieces : ∀ p ∈ .field (.label x) other :: rest, p.FirstOrder store Γ g := fun p hp =>
          hright p (hperm.mem_iff.mpr hp)
        obtain ⟨hother, hpieces⟩ := List.forall_mem_cons.mp hpieces
        have hother : other.FirstOrder store Γ g := by
          cases hother with
          | field h => exact h
        have hpair := fun θ hθ hθ' => (hgoal θ hθ hθ').pair hperm
        refine .bind (H ok hvalue hother fun θ hθ hθ' => (hpair θ hθ hθ').1) ?_
        intro _ store₁ ok₁ refines hsolved
        refine (ih ok₁ (fun p hp => (htail p hp).mono refines.toExtends)
          (fun p hp => (hpieces p hp).mono refines.toExtends)
          (fun θ hθ hθ' => (hpair θ (refines.back θ hθ) hθ').2)).mono ?_
        rintro ⟨left', right'⟩ store₂ refines₂ ⟨hcancels, hapart⟩
        refine ⟨(Row.Cancels.pair hperm fun θ hθ => ?_).trans hcancels, hapart⟩
        exact Row.Coincides.field (hsolved θ (refines₂.back θ hθ))
      next htake =>
        refine skip ?_
        rintro y value value' ⟨⟩
        exact takeField_none htake

theorem cancelRests_cancels (hleft : ∀ p ∈ left, p.FirstOrder store Γ g)
    (hright : ∀ p ∈ right, p.FirstOrder store Γ g) :
    Row.Cancels store left right (cancelRests left right).1 (cancelRests left right).2 ∧
      ∀ c, ∀ p ∈ (cancelRests left right).1, p.rest? = some c →
        ∀ q ∈ (cancelRests left right).2, q.rest? ≠ some c := by
  induction left generalizing right with
  | nil => exact ⟨.refl _ _, by simp [cancelRests]⟩
  | cons piece left ih =>
    obtain ⟨hpiece, htail⟩ := List.forall_mem_cons.mp hleft
    simp only [cancelRests]
    split
    next rest h =>
      obtain ⟨c, hc, htake⟩ := Option.bind_eq_some_iff.mp h
      obtain ⟨found, hfound, hperm⟩ := takeRest_perm htake
      have hpieces : ∀ p ∈ found :: rest, p.FirstOrder store Γ g := fun p hp =>
        hright p (hperm.mem_iff.mpr hp)
      obtain ⟨hother, hpieces⟩ := List.forall_mem_cons.mp hpieces
      obtain ⟨hcancels, hdistinct⟩ := ih htail hpieces
      refine ⟨(Row.Cancels.pair hperm fun θ hθ => ?_).trans hcancels, hdistinct⟩
      cases hpiece with
      | field => cases hc
      | flex =>
        cases hc
        cases hother with
        | field => cases hfound
        | flex =>
          cases hfound
          exact Row.Coincides.flex _ _ _
    next h =>
      obtain ⟨hcancels, hdistinct⟩ := ih htail hright
      refine ⟨hcancels.skip piece, fun c p hp hc q hq => ?_⟩
      rcases List.mem_cons.mp hp with rfl | hp
      · rw [hc] at h
        exact takeRest_none h q (hcancels.mem_right hq)
      · exact hdistinct c p hp hc q hq

/-! ## Leftovers -/

namespace Leftover

/-- Fields with constant labels and at most one tail. -/
structure FirstOrder (store : Store) (Γ : List Kind) (g : Kind) (side : Leftover) : Prop where
  pieces : ∀ p ∈ side.pieces, p.FirstOrder store Γ g
  rests : side.rests = [] ∨ ∃ v w, side.rests = [.flex (.mvar v []) w]

variable {side : Leftover} {θ : MetaId → Ground}

/-- The fields of a side as pieces. -/
def fieldPieces (side : Leftover) : List Piece :=
  side.fields.map fun (name, value) => .field name value

theorem isField_of_mem {p : Piece} (hp : p ∈ side.fieldPieces) : p.isField = true := by
  obtain ⟨field, -, rfl⟩ := List.mem_map.mp hp
  rfl

theorem FirstOrder.mono (h : side.FirstOrder store Γ g) (grows : store.Extends store') :
    side.FirstOrder store' Γ g :=
  ⟨fun p hp => (h.pieces p hp).mono grows, h.rests⟩

theorem firstOrder_ofPieces {pieces : List Piece} (hpieces : ∀ p ∈ pieces, p.FirstOrder store Γ g)
    (hflex : pieces.countP Piece.isFlex ≤ 1) : (ofPieces pieces).FirstOrder store Γ g := by
  refine ⟨fun p hp => hpieces p ((pieces_perm pieces).mem_iff.mpr hp), ?_⟩
  rcases Row.rests_cases hpieces hflex with h | ⟨v, w, h, -⟩
  · exact .inl h
  · exact .inr ⟨v, w, h⟩

/-- The side with another tail. -/
theorem FirstOrder.withTail (h : side.FirstOrder store Γ g) {v : MetaId}
    (hv : (Con.mvar v []).FirstOrder store Γ (.record g)) (w : MetaId) :
    ({ side with rests := [.flex (.mvar v []) w] } : Leftover).FirstOrder store Γ g := by
  refine ⟨fun p hp => ?_, .inr ⟨v, w, rfl⟩⟩
  rcases List.mem_append.mp hp with hp | hp
  · exact h.pieces p (List.mem_append_left _ hp)
  · cases List.mem_singleton.mp hp
    exact .flex hv

/-- The row made of a side. -/
theorem FirstOrder.rebuild (h : side.FirstOrder store Γ g) {k : Kind} (hk : k.Known store.kinds g) :
    (Row.rebuild k side.pieces).FirstOrder store Γ (.record g) ∧
      Row.Summarizes store Γ g (Row.rebuild k side.pieces) side.pieces := by
  refine Row.rebuild_summarizes hk h.pieces ?_
  have hfields : side.fieldPieces.countP Piece.isFlex = 0 := by
    refine List.countP_eq_zero.mpr fun p hp => ?_
    obtain ⟨field, -, rfl⟩ := List.mem_map.mp hp
    simp [Piece.isFlex]
  have hcount : side.pieces.countP Piece.isFlex = side.rests.countP Piece.isFlex := by
    rw [Leftover.pieces, List.countP_append]
    exact (Nat.add_right_cancel_iff.mpr hfields).trans (Nat.zero_add _)
  rw [hcount]
  rcases h.rests with hrests | ⟨v, w, hrests⟩ <;> simp [hrests, Piece.isFlex]

theorem exists_label (h : side.FirstOrder store Γ g) (hfields : side.fields ≠ []) :
    ∃ x value, .field (.label x) value ∈ side.pieces := by
  obtain ⟨⟨name, value⟩, fields, hcons⟩ := List.exists_cons_of_ne_nil hfields
  have hmem : .field name value ∈ side.pieces := by simp [pieces, hcons]
  cases h.pieces _ hmem with
  | @field x _ _ => exact ⟨x, value, hmem⟩

/-- A field has no partner on a side without a tail. -/
theorem not_agree {left right : Leftover} (hleft : left.FirstOrder store Γ g)
    (hfields : left.fields ≠ []) (hclosed : right.rests = [])
    (hapart : Row.Apart left.pieces right.pieces) : ¬ Row.Agree θ left.pieces right.pieces := by
  rintro ⟨f, hf, hf'⟩
  obtain ⟨x, value, hmem⟩ := exists_label hleft hfields
  refine hf.ne_none hmem (hf'.eq_none (fun p hp => ?_) fun value' => hapart x value value' hmem)
  rw [pieces, hclosed, List.append_nil] at hp
  exact isField_of_mem hp

theorem blockers_eq_nil (h : side.FirstOrder store Γ g) (hclosed : side.rests = []) :
    side.blockers = [] := by
  have hnone : side.pieces.filterMap Piece.blocker? = [] := by
    refine List.filterMap_eq_nil_iff.mpr fun p hp => ?_
    cases h.pieces p hp with
    | field => rfl
    | flex =>
      rw [pieces, hclosed, List.append_nil] at hp
      cases isField_of_mem hp
  rw [blockers, Row.blockers, hnone]
  rfl

end Leftover

section Strategies

variable {unify : Con → Con → UnifyM Unit} {left right side other : Leftover} {v : MetaId}

/-- Only fields are left, and no label is shared. -/
theorem unifyLeftoverFields_decides (depth : Nat) (a b : Con) (hleft : left.FirstOrder store Γ g)
    (hright : right.FirstOrder store Γ g) (hrests : left.rests = [] ∧ right.rests = [])
    (hnone : ∀ θ, store.SolvedBy θ → ¬ goal θ) {Post : Unit → Store → Prop} :
    Decides goal postponed store (unifyLeftoverFields unify depth a b left right) Post := by
  have hname : ∀ {side : Leftover} {name value : Con}, side.FirstOrder store Γ g →
      side.fields = [(name, value)] → name.isMVar = false := by
    intro side name value hside hfields
    have hmem : .field name value ∈ side.pieces := by simp [Leftover.pieces, hfields]
    cases hside.pieces _ hmem with
    | field => rfl
  unfold unifyLeftoverFields
  simp only [Leftover.blockers_eq_nil hleft hrests.1, Leftover.blockers_eq_nil hright hrests.2,
    List.append_nil, List.isEmpty_nil, true_or, if_true]
  split
  next name value name' value' hfields hfields' =>
    rw [if_neg (by simp [hname hleft hfields, hname hright hfields'])]
    exact .mismatch hnone
  next => exact .mismatch hnone

theorem elementKind_decides (ok : store.FirstOrder)
    (hv : (Con.mvar v []).FirstOrder store Γ (.record g)) :
    Decides goal postponed store (elementKind v) fun k store' =>
      store.Respells store' ∧ k.Known store'.kinds g := by
  have hkind : (store.cell v).kind.Known store.kinds (.record g) := by
    cases hv with
    | mvar _ _ hkind => exact hkind
  have revealed := KindStore.resolve_reveals (store.cell v).kind store.kinds
  obtain ⟨ok', respells⟩ := Store.respells_withKinds ok revealed.keeps
  refine .read (rfl : exec getStore (postponed, store) = some (some store, _)) ok ?_
  have hrun : exec (liftM (onKinds (KindStore.resolve (store.cell v).kind)) : UnifyM Kind)
      (postponed, store) = some (some ((KindStore.resolve (store.cell v).kind).run store.kinds).1,
        postponed,
        store.withKinds ((KindStore.resolve (store.cell v).kind).run store.kinds).2) := rfl
  refine .next hrun ok' respells ?_
  have hroot := (revealed.same _).mpr hkind
  have hne := revealed.ne_mvar _ hkind
  have hkeeps := revealed.keeps
  generalize (KindStore.resolve (store.cell v).kind).run store.kinds = result at *
  obtain ⟨root, kinds⟩ := result
  simp only at *
  cases hroot with
  | record hk => exact .pure ok' ⟨respells, (hkeeps _ _).mpr hk⟩
  | link => exact absurd rfl (hne _)

/-- A tail that stands alone is the other side. -/
theorem solveTail_decides (H : Solves unify) (ok : store.FirstOrder)
    (hside : side.FirstOrder store Γ g) (hother : other.FirstOrder store Γ g)
    (hgoal : ∀ θ, store.SolvedBy θ → goal θ → Row.Agree θ side.pieces other.pieces) :
    Decides goal postponed store (solveTail unify side other) fun solved store' =>
      if solved then ∀ θ, store'.SolvedBy θ → Row.Coincides θ side.pieces other.pieces
      else store' = store ∧ (side.fields ≠ [] ∨ side.rests = []) := by
  unfold solveTail
  split
  next v spine w hfields hrests =>
    have hpieces : side.pieces = [.flex (.mvar v spine) w] := by
      simp [Leftover.pieces, hfields, hrests]
    have hpiece := hside.pieces (.flex (.mvar v spine) w) (by simp [hpieces])
    cases hpiece with
    | flex hv =>
    rw [hpieces] at hgoal ⊢
    refine .bind (elementKind_decides ok hv) ?_
    rintro k store₁ ok₁ - ⟨respells, hk⟩
    have hv := hv.mono respells.toExtends
    obtain ⟨hrow, hsummary⟩ := (hother.mono respells.toExtends).rebuild hk
    have hmvar := Row.Summarizes.mvar (w := w) hv
    refine .bind (H ok₁ hv hrow fun θ hθ hθ' => ?_) ?_
    · exact (hmvar.agree hsummary hv hθ).mpr (hgoal θ ((respells.solvedBy θ).mp hθ) hθ')
    · intro _ store₂ ok₂ refines hsolved
      refine .pure ok₂ fun θ hθ => ?_
      exact (hmvar.coincides hsummary hv hrow (refines.back θ hθ)).mp (hsolved θ hθ)
  next hnot =>
    refine .pure ok ⟨rfl, ?_⟩
    rcases hside.rests with hrests | ⟨v, w, hrests⟩
    · exact .inr hrests
    · exact .inl fun hfields => hnot v [] w hfields hrests

/-! ### A common tail -/

/-- Two tails after fields without a common label stand for the fields of the other side and a row
that they share. -/
theorem exists_common {θ : MetaId → Ground} {fields fields' : List Piece} {l r u u' : MetaId}
    (hfields : ∀ p ∈ fields, p.isField = true) (hfields' : ∀ p ∈ fields', p.isField = true)
    (hapart : Row.Apart fields fields') (hclosed : (θ l).Closed 0)
    (hθ : Row.Agree θ (fields ++ [.flex (.mvar l []) u]) (fields' ++ [.flex (.mvar r []) u'])) :
    ∃ f h rest k k' : Fields, Row.Denotes θ fields f ∧ Row.Denotes θ fields' h ∧
      (θ l = .row k ∧ Joins h rest k) ∧ (θ r = .row k' ∧ Joins f rest k') ∧
      (Ground.row rest).Closed 0 := by
  obtain ⟨all, hl, hr⟩ := hθ
  obtain ⟨f, k, hf, hk, hfk⟩ := Row.denotes_append.mp hl
  obtain ⟨h, k', hh, hk', hhk⟩ := Row.denotes_append.mp hr
  rw [Row.denotes_flex] at hk hk'
  have hnone : ∀ x, f x = none ∨ h x = none := by
    intro x
    by_cases hx : ∃ value, .field (.label x) value ∈ fields
    · obtain ⟨value, hmem⟩ := hx
      exact .inr (hh.eq_none hfields' fun value' => hapart x value value' hmem)
    · exact .inl (hf.eq_none hfields fun value hmem => hx ⟨value, hmem⟩)
  obtain ⟨rest, hleft, hright, hsub⟩ := hfk.exists_remainder hhk hnone
  refine ⟨f, h, rest, k, k', hf, hh, ⟨hk, hleft⟩, ⟨hk', hright⟩, Closed.of_subset ?_ hsub⟩
  exact hk ▸ hclosed

/-- A tail that is the fields of the other side and a new tail. -/
theorem agree_withTail {θ θ' : MetaId → Ground} {n w : MetaId} {row : Con} {f rest all : Fields}
    (hside : side.FirstOrder store Γ g) (hv : (Con.mvar v []).FirstOrder store Γ (.record g))
    (hsame : ∀ i < store.cells.size, θ i = θ' i) (hf : Row.Denotes θ side.fieldPieces f)
    (hall : θ v = .row all ∧ Joins f rest all) (hnew : θ' n = .row rest)
    (hrow : Row.Summarizes store' Γ g row
      ({ side with rests := [.flex (.mvar n []) w] } : Leftover).pieces)
    (hθ' : store'.SolvedBy θ') : (Con.mvar v []).Agree θ' row := by
  refine ⟨.row all, ?_, (hrow.denotes θ' hθ' all).mp ?_⟩
  · rw [← hv.denotes_congr hsame, ← hall.1]
    exact .mvar v
  · refine Row.denotes_append.mpr ⟨f, rest, ?_, Row.denotes_flex.mpr hnew, hall.2⟩
    exact hf.congr (fun p hp => hside.pieces p (List.mem_append_left _ hp)) hsame

/-- Two tails after fields: each is the fields of the other side and a new tail. -/
theorem solveCommonTail_decides (H : Solves unify) (ok : store.FirstOrder)
    (hleft : left.FirstOrder store Γ g) (hright : right.FirstOrder store Γ g)
    (hapart : Row.Apart left.pieces right.pieces)
    (hdistinct : ∀ c, ∀ p ∈ left.rests, p.rest? = some c → ∀ q ∈ right.rests, q.rest? ≠ some c)
    (hgoal : ∀ θ, store.SolvedBy θ → goal θ → Row.Agree θ left.pieces right.pieces) :
    Decides goal postponed store (solveCommonTail unify left right) fun solved store' =>
      if solved then ∀ θ, store'.SolvedBy θ → Row.Coincides θ left.pieces right.pieces
      else store' = store ∧ (left.rests = [] ∨ right.rests = []) := by
  unfold solveCommonTail
  split
  next l leftSpine u r rightSpine u' hlefts hrights =>
    have hpieces : left.pieces = left.fieldPieces ++ [.flex (.mvar l leftSpine) u] := by
      rw [Leftover.pieces, hlefts, Leftover.fieldPieces]
    have hpieces' : right.pieces = right.fieldPieces ++ [.flex (.mvar r rightSpine) u'] := by
      rw [Leftover.pieces, hrights, Leftover.fieldPieces]
    have hpiece := hleft.pieces (.flex (.mvar l leftSpine) u) (by simp [hpieces])
    have hpiece' := hright.pieces (.flex (.mvar r rightSpine) u') (by simp [hpieces'])
    cases hpiece with
    | flex hl =>
    cases hpiece' with
    | flex hr =>
    have hapart' : Row.Apart left.fieldPieces right.fieldPieces := fun x value value' hmem hmem' =>
      hapart x value value' (by simp [hpieces, hmem]) (by simp [hpieces', hmem'])
    have hne : l ≠ r := by
      rintro rfl
      exact hdistinct (.mvar l []) (.flex (.mvar l []) u) (by simp [hlefts]) rfl
        (.flex (.mvar l []) u') (by simp [hrights]) rfl
    rw [if_neg hne]
    refine .read (rfl : exec (liftM (patternVars []) : UnifyM _) (postponed, store) = _) ok ?_
    refine .read (rfl : exec (liftM (patternVars []) : UnifyM _) (postponed, store) = _) ok ?_
    refine .read (rfl : exec getStore (postponed, store) = some (some store, _)) ok ?_
    refine .bind (elementKind_decides ok hl) ?_
    rintro k store₁ ok₁ - ⟨respells, hk⟩
    have hkind : (store.cell l).kind.Known store₁.kinds (.record g) := by
      cases hl with
      | mvar _ _ hkind => exact (respells.known _ _).mpr hkind
    obtain ⟨ok₂, grows₂⟩ := firstOrder_extended ok₁ (store.cell l).kind
    have grows := respells.toExtends.trans grows₂
    have hn := firstOrder_fresh (Γ := Γ) hkind
    have hk₂ := (grows₂.known _ _).mpr hk
    have hl₂ := hl.mono grows
    have hr₂ := hr.mono grows
    obtain ⟨hrowL, hsumL⟩ := ((hleft.mono grows).withTail hn r).rebuild hk₂
    obtain ⟨hrowR, hsumR⟩ := ((hright.mono grows).withTail hn l).rebuild hk₂
    refine fresh_decides hkind ((local_agree hl₂ hrowR).and (local_agree hr₂ hrowL)) ?_ ?_ ok₁
    · intro θ hθ hθ'
      have hagree := hgoal θ ((respells.solvedBy θ).mp hθ) hθ'
      rw [hpieces, hpieces'] at hagree
      obtain ⟨f, h, rest, k, k', hf, hh, hl', hr', hclosed⟩ := exists_common
        (fun _ => Leftover.isField_of_mem) (fun _ => Leftover.isField_of_mem) hapart'
        (hθ.closed l) hagree
      refine ⟨rest, hclosed, fun θ' hsame hnew hθ₂ => ⟨?_, ?_⟩⟩
      · exact agree_withTail (hright.mono respells.toExtends) (hl.mono respells.toExtends) hsame hh
          hl' hnew hsumR hθ₂
      · exact agree_withTail (hleft.mono respells.toExtends) (hr.mono respells.toExtends) hsame hf
          hr' hnew hsumL hθ₂
    · refine .bind (H ok₂ hl₂ hrowR fun θ _ hθ => hθ.2.1) ?_
      intro _ store₃ ok₃ refines₃ hsolved
      refine .bind (H ok₃ (hr₂.mono refines₃.toExtends) (hrowL.mono refines₃.toExtends)
        fun θ _ hθ => hθ.2.2) ?_
      intro _ store₄ ok₄ refines₄ hsolved'
      refine .pure ok₄ fun θ hθ => ?_
      have hθ₃ := refines₄.back θ hθ
      have hθ₂ := refines₃.back θ hθ₃
      have hcoincides := ((Row.Summarizes.mvar (w := u) hl₂).coincides hsumR hl₂ hrowR hθ₂).mp
        (hsolved θ hθ₃)
      have hcoincides' := ((Row.Summarizes.mvar (w := u') hr₂).coincides hsumL hr₂ hrowL hθ₂).mp
        (hsolved' θ hθ)
      have htail : Row.Coincides θ [.flex (.mvar store₁.cells.size []) l]
          [.flex (.mvar store₁.cells.size []) r] := Row.Coincides.flex _ _ _
      have hexchange : Row.Coincides θ (left.fieldPieces ++ (right.fieldPieces ++
          [.flex (.mvar store₁.cells.size []) l])) (right.fieldPieces ++ (left.fieldPieces ++
          [.flex (.mvar store₁.cells.size []) r])) :=
        (Row.Coincides.of_perm (List.perm_append_comm_assoc _ _ _)).trans
          ((Row.Coincides.refl _).append ((Row.Coincides.refl _).append htail))
      rw [hpieces, hpieces']
      exact ((Row.Coincides.refl _).append hcoincides).trans (hexchange.trans
        ((Row.Coincides.refl _).append hcoincides').symm)
  next hnot =>
    refine .pure ok ⟨rfl, ?_⟩
    rcases hleft.rests with hrests | ⟨v, w, hrests⟩
    · exact .inl hrests
    · rcases hright.rests with hrests' | ⟨v', w', hrests'⟩
      · exact .inr hrests'
      · exact absurd hrests' (hnot v [] w v' [] w' hrests)

/-- There is no map over a tail. -/
theorem solveMapped_decides (globals : Globals) (fuel depth : Nat) (a b : Con)
    (ok : store.FirstOrder) (hside : side.FirstOrder store Γ g) {Q : Store → Prop} :
    Decides goal postponed store (solveMapped globals fuel depth unify a b side other)
      fun solved store' => if solved then Q store' else store' = store ∧ True := by
  unfold solveMapped
  split
  next hrests _ _ =>
    rcases hside.rests with h | ⟨v, w, h⟩ <;> simp [h] at hrests
  next => exact .pure ok ⟨rfl, trivial⟩

end Strategies

/-! ## Rows -/

/-- One strategy, and what follows if it does not apply. -/
theorem orElse_decides {attempt : UnifyM Bool} {otherwise : UnifyM Unit} {Q : Store → Prop}
    {inapplicable : Prop} (ok : store.FirstOrder)
    (hattempt : Decides goal postponed store attempt fun solved store' =>
      if solved then Q store' else store' = store ∧ inapplicable)
    (hotherwise : inapplicable → Decides goal postponed store otherwise fun _ => Q) :
    Decides goal postponed store (do if ← attempt then pure () else otherwise) fun _ => Q := by
  refine .bind hattempt fun solved store' ok' _ h => ?_
  cases solved with
  | true => exact .pure ok' h
  | false =>
    obtain ⟨rfl, h⟩ := h
    exact hotherwise h

/-- The leftovers decide, as long as they agree in every solution. -/
theorem unifyRows_decides {unify : Con → Con → UnifyM Unit} (H : Solves unify) (globals : Globals)
    (fuel depth : Nat) {a b : Con} (ok : store.FirstOrder) (ha : a.FirstOrder store Γ (.record g))
    (hb : b.FirstOrder store Γ (.record g))
    (hgoal : ∀ θ, store.SolvedBy θ → goal θ → a.Agree θ b) :
    Decides goal postponed store (unifyRows globals fuel depth unify a b) fun _ store' =>
      ∀ θ, store'.SolvedBy θ → a.Coincides θ b := by
  refine .bind (.of_fuelM (Row.summarize_summarizes globals fuel ok ha)) ?_
  rintro lefts store₁ ok₁ - ⟨respells₁, hlefts⟩
  refine .bind (.of_fuelM (Row.summarize_summarizes globals fuel ok₁
    (hb.mono respells₁.toExtends))) ?_
  rintro rights store₂ ok₂ - ⟨respells₂, hrights⟩
  have hlefts := hlefts.respells respells₂
  have respells := respells₁.trans respells₂
  have ha := ha.mono respells.toExtends
  have hb := hb.mono respells.toExtends
  have herror : ∀ {pieces : List Piece}, (∀ p ∈ pieces, p.FirstOrder store₂ Γ g) →
      Row.hasError pieces = false := by
    intro pieces hpieces
    refine Bool.eq_false_iff.mpr fun h => ?_
    cases hpieces _ (List.contains_iff_mem.mp h)
  rw [if_neg (by simp [herror hlefts.firstOrder, herror hrights.firstOrder])]
  have hagree : ∀ θ, store₂.SolvedBy θ → goal θ → Row.Agree θ lefts rights := fun θ hθ hθ' =>
    (hlefts.agree hrights ha hθ).mp (hgoal θ ((respells.solvedBy θ).mp hθ) hθ')
  refine .bind (matchFields_decides H ok₂ hlefts.firstOrder hrights.firstOrder
    fun θ hθ hθ' => (hagree θ hθ hθ').compatible) ?_
  rintro ⟨left', right'⟩ store₃ ok₃ refines₃ ⟨hmatched, hapart⟩
  have hleft' : ∀ p ∈ left', p.FirstOrder store₃ Γ g := fun p hp =>
    (hlefts.firstOrder p (hmatched.mem_left hp)).mono refines₃.toExtends
  have hright' : ∀ p ∈ right', p.FirstOrder store₃ Γ g := fun p hp =>
    (hrights.firstOrder p (hmatched.mem_right hp)).mono refines₃.toExtends
  obtain ⟨hcancelled, hdistinct⟩ := cancelRests_cancels hleft' hright'
  simp only
  have hcancels := hmatched.trans hcancelled
  have hleft := Leftover.firstOrder_ofPieces (fun p hp => hleft' p (hcancelled.mem_left hp))
    (Nat.le_trans (hcancels.countP_left Piece.isFlex) (Nat.le_trans hlefts.tails ha.tails_le))
  have hright := Leftover.firstOrder_ofPieces (fun p hp => hright' p (hcancelled.mem_right hp))
    (Nat.le_trans (hcancels.countP_right Piece.isFlex) (Nat.le_trans hrights.tails hb.tails_le))
  have hapart : Row.Apart (Leftover.ofPieces (cancelRests left' right').1).pieces
      (Leftover.ofPieces (cancelRests left' right').2).pieces :=
    fun x value value' hmem hmem' => hapart x value value'
      (hcancelled.mem_left ((Leftover.pieces_perm _).mem_iff.mpr hmem))
      (hcancelled.mem_right ((Leftover.pieces_perm _).mem_iff.mpr hmem'))
  have hdistinct : ∀ c, ∀ p ∈ (Leftover.ofPieces (cancelRests left' right').1).rests,
      p.rest? = some c → ∀ q ∈ (Leftover.ofPieces (cancelRests left' right').2).rests,
      q.rest? ≠ some c := fun c p hp hc q hq =>
    hdistinct c p (List.mem_filter.mp hp).1 hc q (List.mem_filter.mp hq).1
  have hcancels := hcancels.reorder (Leftover.pieces_perm _) (Leftover.pieces_perm _)
  generalize Leftover.ofPieces (cancelRests left' right').1 = left at *
  generalize Leftover.ofPieces (cancelRests left' right').2 = right at *
  have hagree : ∀ θ, store₃.SolvedBy θ → goal θ → Row.Agree θ left.pieces right.pieces := by
    intro θ hθ hθ'
    obtain ⟨f, hf, hf'⟩ := hagree θ (refines₃.back θ hθ) hθ'
    exact hcancels.common hθ hf hf'
  -- it is enough that the leftovers coincide
  suffices h : Decides goal postponed store₃ _ fun _ store' =>
      ∀ θ, store'.SolvedBy θ → Row.Coincides θ left.pieces right.pieces from
    h.mono fun _ store' refines h θ hθ =>
      (hlefts.coincides hrights ha hb (refines₃.back θ (refines.back θ hθ))).mpr
        (hcancels.coincides (refines.back θ hθ) (h θ hθ))
  split
  next hempty =>
    refine .pure ok₃ fun θ _ => ?_
    rw [Leftover.pieces_of_isEmpty hempty.1, Leftover.pieces_of_isEmpty hempty.2]
    exact .refl []
  next hempty =>
  split
  next hrests =>
    have hrests := And.imp List.isEmpty_iff.mp List.isEmpty_iff.mp hrests
    refine unifyLeftoverFields_decides depth a b hleft hright hrests fun θ hθ hθ' => ?_
    by_cases hfields : left.fields = []
    · refine Leftover.not_agree hright ?_ hrests.1 hapart.symm (hagree θ hθ hθ').symm
      intro hfields'
      simp [Leftover.isEmpty, hrests, hfields, hfields'] at hempty
    · exact Leftover.not_agree hleft hfields hrests.2 hapart (hagree θ hθ hθ')
  next hrests =>
  refine orElse_decides ok₃ (solveTail_decides H ok₃ hleft hright hagree) fun hfields => ?_
  have hother : Decides goal postponed store₃ (solveTail unify right left) fun solved store' =>
      if solved then ∀ θ, store'.SolvedBy θ → Row.Coincides θ left.pieces right.pieces
      else store' = store₃ ∧ (right.fields ≠ [] ∨ right.rests = []) := by
    refine (solveTail_decides H ok₃ hright hleft fun θ hθ hθ' => (hagree θ hθ hθ').symm).mono ?_
    intro solved store' _ h
    cases solved with
    | true => exact fun θ hθ => (h θ hθ).symm
    | false => exact h
  refine orElse_decides ok₃ hother fun hfields' => ?_
  refine orElse_decides ok₃ (solveCommonTail_decides H ok₃ hleft hright hapart hdistinct hagree)
    fun hclosed => ?_
  refine orElse_decides ok₃ (solveMapped_decides globals fuel depth a b ok₃ hleft) fun _ => ?_
  refine orElse_decides ok₃ (solveMapped_decides globals fuel depth a b ok₃ hright) fun _ => ?_
  -- one side is closed, and the other one has fields
  rcases hclosed with hclosed | hclosed
  · have hfields' : right.fields ≠ [] :=
      hfields'.resolve_right fun h => hrests (by simp [h, hclosed])
    rw [if_pos (.inl ⟨by simp [Leftover.blockers_eq_nil hleft hclosed],
      .inr (by simp [Leftover.onlyFlex, hfields'])⟩)]
    exact .mismatch fun θ hθ hθ' =>
      Leftover.not_agree hright hfields' hclosed hapart.symm (hagree θ hθ hθ').symm
  · have hfields : left.fields ≠ [] := hfields.resolve_right fun h => hrests (by simp [h, hclosed])
    rw [if_pos (.inr ⟨by simp [Leftover.blockers_eq_nil hright hclosed],
      by simp [Leftover.onlyFlex, hfields]⟩)]
    exact .mismatch fun θ hθ hθ' => Leftover.not_agree hleft hfields hclosed
      hapart (hagree θ hθ hθ')

end Unify

end RowML
