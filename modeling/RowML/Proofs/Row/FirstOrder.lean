import RowML.Proofs.Normal.FirstOrder
import RowML.Proofs.Row.Pieces

/-!
# The pieces of a first-order row

The pieces of a first-order row are fields with constant labels and at most one metavariable.  The
row is what they denote together: the union of disjoint maps, in any order.
-/

namespace RowML

open Ground

/-- The map that a piece contributes to its row. -/
inductive Piece.Denotes (θ : MetaId → Ground) : Piece → Fields → Prop where
  | field {x : String} {value : Con} {t : Ground} (h : value.Denotes θ t) :
      Denotes θ (.field (.label x) value) (single x t)
  | flex {v w : MetaId} {f : Fields} (h : θ v = .row f) : Denotes θ (.flex (.mvar v []) w) f

/-- A field with a constant label, or a metavariable. -/
inductive Piece.FirstOrder (store : Store) (Γ : List Kind) (g : Kind) : Piece → Prop where
  | field {x : String} {value : Con} (h : value.FirstOrder store Γ g) :
      FirstOrder store Γ g (.field (.label x) value)
  | flex {v w : MetaId} (h : (Con.mvar v []).FirstOrder store Γ (.record g)) :
      FirstOrder store Γ g (.flex (.mvar v []) w)

theorem Piece.Denotes.unique {θ : MetaId → Ground} {p : Piece} {f f' : Fields}
    (h : p.Denotes θ f) (h' : p.Denotes θ f') : f = f' := by
  cases h with
  | field h =>
    cases h' with
    | field h' => rw [h.unique h']
  | flex h =>
    cases h' with
    | flex h' =>
      rw [h] at h'
      cases h'
      rfl

theorem Piece.FirstOrder.mono {store store' : Store} {Γ : List Kind} {g : Kind} {p : Piece}
    (h : p.FirstOrder store Γ g) (grows : store.Extends store') : p.FirstOrder store' Γ g := by
  cases h with
  | field h => exact .field (h.mono grows)
  | flex h => exact .flex (h.mono grows)

namespace Row

/-- The map that the pieces of a row denote together. -/
inductive Denotes (θ : MetaId → Ground) : List Piece → Fields → Prop where
  | nil : Denotes θ [] empty
  | cons {p : Piece} {pieces : List Piece} {f h k : Fields} (hp : p.Denotes θ f)
      (hpieces : Denotes θ pieces h) (hjoin : Joins f h k) : Denotes θ (p :: pieces) k

variable {θ : MetaId → Ground} {store store' : Store} {Γ : List Kind} {g : Kind} {p : Piece}
  {left right pieces : List Piece} {f : Fields}

theorem Denotes.unique {f' : Fields} (h : Denotes θ pieces f) (h' : Denotes θ pieces f') :
    f = f' := by
  induction h generalizing f' with
  | nil =>
    cases h'
    rfl
  | cons hp _ hjoin ih =>
    cases h' with
    | cons hp' hpieces' hjoin' =>
      cases hp.unique hp'
      cases ih hpieces'
      exact hjoin.unique hjoin'

theorem denotes_append :
    Denotes θ (left ++ right) f ↔ ∃ h k, Denotes θ left h ∧ Denotes θ right k ∧ Joins h k f := by
  induction left generalizing f with
  | nil =>
    refine ⟨fun hf => ⟨empty, f, .nil, hf, .empty_left f⟩, ?_⟩
    rintro ⟨h, k, hleft, hright, hjoin⟩
    cases hleft
    exact hjoin.eq_of_empty ▸ hright
  | cons p left ih =>
    constructor
    · intro hf
      cases hf with
      | cons hp hrest hjoin =>
        obtain ⟨h, k, hleft, hright, hjoin'⟩ := ih.mp hrest
        obtain ⟨a, ha, hall⟩ := hjoin'.assoc_right hjoin
        exact ⟨a, k, .cons hp hleft ha, hright, hall⟩
    · rintro ⟨h, k, hleft, hright, hjoin⟩
      cases hleft with
      | cons hp hleft ha =>
        obtain ⟨b, hb, hall⟩ := ha.assoc hjoin
        exact .cons hp (ih.mpr ⟨_, k, hleft, hright, hb⟩) hall

theorem Denotes.perm (h : Denotes θ left f) (hperm : left.Perm right) : Denotes θ right f := by
  induction hperm generalizing f with
  | nil => exact h
  | cons p _ ih =>
    cases h with
    | cons hp hrest hjoin => exact .cons hp (ih hrest) hjoin
  | swap p q pieces =>
    cases h with
    | cons hq hrest hjoin =>
      cases hrest with
      | cons hp hrest hjoin' =>
        obtain ⟨c, hc, hall⟩ := hjoin'.swap hjoin
        exact .cons hp (.cons hq hrest hc) hall
  | trans _ _ ih ih' => exact ih' (ih h)

/-- What the metavariables of the store stand for decides what a row denotes. -/
theorem Denotes.congr {θ' : MetaId → Ground} (h : Denotes θ pieces f)
    (hpieces : ∀ p ∈ pieces, p.FirstOrder store Γ g) (hagree : ∀ i < store.cells.size, θ i = θ' i) :
    Denotes θ' pieces f := by
  induction h with
  | nil => exact .nil
  | cons hp _ hjoin ih =>
    obtain ⟨hpiece, hrest⟩ := List.forall_mem_cons.mp hpieces
    refine .cons ?_ (ih hrest) hjoin
    cases hpiece with
    | field hvalue =>
      cases hp with
      | field ht => exact .field ((hvalue.denotes_congr hagree).mp ht)
    | flex hv =>
      cases hp with
      | flex heq =>
        cases hv with
        | mvar hv => exact .flex ((hagree _ hv).symm.trans heq)

theorem denotes_flex {v w : MetaId} {f : Fields} :
    Denotes θ [.flex (.mvar v []) w] f ↔ θ v = .row f := by
  constructor
  · intro hf
    cases hf with
    | cons hp hnil hjoin =>
      cases hnil
      cases hp with
      | flex hv => rw [hv, hjoin.symm.eq_of_empty]
  · exact fun hv => .cons (.flex hv) .nil (Joins.empty_left f).symm

/-- The two rows denote the same, if anything. -/
def Coincides (θ : MetaId → Ground) (left right : List Piece) : Prop :=
  ∀ f, Denotes θ left f ↔ Denotes θ right f

namespace Coincides

variable {left' right' : List Piece}

theorem refl (pieces : List Piece) : Coincides θ pieces pieces := fun _ => Iff.rfl

theorem symm (h : Coincides θ left right) : Coincides θ right left := fun f => (h f).symm

theorem trans (h : Coincides θ left pieces) (h' : Coincides θ pieces right) :
    Coincides θ left right :=
  fun f => (h f).trans (h' f)

theorem of_perm (h : left.Perm right) : Coincides θ left right :=
  fun _ => ⟨fun hf => hf.perm h, fun hf => hf.perm h.symm⟩

theorem append (h : Coincides θ left right) (h' : Coincides θ left' right') :
    Coincides θ (left ++ left') (right ++ right') := by
  intro f
  rw [denotes_append, denotes_append]
  simp only [h _, h' _]

theorem field {a b : Con} {x : String} (h : a.Coincides θ b) :
    Coincides θ [.field (.label x) a] [.field (.label x) b] := by
  refine fun f => ⟨fun hf => ?_, fun hf => ?_⟩ <;> cases hf with
  | cons hp hnil hjoin =>
    cases hp with
    | field hvalue => exact .cons (.field (by simpa only [h _] using hvalue)) hnil hjoin

/-- What a tail is stuck on does not matter. -/
theorem flex (v w w' : MetaId) :
    Coincides θ [.flex (.mvar v []) w] [.flex (.mvar v []) w'] := by
  refine fun f => ⟨fun hf => ?_, fun hf => ?_⟩ <;> cases hf with
  | cons hp hnil hjoin =>
    cases hp with
    | flex hv => exact .cons (.flex hv) hnil hjoin

end Coincides

/-- The two rows denote the same. -/
def Agree (θ : MetaId → Ground) (left right : List Piece) : Prop :=
  ∃ f, Denotes θ left f ∧ Denotes θ right f

theorem Agree.symm (h : Agree θ left right) : Agree θ right left := by
  obtain ⟨f, hleft, hright⟩ := h
  exact ⟨f, hright, hleft⟩

/-- The two rows denote parts of one row. -/
def Compatible (θ : MetaId → Ground) (left right : List Piece) : Prop :=
  ∃ f h k : Fields, Denotes θ left f ∧ Denotes θ right h ∧
    ∀ x t, f x = some t ∨ h x = some t → k x = some t

theorem Agree.compatible (h : Agree θ left right) : Compatible θ left right := by
  obtain ⟨f, hleft, hright⟩ := h
  exact ⟨f, f, f, hleft, hright, fun x t hx => hx.elim id id⟩

theorem Compatible.tail (h : Compatible θ (p :: left) right) :
    Compatible θ left right := by
  obtain ⟨f, h, k, hf, hh, hk⟩ := h
  cases hf with
  | cons _ hf hjoin =>
    exact ⟨_, h, k, hf, hh, fun x t hx => hk x t (hx.imp_left hjoin.subset_right)⟩

/-- Fields with the same name agree. -/
theorem Compatible.pair {a b : Con} {x : String} {rest : List Piece}
    (h : Compatible θ (.field (.label x) a :: left) right)
    (hperm : right.Perm (.field (.label x) b :: rest)) :
    a.Agree θ b ∧ Compatible θ left rest := by
  obtain ⟨f, h, k, hf, hh, hk⟩ := h
  cases hf with
  | cons hp hf hjoin =>
    cases hh.perm hperm with
    | cons hq hh hjoin' =>
      cases hp with
      | @field _ _ s hs =>
        cases hq with
        | @field _ _ t ht =>
          have hks : k x = some s := hk x s (.inl (hjoin.subset_left (if_pos rfl)))
          have hkt : k x = some t := hk x t (.inr (hjoin'.subset_left (if_pos rfl)))
          rw [hks] at hkt
          cases hkt
          exact ⟨⟨s, hs, ht⟩, _, _, k, hf, hh,
            fun y u hy => hk y u (hy.imp hjoin.subset_right hjoin'.subset_right)⟩

/-! ## Summaries -/

/-- The pieces are first order and say what the row says. -/
structure Summarizes (store : Store) (Γ : List Kind) (g : Kind) (row : Con) (pieces : List Piece) :
    Prop where
  firstOrder : ∀ p ∈ pieces, p.FirstOrder store Γ g
  tails : pieces.countP Piece.isFlex ≤ row.tails
  denotes : ∀ θ, store.SolvedBy θ → ∀ f, Denotes θ pieces f ↔ row.Denotes θ (.row f)

namespace Summarizes

variable {row l r : Con}

theorem respells (h : Summarizes store Γ g row pieces) (grows : store.Respells store') :
    Summarizes store' Γ g row pieces :=
  ⟨fun p hp => (h.firstOrder p hp).mono grows.toExtends, h.tails,
    fun θ hθ => h.denotes θ ((grows.solvedBy θ).mp hθ)⟩

theorem of_restates {row' : Con} (h : Summarizes store Γ g row' pieces)
    (restates : store.Restates Γ (.record g) row row') : Summarizes store Γ g row pieces :=
  ⟨h.firstOrder, Nat.le_trans h.tails restates.tails,
    fun θ hθ f => (h.denotes θ hθ f).trans (restates.denotes θ hθ (.row f))⟩

theorem concat (hl : Summarizes store Γ g l left) (hr : Summarizes store Γ g r right) :
    Summarizes store Γ g (.concat l r) (left ++ right) := by
  refine ⟨List.forall_mem_append.mpr ⟨hl.firstOrder, hr.firstOrder⟩, ?_, fun θ hθ f => ?_⟩
  · rw [List.countP_append]
    exact Nat.add_le_add hl.tails hr.tails
  · simp only [denotes_append, hl.denotes θ hθ, hr.denotes θ hθ]
    constructor
    · rintro ⟨h, k, hh, hk, hjoin⟩
      exact .concat hh hk hjoin
    · intro h
      cases h with
      | concat hh hk hjoin => exact ⟨_, _, hh, hk, hjoin⟩

theorem mvar {v w : MetaId} (hv : (Con.mvar v []).FirstOrder store Γ (.record g)) :
    Summarizes store Γ g (.mvar v []) [.flex (.mvar v []) w] := by
  refine ⟨by simpa using .flex hv, Nat.le_refl _, fun θ hθ f => ?_⟩
  rw [denotes_flex]
  exact ⟨fun h => h ▸ .mvar v, fun h => (Con.Denotes.mvar v).unique h⟩

theorem literal {k : Kind} {fields : List (Con × Con)}
    (h : (Con.row k fields).FirstOrder store Γ (.record g)) :
    Summarizes store Γ g (.row k fields) (fields.map fun field => .field field.1 field.2) := by
  induction fields with
  | nil =>
    refine ⟨by simp, Nat.zero_le _, fun θ _ f => ⟨fun h => ?_, fun h => ?_⟩⟩
    · cases h
      exact .rowNil k
    · cases h
      exact .nil
  | cons field fields ih =>
    cases h with
    | rowCons hvalue hfields =>
      obtain ⟨firstOrder, tails, denotes⟩ := ih hfields
      refine ⟨List.forall_mem_cons.mpr ⟨.field hvalue, firstOrder⟩, tails, fun θ hθ f => ?_⟩
      constructor
      · intro h
        cases h with
        | cons hp hrest hjoin =>
          cases hp with
          | field hp => exact .rowCons hp ((denotes θ hθ _).mp hrest) hjoin
      · intro h
        cases h with
        | rowCons hp hrest hjoin => exact .cons (.field hp) ((denotes θ hθ _).mpr hrest) hjoin

theorem agree (hl : Summarizes store Γ g l left) (hr : Summarizes store Γ g r right)
    (hrow : l.FirstOrder store Γ (.record g)) (hθ : store.SolvedBy θ) :
    l.Agree θ r ↔ Agree θ left right := by
  constructor
  · rintro ⟨t, hat, hbt⟩
    obtain ⟨f, rfl⟩ := hθ.denotes_row hrow hat
    exact ⟨f, (hl.denotes θ hθ f).mpr hat, (hr.denotes θ hθ f).mpr hbt⟩
  · rintro ⟨f, hleft, hright⟩
    exact ⟨.row f, (hl.denotes θ hθ f).mp hleft, (hr.denotes θ hθ f).mp hright⟩

theorem coincides (hl : Summarizes store Γ g l left) (hr : Summarizes store Γ g r right)
    (hrow : l.FirstOrder store Γ (.record g)) (hrow' : r.FirstOrder store Γ (.record g))
    (hθ : store.SolvedBy θ) : l.Coincides θ r ↔ Coincides θ left right := by
  constructor
  · intro h f
    rw [hl.denotes θ hθ, hr.denotes θ hθ, h]
  · refine fun h t => ⟨fun ht => ?_, fun ht => ?_⟩
    · obtain ⟨f, rfl⟩ := hθ.denotes_row hrow ht
      rwa [← hr.denotes θ hθ, ← h, hl.denotes θ hθ]
    · obtain ⟨f, rfl⟩ := hθ.denotes_row hrow' ht
      rwa [← hl.denotes θ hθ, h, hr.denotes θ hθ]

end Summarizes

/-- A label is its own head normal form. -/
private theorem headNormal_label (globals : Globals) (fuel : Nat) (x : String)
    (ok : store.FirstOrder) :
    Yields Store.respelling store (headNormal globals fuel (.label x)) fun c _ => c = .label x := by
  cases fuel with
  | zero => exact Yields.of_none rfl
  | succ fuel =>
    have hrun : (Store.resolve (.label x)).run store = (.label x, store) :=
      Store.resolveWithin_unsolved (by simp) _
    have hexec : exec (liftM (Store.resolve (.label x)) : FuelM Con) store =
        some (some (.label x), store) := by
      change some (some ((Store.resolve (.label x)).run store).1,
        ((Store.resolve (.label x)).run store).2) = _
      rw [hrun]
    exact Yields.read hexec ok (Yields.pure ok rfl)

private theorem literal_summarizes (globals : Globals) (fuel : Nat) (ok : store.FirstOrder)
    {k : Kind} {fields : List (Con × Con)}
    (hrow : (Con.row k fields).FirstOrder store Γ (.record g)) :
    Yields Store.respelling store
      (fields.mapM fun (name, value) => return Piece.field (← headNormal globals fuel name) value)
      fun pieces store' => Summarizes store' Γ g (.row k fields) pieces := by
  have hlabels : ∀ field ∈ fields, ∃ x, field.1 = .label x := by
    clear ok
    induction fields with
    | nil => simp
    | cons field fields ih =>
      cases hrow with
      | rowCons _ hfields => exact List.forall_mem_cons.mpr ⟨⟨_, rfl⟩, ih hfields⟩
  have hpieces : Yields Store.respelling store
      (fields.mapM fun (name, value) => return Piece.field (← headNormal globals fuel name) value)
      fun pieces _ => List.Forall₂ (fun field piece => piece = Piece.field field.1 field.2) fields
        pieces := by
    refine Yields.mapM (Q := fun (field : Con × Con) piece _ =>
      piece = Piece.field field.1 field.2) ok
      (fun _ _ h => h) fun field hfield store' ok' _ => ?_
    obtain ⟨x, hx⟩ := hlabels field hfield
    obtain ⟨name, value⟩ := field
    cases hx
    refine Yields.bind ok' (headNormal_label globals fuel x ok') fun name store'' ok'' _ hname => ?_
    exact Yields.pure ok'' (by rw [hname])
  refine hpieces.mono fun pieces store' _ grows h => ?_
  have hmap : pieces = fields.map fun field => .field field.1 field.2 := by
    clear hpieces hlabels hrow
    induction h with
    | nil => rfl
    | cons hp _ ih => rw [hp, ih, List.map_cons]
  rw [hmap]
  exact .literal (hrow.mono grows.toExtends)

theorem summarize_summarizes (globals : Globals) (fuel : Nat) {row : Con} (ok : store.FirstOrder)
    (hrow : row.FirstOrder store Γ (.record g)) :
    Yields Store.respelling store (summarize globals fuel row) fun pieces store' =>
      Summarizes store' Γ g row pieces := by
  induction fuel generalizing row store with
  | zero => exact Yields.of_none rfl
  | succ fuel ih =>
    refine Yields.bind ok (Store.headNormal_restates globals fuel ok hrow) ?_
    rintro r store' ok' grows ⟨restates, -⟩
    have hr := restates.firstOrder
    cases hr with
    | bvar _ hrow => cases hrow
    | skolem _ hrow => cases hrow
    | app _ _ _ hrow => cases hrow
    | mvar => exact Yields.pure ok' ((Summarizes.mvar restates.firstOrder).of_restates restates)
    | rowNil | rowCons =>
      refine (literal_summarizes globals fuel ok' restates.firstOrder).mono ?_
      intro pieces store'' _ grows' h
      exact h.of_restates (restates.respells grows')
    | concat hl hr htails =>
      refine Yields.bind ok' (ih ok' hl) fun left store₁ ok₁ grows₁ hleft => ?_
      refine Yields.bind ok₁ (ih ok₁ (hr.mono grows₁.toExtends)) ?_
      intro right store₂ ok₂ grows₂ hright
      refine Yields.pure ok₂ (((hleft.respells grows₂).concat hright).of_restates ?_)
      exact (restates.respells grows₁).respells grows₂

/-! ## Rows made of pieces -/

/-- What is no field of a first-order row: nothing or one metavariable. -/
theorem rests_cases (hpieces : ∀ p ∈ pieces, p.FirstOrder store Γ g)
    (hflex : pieces.countP Piece.isFlex ≤ 1) :
    pieces.filter (!·.isField) = [] ∨ ∃ v w, pieces.filter (!·.isField) = [.flex (.mvar v []) w] ∧
      (Con.mvar v []).FirstOrder store Γ (.record g) := by
  have hlength : (pieces.filter (!·.isField)).length ≤ 1 := by
    rw [← List.countP_eq_length_filter]
    refine Nat.le_trans (List.countP_mono_left fun p hp h => ?_) hflex
    cases hpieces p hp with
    | field => cases h
    | flex => rfl
  have hmem : ∀ p ∈ pieces.filter (!·.isField), p ∈ pieces ∧ p.isField = false := by
    intro p hp
    simpa using List.mem_filter.mp hp
  rcases hrests : pieces.filter (!·.isField) with _ | ⟨p, _ | ⟨q, rest⟩⟩
  · exact .inl hrests
  · obtain ⟨hp, hfield⟩ := hmem p (by simp [hrests])
    cases hpieces p hp with
    | field => cases hfield
    | flex h => exact .inr ⟨_, _, hrests, h⟩
  · simp [hrests] at hlength

theorem firstOrder_fields {k : Kind} (hk : k.Known store.kinds g)
    (hpieces : ∀ p ∈ pieces, p.FirstOrder store Γ g) :
    (Con.row k (fields pieces)).FirstOrder store Γ (.record g) := by
  induction pieces with
  | nil => exact .rowNil hk
  | cons p pieces ih =>
    obtain ⟨hp, hrest⟩ := List.forall_mem_cons.mp hpieces
    cases hp with
    | field hvalue => exact .rowCons hvalue (ih hrest)
    | flex => exact ih hrest

theorem rebuild_summarizes {k : Kind} (hk : k.Known store.kinds g)
    (hpieces : ∀ p ∈ pieces, p.FirstOrder store Γ g) (hflex : pieces.countP Piece.isFlex ≤ 1) :
    (rebuild k pieces).FirstOrder store Γ (.record g) ∧
      Summarizes store Γ g (rebuild k pieces) pieces := by
  have hliteral := firstOrder_fields hk hpieces
  have hperm : ∀ {row}, Summarizes store Γ g row ((fields pieces).map (fun field =>
      .field field.1 field.2) ++ pieces.filter (!·.isField)) → Summarizes store Γ g row pieces := by
    intro row h
    refine ⟨hpieces, ?_, fun θ hθ f => ?_⟩
    · rw [(perm_fields_rests pieces).countP_eq]
      exact h.tails
    · rw [← h.denotes θ hθ f]
      exact Coincides.of_perm (perm_fields_rests pieces) f
  rcases rests_cases hpieces hflex with hrests | ⟨v, w, hrests, hv⟩
  · have hrow : rebuild k pieces = .row k (fields pieces) := by
      rcases rebuild_cases k pieces with ⟨hfields, -, heq⟩ | ⟨_, _, -, hcons, -⟩ | ⟨-, heq⟩
      · rw [heq, hfields]
      · simp [rests, hrests] at hcons
      · simp [heq, rests, hrests]
    rw [hrow]
    refine ⟨hliteral, hperm ?_⟩
    rw [hrests, List.append_nil]
    exact .literal hliteral
  · rw [hrests] at hperm
    rcases rebuild_cases k pieces with ⟨-, hnil, -⟩ | ⟨_, _, hfields, hcons, heq⟩ | ⟨-, heq⟩
    · simp [rests, hrests] at hnil
    · simp only [rests, hrests, List.map_cons, List.map_nil, List.cons.injEq] at hcons
      rw [heq, ← hcons.1, ← hcons.2]
      rw [hfields] at hperm
      exact ⟨hv, hperm (.mvar hv)⟩
    · simp only [heq, rests, hrests]
      exact ⟨.concat hliteral hv (Nat.le_refl 1), hperm (.concat (.literal hliteral) (.mvar hv))⟩

/-! ## Labels -/

theorem Denotes.ne_none {x : String} {value : Con} (h : Denotes θ pieces f)
    (hmem : .field (.label x) value ∈ pieces) : f x ≠ none := by
  induction h with
  | nil => cases hmem
  | cons hp _ hjoin ih =>
    rcases List.mem_cons.mp hmem with rfl | hmem
    · cases hp with
      | field =>
        rcases hjoin x with ⟨hnone, -⟩ | ⟨-, heq⟩
        · simp [single] at hnone
        · simp [heq, single]
    · rcases hjoin x with ⟨-, heq⟩ | ⟨hnone, -⟩
      · rw [heq]
        exact ih hmem
      · exact absurd hnone (ih hmem)

theorem Denotes.eq_none {x : String} (h : Denotes θ pieces f)
    (hfields : ∀ p ∈ pieces, p.isField = true)
    (hx : ∀ value, .field (.label x) value ∉ pieces) : f x = none := by
  induction h with
  | nil => rfl
  | @cons p pieces _ _ _ hp _ hjoin ih =>
    obtain ⟨hfield, hfields⟩ := List.forall_mem_cons.mp hfields
    have hrest := ih hfields fun value hmem => hx value (List.mem_cons_of_mem _ hmem)
    cases hp with
    | flex => cases hfield
    | @field y value t =>
      have hne : x ≠ y := by
        rintro rfl
        exact hx value (by simp)
      rcases hjoin x with ⟨-, heq⟩ | ⟨-, heq⟩
      · exact heq.trans hrest
      · rw [heq, single, if_neg hne]

/-- No label is written on both sides. -/
def Apart (left right : List Piece) : Prop :=
  ∀ x value value', .field (.label x) value ∈ left → .field (.label x) value' ∉ right

theorem Apart.symm (h : Apart left right) : Apart right left :=
  fun x value value' hright hleft => h x value' value hleft hright

/-! ## Cancelling -/

/-- Two rows with a common part and what is left of each. -/
inductive Cancels (store : Store) (left right left' right' : List Piece) : Prop where
  | intro (common common' : List Piece) (hleft : left.Perm (common ++ left'))
      (hright : right.Perm (common' ++ right'))
      (hcommon : ∀ θ, store.SolvedBy θ → Coincides θ common common') :
      Cancels store left right left' right'

namespace Cancels

variable {left' right' left'' right'' : List Piece}

theorem refl (left right : List Piece) : Cancels store left right left right :=
  .intro [] [] (.refl left) (.refl right) fun _ _ => .refl []

theorem trans (h : Cancels store left right left' right')
    (h' : Cancels store left' right' left'' right'') : Cancels store left right left'' right'' := by
  obtain ⟨left₁, right₁, hleft, hright, hcommon⟩ := h
  obtain ⟨left₂, right₂, hleft', hright', hcommon'⟩ := h'
  refine .intro (left₁ ++ left₂) (right₁ ++ right₂) ?_ ?_ fun θ hθ => ?_
  · rw [List.append_assoc]
    exact hleft.trans (hleft'.append_left left₁)
  · rw [List.append_assoc]
    exact hright.trans (hright'.append_left right₁)
  · exact (hcommon θ hθ).append (hcommon' θ hθ)

/-- A piece of each side that say the same. -/
theorem pair {q : Piece} {rest : List Piece} (hright : right.Perm (q :: rest))
    (hpq : ∀ θ, store.SolvedBy θ → Coincides θ [p] [q]) :
    Cancels store (p :: left) right left rest :=
  .intro [p] [q] (.refl _) hright hpq

/-- A piece that finds no partner. -/
theorem skip (p : Piece) (h : Cancels store left right left' right') :
    Cancels store (p :: left) right (p :: left') right' := by
  obtain ⟨common, common', hleft, hright, hcommon⟩ := h
  exact .intro common common' ((hleft.cons p).trans List.perm_middle.symm) hright hcommon

theorem reorder (h : Cancels store left right left' right') (hleft' : left'.Perm left'')
    (hright' : right'.Perm right'') : Cancels store left right left'' right'' := by
  obtain ⟨common, common', hleft, hright, hcommon⟩ := h
  exact .intro common common' (hleft.trans (hleft'.append_left common))
    (hright.trans (hright'.append_left common')) hcommon

/-- If the leftovers say the same, so do the rows. -/
theorem coincides (h : Cancels store left right left' right') (hθ : store.SolvedBy θ)
    (hrest : Coincides θ left' right') : Coincides θ left right := by
  obtain ⟨common, common', hleft, hright, hcommon⟩ := h
  exact (Coincides.of_perm hleft).trans (((hcommon θ hθ).append hrest).trans
    (Coincides.of_perm hright).symm)

/-- If the rows denote a common map, so do the leftovers. -/
theorem common (h : Cancels store left right left' right') (hθ : store.SolvedBy θ)
    (hleft : Denotes θ left f) (hright : Denotes θ right f) :
    ∃ f', Denotes θ left' f' ∧ Denotes θ right' f' := by
  obtain ⟨common, common', hpermL, hpermR, hcommon⟩ := h
  obtain ⟨a, b, ha, hb, hab⟩ := denotes_append.mp (hleft.perm hpermL)
  obtain ⟨a', b', ha', hb', hab'⟩ := denotes_append.mp (hright.perm hpermR)
  cases ((hcommon θ hθ a).mp ha).unique ha'
  cases hab.cancel hab'
  exact ⟨b, hb, hb'⟩

theorem mem_left (h : Cancels store left right left' right') (hp : p ∈ left') : p ∈ left := by
  obtain ⟨common, -, hperm, -, -⟩ := h
  exact hperm.mem_iff.mpr (List.mem_append_right _ hp)

theorem mem_right (h : Cancels store left right left' right') (hp : p ∈ right') : p ∈ right := by
  obtain ⟨-, common', -, hperm, -⟩ := h
  exact hperm.mem_iff.mpr (List.mem_append_right _ hp)

theorem countP_left (h : Cancels store left right left' right') (q : Piece → Bool) :
    left'.countP q ≤ left.countP q := by
  obtain ⟨common, -, hperm, -, -⟩ := h
  rw [hperm.countP_eq, List.countP_append]
  exact Nat.le_add_left _ _

theorem countP_right (h : Cancels store left right left' right') (q : Piece → Bool) :
    right'.countP q ≤ right.countP q := by
  obtain ⟨-, common', -, hperm, -⟩ := h
  rw [hperm.countP_eq, List.countP_append]
  exact Nat.le_add_left _ _

end Cancels

end Row

end RowML
