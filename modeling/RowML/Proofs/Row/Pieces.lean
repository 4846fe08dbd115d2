import RowML.Proofs.Normal.Head
import RowML.Row.Summary

/-!
# Rows as sums of pieces

The sum of a list of pieces is their concatenation.  It does not depend on the order of the pieces;
summaries and rebuilt rows are convertible to the sums of their pieces.
-/

namespace RowML

open RowML.Con

variable {globals : Globals} {layout : Layout} {store store' : Store}

/-- The row that a piece stands for. -/
def Piece.con : Piece → Con
  | .field name value => .row .type [(name, value)]
  | .atom c => c
  | .flex c _ => c
  | .error => .error

namespace Row

/-- The concatenation of rows. -/
def total (rows : List Con) : Con := rows.foldr .concat (.row .type [])

/-- The concatenation of pieces. -/
def sum (pieces : List Piece) : Con := total (pieces.map Piece.con)

section Sums

private theorem concat_empty (k : Kind) (r : Con) :
    Convertible globals store (.concat r (.row k [])) r :=
  (Convertible.law (.concatComm _ _)).trans (Convertible.law (.concatEmpty _ _))

private theorem concat_assoc (a b c : Con) :
    Convertible globals store (.concat (.concat a b) c) (.concat a (.concat b c)) :=
  Convertible.law (.concatAssoc a b c)

private theorem concat_comm (a b : Con) :
    Convertible globals store (.concat a b) (.concat b a) :=
  Convertible.law (.concatComm a b)

theorem total_append (rows rows' : List Con) :
    Convertible globals store (total (rows ++ rows')) (.concat (total rows) (total rows')) := by
  induction rows with
  | nil => exact (Convertible.law (.concatEmpty _ _)).symm
  | cons r rows ih =>
    have step : Convertible globals store (.concat r (total (rows ++ rows')))
        (.concat r (.concat (total rows) (total rows'))) := .concat (.refl r) ih
    exact step.trans (concat_assoc r (total rows) (total rows')).symm

theorem sum_append (pieces pieces' : List Piece) :
    Convertible globals store (sum (pieces ++ pieces')) (.concat (sum pieces) (sum pieces')) := by
  rw [sum, List.map_append]
  exact total_append _ _

theorem sum_singleton (piece : Piece) : Convertible globals store (sum [piece]) piece.con :=
  concat_empty _ _

theorem sum_perm {pieces pieces' : List Piece} (h : pieces.Perm pieces') :
    Convertible globals store (sum pieces) (sum pieces') := by
  induction h with
  | nil => exact .refl _
  | cons p _ ih => exact .concat (.refl _) ih
  | swap p q rest =>
    exact (concat_assoc q.con p.con (sum rest)).symm.trans
      ((Congr.concat (concat_comm _ _) (.refl _)).trans (concat_assoc p.con q.con (sum rest)))
  | trans _ _ ih ih' => exact ih.trans ih'

theorem sum_congr {pieces pieces' : List Piece}
    (h : List.Forall₂ (fun p p' => Convertible globals store p.con p'.con) pieces pieces') :
    Convertible globals store (sum pieces) (sum pieces') := by
  induction h with
  | nil => exact .refl _
  | cons hp _ ih => exact .concat hp ih

/-- A literal is the sum of its fields. -/
theorem row_sum (k : Kind) (fields : List (Con × Con)) :
    Convertible globals store (.row k fields) (sum (fields.map fun f => .field f.1 f.2)) := by
  induction fields generalizing k with
  | nil => exact Convertible.law (.rowKind _ _ _)
  | cons field fields ih =>
    have split : Convertible globals store (.row k (field :: fields))
        (.concat (.row k [field]) (.row k fields)) :=
      (Convertible.law (.concatRow k k [field] fields)).symm
    exact split.trans (.concat (Convertible.law (.rowKind _ _ _)) (ih k))

theorem foldl_concat (r : Con) (rows : List Con) :
    Convertible globals store (rows.foldl .concat r) (.concat r (total rows)) := by
  induction rows generalizing r with
  | nil => exact (concat_empty _ _).symm
  | cons r' rows ih => exact (ih (.concat r r')).trans (concat_assoc _ _ _)

end Sums

/-! ## Rebuilt rows -/

/-- The rests of a list of pieces, as rows. -/
def rests (pieces : List Piece) : List Con :=
  (pieces.filter (!·.isField)).map Piece.con

private theorem filterMap_rest {rest? : Piece → Option Con} (pieces : List Piece)
    (hfield : ∀ name value, rest? (.field name value) = none)
    (hrest : ∀ p : Piece, p.isField = false → rest? p = some p.con) :
    pieces.filterMap rest? = rests pieces := by
  induction pieces with
  | nil => rfl
  | cons p ps ih =>
    cases hp : p.isField with
    | true =>
      obtain ⟨name, value, rfl⟩ : ∃ name value, p = .field name value := by
        cases p with
        | field name value => exact ⟨name, value, rfl⟩
        | atom | flex | error => simp [Piece.isField] at hp
      rw [List.filterMap_cons_none (hfield name value), ih]
      simp [rests, Piece.isField]
    | false =>
      rw [List.filterMap_cons_some (hrest p hp), ih]
      simp [rests, hp]

/-- The three shapes of a rebuilt row. -/
theorem rebuild_cases (k : Kind) (pieces : List Piece) :
    (fields pieces = [] ∧ rests pieces = [] ∧ rebuild k pieces = .row k []) ∨
    (∃ first others, fields pieces = [] ∧ rests pieces = first :: others ∧
      rebuild k pieces = others.foldl .concat first) ∨
    (fields pieces ≠ [] ∧
      rebuild k pieces = (rests pieces).foldl .concat (.row k (fields pieces))) := by
  rw [rebuild, filterMap_rest pieces ?_ ?_]
  rcases hfields : fields pieces with _ | ⟨field, known⟩
  · rcases rests pieces with _ | ⟨first, others⟩
    · exact .inl ⟨rfl, rfl, rfl⟩
    · exact .inr (.inl ⟨first, others, rfl, rfl, rfl⟩)
  · exact .inr (.inr ⟨List.cons_ne_nil _ _, rfl⟩)
  · exact fun _ _ => rfl
  · intro p hp
    cases p with
    | field => simp [Piece.isField] at hp
    | atom | flex | error => rfl

theorem perm_fields_rests (pieces : List Piece) :
    pieces.Perm ((fields pieces).map (fun f => .field f.1 f.2) ++ pieces.filter (!·.isField)) := by
  induction pieces with
  | nil => exact .nil
  | cons p ps ih =>
    cases p with
    | field name value =>
      simpa [fields, Piece.field?, Piece.isField] using ih.cons (.field name value)
    | _ =>
      simp only [fields, Piece.field?, Piece.isField, List.filterMap_cons, Bool.not_false,
        List.filter_cons_of_pos]
      exact (ih.cons _).trans List.perm_middle.symm

theorem rebuild_sum (k : Kind) (pieces : List Piece) :
    Convertible globals store (rebuild k pieces) (sum pieces) := by
  have hperm : Convertible globals store (sum pieces)
      (.concat (.row k (fields pieces)) (total (rests pieces))) :=
    (sum_perm (perm_fields_rests pieces)).trans ((sum_append _ _).trans
      (.concat (row_sum k _).symm (.refl _)))
  refine .trans ?_ hperm.symm
  rcases rebuild_cases k pieces with
    ⟨hfields, hrests, heq⟩ | ⟨first, others, hfields, hrests, heq⟩ | ⟨-, heq⟩
  · rw [heq, hfields, hrests]
    exact (concat_empty _ _).symm
  · rw [heq, hfields, hrests]
    exact (foldl_concat first others).trans (Convertible.law (.concatEmpty _ _)).symm
  · rw [heq]
    exact foldl_concat _ _

end Row

/-! ## Sound pieces -/

def Piece.Sound (layout : Layout) (store : Store) : Piece → Prop
  | .field name value => name.Sound layout store ∧ value.Sound layout store
  | .atom c => c.Sound layout store
  | .flex c _ => c.Sound layout store
  | .error => False

theorem Piece.Sound.mono {piece : Piece} (h : piece.Sound layout store)
    (grows : store.Grows store') : piece.Sound layout store' := by
  cases piece with
  | field => exact ⟨h.1.mono grows, h.2.mono grows⟩
  | atom => exact Con.Sound.mono h grows
  | flex => exact Con.Sound.mono h grows
  | error => exact h

theorem DistinctLabels.sublist {fields fields' : List (Con × Con)} (h : DistinctLabels fields')
    (hsub : fields.Sublist fields') : DistinctLabels fields := by
  obtain ⟨names, hnames, hnodup⟩ := h
  have hmap : (fields.map (·.1)).Sublist (names.map Con.label) := hnames ▸ hsub.map _
  obtain ⟨names', hsub', hnames'⟩ := List.sublist_map_iff.mp hmap
  exact ⟨names', hnames', hsub'.nodup hnodup⟩

theorem DistinctLabels.perm {fields fields' : List (Con × Con)} (h : DistinctLabels fields)
    (hperm : fields.Perm fields') : DistinctLabels fields' := by
  obtain ⟨names, hnames, hnodup⟩ := h
  suffices hex : ∃ names' : List String, fields'.map (·.1) = names'.map Con.label ∧
      names'.Perm names by
    obtain ⟨names', hnames', hperm'⟩ := hex
    exact ⟨names', hnames', hperm'.nodup_iff.mpr hnodup⟩
  clear hnodup
  induction hperm generalizing names with
  | nil => exact ⟨names, hnames, .refl names⟩
  | cons field _ ih =>
    obtain _ | ⟨name, names⟩ := names
    · cases hnames
    simp only [List.map_cons, List.cons.injEq] at hnames
    obtain ⟨names', hnames', hperm'⟩ := ih names hnames.2
    exact ⟨name :: names', by simp [hnames.1, hnames'], hperm'.cons name⟩
  | swap field field' fields =>
    obtain _ | ⟨name, _ | ⟨name', names⟩⟩ := names
    · cases hnames
    · simp at hnames
    simp only [List.map_cons, List.cons.injEq] at hnames
    exact ⟨name' :: name :: names, by simp [hnames], .swap _ _ _⟩
  | trans _ _ ih ih' =>
    obtain ⟨names₁, hnames₁, hperm₁⟩ := ih names hnames
    obtain ⟨names₂, hnames₂, hperm₂⟩ := ih' names₁ hnames₁
    exact ⟨names₂, hnames₂, hperm₂.trans hperm₁⟩

namespace Row

/-- The pieces of a row that may be projected from: fields with different constant labels, or a
single remainder. -/
def Plain (pieces : List Piece) : Prop :=
  DistinctLabels (fields pieces) ∧ (pieces.filter (!·.isField) = [] ∨ pieces.length ≤ 1)

structure Sound (layout : Layout) (store : Store) (pieces : List Piece) : Prop where
  each : ∀ piece ∈ pieces, piece.Sound layout store
  plain : layout.rows = .projecting → Plain pieces

namespace Sound

variable {pieces pieces' : List Piece}

theorem mono (h : Sound layout store pieces) (grows : store.Grows store') :
    Sound layout store' pieces :=
  ⟨fun p hp => (h.each p hp).mono grows, h.plain⟩

theorem sublist (h : Sound layout store pieces') (hsub : pieces.Sublist pieces') :
    Sound layout store pieces := by
  refine ⟨fun p hp => h.each p (hsub.subset hp), fun hrows => ?_⟩
  obtain ⟨hlabels, hrests⟩ := h.plain hrows
  refine ⟨hlabels.sublist (hsub.filterMap _), ?_⟩
  rcases hrests with hrests | hlength
  · left
    have := hsub.filter (!·.isField)
    rw [hrests] at this
    exact List.sublist_nil.mp this
  · exact .inr (Nat.le_trans hsub.length_le hlength)

theorem perm (h : Sound layout store pieces) (hperm : pieces.Perm pieces') :
    Sound layout store pieces' := by
  refine ⟨fun p hp => h.each p (hperm.mem_iff.mpr hp), fun hrows => ?_⟩
  obtain ⟨hlabels, hrests⟩ := h.plain hrows
  refine ⟨hlabels.perm (hperm.filterMap _), hrests.imp (fun hrests => ?_) fun hlength => ?_⟩
  · exact List.nil_perm.mp (hrests ▸ hperm.filter _)
  · exact hperm.length_eq ▸ hlength

/-- A remainder at the end may be exchanged for another one. -/
theorem replaceLast {p q : Piece} (h : Sound layout store (pieces ++ [p]))
    (hp : p.isField = false) (hq : q.isField = false) (hsound : q.Sound layout store) :
    Sound layout store (pieces ++ [q]) := by
  have hfield : ∀ {p : Piece}, p.isField = false → p.field? = none := by
    intro p hp
    cases p with
    | field => cases hp
    | atom | flex | error => rfl
  refine ⟨fun piece hpiece => ?_, fun hrows => ?_⟩
  · rcases List.mem_append.mp hpiece with hpiece | hpiece
    · exact h.each piece (List.mem_append_left _ hpiece)
    · rw [List.mem_singleton.mp hpiece]
      exact hsound
  · obtain ⟨hlabels, hrests | hlength⟩ := h.plain hrows
    · simp [hp] at hrests
    · refine ⟨?_, .inr (by simpa using hlength)⟩
      simpa [fields, hfield hp, hfield hq] using hlabels

theorem field (h : Sound layout store pieces) {f : Con × Con} (hf : f ∈ fields pieces) :
    f.1.Sound layout store ∧ f.2.Sound layout store := by
  obtain ⟨p, hp, hpf⟩ := List.mem_filterMap.mp hf
  cases p with
  | field name value =>
    cases hpf
    exact h.each _ hp
  | atom | flex | error => cases hpf

theorem rest (h : Sound layout store pieces) {c : Con} (hc : c ∈ rests pieces) :
    c.Sound layout store := by
  obtain ⟨p, hp, rfl⟩ := List.mem_map.mp hc
  obtain ⟨hp, hfield⟩ := List.mem_filter.mp hp
  have := h.each p hp
  cases p with
  | field => cases hfield
  | atom => exact this
  | flex => exact this
  | error => exact this.elim

end Sound

private theorem foldl_concat_sound (hrows : layout.rows = .concatenating) {r : Con}
    {rows : List Con} (hr : r.Sound layout store) (hrows' : ∀ c ∈ rows, c.Sound layout store) :
    (rows.foldl .concat r).Sound layout store := by
  induction rows generalizing r with
  | nil => exact hr
  | cons c rows ih =>
    exact ih (.concat hrows hr (hrows' c (by simp))) fun c hc =>
      hrows' c (List.mem_cons_of_mem _ hc)

theorem rebuild_sound {k : Kind} {pieces : List Piece} (hk : k.Sound store.kinds.vars.size)
    (h : Sound layout store pieces) : (rebuild k pieces).Sound layout store := by
  have hknown : (Con.row k (fields pieces)).Sound layout store :=
    .row hk (fun hrows => (h.plain hrows).1) fun f hf => h.field hf
  have hfold : ∀ {r : Con} {others : List Con}, r.Sound layout store →
      (∀ c ∈ others, Con.Sound layout store c) → (layout.rows = .projecting → others = []) →
      (others.foldl Con.concat r).Sound layout store := by
    intro r others hr hothers hnil
    cases hrows : layout.rows with
    | concatenating => exact foldl_concat_sound hrows hr hothers
    | projecting =>
      rw [hnil hrows]
      exact hr
  have hlength : (rests pieces).length + (fields pieces).length = pieces.length := by
    have := (perm_fields_rests pieces).length_eq
    simp only [List.length_append, List.length_map] at this
    rw [rests, List.length_map]
    omega
  have hplain : layout.rows = .projecting → rests pieces = [] ∨ pieces.length ≤ 1 := by
    intro hrows
    exact (h.plain hrows).2.imp (fun hnil => by rw [rests, hnil]; rfl) fun hle => hle
  rcases rebuild_cases k pieces with
    ⟨hfields, -, heq⟩ | ⟨first, others, -, hrests, heq⟩ | ⟨hfields, heq⟩
  · rw [heq]
    rwa [hfields] at hknown
  · rw [heq]
    refine hfold (h.rest (by simp [hrests])) (fun c hc => h.rest (by simp [hrests, hc])) ?_
    intro hrows
    rw [hrests, List.length_cons] at hlength
    rcases hplain hrows with hnil | hle
    · simp [hrests] at hnil
    · exact List.length_eq_zero_iff.mp (by omega)
  · rw [heq]
    refine hfold hknown (fun c hc => h.rest hc) fun hrows => ?_
    rcases hplain hrows with hrests | hle
    · exact hrests
    · have := List.length_pos_iff.mpr hfields
      exact List.length_eq_zero_iff.mp (by omega)

/-! ## Summaries -/

/-- What a summary answers. -/
structure Summary (globals : Globals) (layout : Layout) (store : Store) (row : Con)
    (pieces : List Piece) : Prop where
  sound : Sound layout store pieces
  conv : store.kinds.Closed → Convertible globals store row (sum pieces)

theorem Summary.grows {row : Con} {pieces : List Piece}
    (h : Summary globals layout store row pieces) (grows : store.Grows store') :
    Summary globals layout store' row pieces :=
  ⟨h.sound.mono grows, fun hclosed => (h.conv (grows.kinds.closed hclosed)).lift grows hclosed⟩

theorem Summary.of_reduces {row row' : Con} {pieces : List Piece}
    (h : Summary globals layout store row' pieces) (hrow : Reduces globals layout store row row') :
    Summary globals layout store row pieces :=
  ⟨h.sound, fun hclosed => (hrow.conv hclosed).trans (h.conv hclosed)⟩

theorem Summary.append {left right : Con} {lefts rights : List Piece}
    (hrows : layout.rows = .concatenating) (hleft : Summary globals layout store left lefts)
    (hright : Summary globals layout store right rights) :
    Summary globals layout store (.concat left right) (lefts ++ rights) := by
  refine ⟨⟨fun p hp => ?_, by simp [hrows]⟩, fun hclosed => ?_⟩
  · rcases List.mem_append.mp hp with hp | hp
    · exact hleft.sound.each p hp
    · exact hright.sound.each p hp
  · exact (Congr.concat (hleft.conv hclosed) (hright.conv hclosed)).trans (sum_append _ _).symm

theorem remainder_con (c : Con) : (remainder c).con = c := by
  unfold remainder
  split <;> rfl

/-- One field of a literal and its piece. -/
inductive FieldPiece (globals : Globals) (layout : Layout) (store : Store) :
    Con × Con → Piece → Prop where
  | intro {name name' value : Con} (hname : HeadOf globals layout store name name')
      (hvalue : value.Sound layout store) :
      FieldPiece globals layout store (name, value) (.field name' value)

theorem FieldPiece.grows {field : Con × Con} {piece : Piece}
    (h : FieldPiece globals layout store field piece) (grows : store.Grows store') :
    FieldPiece globals layout store' field piece := by
  cases h with
  | intro hname hvalue =>
    exact .intro ⟨hname.toReduces.grows grows, hname.label⟩ (hvalue.mono grows)

private theorem fields_labels {fields : List (Con × Con)} {pieces : List Piece}
    (h : List.Forall₂ (FieldPiece globals layout store) fields pieces) {names : List String}
    (hnames : fields.map (·.1) = names.map Con.label) :
    (Row.fields pieces).map (·.1) = names.map Con.label := by
  induction h generalizing names with
  | nil => exact hnames
  | cons hfield _ ih =>
    cases hfield with
    | intro hname _ =>
      obtain _ | ⟨x, names⟩ := names
      · cases hnames
      simp only [List.map_cons, List.cons.injEq] at hnames
      simp only [Row.fields, List.filterMap_cons, Piece.field?, List.map_cons, List.cons.injEq]
      exact ⟨hname.label x hnames.1, ih hnames.2⟩

theorem literal_summary {k : Kind} {fields : List (Con × Con)} {pieces : List Piece}
    (hrow : (Con.row k fields).Sound layout store)
    (h : List.Forall₂ (FieldPiece globals layout store) fields pieces) :
    Summary globals layout store (.row k fields) pieces := by
  refine ⟨⟨?_, fun hrows => ⟨?_, .inl ?_⟩⟩, fun hclosed => (row_sum k fields).trans (sum_congr ?_)⟩
  · refine Con.forall_mem_of_forall₂ h fun field _ piece hpiece => ?_
    cases hpiece with
    | intro hname hvalue => exact ⟨hname.sound, hvalue⟩
  · obtain ⟨names, hnames, hnodup⟩ := hrow.top.layout hrows
    exact ⟨names, fields_labels h hnames, hnodup⟩
  · refine List.filter_eq_nil_iff.mpr (Con.forall_mem_of_forall₂ h fun field _ piece hpiece => ?_)
    cases hpiece with
    | intro => simp [Piece.isField]
  · refine List.forall₂_map_left_iff.mpr (h.imp fun field piece hpiece => ?_)
    cases hpiece with
    | intro hname _ =>
      exact .row (.refl _) (.cons ⟨hname.conv hclosed, .refl _⟩ .nil)

theorem remainder_summary {c : Con} (hc : c.Sound layout store) :
    Summary globals layout store c [remainder c] := by
  have hnot : (remainder c).isField = false := by
    unfold remainder
    split <;> rfl
  have hfields : fields [remainder c] = [] := by
    unfold remainder
    split <;> rfl
  refine ⟨⟨?_, fun _ => ⟨⟨[], by rw [hfields]; rfl, .nil⟩, .inr (Nat.le_refl _)⟩⟩, fun _ => ?_⟩
  · rw [List.forall_mem_singleton]
    unfold remainder
    split <;> exact hc
  · have h : Convertible globals store (sum [remainder c]) (remainder c).con := sum_singleton _
    rw [remainder_con] at h
    exact h.symm

theorem summarize_yields (fuel : Nat) {row : Con} (ok : store.WellFormed layout)
    (hg : globals.Sound layout store) (hrow : row.Sound layout store) :
    Yields (Store.reading layout) store (summarize globals fuel row) fun pieces store' =>
      Summary globals layout store' row pieces := by
  induction fuel generalizing row store with
  | zero => exact Yields.of_none rfl
  | succ fuel ih =>
    refine Yields.bind ok (headNormal_yields fuel ok hg hrow) ?_
    intro head store₁ ok₁ reads₁ hhead
    have hg₁ := hg.mono reads₁.toGrows
    cases head with
    | row k fields =>
      have hrun : Yields (Store.reading layout) store₁ (fields.mapM fun field => do
          return Piece.field (← headNormal globals fuel field.1) field.2) fun pieces store' =>
          List.Forall₂ (FieldPiece globals layout store') fields pieces := by
        refine Yields.mapM ok₁ (fun _ reads h => h.grows reads.toGrows) ?_
        intro field hfield store₂ ok₂ reads₂
        obtain ⟨hname, hvalue⟩ := hhead.sound.field hfield
        refine Yields.bind ok₂ (headNormal_yields fuel ok₂ (hg₁.mono reads₂.toGrows)
          (hname.mono reads₂.toGrows)) fun name store₃ ok₃ reads₃ hname => ?_
        exact Yields.pure ok₃ (.intro hname (hvalue.mono (reads₂.trans reads₃).toGrows))
      refine hrun.mono fun pieces store₂ ok₂ reads₂ hpieces => ?_
      have hhead := hhead.toReduces.grows reads₂.toGrows
      exact (literal_summary hhead.sound hpieces).of_reduces hhead
    | concat left right =>
      have hrows : layout.rows = .concatenating := hhead.sound.top.layout
      refine Yields.bind ok₁ (ih ok₁ hg₁ (hhead.sound.part (by simp [parts]))) ?_
      intro lefts store₂ ok₂ reads₂ hleft
      refine Yields.bind ok₂ (ih ok₂ (hg₁.mono reads₂.toGrows)
        ((hhead.sound.part (by simp [parts])).mono reads₂.toGrows)) ?_
      intro rights store₃ ok₃ reads₃ hright
      have hhead := hhead.toReduces.grows (reads₂.trans reads₃).toGrows
      exact Yields.pure ok₃ (((hleft.grows reads₃.toGrows).append hrows hright).of_reduces hhead)
    | error => exact absurd rfl hhead.sound.ne_error
    | _ => exact Yields.pure ok₁ ((remainder_summary hhead.sound).of_reduces hhead.toReduces)

end Row

end RowML
