import Mathlib
import RowML.Proofs.Normal.Full
import RowML.Proofs.Unify.Principal

/-!
# When a head normal form shows the node of the normal form

Rules look at some parts of a node as they are written: a projection compares the names of literal
fields, and a map asks whether its function is written as the identity.  Where these parts are in
head normal form, reducing what is below a node makes no rule apply to it.
-/

namespace RowML

namespace Con

/-- The body of a function. -/
def functionBody : Con → List Con
  | .abs _ _ body => [body]
  | _ => []

/-- The parts that the rules for a node look at as they are written. -/
def inspected : Con → List Con
  | .map _ _ f _ => f.functionBody
  | .proj r _ => r.fieldNames
  | _ => []

/-- A node with nothing below it. -/
def IsLeaf (c : Con) : Prop := c.parts = [] ∧ c.annotations = []

/-- What is inspected is in head normal form, and a field is looked for by a name that is a leaf: at
the node, in what is inspected there and at the heads below it. -/
inductive Firm (globals : Globals) (store : Store) : Con → Prop where
  | intro {c : Con} (form : ∀ p ∈ c.inspected, HeadForm globals store p)
      (inspected : ∀ p ∈ c.inspected, Firm globals store p)
      (field : ∀ r field, c = .proj r field → field.IsLeaf)
      (heads : ∀ p ∈ c.heads, Firm globals store p) : Firm globals store c

variable {globals : Globals} {store store' : Store} {c c' r : Con}

namespace Firm

theorem inspected (h : Firm globals store c) :
    ∀ p ∈ c.inspected, HeadForm globals store p ∧ Firm globals store p := by
  cases h with
  | intro form inspected _ _ => exact fun p hp => ⟨form p hp, inspected p hp⟩

theorem field {row field : Con} (h : Firm globals store (.proj row field)) : field.IsLeaf := by
  cases h with
  | intro _ _ field _ => exact field _ _ rfl

theorem head (h : Firm globals store c) : ∀ p ∈ c.heads, Firm globals store p := by
  cases h with
  | intro _ _ _ heads => exact heads

/-- Only what is solved matters. -/
theorem of_solved (h : Firm globals store c)
    (hsolved : ∀ i, store'.isSolved i = store.isSolved i) : Firm globals store' c := by
  induction h with
  | intro form _ field _ inspected heads =>
    exact .intro (fun p hp => (form p hp).of_solved hsolved) inspected field heads

theorem compresses (h : Firm globals store c) (compresses : store.Compresses store') :
    Firm globals store' c :=
  h.of_solved compresses.solved

theorem back (h : Firm globals store' c) (compresses : store.Compresses store') :
    Firm globals store c :=
  h.of_solved fun i => (compresses.solved i).symm

end Firm

/-! ## Related nodes -/

/-- Each of the second constructors shows the node of one of the first, in head normal form, if the
first ones are in head normal form. -/
def Shown (globals : Globals) (store : Store) (xs ys : List Con) : Prop :=
  (∀ x ∈ xs, HeadForm globals store x ∧ Firm globals store x) →
    ∀ y ∈ ys, (HeadForm globals store y ∧ Firm globals store y) ∧ ∃ x ∈ xs, x.frame = y.frame

/-- The second constructor shows the node of the first one, and no rule applies to it. -/
structure Exposes (globals : Globals) (store : Store) (c r : Con) : Prop where
  frame : c.frame = r.frame
  form : HeadForm globals store r
  firm : Firm globals store r
  names : Shown globals store c.fieldNames r.fieldNames
  body : Shown globals store c.functionBody r.functionBody

theorem Shown.refl (xs : List Con) : Shown globals store xs xs :=
  fun h y hy => ⟨h y hy, y, hy, rfl⟩

theorem Shown.trans {xs ys zs : List Con} (h : Shown globals store xs ys)
    (h' : Shown globals store ys zs) : Shown globals store xs zs := by
  intro hxs z hz
  obtain ⟨hz', y, hy, hyz⟩ := h' (fun y hy => (h hxs y hy).1) z hz
  obtain ⟨-, x, hx, hxy⟩ := h hxs y hy
  exact ⟨hz', x, hx, hxy.trans hyz⟩

theorem Shown.compresses {xs ys : List Con} (h : Shown globals store xs ys)
    (compresses : store.Compresses store') : Shown globals store' xs ys := by
  intro hxs y hy
  obtain ⟨⟨hform, hfirm⟩, hframe⟩ := h
    (fun x hx => ⟨(hxs x hx).1.back compresses, (hxs x hx).2.back compresses⟩) y hy
  exact ⟨⟨hform.compresses compresses, hfirm.compresses compresses⟩, hframe⟩

namespace Exposes

theorem refl (hform : HeadForm globals store c) (hfirm : Firm globals store c) :
    Exposes globals store c c :=
  ⟨rfl, hform, hfirm, .refl _, .refl _⟩

theorem trans {a b : Con} (h : Exposes globals store a b) (h' : Exposes globals store b c) :
    Exposes globals store a c :=
  ⟨h.frame.trans h'.frame, h'.form, h'.firm, h.names.trans h'.names, h.body.trans h'.body⟩

theorem compresses (h : Exposes globals store c r) (compresses : store.Compresses store') :
    Exposes globals store' c r :=
  ⟨h.frame, h.form.compresses compresses, h.firm.compresses compresses,
    h.names.compresses compresses, h.body.compresses compresses⟩

end Exposes

/-! ### What the frame decides -/

theorem ne_error_of_frame (h : c.frame = c'.frame) (hc : c ≠ .error) : c' ≠ .error := by
  rintro rfl
  exact hc (eq_of_frame_leaf h.symm rfl rfl).symm

theorem eq_abs_of_frame {x : String} {k : Kind} {body : Con}
    (h : c.frame = (Con.abs x k body).frame) : ∃ k' body', c = .abs x k' body' := by
  cases c with
  | abs y k' body' =>
    cases h
    exact ⟨k', body', rfl⟩
  | _ => cases h

theorem eq_emptyRow_of_frame {k : Kind} (h : c.frame = (Con.row k []).frame) :
    ∃ k', c = .row k' [] := by
  obtain ⟨k', fields, rfl⟩ := eq_row_of_frame h.symm
  obtain rfl : fields = [] := by simpa [frame] using h
  exact ⟨k', rfl⟩

theorem isMapped_frame (c : Con) : c.frame.isMapped = c.isMapped := by
  cases c <;> rfl

theorem heads_frame (c : Con) : c.frame.heads.length = c.heads.length := by
  cases c <;> rfl

theorem heads_eq_take (c : Con) : c.heads = c.parts.take c.heads.length := by
  cases c <;> rfl

theorem concatHeads_eq_concat_iff {l r : Con} : concatHeads l r = .concat l r ↔
    l ≠ .error ∧ r ≠ .error ∧ (∀ k, l ≠ .row k []) ∧ (∀ k, r ≠ .row k []) ∧
      ¬ ((∃ k fields, l = .row k fields) ∧ ∃ k fields, r = .row k fields) := by
  have left : ∀ {l r : Con}, l ≠ .concat l r := fun h => by
    have := congrArg sizeOf h
    simp only [concat.sizeOf_spec] at this
    omega
  have right : ∀ {l r : Con}, r ≠ .concat l r := fun h => by
    have := congrArg sizeOf h
    simp only [concat.sizeOf_spec] at this
    omega
  unfold concatHeads
  split
  · simp
  · simp
  · simp [right]
  · simp [left]
  · simp
  next herror hempty herror' hempty' hrows =>
    simp only [true_iff]
    refine ⟨herror, herror', hempty, hempty', ?_⟩
    rintro ⟨⟨k, fields, rfl⟩, k', fields', rfl⟩
    exact hrows _ _ _ _ rfl rfl

/-- Whether two rows are put together depends on what they show. -/
theorem concatHeads_of_frame {l l' r r' : Con} (hl : l.frame = l'.frame) (hr : r.frame = r'.frame)
    (h : concatHeads l r = .concat l r) : concatHeads l' r' = .concat l' r' := by
  rw [concatHeads_eq_concat_iff] at h ⊢
  obtain ⟨herror, herror', hempty, hempty', hrows⟩ := h
  refine ⟨ne_error_of_frame hl herror, ne_error_of_frame hr herror', ?_, ?_, ?_⟩
  · rintro k rfl
    exact (eq_emptyRow_of_frame hl).elim hempty
  · rintro k rfl
    exact (eq_emptyRow_of_frame hr).elim hempty'
  · rintro ⟨⟨k, fields, rfl⟩, k', fields', rfl⟩
    exact hrows ⟨eq_row_of_frame hl.symm, eq_row_of_frame hr.symm⟩

/-! ### Reduction below a node -/

/-- A pass that keeps what the parts show. -/
abbrev Below (globals : Globals) (store : Store) (c c' : Con) : Prop :=
  Parallel (fun _ _ => True) (fun p p' => HeadForm globals store p → Firm globals store p →
    Exposes globals store p p') c c'

namespace Below

/-- The heads of a node are reduced like its other parts. -/
theorem heads (h : Below globals store c c') (hform : HeadForm globals store c)
    (hfirm : Firm globals store c) : List.Forall₂ (Exposes globals store) c.heads c'.heads := by
  have hlength : c'.heads.length = c.heads.length := by
    rw [← heads_frame, ← h.frame, heads_frame]
  have htake := List.forall₂_take c.heads.length h.parts
  rw [← heads_eq_take, ← hlength, ← heads_eq_take] at htake
  obtain ⟨hlen, hheads⟩ := List.forall₂_iff_get.mp htake
  exact List.forall₂_iff_get.mpr ⟨hlen, fun i hi hi' => hheads i hi hi'
    (hform.head (List.getElem_mem hi)) (hfirm.head _ (List.getElem_mem hi))⟩

theorem body (h : Below globals store c c') :
    Shown globals store c.functionBody c'.functionBody := by
  intro hbody y hy
  cases c' with
  | abs x k body' =>
    obtain ⟨k', body, rfl⟩ := eq_abs_of_frame h.frame
    obtain rfl := List.mem_singleton.mp hy
    obtain ⟨hform, hfirm⟩ := hbody body (by simp [functionBody])
    have exposes := (List.forall₂_cons.mp h.parts).1 hform hfirm
    exact ⟨⟨exposes.form, exposes.firm⟩, body, by simp [functionBody], exposes.frame⟩
  | _ => cases hy

/-- The names among names and values that are reduced. -/
private theorem forall₂_names {R : Con → Con → Prop} {fields fields' : List (Con × Con)}
    (h : List.Forall₂ R (fields.flatMap fun field => [field.1, field.2])
      (fields'.flatMap fun field => [field.1, field.2])) :
    List.Forall₂ R (fields.map (·.1)) (fields'.map (·.1)) := by
  induction fields generalizing fields' with
  | nil =>
    cases fields' with
    | nil => exact .nil
    | cons => cases h
  | cons field fields ih =>
    cases fields' with
    | nil => cases h
    | cons field' fields' =>
      obtain ⟨hname, hrest⟩ := List.forall₂_cons.mp h
      exact .cons hname (ih (List.forall₂_cons.mp hrest).2)

theorem names (h : Below globals store c c') (hform : HeadForm globals store c)
    (hfirm : Firm globals store c) : Shown globals store c.fieldNames c'.fieldNames := by
  intro hnames y hy
  cases c' with
  | row k fields' =>
    obtain ⟨k', fields, rfl⟩ := eq_row_of_frame h.frame.symm
    obtain ⟨i, hi, rfl⟩ := List.mem_iff_getElem.mp hy
    obtain ⟨hlength, hnames'⟩ := List.forall₂_iff_get.mp (forall₂_names h.parts)
    have hi' : i < (fields.map (·.1)).length := hlength ▸ hi
    have hmem := List.getElem_mem hi'
    have exposes := hnames' i hi' hi (hnames _ hmem).1 (hnames _ hmem).2
    exact ⟨⟨exposes.form, exposes.firm⟩, _, hmem, exposes.frame⟩
  | concat l' r' =>
    cases c with
    | concat l r =>
      obtain ⟨hl, hr⟩ := List.forall₂_cons.mp (h.heads hform hfirm)
      have hr := (List.forall₂_cons.mp hr).1
      rw [fieldNames, List.forall_mem_append] at hnames
      rcases List.mem_append.mp hy with hy | hy
      · obtain ⟨hy', x, hx, hframe⟩ := hl.names hnames.1 y hy
        exact ⟨hy', x, List.mem_append_left _ hx, hframe⟩
      · obtain ⟨hy', x, hx, hframe⟩ := hr.names hnames.2 y hy
        exact ⟨hy', x, List.mem_append_right _ hx, hframe⟩
    | _ => cases h.frame
  | _ => cases hy

/-- No rule applies to the node over the reduced parts. -/
theorem stuck (h : Below globals store c c') (hform : HeadForm globals store c)
    (hfirm : Firm globals store c) : c'.Stuck globals store := by
  have hheads := h.heads hform hfirm
  have hstuck := hform.stuck
  have hframe := h.frame
  cases c' with
  | mvar v spine' =>
    cases c with
    | mvar u spine =>
      obtain rfl : u = v := by
        injection hframe
      exact hstuck
    | _ => cases hframe
  | global id => exact eq_of_frame_leaf hframe.symm rfl rfl ▸ hstuck
  | member module path item => exact eq_of_frame_leaf hframe.symm rfl rfl ▸ hstuck
  | app f' a' =>
    cases c with
    | app f a =>
      have hf := (List.forall₂_cons.mp hheads).1.frame
      refine ⟨ne_error_of_frame hf hstuck.1, ?_⟩
      rintro x k body rfl
      obtain ⟨k', body', rfl⟩ := eq_abs_of_frame hf
      exact hstuck.2 x k' body' rfl
    | _ => cases hframe
  | kapp f' k' =>
    cases c with
    | kapp f k =>
      have hf := (List.forall₂_cons.mp hheads).1.frame
      refine ⟨ne_error_of_frame hf hstuck.1, ?_⟩
      rintro x body rfl
      cases f with
      | kabs x' body' => exact hstuck.2 x' body' rfl
      | _ => cases hf
    | _ => cases hframe
  | concat l' r' =>
    cases c with
    | concat l r =>
      obtain ⟨hl, hr⟩ := List.forall₂_cons.mp hheads
      exact concatHeads_of_frame hl.frame (List.forall₂_cons.mp hr).1.frame hstuck
    | _ => cases hframe
  | map d' e' f' r' =>
    cases c with
    | map d e f r =>
      obtain ⟨hf, hr⟩ := List.forall₂_cons.mp hheads
      have hr := (List.forall₂_cons.mp hr).1
      refine ⟨ne_error_of_frame hf.frame hstuck.1, ?_, ?_⟩
      · -- a body that is now the variable was the variable before
        by_contra hidentity
        unfold isIdentity at hidentity
        split at hidentity
        next x k =>
          obtain ⟨k', body, rfl⟩ := eq_abs_of_frame hf.frame
          obtain ⟨-, p, hp, hvar⟩ := hf.body hfirm.inspected (.bvar 0) (by simp [functionBody])
          obtain rfl := List.mem_singleton.mp hp
          obtain rfl := eq_of_frame_leaf hvar.symm rfl rfl
          exact absurd hstuck.2.1 (by simp [isIdentity])
        next => exact hidentity rfl
      · rw [← isMapped_frame, ← hr.frame, isMapped_frame]
        exact hstuck.2.2
    | _ => cases hframe
  | proj r' field' =>
    cases c with
    | proj r field =>
      obtain ⟨hr, hfield⟩ := List.forall₂_cons.mp hheads
      have hfield := (List.forall₂_cons.mp hfield).1
      -- the name that is looked for is a leaf, so it stays
      obtain rfl : field = field' := eq_of_frame_leaf hfield.frame hfirm.field.1 hfirm.field.2
      refine ⟨ne_error_of_frame hr.frame hstuck.1, hstuck.2.1, fun hmem => ?_, ?_⟩
      · obtain ⟨-, name, hname, hframe⟩ := hr.names hfirm.inspected field hmem
        obtain rfl := eq_of_frame_leaf hframe.symm hfirm.field.1 hfirm.field.2
        exact hstuck.2.2.1 hname
      · rintro d e f base rfl
        have hr := hr.frame
        cases r with
        | map d' e' f' base' => exact hstuck.2.2.2 d' e' f' base' rfl
        | _ => cases hr
    | _ => cases hframe
  | component t' i' =>
    cases c with
    | component t i =>
      have ht := (List.forall₂_cons.mp hheads).1.frame
      refine ⟨ne_error_of_frame ht hstuck.1, ?_⟩
      rintro cs rfl
      cases t with
      | tuple cs' => exact hstuck.2 cs' rfl
      | _ => cases ht
    | _ => cases hframe
  | _ => trivial

theorem firm (h : Below globals store c c') (hform : HeadForm globals store c)
    (hfirm : Firm globals store c) : Firm globals store c' := by
  have hheads := h.heads hform hfirm
  have hinspected : ∀ y ∈ c'.inspected, HeadForm globals store y ∧ Firm globals store y := by
    have hframe := h.frame
    intro y hy
    cases c' with
    | map d' e' f' r' =>
      cases c with
      | map d e f r =>
        have hf := (List.forall₂_cons.mp hheads).1
        exact (hf.body hfirm.inspected y hy).1
      | _ => cases hframe
    | proj r' field' =>
      cases c with
      | proj r field =>
        have hr := (List.forall₂_cons.mp hheads).1
        exact (hr.names hfirm.inspected y hy).1
      | _ => cases hframe
    | _ => cases hy
  refine .intro (fun p hp => (hinspected p hp).1) (fun p hp => (hinspected p hp).2) ?_ ?_
  · rintro r' field' rfl
    have hframe := h.frame
    cases c with
    | proj r field =>
      have hfield := (List.forall₂_cons.mp (List.forall₂_cons.mp hheads).2).1.frame
      exact eq_of_frame_leaf hfield hfirm.field.1 hfirm.field.2 ▸ hfirm.field
    | _ => cases hframe
  · exact forall_mem_of_forall₂ hheads fun _ _ _ hp => hp.firm

/-- Reducing what is below a node keeps what the node shows. -/
theorem exposes (h : Below globals store c c') (hform : HeadForm globals store c)
    (hfirm : Firm globals store c) : Exposes globals store c c' where
  frame := h.frame
  form := .intro (h.stuck hform hfirm)
    (forall_mem_of_forall₂ (h.heads hform hfirm) fun _ _ _ hp => hp.form)
  firm := h.firm hform hfirm
  names := h.names hform hfirm
  body := h.body

end Below

end Con

/-! ## Normalization -/

open RowML.Con

variable {globals : Globals} {store store' : Store} {c r : Con}

private theorem zonkKind_imitates (ok : Store.imitation.Ok store) (k : Kind) :
    Yields Store.imitation store (liftM (onKinds (KindStore.zonk k)) : FuelM Kind)
      fun _ _ => True :=
  (Yields.of_exec_eq rfl (Store.onKinds_imitates (KindStore.zonk k) ok)).mono
    fun _ _ _ _ _ => trivial

/-- Reduction answers with what fits, and with the constructor itself if that is in head normal
form. -/
private theorem headNormal_same (n : Nat) (ok : Store.imitation.Ok store) (hg : globals.Fits store)
    (hc : c.Fits store) :
    Yields Store.imitation store (headNormal globals n c) fun head store' =>
      head.Fits store' ∧ (HeadForm globals store' c → head = c) := by
  have hkeeps := headNormal_keeps n ok.1 hg hc
  by_cases hform : HeadForm globals store c
  · refine ((headNormal_still hform n).of_still ok |>.and hkeeps).mono ?_
    exact fun head _ _ _ h => ⟨h.2, fun _ => h.1.2⟩
  · refine ((headNormal_form n ok hg hc).and hkeeps).mono fun head _ _ compresses h => ⟨h.2, ?_⟩
    exact fun hform' => absurd (hform'.back compresses) hform

/-- What normalization does with a head normal form. -/
def normalizeBelow (globals : Globals) (fuel : Nat) (head : Con) : FuelM Con := do
  let rebuilt ← head.mapChildrenM (normalize globals fuel) (fun k => do onKinds (KindStore.zonk k))
  if rebuilt = head then pure head else normalize globals fuel rebuilt

theorem normalize_succ (globals : Globals) (n : Nat) (c : Con) :
    normalize globals (n + 1) c = headNormal globals n c >>= normalizeBelow globals n := rfl

/-- A reduction that keeps what a head normal form shows. -/
def Showing (globals : Globals) (reduce : Con → FuelM Con) : Prop :=
  ∀ {store c}, Store.imitation.Ok store → globals.Fits store → c.Fits store →
    Yields Store.imitation store (reduce c) fun r store' =>
      r.Fits store' ∧ (HeadForm globals store' c → Firm globals store' c →
        Exposes globals store' c r)

/-- One round of normalization. -/
theorem normalizeBelow_shows {n : Nat} (H : Showing globals (normalize globals n)) :
    Showing globals (normalizeBelow globals n) := by
  intro store c ok hg hc
  have hchildren := mapChildrenM_yields (f := normalize globals n) (c := c) ok
    (K := fun _ _ _ => True)
    (Q := fun p p' s => p'.Fits s ∧
      (HeadForm globals s p → Firm globals s p → Exposes globals s p p'))
    (fun _ _ h => h)
    (fun _ compresses h => ⟨h.1.evolves compresses.toEvolves, fun hform hfirm =>
      (h.2 (hform.back compresses) (hfirm.back compresses)).compresses compresses⟩)
    (fun k _ s ok' _ => zonkKind_imitates ok' k)
    fun p hp s ok' compresses => H ok' (hg.evolves compresses.toEvolves)
      ((hc.part hp).evolves compresses.toEvolves)
  refine Yields.bind ok hchildren ?_
  intro rebuilt store₁ ok₁ compresses₁ parallel
  have hfits := hc.evolves compresses₁.toEvolves
  have below : Below globals store₁ c rebuilt :=
    ⟨parallel.frame, parallel.annotations, parallel.parts.imp fun _ _ h => h.2⟩
  split
  next => exact Yields.pure ok₁ ⟨hfits, .refl⟩
  next =>
    have hrebuilt : rebuilt.Fits store₁ := .of_parallel hfits.top
      ⟨parallel.frame, parallel.annotations, parallel.parts.imp fun _ _ h => h.1⟩
    refine (H ok₁ (hg.evolves compresses₁.toEvolves) hrebuilt).mono ?_
    refine fun r store₂ _ compresses₂ h => ⟨h.1, fun hform hfirm => ?_⟩
    have exposes := below.exposes (hform.back compresses₂) (hfirm.back compresses₂)
    exact (exposes.compresses compresses₂).trans
      (h.2 (exposes.form.compresses compresses₂) (exposes.firm.compresses compresses₂))

theorem normalize_shows (n : Nat) : Showing globals (normalize globals n) := by
  induction n with
  | zero => exact fun _ _ _ => Yields.of_none rfl
  | succ n ih =>
    intro store c ok hg hc
    rw [normalize_succ]
    refine Yields.bind ok (headNormal_same n ok hg hc) ?_
    rintro head store₁ ok₁ compresses₁ ⟨hfits, hsame⟩
    refine (normalizeBelow_shows ih ok₁ (hg.evolves compresses₁.toEvolves) hfits).mono ?_
    refine fun r store₂ _ compresses₂ h => ⟨h.1, fun hform hfirm => ?_⟩
    obtain rfl := hsame (hform.back compresses₂)
    exact h.2 hform hfirm

/-- Where normalization returns, so does head reduction; and the normal form shows the node of the
head normal form, if what the rules inspect there is in head normal form itself. -/
theorem normalize_exposes (steady : store.Steady) (himitates : store.Imitates)
    (hg : globals.Fits store) (hc : c.Fits store) {n : Nat}
    (hrun : normalize globals n c store = some (r, store')) :
    ∃ head store₁, (∀ m, n ≤ m → headNormal globals m c store = some (head, store₁)) ∧
      (Firm globals store₁ head → r.frame = head.frame) := by
  have ok : Store.imitation.Ok store := ⟨steady, himitates⟩
  cases n with
  | zero => cases hrun
  | succ n =>
    rw [normalize_succ] at hrun
    obtain ⟨⟨head, store₁⟩, hhead, hbelow⟩ := Option.bind_eq_some_iff.mp hrun
    refine ⟨head, store₁, fun m hm => ?_, fun hfirm => ?_⟩
    · exact run_of_exec (headNormal_outlasts (Nat.le_of_succ_le hm) c _ _ (exec_of_run hhead))
    · obtain ⟨ok₁, compresses₁, hpost⟩ := ((headNormal_form n ok hg hc).and
        (headNormal_keeps n steady hg hc)) _ _ (exec_of_run hhead)
      obtain ⟨hform, hfits⟩ := hpost head rfl
      obtain ⟨-, compresses₂, hshows⟩ := normalizeBelow_shows (normalize_shows n) ok₁
        (hg.evolves compresses₁.toEvolves) hfits _ _ (exec_of_run hbelow)
      exact ((hshows r rfl).2 (hform.compresses compresses₂)
        (hfirm.compresses compresses₂)).frame.symm

/-- A projection from an open row that waits for the tail. -/
def openProjection (value : Con) : Con :=
  .proj (.concat (.row .type [(.label "A", value)]) (.mvar 0 [])) (.label "B")

theorem firm_openProjection (store : Store) (value : Con) :
    Firm globals store (openProjection value) := by
  have plain : ∀ {c : Con}, c.inspected = [] → c.heads = [] → Firm globals store c := by
    intro c hinspected hheads
    refine .intro (by simp [hinspected]) (by simp [hinspected]) ?_ (by rw [hheads]; nofun)
    rintro r field rfl
    cases hheads
  have hname : HeadForm globals store (.label "A") := .intro trivial (by simp)
  have hrow : Firm globals store (.concat (.row .type [(.label "A", value)]) (.mvar 0 [])) :=
    .intro (by simp [inspected]) (by simp [inspected]) (fun r field h => by cases h)
      (by simpa using ⟨plain rfl rfl, plain rfl rfl⟩)
  refine .intro ?_ ?_ ?_ ?_
  · simpa [openProjection, inspected, fieldNames] using hname
  · simpa [openProjection, inspected, fieldNames] using plain rfl rfl
  · rintro r field ⟨⟩
    exact ⟨rfl, rfl⟩
  · simpa [openProjection] using ⟨hrow, plain rfl rfl⟩

/-- A redex for the type of integers. -/
def appliedIdentity : Con := .app (.abs "x" .type (.bvar 0)) (.prim .int)

theorem fits_openProjection : (openProjection appliedIdentity).Fits (rowCells [none] #[]) := by
  have hfunction : (Con.abs "x" .type (.bvar 0)).Fits (rowCells [none] #[]) :=
    .node (by simp) (List.forall_mem_singleton.mpr (.bvar 0))
  have hrow : (Con.row .type [(.label "A", appliedIdentity)]).Fits (rowCells [none] #[]) :=
    .row (List.forall_mem_singleton.mpr
      ⟨.leaf (by simp) rfl, .app hfunction (.leaf (by simp) rfl)⟩)
  have htail : (Con.mvar 0 []).Fits (rowCells [none] #[]) := by
    refine .intro ?_ (by simp [parts])
    rintro _ _ ⟨⟩
    exact ⟨Nat.zero_lt_one, rfl⟩
  refine .node (by simp [openProjection]) ?_
  simpa [openProjection, parts] using ⟨Fits.concat hrow htail, Fits.leaf (by simp) rfl⟩

/-- Normalization reduces the value of the field and leaves the projection in place. -/
theorem normalize_exposes_openProjection :
    normalize Globals.empty 10 (openProjection appliedIdentity) (rowCells [none] #[]) =
        some (openProjection (.prim .int), rowCells [none] #[]) ∧
      ∃ head store₁, (∀ m, 10 ≤ m →
        headNormal Globals.empty m (openProjection appliedIdentity) (rowCells [none] #[]) =
          some (head, store₁)) ∧ (openProjection (.prim .int)).frame = head.frame := by
  have hrun : normalize Globals.empty 10 (openProjection appliedIdentity) (rowCells [none] #[]) =
      some (openProjection (.prim .int), rowCells [none] #[]) := by cbv
  have hhead : headNormal Globals.empty 10 (openProjection appliedIdentity) (rowCells [none] #[]) =
      some (openProjection appliedIdentity, rowCells [none] #[]) := by cbv
  have hstore : (rowCells [none] #[]).FirstOrder := by
    refine Store.firstOrder_unsolved ?_ rfl
    rintro (_ | i) <;> rfl
  obtain ⟨head, store₁, hruns, hframe⟩ := normalize_exposes hstore.steady hstore.imitates
    (fun c hc => by cases hc) fits_openProjection hrun
  refine ⟨hrun, head, store₁, hruns, hframe ?_⟩
  cases (hruns 10 le_rfl).symm.trans hhead
  exact firm_openProjection _ _

/-- A projection from a literal whose label is written as a redex. -/
def hiddenField : Con :=
  .proj (.row .type [(.app (.abs "x" .name (.bvar 0)) (.label "A"), .prim .int)]) (.label "A")

/-- Where the name of a field reduces, head reduction leaves a projection in place that waits for
nothing, and the normal form is the value of the field. -/
theorem normalize_uncovers :
    headNormal Globals.empty 10 hiddenField Store.empty = some (hiddenField, Store.empty) ∧
      normalize Globals.empty 10 hiddenField Store.empty = some (.prim .int, Store.empty) := by
  constructor <;> cbv

end RowML
