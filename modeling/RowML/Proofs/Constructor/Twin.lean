import RowML.Constructor.Basic
import RowML.Proofs.Kind.Variables
import Mathlib.Data.List.Forall2
import Mathlib.Order.Defs.PartialOrder
import RowML.Proofs.Constructor.Step

/-!
# Constructors and kinds up to numbers

The number of a metavariable says nothing but when it was made.  A renumbering pairs the
metavariables of one store with metavariables of another one, those of constructors and those of
kinds; a metavariable without a partner is garbage.  It also says which skolems may be written.
Twins are the same but for the numbers of their metavariables, which are partners.  No operation
sees a difference: twins have the same bound and the same features, what is written in them
corresponds, and two constructors are equal exactly if their twins are.
-/

namespace RowML

/-- Pairs of metavariables of two stores, and skolems. -/
structure Renumbering where
  cells : MetaId → MetaId → Prop
  kinds : KindVar → KindVar → Prop
  skolems : SkolemId → Prop
  cells_unique : Relator.BiUnique cells
  kinds_unique : Relator.BiUnique kinds

namespace Renumbering

/-- The second renumbering has the pairs of the first one, and the same skolems. -/
structure Extends (ρ ρ' : Renumbering) : Prop where
  cells : ∀ i j, ρ.cells i j → ρ'.cells i j
  kinds : ∀ v w, ρ.kinds v w → ρ'.kinds v w
  skolems : ρ'.skolems = ρ.skolems

instance : Preorder Renumbering where
  le := Extends
  le_refl _ := ⟨fun _ _ h => h, fun _ _ h => h, rfl⟩
  le_trans _ _ _ h h' :=
    ⟨fun i j hij => h'.cells i j (h.cells i j hij), fun v w hvw => h'.kinds v w (h.kinds v w hvw),
      h'.skolems.trans h.skolems⟩

instance isPreorder_eq : IsPreorder Renumbering Eq := eq_isEquiv Renumbering |>.toIsPreorder

/-- The partners the other way round. -/
def symm (ρ : Renumbering) : Renumbering where
  cells := flip ρ.cells
  kinds := flip ρ.kinds
  skolems := ρ.skolems
  cells_unique := ⟨fun _ _ _ h h' => ρ.cells_unique.2 h h', fun _ _ _ h h' => ρ.cells_unique.1 h h'⟩
  kinds_unique := ⟨fun _ _ _ h h' => ρ.kinds_unique.2 h h', fun _ _ _ h h' => ρ.kinds_unique.1 h h'⟩

variable (ρ : Renumbering)

private theorem biUnique_or_eq {R : Nat → Nat → Prop} (h : Relator.BiUnique R) {i j : Nat}
    (hi : ∀ b, ¬ R i b) (hj : ∀ a, ¬ R a j) :
    Relator.BiUnique fun a b => R a b ∨ a = i ∧ b = j := by
  constructor
  · rintro a a' b (hab | ⟨rfl, rfl⟩) (hab' | ⟨rfl, hb⟩)
    · exact h.1 hab hab'
    · exact absurd (hb ▸ hab) (hj a)
    · exact absurd hab' (hj a')
    · rfl
  · rintro a b b' (hab | ⟨rfl, rfl⟩) (hab' | ⟨ha, rfl⟩)
    · exact h.2 hab hab'
    · exact absurd (ha ▸ hab) (hi b)
    · exact absurd hab' (hi b')
    · rfl

/-- One more pair of metavariables for constructors. -/
def withCell (i j : MetaId) (hi : ∀ b, ¬ ρ.cells i b) (hj : ∀ a, ¬ ρ.cells a j) : Renumbering where
  cells a b := ρ.cells a b ∨ a = i ∧ b = j
  kinds := ρ.kinds
  skolems := ρ.skolems
  cells_unique := biUnique_or_eq ρ.cells_unique hi hj
  kinds_unique := ρ.kinds_unique

/-- One more pair of metavariables for kinds. -/
def withKind (v w : KindVar) (hv : ∀ b, ¬ ρ.kinds v b) (hw : ∀ a, ¬ ρ.kinds a w) : Renumbering where
  cells := ρ.cells
  kinds a b := ρ.kinds a b ∨ a = v ∧ b = w
  skolems := ρ.skolems
  cells_unique := ρ.cells_unique
  kinds_unique := biUnique_or_eq ρ.kinds_unique hv hw

theorem le_withCell {i j : MetaId} (hi : ∀ b, ¬ ρ.cells i b) (hj : ∀ a, ¬ ρ.cells a j) :
    ρ ≤ ρ.withCell i j hi hj :=
  ⟨fun _ _ => .inl, fun _ _ h => h, rfl⟩

theorem le_withKind {v w : KindVar} (hv : ∀ b, ¬ ρ.kinds v b) (hw : ∀ a, ¬ ρ.kinds a w) :
    ρ ≤ ρ.withKind v w hv hw :=
  ⟨fun _ _ h => h, fun _ _ => .inl, rfl⟩

/-- The renumbering that changes no number, for the metavariables of a store that has so many. -/
def same (cells kinds : Nat) : Renumbering where
  cells i j := i = j ∧ i < cells
  kinds v w := v = w ∧ v < kinds
  skolems _ := True
  cells_unique := ⟨fun _ _ _ h h' => h.1.trans h'.1.symm, fun _ _ _ h h' => h.1.symm.trans h'.1⟩
  kinds_unique := ⟨fun _ _ _ h h' => h.1.trans h'.1.symm, fun _ _ _ h h' => h.1.symm.trans h'.1⟩

end Renumbering

/-- Partners are listed at the same places. -/
theorem contains_eq_of_forall₂ {R : Nat → Nat → Prop} (hR : Relator.BiUnique R) {is js : List Nat}
    {i j : Nat} (h : List.Forall₂ R is js) (hij : R i j) : is.contains i = js.contains j := by
  rw [Bool.eq_iff_iff, List.contains_iff_mem, List.contains_iff_mem]
  induction h with
  | nil => simp
  | cons hab _ ih =>
    exact List.mem_cons.trans
      (Iff.trans (or_congr (Relator.rel_eq hR hij hab) ih) List.mem_cons.symm)

namespace Kind

/-- The same kind but for the numbers of its metavariables. -/
inductive Twin (ρ : Renumbering) : Kind → Kind → Prop where
  | type : Twin ρ .type .type
  | unit : Twin ρ .unit .unit
  | name : Twin ρ .name .name
  | error : Twin ρ .error .error
  | arrow {a b a' b' : Kind} (ha : Twin ρ a a') (hb : Twin ρ b b') :
    Twin ρ (.arrow a b) (.arrow a' b')
  | record {a a' : Kind} (ha : Twin ρ a a') : Twin ρ (.record a) (.record a')
  | tuple {ks ks' : List Kind} (hks : List.Forall₂ (Twin ρ) ks ks') :
    Twin ρ (.tuple ks) (.tuple ks')
  | bvar (i : Nat) : Twin ρ (.bvar i) (.bvar i)
  | poly (x : String) {k k' : Kind} (hk : Twin ρ k k') : Twin ρ (.poly x k) (.poly x k')
  | mvar {v w : KindVar} (hv : ρ.kinds v w) : Twin ρ (.mvar v) (.mvar w)

namespace Twin

variable {ρ ρ' : Renumbering} {k k' l l' : Kind}

/-- Induction on the form that two twins share. -/
@[elab_as_elim]
theorem inductionOn {motive : (k k' : Kind) → Twin ρ k k' → Prop} (h : Twin ρ k k')
    (type : motive _ _ .type) (unit : motive _ _ .unit) (name : motive _ _ .name)
    (error : motive _ _ .error)
    (arrow : ∀ {a b a' b'} (ha : Twin ρ a a') (hb : Twin ρ b b'), motive _ _ ha → motive _ _ hb →
      motive _ _ (.arrow ha hb))
    (record : ∀ {a a'} (ha : Twin ρ a a'), motive _ _ ha → motive _ _ (.record ha))
    (tuple : ∀ {ks ks'} (hks : List.Forall₂ (Twin ρ) ks ks'),
      List.Forall₂ (fun k k' => ∃ h, motive k k' h) ks ks' → motive _ _ (.tuple hks))
    (bvar : ∀ i, motive _ _ (.bvar i))
    (poly : ∀ x {k k'} (hk : Twin ρ k k'), motive _ _ hk → motive _ _ (.poly x hk))
    (mvar : ∀ {v w} (hv : ρ.kinds v w), motive _ _ (.mvar hv)) : motive k k' h := by
  induction k using inductionOnParts generalizing k' with
  | step k ih =>
    cases h with
    | tuple hks =>
      have hparts := (List.forall₂_and_left _ _).mpr ⟨fun p hp => @ih p hp, hks⟩
      exact tuple hks (hparts.imp fun _ _ h => ⟨h.2, h.1 h.2⟩)
    | arrow ha hb =>
      exact arrow ha hb (ih _ (by simp [Kind.parts]) ha) (ih _ (by simp [Kind.parts]) hb)
    | record ha => exact record ha (ih _ (List.mem_singleton.mpr rfl) ha)
    | poly x hk => exact poly x hk (ih _ (List.mem_singleton.mpr rfl) hk)
    | mvar hv => exact mvar hv
    | _ => solve_by_elim

theorem mono (h : Twin ρ k k') (hρ : ρ ≤ ρ') : Twin ρ' k k' := by
  induction h using inductionOn with
  | tuple _ ih => exact .tuple (ih.imp fun _ _ h => h.2)
  | arrow _ _ iha ihb => exact .arrow iha ihb
  | record _ ih => exact .record ih
  | poly x _ ih => exact .poly x ih
  | mvar hv => exact .mvar (hρ.kinds _ _ hv)
  | type | unit | name | error | bvar => constructor

theorem symm (h : Twin ρ k k') : Twin ρ.symm k' k := by
  induction h using inductionOn with
  | tuple _ ih => exact .tuple (List.Forall₂.flip (ih.imp fun _ _ h => h.2))
  | arrow _ _ iha ihb => exact .arrow iha ihb
  | record _ ih => exact .record ih
  | poly x _ ih => exact .poly x ih
  | mvar hv => exact .mvar hv
  | type | unit | name | error | bvar => constructor

private theorem right_unique (h : Twin ρ k l) (h' : Twin ρ k l') : l = l' := by
  induction h using inductionOn generalizing l' with
  | tuple _ ih =>
    cases h' with
    | @tuple _ zs hks' =>
    refine congrArg Kind.tuple ?_
    clear * - ih hks'
    induction ih generalizing zs with
    | nil =>
      cases hks'
      rfl
    | cons hk _ ih =>
      obtain ⟨_, hk⟩ := hk
      cases hks' with
      | cons hk' hks' => rw [hk hk', ih hks']
  | arrow _ _ iha ihb =>
    cases h' with
    | arrow ha' hb' => rw [iha ha', ihb hb']
  | record _ ih =>
    cases h' with
    | record ha' => rw [ih ha']
  | poly x _ ih =>
    cases h' with
    | poly _ hk' => rw [ih hk']
  | mvar hv =>
    cases h' with
    | mvar hv' => rw [ρ.kinds_unique.2 hv hv']
  | type | unit | name | error | bvar =>
    cases h'
    rfl

/-- Kinds are equal if and only if their twins are. -/
theorem eq_iff (h : Twin ρ k k') (h' : Twin ρ l l') : k = l ↔ k' = l' := by
  refine ⟨fun heq => right_unique h (heq ▸ h'), fun heq => ?_⟩
  exact right_unique h.symm (heq ▸ h'.symm)

theorem mvars (h : Twin ρ k k') : List.Forall₂ ρ.kinds k.mvars k'.mvars := by
  induction h using inductionOn with
  | tuple _ ih =>
    clear * - ih
    induction ih with
    | nil => exact .nil
    | cons hk _ ih => exact List.rel_append hk.2 ih
  | arrow _ _ iha ihb => exact List.rel_append iha ihb
  | record _ ih => exact ih
  | poly _ _ ih => exact ih
  | mvar hv => exact .cons hv .nil
  | type | unit | name | error | bvar => exact .nil

theorem hasMVar_eq (h : Twin ρ k k') : k.hasMVar = k'.hasMVar := by
  have hlength := h.mvars.length_eq
  rw [Bool.eq_iff_iff]
  simp [Kind.hasMVar, ← List.length_eq_zero_iff, hlength]

theorem hasBVar_eq (h : Twin ρ k k') : k.hasBVar = k'.hasBVar := by
  induction h using inductionOn with
  | tuple _ ih =>
    clear * - ih
    simp only [Kind.hasBVar]
    induction ih with
    | nil => rfl
    | cons hk _ ih => simp only [hasBVarList, hk.2, ih]
  | arrow _ _ iha ihb => simp only [Kind.hasBVar, iha, ihb]
  | record _ ih => exact ih
  | poly _ _ ih => exact ih
  | mvar | type | unit | name | error | bvar => rfl

/-- A kind is its own twin if its metavariables keep their numbers. -/
theorem of_forall (h : ∀ v ∈ k.mvars, ρ.kinds v v) : Twin ρ k k := by
  induction k using inductionOnParts with
  | step k ih =>
    cases k with
    | tuple ks =>
      replace ih : ∀ k ∈ ks, (∀ v ∈ k.mvars, ρ.kinds v v) → Twin ρ k k := ih
      simp only [Kind.mvars] at h
      refine .tuple ?_
      induction ks with
      | nil => exact .nil
      | cons k ks ihs =>
        simp only [mvarsList, List.mem_append] at h
        exact .cons (ih k (by simp) fun v hv => h v (.inl hv))
          (ihs (fun v hv => h v (.inr hv)) fun p hp => ih p (by simp [hp]))
    | arrow a b =>
      exact .arrow (ih a (by simp [Kind.parts]) fun v hv => h v (by simp [Kind.mvars, hv]))
        (ih b (by simp [Kind.parts]) fun v hv => h v (by simp [Kind.mvars, hv]))
    | record a => exact .record (ih a (by simp [Kind.parts]) h)
    | poly x k => exact .poly x (ih k (by simp [Kind.parts]) h)
    | mvar v => exact .mvar (h v (by simp [Kind.mvars]))
    | type | unit | name | error | bvar => constructor

end Twin

end Kind

/-! ## Constructors -/

/-- Pairs of related elements. -/
inductive Both {α β : Type} (R : α → β → Prop) : α × α → β × β → Prop where
  | intro {a a' : α} {b b' : β} (fst : R a b) (snd : R a' b') : Both R (a, a') (b, b')

namespace Both

variable {α β : Type} {R : α → β → Prop} {p : α × α} {q : β × β}

theorem fst (h : Both R p q) : R p.1 q.1 := by
  cases h with
  | intro h _ => exact h

theorem snd (h : Both R p q) : R p.2 q.2 := by
  cases h with
  | intro _ h => exact h

end Both

theorem isEmpty_eq_of_forall₂ {α β : Type} {R : α → β → Prop} {as : List α} {bs : List β}
    (h : List.Forall₂ R as bs) : as.isEmpty = bs.isEmpty := by
  cases h <;> rfl

theorem forall₂_zip {α β : Type} {R : α → β → Prop} {as as' : List α} {bs bs' : List β}
    (h : List.Forall₂ R as bs) (h' : List.Forall₂ R as' bs') :
    List.Forall₂ (Both R) (as.zip as') (bs.zip bs') := by
  induction h generalizing as' bs' with
  | nil => exact .nil
  | cons hab _ ih =>
    cases h' with
    | nil => exact .nil
    | cons hab' h' => exact .cons ⟨hab, hab'⟩ (ih h')

namespace Con

theorem eq_mvar_of_isMVar {c : Con} (h : c.isMVar = true) : ∃ i spine, c = .mvar i spine := by
  cases c with
  | mvar i spine => exact ⟨i, spine, rfl⟩
  | _ => cases h

/-- The same constructor but for the numbers of its metavariables. -/
inductive Twin (ρ : Renumbering) : Con → Con → Prop where
  | prim (p : Prim) : Twin ρ (.prim p) (.prim p)
  | unit : Twin ρ .unit .unit
  | error : Twin ρ .error .error
  | bvar (i : Nat) : Twin ρ (.bvar i) (.bvar i)
  | global (d : DefId) : Twin ρ (.global d) (.global d)
  | member (m : ModuleId) (path : List String) (item : String) :
    Twin ρ (.member m path item) (.member m path item)
  | relative (level : Nat) (path : List String) (item : String) :
    Twin ρ (.relative level path item) (.relative level path item)
  | skolem {s : SkolemId} (hs : ρ.skolems s) : Twin ρ (.skolem s) (.skolem s)
  | label (x : String) : Twin ρ (.label x) (.label x)
  | mvar {i j : MetaId} {cs cs' : List Con} (hi : ρ.cells i j)
    (hcs : List.Forall₂ (Twin ρ) cs cs') :
    Twin ρ (.mvar i cs) (.mvar j cs')
  | app {a b a' b' : Con} (ha : Twin ρ a a') (hb : Twin ρ b b') : Twin ρ (.app a b) (.app a' b')
  | abs (x : String) {k k' : Kind} {c c' : Con} (hk : k.Twin ρ k') (hc : Twin ρ c c') :
    Twin ρ (.abs x k c) (.abs x k' c')
  | kabs (x : String) {c c' : Con} (hc : Twin ρ c c') : Twin ρ (.kabs x c) (.kabs x c')
  | kapp {k k' : Kind} {c c' : Con} (hc : Twin ρ c c') (hk : k.Twin ρ k') :
    Twin ρ (.kapp c k) (.kapp c' k')
  | arrow {a b a' b' : Con} (ha : Twin ρ a a') (hb : Twin ρ b b') :
    Twin ρ (.arrow a b) (.arrow a' b')
  | poly (x : String) (implicit : Bool) {k k' : Kind} {c c' : Con} (hk : k.Twin ρ k')
    (hc : Twin ρ c c') : Twin ρ (.poly x implicit k c) (.poly x implicit k' c')
  | kpoly (x : String) {c c' : Con} (hc : Twin ρ c c') : Twin ρ (.kpoly x c) (.kpoly x c')
  | disjoint {a b c a' b' c' : Con} (ha : Twin ρ a a') (hb : Twin ρ b b') (hc : Twin ρ c c') :
    Twin ρ (.disjoint a b c) (.disjoint a' b' c')
  | record {c c' : Con} (hc : Twin ρ c c') : Twin ρ (.record c) (.record c')
  | variant {c c' : Con} (hc : Twin ρ c c') : Twin ρ (.variant c) (.variant c')
  | row {k k' : Kind} {fields fields' : List (Con × Con)} (hk : k.Twin ρ k')
    (hfields : List.Forall₂ (Both (Twin ρ)) fields fields') :
    Twin ρ (.row k fields) (.row k' fields')
  | concat {a b a' b' : Con} (ha : Twin ρ a a') (hb : Twin ρ b b') :
    Twin ρ (.concat a b) (.concat a' b')
  | map {k l k' l' : Kind} {a b a' b' : Con} (hk : k.Twin ρ k') (hl : l.Twin ρ l')
    (ha : Twin ρ a a') (hb : Twin ρ b b') : Twin ρ (.map k l a b) (.map k' l' a' b')
  | proj {a b a' b' : Con} (ha : Twin ρ a a') (hb : Twin ρ b b') : Twin ρ (.proj a b) (.proj a' b')
  | tuple {cs cs' : List Con} (hcs : List.Forall₂ (Twin ρ) cs cs') : Twin ρ (.tuple cs) (.tuple cs')
  | component {c c' : Con} (hc : Twin ρ c c') (i : Nat) : Twin ρ (.component c i) (.component c' i)

namespace Twin

variable {ρ ρ' : Renumbering} {c c' d d' : Con}

/-! ## Node by node -/

theorem annotations (h : Twin ρ c c') :
    List.Forall₂ (Kind.Twin ρ) c.annotations c'.annotations := by
  cases h <;> simp [Con.annotations, *]

theorem parts (h : Twin ρ c c') : List.Forall₂ (Twin ρ) c.parts c'.parts := by
  cases h with
  | row hk hfields =>
    simp only [Con.parts]
    induction hfields with
    | nil => exact .nil
    | cons hfield _ ih => exact .cons hfield.fst (.cons hfield.snd ih)
  | _ => simp [Con.parts, *]

theorem binders (h : Twin ρ c c') : c.binders = c'.binders := by
  cases h <;> rfl

theorem skolems {s : SkolemId} (h : Twin ρ c c') (hc : c = .skolem s) : ρ.skolems s := by
  subst hc
  cases h with
  | skolem hs => exact hs

/-- Other nodes than metavariables are the same, their annotations and parts apart. -/
theorem frame (h : Twin ρ c c') (hmvar : ∀ i cs, c ≠ .mvar i cs) : c.frame = c'.frame := by
  cases h with
  | mvar hi hcs => exact absurd rfl (hmvar _ _)
  | tuple hcs =>
    refine congrArg Con.tuple ?_
    rw [List.map_const', List.map_const', hcs.length_eq]
  | row hk hfields =>
    refine congrArg (Con.row .type) ?_
    rw [List.map_const', List.map_const', hfields.length_eq]
  | _ => rfl

/-- Induction from the parts of two twins to the twins. -/
@[elab_as_elim]
theorem inductionOn {motive : (c c' : Con) → Twin ρ c c' → Prop} (h : Twin ρ c c')
    (mvar : ∀ {i j cs cs'} (hi : ρ.cells i j) (hcs : List.Forall₂ (Twin ρ) cs cs'),
      List.Forall₂ (fun c c' => ∃ h, motive c c' h) cs cs' → motive _ _ (.mvar hi hcs))
    (node : ∀ {c c'} (h : Twin ρ c c'), (∀ i cs, c ≠ .mvar i cs) → c.frame = c'.frame →
      List.Forall₂ (fun p p' => ∃ h, motive p p' h) c.parts c'.parts → motive _ _ h) :
    motive c c' h := by
  induction c using inductionOnParts generalizing c' with
  | step c ih =>
    have hparts := ((List.forall₂_and_left _ _).mpr ⟨fun p hp => @ih p hp, h.parts⟩).imp
      fun _ _ h => (⟨h.2, h.1 h.2⟩ : ∃ h, motive _ _ h)
    by_cases hmvar : ∃ i cs, c = .mvar i cs
    · obtain ⟨i, cs, rfl⟩ := hmvar
      cases h with
      | mvar hi hcs => exact mvar hi hcs hparts
    · have hmvar : ∀ i cs, c ≠ .mvar i cs := fun i cs hc => hmvar ⟨i, cs, hc⟩
      exact node h hmvar (h.frame hmvar) hparts

/-- The same node over twins. -/
theorem of_frame (hmvar : ∀ i cs, c ≠ .mvar i cs) (hskolem : ∀ s, c = .skolem s → ρ.skolems s)
    (hframe : c.frame = c'.frame)
    (hkinds : List.Forall₂ (Kind.Twin ρ) c.annotations c'.annotations)
    (hparts : List.Forall₂ (Twin ρ) c.parts c'.parts) : Twin ρ c c' := by
  rw [← assemble_frame c', ← hframe]
  generalize c'.annotations = kinds at hkinds ⊢
  generalize c'.parts = parts at hparts ⊢
  cases c with
  | mvar i cs => exact absurd rfl (hmvar i cs)
  | row k fields =>
    obtain _ | ⟨hk, ⟨⟩⟩ := hkinds
    refine .row hk ?_
    simp only [Con.parts] at hparts
    clear * - hparts
    induction fields generalizing parts with
    | nil =>
      cases hparts
      exact .nil
    | cons field fields ih =>
      obtain _ | ⟨hname, _ | ⟨hvalue, hrest⟩⟩ := hparts
      exact .cons ⟨hname, hvalue⟩ (ih _ hrest)
  | tuple cs => exact .tuple hparts
  | skolem s => exact .skolem (hskolem s rfl)
  | prim | unit | error | bvar | global | member | relative | label => constructor
  | app | arrow | concat | proj =>
    obtain _ | ⟨ha, _ | ⟨hb, ⟨⟩⟩⟩ := hparts
    constructor <;> assumption
  | kabs | kpoly | record | variant | component =>
    obtain _ | ⟨hc, ⟨⟩⟩ := hparts
    constructor
    exact hc
  | abs | poly | kapp =>
    obtain _ | ⟨hk, ⟨⟩⟩ := hkinds
    obtain _ | ⟨hc, ⟨⟩⟩ := hparts
    constructor <;> assumption
  | disjoint =>
    obtain _ | ⟨ha, _ | ⟨hb, _ | ⟨hc, ⟨⟩⟩⟩⟩ := hparts
    exact .disjoint ha hb hc
  | map =>
    obtain _ | ⟨hk, _ | ⟨hl, ⟨⟩⟩⟩ := hkinds
    obtain _ | ⟨ha, _ | ⟨hb, ⟨⟩⟩⟩ := hparts
    exact .map hk hl ha hb

theorem mono (h : Twin ρ c c') (hρ : ρ ≤ ρ') : Twin ρ' c c' := by
  induction h using inductionOn with
  | mvar hi _ ih => exact .mvar (hρ.cells _ _ hi) (ih.imp fun _ _ h => h.2)
  | node h hmvar hframe ih =>
    exact .of_frame hmvar (fun s hs => hρ.skolems ▸ h.skolems hs) hframe
      (h.annotations.imp fun _ _ hk => hk.mono hρ)
      (ih.imp fun _ _ h => h.2)

theorem symm (h : Twin ρ c c') : Twin ρ.symm c' c := by
  induction h using inductionOn with
  | mvar hi _ ih => exact .mvar hi (List.Forall₂.flip (ih.imp fun _ _ h => h.2))
  | node h hmvar hframe ih =>
    refine .of_frame (fun i cs hc => ?_) (fun s hc => ?_) hframe.symm ?_ ?_
    · subst hc
      exact hmvar i _ (eq_mvar_of_frame hframe.symm)
    · subst hc
      exact h.skolems (eq_of_frame_leaf hframe.symm rfl rfl).symm
    · exact List.Forall₂.flip (h.annotations.imp fun _ _ hk => hk.symm)
    · exact List.Forall₂.flip (ih.imp fun _ _ h => h.2)

private theorem eq_of_forall₂ {α β : Type} {R : α → β → Prop} {xs : List α} {ys zs : List β}
    (h : List.Forall₂ (fun x y => ∀ z, R x z → y = z) xs ys) (h' : List.Forall₂ R xs zs) :
    ys = zs := by
  induction h generalizing zs with
  | nil =>
    cases h'
    rfl
  | cons hxy _ ih =>
    cases h' with
    | cons hxz h' => rw [hxy _ hxz, ih h']

private theorem right_unique (h : Twin ρ c d) (h' : Twin ρ c d') : d = d' := by
  induction h using inductionOn generalizing d' with
  | mvar hi _ ih =>
    cases h' with
    | mvar hi' hcs' =>
      rw [ρ.cells_unique.2 hi hi', eq_of_forall₂ (ih.imp fun _ _ h _ => h.2) hcs']
  | node h hmvar hframe ih =>
    refine eq_of_frame (hframe.symm.trans (h'.frame hmvar)) ?_ ?_
    · exact eq_of_forall₂ (h.annotations.imp fun _ _ hk _ hk' => (hk.eq_iff hk').mp rfl)
        h'.annotations
    · exact eq_of_forall₂ (ih.imp fun _ _ h _ => h.2) h'.parts

/-- Constructors are equal if and only if their twins are. -/
theorem eq_iff (h : Twin ρ c c') (h' : Twin ρ d d') : c = d ↔ c' = d' := by
  refine ⟨fun heq => right_unique h (heq ▸ h'), fun heq => ?_⟩
  exact right_unique h.symm (heq ▸ h'.symm)

/-- A constructor is its own twin if its metavariables keep their numbers. -/
theorem of_forall (h : ∀ i, c.Mentions i → ρ.cells i i)
    (hkinds : c.All fun node => ∀ k ∈ node.annotations, ∀ v ∈ k.mvars, ρ.kinds v v)
    (hskolems : c.All fun node => ∀ s, node = .skolem s → ρ.skolems s) : Twin ρ c c := by
  induction c using inductionOnParts with
  | step c ih =>
    obtain ⟨htop, hrest⟩ := All.iff.mp hkinds
    obtain ⟨hskolem, hothers⟩ := All.iff.mp hskolems
    have hparts : List.Forall₂ (Twin ρ) c.parts c.parts :=
      List.forall₂_same.mpr fun p hp =>
        ih p hp (fun i hi => h i (.part hp hi)) (hrest p hp) (hothers p hp)
    by_cases hmvar : ∃ i cs, c = .mvar i cs
    · obtain ⟨i, cs, rfl⟩ := hmvar
      exact .mvar (h i (.here cs)) hparts
    · refine .of_frame (fun i cs hc => hmvar ⟨i, cs, hc⟩) hskolem rfl ?_ hparts
      exact List.forall₂_same.mpr fun k hk => .of_forall (htop k hk)

theorem isMVar_eq (h : Twin ρ c c') : c.isMVar = c'.isMVar := by
  cases h <;> rfl

theorem isRowForm_eq (h : Twin ρ c c') : c.isRowForm = c'.isRowForm := by
  cases h <;> rfl

/-! ## Visits -/

/-- Two visits that do related things at twin nodes have related results. -/
theorem foldNodes {α β : Type} {A : α → β → Prop} {f : α → Depth → Con → α}
    {g : β → Depth → Con → β}
    (hf : ∀ {a b n n'} (e : Depth), A a b → Twin ρ n n' → A (f a e n) (g b e n')) (h : Twin ρ c c')
    {a : α} {b : β} (hab : A a b) (e : Depth) : A (c.foldNodes f a e) (c'.foldNodes g b e) := by
  have hloop : ∀ {ps ps' : List Con} (e : Depth),
      List.Forall₂ (fun p p' => ∀ a b e, A a b →
        A (p.foldNodes f a e) (p'.foldNodes g b e)) ps ps' →
      ∀ a b, A a b → A (ps.foldl (fun a p => p.foldNodes f a e) a)
        (ps'.foldl (fun b p => p.foldNodes g b e) b) := by
    intro ps ps' e hps
    induction hps with
    | nil => exact fun a b hab => hab
    | cons hp _ ih => exact fun a b hab => ih _ _ (hp a b e hab)
  induction h using inductionOn generalizing a b e with
  | mvar hi hcs ih =>
    rw [foldNodes_step, foldNodes_step]
    exact hloop _ (ih.imp fun _ _ h a b e hab => h.2 hab e) _ _ (hf e hab (.mvar hi hcs))
  | node h _ _ ih =>
    rw [foldNodes_step, foldNodes_step, h.binders]
    exact hloop _ (ih.imp fun _ _ h a b e hab => h.2 hab e) _ _ (hf e hab h)

theorem bound_eq (h : Twin ρ c c') : c.bound = c'.bound := by
  refine h.foldNodes (A := Eq) (fun e hab hn => ?_) rfl _
  subst hab
  cases hn <;> rfl

theorem exhibits_eq (h : Twin ρ c c') (feature : Feature) :
    c.exhibits feature = c'.exhibits feature := by
  have hany : ∀ (p : Kind → Bool), (∀ {k k' : Kind}, k.Twin ρ k' → p k = p k') →
      c.annotations.any p = c'.annotations.any p := by
    intro p hp
    have hkinds := h.annotations
    generalize c.annotations = ks at hkinds
    generalize c'.annotations = ks' at hkinds
    induction hkinds with
    | nil => rfl
    | cons hk _ ih => simp only [List.any_cons, hp hk, ih]
  cases feature with
  | kindBVar => exact hany _ fun hk => hk.hasBVar_eq
  | kindMVar => exact hany _ fun hk => hk.hasMVar_eq
  | _ => cases h <;> rfl

theorem has_eq (h : Twin ρ c c') (feature : Feature) : c.has feature = c'.has feature := by
  refine h.foldNodes (A := Eq) (fun e hab hn => ?_) rfl _
  rw [hab, hn.exhibits_eq]

theorem mvars (h : Twin ρ c c') : List.Forall₂ ρ.cells c.mvars c'.mvars := by
  refine h.foldNodes (A := List.Forall₂ ρ.cells) (fun e hab hn => ?_) .nil _
  cases hn with
  | mvar hi _ =>
    simp only [contains_eq_of_forall₂ ρ.cells_unique hab hi]
    split
    · exact hab
    · exact List.rel_append hab (.cons hi .nil)
  | _ => exact hab

end Twin

end Con

end RowML
