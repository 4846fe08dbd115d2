import RowML.Proofs.Normal.Exposure
import RowML.Proofs.Normal.Repetition

/-!
# The shape of a row and the pieces of its summary

The summary of a row is read off its head normal form: the fields of a literal, the pieces of both
sides of a concatenation, or one piece that stands for everything else.  No side of a concatenation
in head normal form is an empty literal, so a concatenation has at least two pieces, and a row of
which the summary is a single remainder is this remainder.
-/

namespace RowML

open RowML.Con Store

namespace Row

variable {globals : Globals} {store store' : Store} {c head : Con} {pieces : List Piece}

/-- The pieces of a row in head normal form. -/
def summarizeHead (globals : Globals) (fuel : Nat) : Con → FuelM (List Piece)
  | .row _ fields => fields.mapM fun (name, value) =>
      return .field (← headNormal globals fuel name) value
  | .concat left right =>
    return (← summarize globals fuel left) ++ (← summarize globals fuel right)
  | .error => pure [.error]
  | stuck => pure [remainder stuck]

theorem summarize_succ (n : Nat) (c : Con) :
    summarize globals (n + 1) c = headNormal globals n c >>= summarizeHead globals n :=
  rfl

/-! ## More fuel -/

theorem outlasts_mapM {α β : Type} {f g : α → FuelM β} (h : ∀ a, Outlasts (f a) (g a))
    (as : List α) : Outlasts (as.mapM f) (as.mapM g) := by
  induction as with
  | nil => exact .refl _
  | cons a as ih =>
    rw [List.mapM_cons, List.mapM_cons]
    exact .bind (h a) fun _ => .bind ih fun _ => .refl _

theorem summarizeHead_outlasts {m n : Nat} (hmn : m ≤ n)
    (H : ∀ c, Outlasts (summarize globals m c) (summarize globals n c)) (head : Con) :
    Outlasts (summarizeHead globals m head) (summarizeHead globals n head) := by
  cases head with
  | row k fields =>
    exact outlasts_mapM (fun _ => .bind (headNormal_outlasts hmn _) fun _ => .refl _) fields
  | concat l r => exact .bind (H l) fun _ => .bind (H r) fun _ => .refl _
  | _ => exact .refl _

theorem summarize_outlasts {m n : Nat} (hmn : m ≤ n) (c : Con) :
    Outlasts (summarize globals m c) (summarize globals n c) := by
  induction m generalizing n c with
  | zero => exact .of_none fun _ => rfl
  | succ m ih =>
    obtain ⟨n, rfl⟩ := Nat.exists_eq_add_one_of_ne_zero (Nat.ne_zero_of_lt hmn)
    have hmn := Nat.le_of_succ_le_succ hmn
    rw [summarize_succ, summarize_succ]
    exact .bind (headNormal_outlasts hmn c) (summarizeHead_outlasts hmn (ih hmn))

theorem summarizeHead_throughout {P : (α : Type) → FuelM α → Prop} [Following P] (n : Nat)
    (head : Con) : Throughout P (summarizeHead globals n head) := by
  cases head with
  | row k fields => exact .mapM (fun _ => .bind (headNormal_throughout n _) fun _ => .pure _) _
  | concat l r =>
    exact .bind (summarize_throughout n l) fun _ =>
      .bind (summarize_throughout n r) fun _ => .pure _
  | _ => exact .pure _

/-! ## Shapes -/

/-- What the pieces of a row in head normal form look like. -/
def Shaped : Con → List Piece → Prop
  | .row _ fields, pieces => (∀ p ∈ pieces, p.isField = true) ∧ pieces.length = fields.length
  | .concat _ _, pieces => 2 ≤ pieces.length
  | .error, pieces => pieces = [.error]
  | stuck, pieces => pieces = [remainder stuck]

theorem rest?_remainder (c : Con) : (remainder c).rest? = some c := by
  unfold remainder
  split <;> rfl

/-- Only an empty literal has no pieces. -/
theorem Shaped.ne_nil (h : Shaped c pieces) (hc : ∀ k, c ≠ .row k []) : pieces ≠ [] := by
  rintro rfl
  cases c with
  | row k fields =>
    obtain rfl : fields = [] := List.eq_nil_of_length_eq_zero h.2.symm
    exact hc k rfl
  | concat l r => exact absurd h (by simp [Shaped])
  | _ => cases h

/-- A row that is a single remainder is what it is. -/
theorem Shaped.eq_of_rest? {p : Piece} {rest : Con} (h : Shaped c [p]) (hp : p.rest? = some rest) :
    c = rest := by
  cases c with
  | row k fields =>
    have hfield := h.1 p (by simp)
    cases p with
    | field => cases hp
    | _ => cases hfield
  | concat l r => exact absurd h (by simp [Shaped])
  | error =>
    cases h
    cases hp
  | _ =>
    obtain rfl := List.singleton_inj.mp h
    rw [rest?_remainder] at hp
    exact Option.some.inj hp

theorem summarizeHead_shaped (n : Nat) (ok : rereading.Ok store)
    (H : ∀ {store c}, rereading.Ok store → HeadForm globals store c →
      Yields rereading store (summarize globals n c) fun pieces _ => Shaped c pieces)
    (h : HeadForm globals store c) :
    Yields rereading store (summarizeHead globals n c) fun pieces _ => Shaped c pieces := by
  cases c with
  | row k fields =>
    have hfields : Yields rereading store (fields.mapM _) _ := Yields.mapM
      (f := fun (name, value) => (return .field (← headNormal globals n name) value : FuelM Piece))
      (Q := fun _ (p : Piece) (_ : Store) => p.isField = true) ok (fun _ _ h => h)
      fun field _ s ok' _ => .bind ok'
        (yields_again (headNormal_throughout n field.1) ok')
        fun _ _ ok'' _ _ => .pure ok'' rfl
    refine hfields.mono fun pieces _ _ _ hpieces => ⟨fun p hp => ?_, hpieces.length_eq.symm⟩
    obtain ⟨i, hi, rfl⟩ := List.getElem_of_mem hp
    obtain ⟨hlength, hall⟩ := List.forall₂_iff_get.mp hpieces
    exact hall i (hlength ▸ hi) hi
  | concat l r =>
    obtain ⟨-, -, hl, hr, -⟩ := concatHeads_eq_concat_iff.mp h.stuck
    refine .bind ok (H ok (h.head (by simp))) fun left s₁ ok₁ same₁ hleft => ?_
    have hform := (h.head (p := r) (by simp)).of_solved same₁.solved
    refine .bind ok₁ (H ok₁ hform) fun right s₂ ok₂ _ hright => .pure ok₂ ?_
    have hleft := List.length_pos_of_ne_nil (hleft.ne_nil hl)
    have hright := List.length_pos_of_ne_nil (hright.ne_nil hr)
    change 2 ≤ (left ++ right).length
    rw [List.length_append]
    omega
  | _ => exact .pure ok rfl

theorem summarize_shaped (n : Nat) (ok : rereading.Ok store) (h : HeadForm globals store c) :
    Yields rereading store (summarize globals n c) fun pieces _ => Shaped c pieces := by
  induction n generalizing store c with
  | zero => exact .of_none rfl
  | succ n ih =>
    rw [summarize_succ]
    refine .bind ok ((headNormal_still h n).of_still ok) ?_
    rintro _ _ - - ⟨rfl, rfl⟩
    exact summarizeHead_shaped n ok ih h

/-! ## From a row to its head normal form -/

/-- In every store that reads like the given one, the head normal form of `c` is `head`, and
`pieces` is the summary of it. -/
structure Summarized (globals : Globals) (store : Store) (c head : Con) (pieces : List Piece) :
    Prop where
  form : HeadForm globals store head
  reduces : ∀ {t}, ReadAlike store t → Ends rereading t (fun n => headNormal globals n c)
    fun r _ => r = head
  summarizes : ∀ {t}, ReadAlike store t → Ends rereading t (fun n => summarize globals n head)
    fun ps _ => ps = pieces
  shaped : Shaped head pieces

/-- A summary that has been made once is made again from the head normal form. -/
theorem exists_summarized (ok : rereading.Ok store) (hg : globals.Fits store) (hc : c.Fits store)
    {n : Nat} (hrun : summarize globals n c store = some (pieces, store')) :
    ∃ head, Summarized globals store c head pieces := by
  cases n with
  | zero => cases hrun
  | succ n =>
    rw [summarize_succ] at hrun
    obtain ⟨⟨head, store₁⟩, hhead, hpieces⟩ := Option.bind_eq_some_iff.mp hrun
    have halike : ReadAlike store store₁ :=
      (headNormal_throughout (P := Repeatable ReadAlike) n c (ReadAlike.refl ok) hhead).1
    obtain ⟨-, compresses, hform⟩ := headNormal_form n ok.1 hg hc _ _ (exec_of_run hhead)
    have hform := (hform head rfl).back compresses
    have hsummary : ∀ {t}, ReadAlike store t →
        Ends rereading t (fun n => summarize globals n head) fun ps _ => ps = pieces := by
      intro t ht
      have hform' : HeadForm globals t head := hform.of_solved ht.solved
      refine .of_succ ?_
      simp only [summarize_succ]
      refine .bind ht.ok.2 (hform'.stays.1.of_still ht.ok.2) ?_
      rintro _ _ - - ⟨rfl, rfl⟩
      exact ends_again (fun n => summarizeHead_throughout n _)
        (fun hmn => summarizeHead_outlasts hmn (summarize_outlasts hmn) _)
        (trans_of ReadAlike (symm_of ReadAlike halike) ht) hpieces
    refine ⟨head, hform, fun ht => ?_, hsummary, ?_⟩
    · exact ends_again (fun n => headNormal_throughout n c) (fun hmn => headNormal_outlasts hmn c)
        ht hhead
    · obtain ⟨N, ps, s', hruns, -, -, rfl⟩ := hsummary (ReadAlike.refl ok)
      exact (summarize_shaped N ok hform _ _ (hruns N le_rfl)).2.2 _ rfl

end Row

end RowML
