import RowML.Normal.Head
import RowML.Proofs.Execution
import RowML.Proofs.Store.Imitation
import RowML.Proofs.Unify.Integrity

/-!
# Head normal forms

A reduction that has an answer has it with every larger amount of fuel, and leaves the same store.
So the amount that two runs were given plays no part in what their answers have in common.

A constructor is in head normal form if no rule applies to its outermost node and the parts that the
rules look at are in head normal form themselves.  Reduction answers with head normal forms only,
provided that no solution is a variable, and it leaves a head normal form and the store alone.
-/

namespace RowML

section Outlasts

variable {m : Type → Type} {σ : Type} [Monad m] [Executes m σ] {α β : Type}

/-- The second computation has every outcome that the first one has. -/
def Outlasts (x y : m α) : Prop := ∀ s r, exec x s = some r → exec y s = some r

namespace Outlasts

variable {x y : m α}

theorem refl (x : m α) : Outlasts x x := fun _ _ h => h

theorem trans {z : m α} (h : Outlasts x y) (h' : Outlasts y z) : Outlasts x z :=
  fun s r hr => h' s r (h s r hr)

theorem of_none (h : ∀ s, exec x s = none) : Outlasts x y := by
  intro s r hr
  rw [h s] at hr
  cases hr

theorem bind {f g : α → m β} (hx : Outlasts x y) (hf : ∀ a, Outlasts (f a) (g a)) :
    Outlasts (x >>= f) (y >>= g) := by
  intro s r hr
  rw [exec_bind] at hr ⊢
  rcases hrun : exec x s with _ | ⟨_ | a, s'⟩
  · rw [hrun] at hr
    cases hr
  · rw [hrun] at hr
    rw [hx s _ hrun]
    exact hr
  · rw [hrun] at hr
    rw [hx s _ hrun]
    exact hf a s' r hr

end Outlasts

end Outlasts

namespace Con

/-- The search for a field goes on with a reduction that goes on. -/
theorem findField_outlasts {reduce reduce' : Con → FuelM Con}
    (H : ∀ c, Outlasts (reduce c) (reduce' c)) (field : Con) (n : Nat) (row : Con) :
    Outlasts (findField reduce field n row) (findField reduce' field (n + 1) row) := by
  induction n generalizing row with
  | zero => exact .of_none fun _ => rfl
  | succ n ih =>
    cases row with
    | concat l r =>
      refine .bind (H l) fun l' => .bind (ih l') fun found => ?_
      cases found with
      | some value => exact .refl _
      | none => exact .bind (H r) ih
    | _ => exact .refl _

end Con

section Fuel

variable {globals : Globals}

private theorem headNormal_outlasts_succ (n : Nat) (c : Con) :
    Outlasts (headNormal globals n c) (headNormal globals (n + 1) c) := by
  induction n generalizing c with
  | zero => exact .of_none fun _ => rfl
  | succ n ih =>
    rw [headNormal, headNormal]
    refine .bind (.refl _) fun c => ?_
    cases c with
    | global id =>
      simp only
      split
      · exact ih _
      · exact ih _
      · exact .refl _
    | member module path item =>
      simp only
      split
      · exact ih _
      · exact ih _
      · exact .refl _
    | app f a =>
      refine .bind (ih f) fun f' => ?_
      cases f' with
      | abs => exact .bind (.refl _) ih
      | _ => exact .refl _
    | kapp f k =>
      refine .bind (ih f) fun f' => ?_
      cases f' with
      | kabs => exact .bind (.refl _) ih
      | _ => exact .refl _
    | concat l r => exact .bind (ih l) fun _ => .bind (ih r) fun _ => .refl _
    | map d e f r => exact .bind (ih f) fun _ => .bind (ih r) fun _ => .refl _
    | proj r field =>
      refine .bind (ih r) fun r' => .bind (ih field) fun field' => ?_
      split
      · exact .refl _
      refine .bind (Con.findField_outlasts ih field' n r') fun found => ?_
      cases found with
      | some value => exact ih value
      | none =>
        cases r' with
        | map d e f base => exact ih _
        | _ => exact .refl _
    | component t i =>
      refine .bind (ih t) fun t' => ?_
      cases t' with
      | tuple cs =>
        simp only
        split
        · exact ih _
        · exact .refl _
      | _ => exact .refl _
    | _ => exact .refl _

theorem headNormal_outlasts {m n : Nat} (h : m ≤ n) (c : Con) :
    Outlasts (headNormal globals m c) (headNormal globals n c) := by
  induction h with
  | refl => exact .refl _
  | @step n _ ih => exact ih.trans (headNormal_outlasts_succ n c)

end Fuel

/-! ## The forms -/

namespace Con

/-- The parts that are reduced before a rule for the node is chosen. -/
@[simp] def heads : Con → List Con
  | .app f _ => [f]
  | .kapp f _ => [f]
  | .concat l r => [l, r]
  | .map _ _ f r => [f, r]
  | .proj r field => [r, field]
  | .component t _ => [t]
  | _ => []

/-- The names in the literal parts of a row. -/
def fieldNames : Con → List Con
  | .row _ fields => fields.map (·.1)
  | .concat l r => l.fieldNames ++ r.fieldNames
  | _ => []

/-- Whether a map over the constructor is computed. -/
def isMapped : Con → Bool
  | .error => true
  | .row _ _ => true
  | .concat _ _ => true
  | .map _ _ _ _ => true
  | _ => false

/-- No rule applies to the outermost node, given that its heads are in head normal form. -/
def Stuck (globals : Globals) (store : Store) : Con → Prop
  | .mvar id _ => store.isSolved id = false
  | .global id => ∀ k body, globals.definition? id ≠ some (.con k body) ∧
      globals.definition? id ≠ some (.class k (some body))
  | .member module path item => globals.canonical ⟨module, path⟩ = ⟨module, path⟩ ∧
      ∀ k body, globals.moduleItem? ⟨module, path⟩ item .con ≠ some (.con k (some body)) ∧
        globals.moduleItem? ⟨module, path⟩ item .con ≠ some (.class k (some body))
  | .app f _ => f ≠ .error ∧ ∀ x k body, f ≠ .abs x k body
  | .kapp f _ => f ≠ .error ∧ ∀ x body, f ≠ .kabs x body
  | .concat l r => concatHeads l r = .concat l r
  | .map _ _ f r => f ≠ .error ∧ f.isIdentity = false ∧ r.isMapped = false
  | .proj r field => r ≠ .error ∧ field ≠ .error ∧ field ∉ r.fieldNames ∧
      ∀ d e f base, r ≠ .map d e f base
  | .component t _ => t ≠ .error ∧ ∀ cs, t ≠ .tuple cs
  | _ => True

/-- A constructor in head normal form. -/
inductive HeadForm (globals : Globals) (store : Store) : Con → Prop where
  | intro {c : Con} (stuck : c.Stuck globals store)
      (heads : ∀ p ∈ c.heads, HeadForm globals store p) : HeadForm globals store c

variable {globals : Globals} {store store' : Store}

namespace HeadForm

variable {c p : Con}

theorem stuck (h : HeadForm globals store c) : c.Stuck globals store := by
  cases h with
  | intro stuck _ => exact stuck

theorem head (h : HeadForm globals store c) (hp : p ∈ c.heads) : HeadForm globals store p := by
  cases h with
  | intro _ heads => exact heads p hp

theorem unsolved (h : HeadForm globals store c) : store.HeadUnsolved c := by
  rintro i spine rfl
  exact h.stuck

/-- Only what is solved matters. -/
theorem of_solved (h : HeadForm globals store c)
    (hsolved : ∀ i, store'.isSolved i = store.isSolved i) : HeadForm globals store' c := by
  induction h with
  | @intro c stuck _ ih =>
    refine .intro ?_ ih
    cases c with
    | mvar id spine => exact (hsolved id).trans stuck
    | _ => exact stuck

theorem compresses (h : HeadForm globals store c) (compresses : store.Compresses store') :
    HeadForm globals store' c :=
  h.of_solved compresses.solved

theorem back (h : HeadForm globals store' c) (compresses : store.Compresses store') :
    HeadForm globals store c :=
  h.of_solved fun i => (compresses.solved i).symm

theorem error : HeadForm globals store .error := .intro trivial (by simp)

theorem row (k : Kind) (fields : List (Con × Con)) : HeadForm globals store (.row k fields) :=
  .intro trivial (by simp)

theorem abs (x : String) (k : Kind) (body : Con) : HeadForm globals store (.abs x k body) :=
  .intro trivial (by simp)

theorem map {d e : Kind} {f r : Con} (hf : HeadForm globals store f) (hr : HeadForm globals store r)
    (hstuck : (Con.map d e f r).Stuck globals store) : HeadForm globals store (.map d e f r) :=
  .intro hstuck (by simp [heads, hf, hr])

end HeadForm

/-! ## The row operators -/

theorem concatHeads_form {l r : Con} (hl : HeadForm globals store l)
    (hr : HeadForm globals store r) : HeadForm globals store (concatHeads l r) := by
  by_cases hstuck : concatHeads l r = .concat l r
  · rw [hstuck]
    exact .intro hstuck (by simp [heads, hl, hr])
  · generalize h : concatHeads l r = c at hstuck
    unfold concatHeads at h
    split at h <;> subst h
    · exact .error
    · exact .error
    · exact hr
    · exact hl
    · exact .row _ _
    · exact absurd rfl hstuck

theorem mapHead_eq {d e : Kind} {f r : Con} (h : (Con.map d e f r).Stuck globals store) :
    mapHead d e f r = .map d e f r := by
  obtain ⟨hf, hidentity, hr⟩ := h
  have hne : r ≠ .error := by
    rintro rfl
    cases hr
  rw [mapHead, if_neg (by simp [hne, hf]), hidentity]
  cases r <;> first | rfl | cases hr

theorem mapRow_form {d e : Kind} {f row : Con} (hf : HeadForm globals store f) (hne : f ≠ .error)
    (hidentity : f.isIdentity = false) (hrow : HeadForm globals store row) :
    HeadForm globals store (mapRow d e f row) := by
  induction row using inductionOnParts with
  | step row ih =>
    cases row with
    | error => exact .error
    | row k fields => exact .row _ _
    | concat l r =>
      exact concatHeads_form (ih l (by simp [parts]) (hrow.head (by simp)))
        (ih r (by simp [parts]) (hrow.head (by simp)))
    | map d' e' g base =>
      have hbase : HeadForm globals store base := hrow.head (by simp)
      exact .map (.abs _ _ _) hbase ⟨nofun, rfl, hrow.stuck.2.2⟩
    | _ => exact .map hf hrow ⟨hne, hidentity, rfl⟩

theorem mapHead_form {d e : Kind} {f row : Con} (hf : HeadForm globals store f)
    (hrow : HeadForm globals store row) : HeadForm globals store (mapHead d e f row) := by
  unfold mapHead
  split
  next => exact .error
  next h =>
    rw [not_or] at h
    split
    next => exact hrow
    next hidentity => exact mapRow_form hf h.2 (by simpa using hidentity) hrow

/-! ## Head normal forms stay -/

end Con

/-- The first unit of fuel. -/
theorem Ends.of_succ {m : Type → Type} {σ α : Type} [Monad m] [Executes m σ] {D : Discipline σ}
    {s : σ} {x : Nat → m α} {Post : α → σ → Prop} (h : Ends D s (fun n => x (n + 1)) Post) :
    Ends D s x Post := by
  obtain ⟨n, a, s', hrun, rest⟩ := h
  refine ⟨n + 1, a, s', fun fuel hfuel => ?_, rest⟩
  obtain ⟨fuel, rfl⟩ : ∃ k, fuel = k + 1 := ⟨fuel - 1, by omega⟩
  exact hrun fuel (by omega)

theorem Ends.shift {m : Type → Type} {σ α : Type} [Monad m] [Executes m σ] {D : Discipline σ}
    {s : σ} {x : Nat → m α} {Post : α → σ → Prop} (h : Ends D s x Post) (k : Nat) :
    Ends D s (fun n => x (n + k)) Post := by
  obtain ⟨n, a, s', hrun, rest⟩ := h
  exact ⟨n, a, s', fun fuel hfuel => hrun (fuel + k) (by omega), rest⟩

/-- Goes on after a computation whose answer is known and that leaves the state alone. -/
theorem Ends.after {m : Type → Type} {σ α β : Type} [Monad m] [Executes m σ] {s : σ}
    {x : Nat → m α} {f : Nat → α → m β} {a : α} {Post : β → σ → Prop}
    (hx : Ends (.still σ) s x fun r _ => r = a) (hf : Ends (.still σ) s (fun n => f n a) Post) :
    Ends (.still σ) s (fun n => x n >>= f n) Post := by
  refine .bind trivial hx fun r s' _ hs hr => ?_
  cases hs
  cases hr
  exact hf

section Stays

open RowML.Con

variable {globals : Globals} {store store' : Store} {c : Con}

/-- Nothing is read at the head of a constructor that is no solved metavariable. -/
theorem exec_resolve_of_headUnsolved (h : store.HeadUnsolved c) :
    exec (liftM (Store.resolve c) : FuelM Con) store = some (some c, store) := by
  have hrun : (Store.resolve c).run store = (c, store) :=
    Store.resolveWithin_unsolved h store.cells.size
  change some (some ((Store.resolve c).run store).1, ((Store.resolve c).run store).2) = _
  rw [hrun]

/-- Reduction leaves a head normal form alone, and finds no field in it that is not there. -/
theorem Con.HeadForm.stays (h : HeadForm globals store c) :
    Ends (.still Store) store (fun n => headNormal globals n c) (fun r _ => r = c) ∧
      ∀ field ∉ c.fieldNames, ∀ k, Ends (.still Store) store
        (fun n => findField (headNormal globals (n + k)) field n c) fun found _ =>
          found = none := by
  induction h with
  | @intro c stuck heads ih =>
  have hc : HeadForm globals store c := .intro stuck heads
  constructor
  · refine .of_succ ?_
    simp only [headNormal]
    have hresolve : Ends (.still Store) store
        (fun _ => (liftM (Store.resolve c) : FuelM Con)) fun r _ => r = c :=
      .of_exec (fun _ => exec_resolve_of_headUnsolved hc.unsolved) trivial rfl rfl
    refine .after hresolve ?_
    cases c with
    | global id =>
      simp only
      split
      next h => exact absurd h (stuck _ _).1
      next h => exact absurd h (stuck _ _).2
      next => exact .pure trivial rfl
    | member module path item =>
      obtain ⟨hcanonical, hitem⟩ := stuck
      simp only [hcanonical]
      split
      next h => exact absurd h (hitem _ _).1
      next h => exact absurd h (hitem _ _).2
      next => exact .pure trivial rfl
    | app f a =>
      refine .after (ih f (by simp)).1 ?_
      cases f with
      | abs x k body => exact absurd rfl (stuck.2 x k body)
      | error => exact absurd rfl stuck.1
      | _ => exact .pure trivial rfl
    | kapp f k =>
      refine .after (ih f (by simp)).1 ?_
      cases f with
      | kabs x body => exact absurd rfl (stuck.2 x body)
      | error => exact absurd rfl stuck.1
      | _ => exact .pure trivial rfl
    | concat l r =>
      refine .after (ih l (by simp)).1 ?_
      refine .after (ih r (by simp)).1 ?_
      exact .pure trivial stuck
    | map d e f r =>
      refine .after (ih f (by simp)).1 ?_
      refine .after (ih r (by simp)).1 ?_
      exact .pure trivial (mapHead_eq stuck)
    | proj r field =>
      obtain ⟨hr, hfield, hnames, hmap⟩ := stuck
      refine .after (ih r (by simp)).1 ?_
      refine .after (ih field (by simp)).1 ?_
      simp only [hr, hfield, or_self, if_false]
      refine .after ((ih r (by simp)).2 field hnames 0) ?_
      cases r with
      | map d e f base => exact absurd rfl (hmap d e f base)
      | _ => exact .pure trivial rfl
    | component t i =>
      refine .after (ih t (by simp)).1 ?_
      cases t with
      | tuple cs => exact absurd rfl (stuck.2 cs)
      | error => exact absurd rfl stuck.1
      | _ => exact .pure trivial rfl
    | _ => exact .pure trivial rfl
  · intro field hfield k
    cases c with
    | row k fields =>
      refine .of_succ (.pure trivial ?_)
      rw [Option.map_eq_none_iff, List.find?_eq_none]
      intro entry hentry hname
      exact hfield (List.mem_map.mpr ⟨entry, hentry, by simpa using hname⟩)
    | concat l r =>
      rw [fieldNames, List.mem_append, not_or] at hfield
      obtain ⟨ihl, ihl'⟩ := ih l (by simp)
      obtain ⟨ihr, ihr'⟩ := ih r (by simp)
      refine .of_succ ?_
      simp only [findField, Nat.add_right_comm _ 1 k]
      refine .after (ihl.shift (k + 1)) ?_
      refine .after (ihl' field hfield.1 (k + 1)) ?_
      refine .after (ihr.shift (k + 1)) ?_
      exact ihr' field hfield.2 (k + 1)
    | _ => exact .of_succ (.pure trivial rfl)

/-- Whatever the fuel, a head normal form is the only answer for itself. -/
theorem headNormal_still (h : HeadForm globals store c) (n : Nat) :
    Yields (.still Store) store (headNormal globals n c) fun r _ => r = c := by
  obtain ⟨N, a, s₁, hrun, -, hs, ha⟩ := h.stays.1
  intro r s' hexec
  have hmore := headNormal_outlasts (Nat.le_max_left n N) c _ _ hexec
  rw [hrun _ (Nat.le_max_right n N)] at hmore
  cases hmore
  exact ⟨trivial, hs, fun _ h => (Option.some.inj h).symm.trans ha⟩

/-- Where no field is found, none has the name. -/
theorem findField_misses (n m : Nat) (field : Con) {row : Con}
    (hrow : HeadForm globals store row) :
    Yields (.still Store) store (findField (headNormal globals n) field m row) fun found _ =>
      found = none → field ∉ row.fieldNames := by
  induction m generalizing row with
  | zero => exact Yields.of_none rfl
  | succ m ih =>
    cases row with
    | row k fields =>
      refine Yields.pure trivial fun hnone hmem => ?_
      rw [Option.map_eq_none_iff, List.find?_eq_none] at hnone
      obtain ⟨entry, hentry, hname⟩ := List.mem_map.mp hmem
      exact hnone entry hentry (by simp [hname])
    | concat l r =>
      have hl : HeadForm globals store l := hrow.head (by simp)
      have hr : HeadForm globals store r := hrow.head (by simp)
      refine Yields.bind trivial (headNormal_still hl n) ?_
      rintro _ _ - rfl rfl
      refine Yields.bind trivial (ih hl) ?_
      rintro found _ - rfl hmissed
      cases found with
      | some value => exact Yields.pure trivial (by simp)
      | none =>
        refine Yields.bind trivial (headNormal_still hr n) ?_
        rintro _ _ - rfl rfl
        refine (ih hr).mono fun found _ _ _ hmissed' hnone => ?_
        simp [fieldNames, hmissed rfl, hmissed' hnone]
    | _ => exact Yields.pure trivial (by simp [fieldNames])

/-- Reduction answers with head normal forms. -/
theorem headNormal_form (n : Nat) (ok : Store.imitation.Ok store) (hg : globals.Fits store)
    (hc : c.Fits store) :
    Yields Store.imitation store (headNormal globals n c) fun r store' =>
      HeadForm globals store' r := by
  induction n generalizing store c with
  | zero => exact Yields.of_none rfl
  | succ n ih =>
    -- what is reduced on the way fits the store
    have H : ∀ {store c}, Store.imitation.Ok store → globals.Fits store → c.Fits store →
        Yields Store.imitation store (headNormal globals n c) fun r store' =>
          HeadForm globals store' r ∧ r.Fits store' := fun ok hg hc =>
      (ih ok hg hc).and (headNormal_keeps n ok.1 hg hc)
    unfold headNormal
    refine Yields.bind ok (.of_exec_eq rfl (Store.resolve_shows ok hc)) ?_
    rintro r store₁ ok₁ compresses₁ ⟨headed, unsolved⟩
    have hg₁ := hg.evolves compresses₁.toEvolves
    have hr := headed.fits
    cases r with
    | global id =>
      simp only
      split
      next hbody => exact ih ok₁ hg₁ (Globals.definition_holds hg₁ (.inl hbody))
      next hbody => exact ih ok₁ hg₁ (Globals.definition_holds hg₁ (.inr hbody))
      next hcon hclass =>
        exact Yields.pure ok₁
          (.intro (fun k body => ⟨hcon k body, hclass k body⟩) (by simp))
    | member module path item =>
      simp only
      split
      next hbody => exact ih ok₁ hg₁ (hg₁.item (.inl hbody))
      next hbody => exact ih ok₁ hg₁ (hg₁.item (.inr hbody))
      next hcon hclass =>
        refine Yields.pure ok₁ (.intro ⟨?_, fun k body => ⟨hcon k body, hclass k body⟩⟩
          (by simp))
        exact globals.canonical_canonical ⟨module, path⟩
    | app f argument =>
      refine Yields.bind ok₁ (H ok₁ hg₁ (hr.part (by simp [parts]))) ?_
      rintro f' store₂ ok₂ compresses₂ ⟨hform, hf'⟩
      have hg₂ := hg₁.evolves compresses₂.toEvolves
      split
      next x k body =>
        have hargument : argument.Fits store₂ :=
          (hr.part (by simp [parts])).evolves compresses₂.toEvolves
        have hbody : (body.instantiated [argument]).Fits store₂ :=
          (hf'.part (by simp [parts])).instantiated (by simpa using hargument)
        refine Yields.bind ok₂ (.of_exec_eq rfl (Store.onKinds_imitates _ ok₂)) ?_
        rintro _ store₃ ok₃ compresses₃ ⟨-, rfl⟩
        exact ih ok₃ (hg₂.evolves compresses₃.toEvolves)
          ((hbody.of_alike (subst_resembles body argument _)).evolves compresses₃.toEvolves)
      next => exact Yields.pure ok₂ .error
      next habs hne =>
        exact Yields.pure ok₂ (.intro ⟨hne, habs⟩ (by simp [heads, hform]))
    | kapp f argument =>
      refine Yields.bind ok₁ (H ok₁ hg₁ (hr.part (by simp [parts]))) ?_
      rintro f' store₂ ok₂ compresses₂ ⟨hform, hf'⟩
      have hg₂ := hg₁.evolves compresses₂.toEvolves
      split
      next x body =>
        have hbody : body.Fits store₂ := hf'.part (by simp [parts])
        refine Yields.bind ok₂ (.of_exec_eq rfl (Store.onKinds_imitates _ ok₂)) ?_
        rintro _ store₃ ok₃ compresses₃ ⟨-, rfl⟩
        exact ih ok₃ (hg₂.evolves compresses₃.toEvolves)
          ((hbody.of_alike (substKind_resembles body argument _)).evolves compresses₃.toEvolves)
      next => exact Yields.pure ok₂ .error
      next habs hne =>
        exact Yields.pure ok₂ (.intro ⟨hne, habs⟩ (by simp [heads, hform]))
    | concat l r =>
      refine Yields.bind ok₁ (ih ok₁ hg₁ (hr.part (by simp [parts]))) ?_
      intro l' store₂ ok₂ compresses₂ hl
      refine Yields.bind ok₂ (ih ok₂ (hg₁.evolves compresses₂.toEvolves)
        ((hr.part (by simp [parts])).evolves compresses₂.toEvolves)) ?_
      intro r' store₃ ok₃ compresses₃ hr
      exact Yields.pure ok₃ (concatHeads_form (hl.compresses compresses₃) hr)
    | map d e f row =>
      refine Yields.bind ok₁ (ih ok₁ hg₁ (hr.part (by simp [parts]))) ?_
      intro f' store₂ ok₂ compresses₂ hf
      refine Yields.bind ok₂ (ih ok₂ (hg₁.evolves compresses₂.toEvolves)
        ((hr.part (by simp [parts])).evolves compresses₂.toEvolves)) ?_
      intro row' store₃ ok₃ compresses₃ hrow
      exact Yields.pure ok₃ (mapHead_form (hf.compresses compresses₃) hrow)
    | proj row field =>
      refine Yields.bind ok₁ (H ok₁ hg₁ (hr.part (by simp [parts]))) ?_
      rintro row' store₂ ok₂ compresses₂ ⟨hrowForm, hrow'⟩
      have hg₂ := hg₁.evolves compresses₂.toEvolves
      refine Yields.bind ok₂ (H ok₂ hg₂
        ((hr.part (by simp [parts])).evolves compresses₂.toEvolves)) ?_
      rintro field' store₃ ok₃ compresses₃ ⟨hfieldForm, hfield'⟩
      have hg₃ := hg₂.evolves compresses₃.toEvolves
      have hrow' := hrow'.evolves compresses₃.toEvolves
      have hrowForm := hrowForm.compresses compresses₃
      split
      next => exact Yields.pure ok₃ .error
      next hne =>
      rw [not_or] at hne
      have hsearch := (findField_misses n n field' hrowForm).of_still ok₃ |>.and
        (findField_keeps (headNormal_keeps n) field' n ok₃.1 hg₃ hrow')
      refine Yields.bind ok₃ hsearch ?_
      rintro found store₄ ok₄ - ⟨⟨hsame, hmissed⟩, hfound⟩
      subst hsame
      split
      next value => exact ih ok₄ hg₃ (hfound value rfl)
      next =>
        split
        next d e function base _ _ =>
          have hbase : base.Fits store₄ := hrow'.part (by simp [parts])
          have hproj : (Con.proj base field').Fits store₄ :=
            .node (by simp) (by simp [parts, hbase, hfield'])
          exact ih ok₄ hg₃ (.app (hrow'.part (by simp [parts])) hproj)
        next hmap =>
          refine Yields.pure ok₄ (.intro ⟨hne.1, hne.2, hmissed rfl, hmap⟩ ?_)
          simp [heads, hrowForm, hfieldForm]
    | component tuple index =>
      refine Yields.bind ok₁ (H ok₁ hg₁ (hr.part (by simp [parts]))) ?_
      rintro tuple' store₂ ok₂ compresses₂ ⟨hform, htuple'⟩
      have hg₂ := hg₁.evolves compresses₂.toEvolves
      split
      next components =>
        split
        next c hcomponent => exact ih ok₂ hg₂ (htuple'.part (List.mem_of_getElem? hcomponent))
        next => exact Yields.pure ok₂ .error
      next => exact Yields.pure ok₂ .error
      next htuple hne =>
        exact Yields.pure ok₂ (.intro ⟨hne, htuple⟩ (by simp [heads, hform]))
    | mvar id spine => exact Yields.pure ok₁ (.intro (unsolved id spine rfl) (by simp))
    | _ => exact Yields.pure ok₁ (.intro trivial (by simp))

end Stays

end RowML
