import RowML.Proofs.Composition

/-!
# Journals

A store that can go back to an earlier state keeps a journal of what it overwrites.  A computation
is exact if it does the same whatever the journal holds, and if the entries that it adds to the
journal lead back from its last state to its first one.
-/

namespace RowML

/-- How the states of a store and their journals hang together. -/
structure Journal (σ : Type) where
  /-- What a computation may add to a journal. -/
  Entries : Type
  none : Entries
  /-- The first entries on top of the second ones. -/
  onTop : Entries → Entries → Entries
  /-- The states have nothing but their journals apart. -/
  Alike : σ → σ → Prop
  /-- The entries lead back from the second state to the first one, and the journal of the second
  state is that of the first one with the entries on top, if the first one is kept at all. -/
  Records : σ → σ → Entries → Prop
  alike_refl : ∀ s, Alike s s
  records_none : ∀ s, Records s s none
  records_onTop : ∀ {s s' s'' e e'}, Records s s' e → Records s' s'' e' →
    Records s s'' (onTop e' e)

namespace Journal

variable {σ : Type} {J : Journal σ} {α : Type}

/-- From every state like `s` the computation answers `a`, leaves a state like `s'` and records the
entries `e`. -/
def Runs (J : Journal σ) (x : Fuelled σ α) (s : σ) (a : α) (s' : σ) (e : J.Entries) : Prop :=
  ∀ t, J.Alike s t → ∃ t', x t = some (a, t') ∧ J.Alike s' t' ∧ J.Records t t' e

/-- The computation does the same whatever the journal holds, and its entries undo what it does. -/
def Exact (J : Journal σ) (α : Type) (x : Fuelled σ α) : Prop :=
  ∀ s, (∀ t, J.Alike s t → x t = .none) ∨ ∃ a s' e, J.Runs x s a s' e

theorem Exact.records {x : Fuelled σ α} (h : J.Exact α x) {s s' : σ} {a : α}
    (hrun : x s = some (a, s')) : ∃ e, J.Records s s' e := by
  rcases h s with hnone | ⟨b, s₁, e, hruns⟩
  · rw [hnone s (J.alike_refl s)] at hrun
    cases hrun
  · obtain ⟨s₂, hrun', -, hrecords⟩ := hruns s (J.alike_refl s)
    rw [hrun] at hrun'
    cases hrun'
    exact ⟨e, hrecords⟩

/-- States that are alike before a run are alike after it. -/
theorem Exact.alike {x : Fuelled σ α} (h : J.Exact α x) (symm : ∀ {s t}, J.Alike s t → J.Alike t s)
    (trans : ∀ {s t u}, J.Alike s t → J.Alike t u → J.Alike s u) {s s' t : σ} {a : α}
    (hrun : x s = some (a, s')) (ht : J.Alike s t) : ∃ t', x t = some (a, t') ∧ J.Alike s' t' := by
  rcases h s with hnone | ⟨b, s₁, e, hruns⟩
  · rw [hnone s (J.alike_refl s)] at hrun
    cases hrun
  · obtain ⟨s₂, hrun', halike, -⟩ := hruns s (J.alike_refl s)
    rw [hrun] at hrun'
    cases hrun'
    obtain ⟨t', hrun', halike', -⟩ := hruns t ht
    exact ⟨t', hrun', trans (symm halike) halike'⟩

instance : Compositional J.Exact where
  pure a s := .inr ⟨a, s, J.none, fun t ht => ⟨t, rfl, ht, J.records_none t⟩⟩
  bind {α β x f} hx hf s := by
    rcases hx s with hnone | ⟨a, s', e, hx⟩
    · refine .inl fun t ht => ?_
      change (x t).bind _ = _
      rw [hnone t ht]
      rfl
    have hseq : ∀ t t', x t = some (a, t') → (x >>= f) t = f a t' := fun t t' hrun => by
      change (x t).bind _ = _
      rw [hrun]
      rfl
    rcases hf a s' with hnone | ⟨b, s'', e', hf⟩
    · refine .inl fun t ht => ?_
      obtain ⟨t', hrun, ht', -⟩ := hx t ht
      exact (hseq t t' hrun).trans (hnone t' ht')
    · refine .inr ⟨b, s'', J.onTop e' e, fun t ht => ?_⟩
      obtain ⟨t', hrun, ht', hrecords⟩ := hx t ht
      obtain ⟨t'', hrun', ht'', hrecords'⟩ := hf t' ht'
      exact ⟨t'', (hseq t t' hrun).trans hrun', ht'', J.records_onTop hrecords hrecords'⟩

theorem exact_outOfFuel : J.Exact α outOfFuel := fun _ => .inl fun _ _ => rfl

/-- What is read of a state does not include its journal. -/
theorem exact_read {f : σ → Fuelled σ α} (hf : ∀ s, J.Exact α (f s))
    (same : ∀ {s t}, J.Alike s t → f s = f t) : J.Exact α (get >>= f) := by
  intro s
  have hrun : ∀ t, J.Alike s t → (get >>= f : Fuelled σ α) t = f s t := fun t ht => by
    change f t t = _
    rw [same ht]
  rcases hf s s with hnone | ⟨a, s', e, h⟩
  · exact .inl fun t ht => (hrun t ht).trans (hnone t ht)
  · exact .inr ⟨a, s', e, fun t ht => hrun t ht ▸ h t ht⟩

end Journal

/-! ## Old values -/

section Undone

variable {α : Type}

/-- The value at `i` once the entries are undone, the newest first, if it is `value` now. -/
def undone (entries : List (Nat × α)) (i : Nat) (value : α) : α :=
  entries.foldl (fun value entry => if entry.1 = i then entry.2 else value) value

@[simp] theorem undone_nil (i : Nat) (value : α) : undone [] i value = value := rfl

@[simp] theorem undone_cons (entry : Nat × α) (entries : List (Nat × α)) (i : Nat) (value : α) :
    undone (entry :: entries) i value =
      undone entries i (if entry.1 = i then entry.2 else value) :=
  rfl

theorem undone_append (entries entries' : List (Nat × α)) (i : Nat) (value : α) :
    undone (entries ++ entries') i value = undone entries' i (undone entries i value) :=
  List.foldl_append

/-- The value now counts only if there is no entry for it. -/
theorem undone_eq_self_or (entries : List (Nat × α)) (i : Nat) :
    (∀ value, undone entries i value = value) ∨
      ∀ value value', undone entries i value = undone entries i value' := by
  induction entries with
  | nil => exact .inl fun _ => rfl
  | cons entry entries ih =>
    by_cases h : entry.1 = i
    · exact .inr fun _ _ => by simp only [undone_cons, if_pos h]
    · simpa only [undone_cons, if_neg h] using ih

end Undone

end RowML
