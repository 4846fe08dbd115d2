import RowML.Proofs.Normal.Repetition
import RowML.Proofs.Row.Disjointness

/-!
# What rows wait for

The head of a constructor can be stuck on metavariables, and the pieces of a row wait for those that
they are stuck on.  Where no solution is a variable, none of them is solved: a metavariable that is
found solved on the way to a head is followed to the end of its chain.
-/

namespace RowML

open Store

variable {globals : Globals} {store store' : Store} {c l r : Con}

/-! ## Heads -/

/-- The metavariables that the head of a constructor is stuck on. -/
def Con.stuckOn : Con → List MetaId
  | .mvar var _ => [var]
  | .app f _ => f.stuckOn
  | .kapp f _ => f.stuckOn
  | .component t _ => t.stuckOn
  | .map _ _ f r => r.stuckOn ++ f.stuckOn
  | .proj r field => r.stuckOn ++ field.stuckOn
  | .concat l r => l.stuckOn ++ r.stuckOn
  | _ => []

theorem Row.blocker?_eq (c : Con) : Row.blocker? c = c.stuckOn.head? := by
  induction c using Con.inductionOnParts with
  | step c ih =>
    cases c with
    | app f a | kapp f k | component f i => exact ih f (by simp [Con.parts])
    | map d e f r =>
      have hf := ih f (by simp [Con.parts])
      rw [blocker?, Con.stuckOn, List.head?_append, ih r (by simp [Con.parts]), hf]
    | proj l r | concat l r =>
      have hl := ih l (by simp [Con.parts])
      rw [blocker?, Con.stuckOn, List.head?_append, hl, ih r (by simp [Con.parts])]
    | _ => rfl

/-- Every metavariable that the head of the constructor is stuck on is unsolved. -/
def Con.Awaits (store : Store) (c : Con) : Prop := ∀ v ∈ c.stuckOn, store.isSolved v = false

namespace Con.Awaits

theorem of_stuckOn_eq_nil (h : c.stuckOn = []) : c.Awaits store := by simp [Awaits, h]

theorem mono (h : c.Awaits store) (hsolved : ∀ v, store'.isSolved v = store.isSolved v) :
    c.Awaits store' :=
  fun v hv => (hsolved v).trans (h v hv)

theorem append (hl : l.Awaits store) (hr : r.Awaits store)
    (hc : c.stuckOn = l.stuckOn ++ r.stuckOn) : c.Awaits store :=
  fun v hv => (List.mem_append.mp (hc ▸ hv)).elim (hl v) (hr v)

theorem concatHeads (hl : l.Awaits store) (hr : r.Awaits store) :
    (concatHeads l r).Awaits store := by
  unfold Con.concatHeads
  split
  · exact .of_stuckOn_eq_nil rfl
  · exact .of_stuckOn_eq_nil rfl
  · exact hr
  · exact hl
  · exact .of_stuckOn_eq_nil rfl
  · exact hl.append hr rfl

theorem mapRow {d e : Kind} {f row : Con} (hf : f.Awaits store) (hrow : row.Awaits store) :
    (mapRow d e f row).Awaits store := by
  induction row using inductionOnParts with
  | step row ih =>
    cases row with
    | error | row => exact .of_stuckOn_eq_nil rfl
    | concat l r =>
      exact .concatHeads
        (ih l (by simp [Con.parts]) fun v hv => hrow v (List.mem_append_left _ hv))
        (ih r (by simp [Con.parts]) fun v hv => hrow v (List.mem_append_right _ hv))
    | map d' e' g base =>
      have hbase : base.Awaits store := fun v hv => hrow v (List.mem_append_left _ hv)
      exact hbase.append (r := .unit) (.of_stuckOn_eq_nil rfl) rfl
    | _ => exact hrow.append hf rfl

theorem mapHead {d e : Kind} {f row : Con} (hf : f.Awaits store) (hrow : row.Awaits store) :
    (mapHead d e f row).Awaits store := by
  unfold Con.mapHead
  split
  · exact .of_stuckOn_eq_nil rfl
  · split
    · exact hrow
    · exact .mapRow hf hrow

end Con.Awaits

/-! ## Reduction -/

theorem resolve_headUnsolved (ok : rereading.Ok store) (c : Con) :
    Yields rereading store (liftM (resolve c) : FuelM Con) fun r store' =>
      store'.HeadUnsolved r := by
  obtain ⟨hreads, halike⟩ := resolve_reads ok c
  have hended : store.HeadUnsolved ((resolve c).run store).1 := by
    by_cases hbvar : ∃ v, c = .bvar v
    · obtain ⟨v, rfl⟩ := hbvar
      have hitself : store.HeadUnsolved (.bvar v) := nofun
      rwa [hreads.unique (.itself hitself)]
    · exact (hreads.ended ok.1.2 fun v hv => hbvar ⟨v, hv⟩).1
  exact .of_exec rfl halike.ok.2 halike.toSameReadings (halike.headUnsolved_iff.mpr hended)

private theorem onKinds_again {α : Type} {x : KindM α} (hx : KindStore.OnlyFollows x)
    (ok : rereading.Ok store) :
    Yields rereading store (liftM (onKinds x) : FuelM α) fun _ _ => True :=
  yields_again (Following.kinds (P := Repeatable ReadAlike) hx) ok

/-- Head normal forms are stuck on unsolved metavariables only. -/
theorem headNormal_awaits (n : Nat) (ok : rereading.Ok store) (c : Con) :
    Yields rereading store (headNormal globals n c) fun r store' => r.Awaits store' := by
  induction n generalizing store c with
  | zero => exact .of_none rfl
  | succ n ih =>
    unfold headNormal
    refine .bind ok (resolve_headUnsolved ok c) fun r store₁ ok₁ _ unsolved => ?_
    cases r with
    | mvar i spine =>
      refine .pure ok₁ fun v hv => ?_
      obtain rfl := List.mem_singleton.mp hv
      exact unsolved v spine rfl
    | global id | member module path item =>
      simp only
      split
      next => exact ih ok₁ _
      next => exact ih ok₁ _
      next => exact .pure ok₁ (.of_stuckOn_eq_nil rfl)
    | app f a =>
      refine .bind ok₁ (ih ok₁ f) fun f store₂ ok₂ _ hf => ?_
      split
      next x k body =>
        have hsubst := onKinds_again (fun hr => Con.subst_throughout hr body a) ok₂
        exact .bind ok₂ hsubst fun c store₃ ok₃ _ _ => ih ok₃ c
      next => exact .pure ok₂ (.of_stuckOn_eq_nil rfl)
      next => exact .pure ok₂ hf
    | kapp f k =>
      refine .bind ok₁ (ih ok₁ f) fun f store₂ ok₂ _ hf => ?_
      split
      next x body =>
        have hsubst := onKinds_again (fun hr => Con.substKind_throughout hr body k) ok₂
        exact .bind ok₂ hsubst fun c store₃ ok₃ _ _ => ih ok₃ c
      next => exact .pure ok₂ (.of_stuckOn_eq_nil rfl)
      next => exact .pure ok₂ hf
    | concat l r =>
      refine .bind ok₁ (ih ok₁ l) fun l store₂ ok₂ _ hl => ?_
      refine .bind ok₂ (ih ok₂ r) fun r store₃ ok₃ same₃ hr => ?_
      exact .pure ok₃ (.concatHeads (hl.mono same₃.solved) hr)
    | map d e f r =>
      refine .bind ok₁ (ih ok₁ f) fun f store₂ ok₂ _ hf => ?_
      refine .bind ok₂ (ih ok₂ r) fun r store₃ ok₃ same₃ hr => ?_
      exact .pure ok₃ (.mapHead (hf.mono same₃.solved) hr)
    | proj r field =>
      refine .bind ok₁ (ih ok₁ r) fun r store₂ ok₂ _ hr => ?_
      refine .bind ok₂ (ih ok₂ field) fun field store₃ ok₃ same₃ hfield => ?_
      split
      next => exact .pure ok₃ (.of_stuckOn_eq_nil rfl)
      next =>
        have hreads : ∀ c, Throughout (Repeatable ReadAlike) (headNormal globals n c) :=
          headNormal_throughout n
        have hfind := yields_again (findField_throughout hreads field n r) ok₃
        refine .bind ok₃ hfind fun found store₄ ok₄ same₄ _ => ?_
        have hstuck : (Con.proj r field).Awaits store₄ :=
          .append ((hr.mono same₃.solved).mono same₄.solved) (hfield.mono same₄.solved) rfl
        split
        next => exact ih ok₄ _
        next =>
          split
          next => exact ih ok₄ _
          next => exact .pure ok₄ hstuck
    | component t i =>
      refine .bind ok₁ (ih ok₁ t) fun t store₂ ok₂ _ ht => ?_
      split
      next =>
        split
        next => exact ih ok₂ _
        next => exact .pure ok₂ (.of_stuckOn_eq_nil rfl)
      next => exact .pure ok₂ (.of_stuckOn_eq_nil rfl)
      next => exact .pure ok₂ ht
    | _ => exact .pure ok₁ (.of_stuckOn_eq_nil rfl)

/-! ## Pieces -/

namespace Piece

/-- The piece waits for an unsolved metavariable if it waits. -/
def Awaits (store : Store) (p : Piece) : Prop := ∀ v ∈ p.blocker?, store.isSolved v = false

theorem Awaits.mono {p : Piece} (h : p.Awaits store)
    (hsolved : ∀ v, store'.isSolved v = store.isSolved v) : p.Awaits store' :=
  fun v hv => (hsolved v).trans (h v hv)

theorem awaits_field {name value : Con} (h : name.Awaits store) :
    (field name value).Awaits store := by
  intro v hv
  cases name with
  | mvar i spine =>
    cases hv
    exact h v (by simp [Con.stuckOn])
  | _ => cases hv

theorem awaits_remainder (h : c.Awaits store) : (Row.remainder c).Awaits store := by
  intro v hv
  unfold Row.remainder at hv
  split at hv
  next var hblocker =>
    cases hv
    rw [Row.blocker?_eq] at hblocker
    exact h v (List.mem_of_head? hblocker)
  next => cases hv

end Piece

namespace Row

/-- What the summary of a row waits for is unsolved. -/
theorem summarize_awaits (n : Nat) (ok : rereading.Ok store) (row : Con) :
    Yields rereading store (summarize globals n row) fun pieces store' =>
      ∀ p ∈ pieces, p.Awaits store' := by
  induction n generalizing store row with
  | zero => exact .of_none rfl
  | succ n ih =>
    unfold summarize
    refine .bind ok (headNormal_awaits n ok row) fun head store₁ ok₁ _ hhead => ?_
    split
    next k fields =>
      refine (Yields.mapM (Q := fun _ (p : Piece) s => p.Awaits s) ok₁
        (fun _ grows h => h.mono grows.solved) fun field _ s ok₂ _ => ?_).mono ?_
      · exact .bind ok₂ (headNormal_awaits n ok₂ field.1) fun name s ok₃ _ hname =>
          .pure ok₃ (Piece.awaits_field hname)
      · exact fun pieces s _ _ h => Con.forall_mem_of_forall₂ h fun _ _ _ hp => hp
    next l r =>
      refine .bind ok₁ (ih ok₁ l) fun left store₂ ok₂ _ hl => ?_
      refine .bind ok₂ (ih ok₂ r) fun right store₃ ok₃ same₃ hr => .pure ok₃ ?_
      intro p hp
      rcases List.mem_append.mp hp with hp | hp
      · exact (hl p hp).mono same₃.solved
      · exact hr p hp
    next =>
      refine .pure ok₁ fun p hp => ?_
      obtain rfl := List.mem_singleton.mp hp
      exact nofun
    next =>
      refine .pure ok₁ fun p hp => ?_
      obtain rfl := List.mem_singleton.mp hp
      exact Piece.awaits_remainder hhead

theorem waits_awaits {left right : List Piece} (hl : ∀ p ∈ left, p.Awaits store)
    (hr : ∀ p ∈ right, p.Awaits store) : ∀ v ∈ waits left right, store.isSolved v = false := by
  intro v hv
  obtain ⟨p, hp, q, hq, hpair⟩ : ∃ p ∈ left, ∃ q ∈ right, pairing p q = .waits v := by
    rcases mem_foldl_insertLast.mp hv with hv | hv
    · cases hv
    obtain ⟨pair, hpair, hvar⟩ := List.mem_filterMap.mp hv
    obtain ⟨p, hp, hpair⟩ := List.mem_flatMap.mp hpair
    obtain ⟨q, hq, rfl⟩ := List.mem_map.mp hpair
    refine ⟨p, hp, q, hq, ?_⟩
    split at hvar
    next h => rw [h, Option.some.inj hvar]
    next => cases hvar
  have hblocker : p.blocker?.or q.blocker? = some v := by
    unfold pairing at hpair
    split at hpair
    next h =>
      cases hpair
      exact h
    next =>
      repeat' split at hpair
      all_goals cases hpair
  rcases Option.or_eq_some_iff.mp hblocker with h | ⟨-, h⟩
  · exact hl p hp v h
  · exact hr q hq v h

theorem separate_waits (n : Nat) (ok : rereading.Ok store) (left right : List Piece)
    (facts : List Fact) :
    Yields rereading store (separate globals n left right facts) fun answer _ =>
      ∀ vars, answer = .deferred vars → vars = waits left right := by
  unfold separate
  extract_lets questions blockers decided
  have hdecided {known : List (List Con × List Con)} {s : Store} (ok : rereading.Ok s) :
      Yields rereading s (decided known) fun answer _ =>
        ∀ vars, answer = .deferred vars → vars = waits left right := by
    simp only [decided]
    split
    · exact .pure ok nofun
    · exact .pure ok fun vars h => (Disjointness.deferred.inj h).symm
  split
  · exact hdecided ok
  · have hkeys := yields_again (x := facts.mapM (factKeys globals n))
      (.mapM (factKeys_throughout n) facts) ok
    exact .bind ok hkeys fun _ _ ok _ _ => hdecided ok

/-- A demand for disjointness waits for unsolved metavariables only. -/
theorem checkDisjoint_awaits (n : Nat) (ok : rereading.Ok store) (left right : Con)
    (facts : List Fact) :
    Yields rereading store (checkDisjoint globals n left right facts).run fun answer store' =>
      ∀ blockers, answer = .ok (.deferred blockers) → ∀ v ∈ blockers,
        store'.isSolved v = false := by
  rw [run_checkDisjoint]
  refine .bind ok (summarize_awaits n ok left) fun P store₁ ok₁ _ hP => ?_
  refine .bind ok₁ (summarize_awaits n ok₁ right) fun Q store₂ ok₂ same₂ hQ => ?_
  split
  next => exact .pure ok₂ fun blockers heq => by cases heq
  next =>
    split
    next => exact .pure ok₂ fun blockers heq => by cases heq
    next =>
      have hwaits := waits_awaits (fun p hp => (hP p hp).mono same₂.solved) hQ
      refine Yields.map ok₂ ((separate_waits n ok₂ P Q facts).mono ?_)
      intro answer s _ same h blockers heq v hv
      cases heq
      rw [same.solved]
      exact hwaits v (h blockers rfl ▸ hv)

end Row

end RowML
