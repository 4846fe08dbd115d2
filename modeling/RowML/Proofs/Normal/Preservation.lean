import Mathlib
import RowML.Proofs.Normal.Full
import RowML.Proofs.Normal.Head
import RowML.Proofs.Normal.Model
import RowML.Proofs.Normal.Scope
import RowML.Proofs.Unify.Soundness

/-!
# What reduction preserves

Whatever conversion respects, normalization keeps.  Together with the scope of a constructor and the
fact that normal forms stay, this is what is asked of a reduction: the answer is convertible to the
constructor, has no free variable that the constructor does not have, and is its own answer.
-/

namespace RowML

open RowML.Con

variable {globals : Globals} {layout : Layout} {store store' : Store}

namespace HeadOf

theorem trans {a b c : Con} (h : HeadOf globals layout store a b)
    (h' : HeadOf globals layout store b c) : HeadOf globals layout store a c :=
  ⟨h.toReduces.trans h'.toReduces, fun x hx => h'.label x (h.label x hx)⟩

theorem grows {c r : Con} (h : HeadOf globals layout store c r) (grows : store.Grows store') :
    HeadOf globals layout store' c r :=
  ⟨h.toReduces.grows grows, h.label⟩

/-- Reduction of all that is below a node. -/
theorem of_parallel {c c' : Con} (hc : c.Sound layout store)
    (h : Parallel store.kinds.Reads (HeadOf globals layout store) c c') :
    HeadOf globals layout store c c' where
  sound := by
    refine .intro (hc.top.of_frame h.frame ?_ (h.parts.imp fun _ _ hp => hp.label)) ?_
    · exact forall_mem_of_forall₂ h.annotations fun _ _ _ hk => hk.sound
    · exact forall_mem_of_forall₂ h.parts fun _ _ _ hp => hp.sound
  conv hclosed := .of_forall₂ h.frame (h.annotations.imp fun _ _ hk => hk.conv hclosed)
    (h.parts.imp fun _ _ hp => hp.conv hclosed)
  label := .of_frame h.frame

end HeadOf

private theorem zonkKind_reads (ok : store.WellFormed layout) {k : Kind}
    (hk : k.Sound store.kinds.vars.size) :
    Yields (Store.reading layout) store (liftM (onKinds (KindStore.zonk k)) : FuelM Kind)
      fun k' store' => store'.kinds.Reads k k' := by
  have hzonk := Store.onKinds_yields ok (KindStore.zonk_yields ok.kinds hk)
  exact (Yields.of_exec_eq rfl hzonk).mono fun _ _ _ _ h => h.2

/-- Every constructor is convertible to what normalization answers. -/
theorem normalize_yields (fuel : Nat) : Heads globals layout (normalize globals fuel) := by
  induction fuel with
  | zero => exact fun _ _ _ => Yields.of_none rfl
  | succ fuel ih =>
    intro store c ok hg hc
    unfold normalize
    refine Yields.bind ok (headNormal_yields fuel ok hg hc) ?_
    intro head store₁ ok₁ reads₁ hhead
    have hg₁ := hg.mono reads₁.toGrows
    have hchildren := mapChildrenM_yields (f := normalize globals fuel) (c := head) ok₁
      (K := fun k k' s => s.kinds.Reads k k')
      (Q := fun p p' s => HeadOf globals layout s p p')
      (fun _ reads h => h.grows reads.kinds)
      (fun _ reads h => h.grows reads.toGrows)
      (fun k hk s ok' reads => zonkKind_reads ok' ((hhead.sound.kind hk).mono reads.kinds.size))
      fun p hp s ok' reads => ih ok' (hg₁.mono reads.toGrows)
        ((hhead.sound.part hp).mono reads.toGrows)
    refine Yields.bind ok₁ hchildren ?_
    intro rebuilt store₂ ok₂ reads₂ parallel
    have hhead₂ := hhead.grows reads₂.toGrows
    split
    next => exact Yields.pure ok₂ hhead₂
    next =>
      have hrebuilt := hhead₂.trans (.of_parallel hhead₂.sound parallel)
      refine (ih ok₂ (hg₁.mono reads₂.toGrows) hrebuilt.sound).mono ?_
      exact fun r store₃ _ reads₃ h => (hrebuilt.grows reads₃.toGrows).trans h

/-! ## Both reductions -/

theorem Con.Sound.fits {c : Con} (h : c.Sound layout store) : c.Fits store :=
  All.mono h fun _ hnode _ _ hi => hnode.mvar hi

/-- Where no solution is a variable, either reduction answers with a convertible constructor, so one
of the same meaning, that brings in no variable and that it leaves alone. -/
theorem reduction_faithful {reduce : Nat → Con → FuelM Con} {n : Nat} {c r : Con}
    (hreduce : reduce = headNormal globals ∨ reduce = normalize globals)
    (ok : store.WellFormed layout) (steady : store.Steady) (himitates : store.Imitates)
    (hacyclic : store.kinds.Acyclic) (hg : globals.Sound layout store)
    (hfits : globals.Fits store) (hglobals : globals.Closed) (hc : c.Sound layout store)
    (hrun : reduce n c store = some (r, store')) :
    (store'.kinds.Closed → Convertible globals store' c r) ∧
      (store'.kinds.Closed → ∀ metas members, Describes globals metas members →
        (∀ {a b}, store'.Unfolds a b →
          meaning (tabled metas members) a = meaning (tabled metas members) b) →
        meaning (tabled metas members) c = meaning (tabled metas members) r) ∧
      (∀ S, c.Over S → r.Over S) ∧
      ∃ n', ∀ m, n' ≤ m → reduce m r store' = some (r, store') := by
  have hexec := exec_of_run hrun
  rcases hreduce with rfl | rfl
  · have hhead := (headNormal_yields n ok hg hc _ _ hexec).2.2 r rfl
    have hscope := (headNormal_scope hglobals n steady hfits hc.fits _ _ hexec).2.2 r rfl
    exact ⟨hhead.conv, fun hclosed _ _ htable hmetas =>
      meaning_convertible htable hmetas (hhead.conv hclosed), hscope.2,
      headNormal_idempotent ⟨steady, himitates⟩ hfits hc.fits hrun⟩
  · have hnormal := (normalize_yields n ok hg hc _ _ hexec).2.2 r rfl
    have hscope := (normalize_scope hglobals n steady hfits hc.fits _ _ hexec).2.2 r rfl
    exact ⟨hnormal.conv, fun hclosed _ _ htable hmetas =>
      meaning_convertible htable hmetas (hnormal.conv hclosed), hscope.2,
      normalize_idempotent ⟨⟨steady, himitates⟩, hacyclic⟩ hfits hc.fits hrun⟩

/-! ### A map over an open row -/

theorem Store.WellFormed.steady (ok : store.WellFormed layout) (htrail : store.trail = []) :
    store.Steady where
  past n := by
    rw [htrail, List.take_nil]
    exact ⟨fun hi => (ok.solutions hi).fits, ok.bounds, ok.acyclic, lt_of_solution⟩
  trail := by simp [htrail]
  idle _ := htrail

theorem Globals.sound_empty (rows : RowUse) (width : Nat) (store : Store) :
    empty.Sound ⟨rows, width, 0⟩ store where
  definition h := by cases h
  classDefinition h := by cases h
  canonical h := absurd h (Nat.not_lt_zero _)
  item h := absurd h (Nat.not_lt_zero _)
  classItem h := absurd h (Nat.not_lt_zero _)

/-- The function from a type to the type of its endofunctions. -/
def endofunction : Con := .abs "x" .type (.arrow (.bvar 0) (.bvar 0))

/-- A map over a field and an open tail. -/
def openMap : Con :=
  .map .type .type endofunction (.concat (.row .type [(.label "A", .mvar 0 [])]) (.mvar 1 []))

/-- The map is applied to the field and waits for the tail. -/
def openMapNormal : Con :=
  .concat (.row .type [(.label "A", .arrow (.prim .int) (.prim .int))])
    (.map .type .type endofunction (.mvar 1 []))

theorem sound_openMap : openMap.Sound ⟨.concatenating, 0, 0⟩ (openRowStore none #[]) := by
  have htype : Kind.type.Sound (openRowStore none #[]).kinds.vars.size :=
    .intro ⟨by simp, by simp⟩ (by simp [Kind.parts])
  have hmvar : ∀ id < 2,
      (Con.mvar id []).Sound ⟨.concatenating, 0, 0⟩ (openRowStore none #[]) := by
    intro id hid
    refine .intro ⟨by simp, ?_, by simp [annotations], trivial⟩ (by simp [parts])
    rintro _ _ ⟨⟩
    have harity : ((openRowStore none #[]).cell id).arity = 0 := by
      rcases Nat.lt_succ_iff_lt_or_eq.mp hid with h | rfl
      · rw [Nat.lt_one_iff.mp h]
        rfl
      · rfl
    exact ⟨hid, harity.symm⟩
  have hlabel : (Con.label "A").Sound ⟨.concatenating, 0, 0⟩ (openRowStore none #[]) :=
    .node (by simp) (by simp) (by simp [annotations]) trivial (by simp [parts])
  have hrow : (Con.row .type [(.label "A", .mvar 0 [])]).Sound ⟨.concatenating, 0, 0⟩
      (openRowStore none #[]) :=
    .row htype (fun h => by cases h) (List.forall_mem_singleton.mpr ⟨hlabel, hmvar 0 (by decide)⟩)
  have harrow : (Con.arrow (.bvar 0) (.bvar 0)).Sound ⟨.concatenating, 0, 0⟩
      (openRowStore none #[]) :=
    .node (by simp) (by simp) (by simp [annotations]) trivial
      (by simpa [parts] using bvar_sound 0)
  have hfunction : endofunction.Sound ⟨.concatenating, 0, 0⟩ (openRowStore none #[]) :=
    .node (by simp [endofunction]) (by simp [endofunction])
      (by simpa [endofunction, annotations] using htype) trivial
      (by simpa [endofunction, parts] using harrow)
  exact .map rfl htype htype hfunction (.concat rfl hrow (hmvar 1 (by decide)))

theorem reduction_faithful_openMap :
    normalize Globals.empty 10 openMap (openRowStore none #[]) =
        some (openMapNormal, openRowStore none #[]) ∧
      Convertible Globals.empty (openRowStore none #[]) openMap openMapNormal ∧
      (∀ metas, metas 0 = Observed.approx [.prim .int] →
        meaning (plain metas) openMap = meaning (plain metas) openMapNormal) ∧
      (∀ S, openMap.Over S → openMapNormal.Over S) ∧
      ∃ n', ∀ m, n' ≤ m → normalize Globals.empty m openMapNormal (openRowStore none #[]) =
        some (openMapNormal, openRowStore none #[]) := by
  have hrun : normalize Globals.empty 10 openMap (openRowStore none #[]) =
      some (openMapNormal, openRowStore none #[]) := by cbv
  have himitates : (openRowStore none #[]).Imitates := by
    rintro (_ | _ | i) x ⟨⟩ v h
    cases h
  have hacyclic : (openRowStore none #[]).kinds.Acyclic := by
    refine ⟨fun _ => 0, ?_⟩
    rintro v w ⟨_, h, -⟩
    cases h
  have hfits : Globals.empty.Fits (openRowStore none #[]) := fun c hc => by cases hc
  obtain ⟨hconv, hmeaning, hscope, hstays⟩ := reduction_faithful (.inr rfl) wellFormed_openRowStore
    (wellFormed_openRowStore.steady rfl) himitates hacyclic (Globals.sound_empty _ _ _) hfits
    (fun c hc => by cases hc) sound_openMap hrun
  refine ⟨hrun, hconv KindStore.closed_empty, fun metas hint => ?_, hscope, hstays⟩
  rw [plain_eq]
  refine hmeaning KindStore.closed_empty metas _ describes_empty fun {a b} hab => ?_
  obtain @⟨_ | _ | id, solution, spine, hsolution, hlength⟩ := hab
  · cases hsolution
    obtain rfl := List.length_eq_zero_iff.mp hlength
    exact funext fun _ => hint
  · cases hsolution
  · cases hsolution

/-- Where a solution is a variable, a head normal form may reduce further: the metavariable in its
place is not followed. -/
theorem headNormal_not_idempotent :
    ∃ store : Store,
      headNormal Globals.empty 3 (.mvar 1 [.mvar 0 []]) store = some (.mvar 0 [], store) ∧
        headNormal Globals.empty 3 (.mvar 0 []) store = some (.prim .int, store) :=
  ⟨⟨KindStore.empty, #[⟨.type, 0, some (.prim .int)⟩, ⟨.type, 1, some (.bvar 0)⟩], #[], [], 0,
    #[0, 1]⟩, rfl, rfl⟩

end RowML
