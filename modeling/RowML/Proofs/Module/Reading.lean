import RowML.Proofs.Constructor.Congruence
import RowML.Proofs.Module.Manifest
import RowML.Proofs.Store.Integrity

/-!
# Reading a constructor through two structures

A constructor of a signature is read through the structures around it, one level at a time and the
outermost first.  Read through a structure and through a module that stands for it, it gives two
constructors that differ in items only: where one has an item of the structure, the other one has
the same item of the module.
-/

namespace RowML

namespace Con

/-! ## Reading one level -/

/-- The item `name` of a structure inside the signature `level` levels outwards is written somewhere
in a constructor. -/
inductive Refers (level : Nat) (path : List String) (name : String) : Con → Prop where
  | here : Refers level path name (.relative level path name)
  | part {c p : Con} (hp : p ∈ c.parts) (h : Refers level path name p) : Refers level path name c

/-- The second constructor is the first one, in which no level above `k` is written, with level `k`
read as `here`. -/
inductive ReadsAs (here : ModuleRef) (k : Nat) : Con → Con → Prop where
  | here (path : List String) (name : String) :
      ReadsAs here k (.relative k path name) (.member here.module (here.path ++ path) name)
  | inside {level : Nat} (path : List String) (name : String) (h : level < k) :
      ReadsAs here k (.relative level path name) (.relative level path name)
  | node {c c' : Con} (hc : ∀ level path name, c ≠ .relative level path name)
      (hframe : c.frame = c'.frame) (hkinds : c.annotations = c'.annotations)
      (hparts : ∀ (i : Nat) (p p' : Con), c.parts[i]? = some p → c'.parts[i]? = some p' →
        ReadsAs here k p p') :
      ReadsAs here k c c'

variable {here : ModuleRef} {k : Nat}

theorem ReadsAs.of_forall₂ {c c' : Con} (hc : ∀ level path name, c ≠ .relative level path name)
    (hframe : c.frame = c'.frame) (hkinds : c.annotations = c'.annotations)
    (hparts : List.Forall₂ (ReadsAs here k) c.parts c'.parts) : ReadsAs here k c c' := by
  refine .node hc hframe hkinds fun i p p' hp hp' => ?_
  obtain ⟨hi, rfl⟩ := List.getElem?_eq_some_iff.mp hp
  obtain ⟨hi', rfl⟩ := List.getElem?_eq_some_iff.mp hp'
  exact (List.forall₂_iff_get.mp hparts).2 i hi hi'

theorem ReadsAs.of_has {c : Con} (hc : c.has .relative = false) : ReadsAs here k c c := by
  have hnodes := has_eq_false_iff (d := Depth.zero).mp hc
  clear hc
  generalize Depth.zero = d at hnodes
  induction c using inductionOnParts generalizing d with
  | step c ih =>
    refine .of_forall₂ (fun level path name heq => ?_) rfl rfl
      (List.forall₂_same.mpr fun p hp => ih p hp _ (hnodes.part p hp))
    subst heq
    cases hnodes.top

/-- What a pass that reads one level establishes. -/
def readingLevel (here : ModuleRef) (k : Nat) : PassSpec Unit where
  Pre _ _ c := ∀ level path name, c.Refers level path name → level ≤ k
  KindPre _ _ _ := True
  Enters _ _ c := ∀ level path name, c ≠ .relative level path name
  Post _ _ c c' := ReadsAs here k c c'
  KindPost _ _ κ κ' := κ = κ'

theorem reading_pass {node : Depth → Con → Option Con}
    (hnode : ∀ d c, (readingLevel here k).Pre () d c →
      (readingLevel here k).Hook d c (node d c) ()) :
    Pass (m := Id) (.indifferent Unit) (readingLevel here k) (fun d c => pure (node d c))
      (fun _ κ => pure κ) where
  pre_grows _ _ h := h
  kindPre_grows _ _ h := h
  enters_grows _ _ h := h
  post_grows _ _ h := h
  kindPost_grows _ _ h := h
  pre_part h hp level path name hrefers := h level path name (.part hp hrefers)
  pre_kind _ _ := trivial
  node_yields _ hpre := Yields.pure trivial (hnode _ _ hpre)
  kind_yields _ _ := Yields.pure trivial rfl
  close _ _ henters related :=
    .of_forall₂ henters related.frame (List.forall₂_eq_eq_eq ▸ related.annotations) related.parts

theorem readsAs_substModules (rest : List ModuleRef) {c : Con}
    (hc : ∀ level path name, c.Refers level path name → level ≤ k) :
    ReadsAs here k c (c.substModules k (here :: rest)) := by
  refine ((reading_pass fun d node hpre => ?_).rebuildM_yields c (s := ()) (d := Depth.zero) trivial
    hc _ _ rfl).2.2 _ rfl
  split
  next hhas => exact .of_has (by simpa using hhas)
  next =>
    split
    next level path name _ =>
      split
      next hlevel => exact .inside path name hlevel
      next hlevel =>
        obtain rfl : level = k := Nat.le_antisymm (hpre level path name .here) (by omega)
        simp only [Nat.sub_self, List.getElem?_cons_zero]
        exact .here path name
    next hlevel => exact hlevel

/-! ## Reading through two structures -/

section Twins

variable {double : ModuleId} {ref : ModuleRef} {path : List String}
  {Shared : List String → String → Prop}

/-- Two readings of a constructor of the structure at `path`, one through the module `double` and
one through `ref`, after the levels from `n` on have been read.  They differ in items that the two
structures share, and the other levels lead to shared items too. -/
inductive Twins (double : ModuleId) (ref : ModuleRef) (path : List String)
    (Shared : List String → String → Prop) (n : Nat) : Con → Con → Prop where
  | item {below : List String} {name : String} (h : Shared below name) :
      Twins double ref path Shared n (.member double below name)
        (.member ref.module (ref.path ++ below) name)
  | level {level : Nat} {below : List String} {name : String} (hlevel : level < n)
      (h : Shared (path.take (path.length - level) ++ below) name) :
      Twins double ref path Shared n (.relative level below name) (.relative level below name)
  | node {c c' : Con} (hc : ∀ level below name, c ≠ .relative level below name)
      (hframe : c.frame = c'.frame) (hkinds : c.annotations = c'.annotations)
      (hparts : ∀ (i : Nat) (p p' : Con), c.parts[i]? = some p → c'.parts[i]? = some p' →
        Twins double ref path Shared n p p') :
      Twins double ref path Shared n c c'

theorem ne_relative_of_frame {c c' : Con} (hframe : c.frame = c'.frame)
    (hc : ∀ level below name, c ≠ .relative level below name) (level : Nat) (below : List String)
    (name : String) : c' ≠ .relative level below name := by
  rintro rfl
  exact hc level below name (eq_of_frame_leaf hframe.symm rfl rfl).symm

theorem Twins.of_refers {n : Nat} {c : Con} (h : ∀ level below name, c.Refers level below name →
      level < n ∧ Shared (path.take (path.length - level) ++ below) name) :
    Twins double ref path Shared n c c := by
  induction c using inductionOnParts with
  | step c ih =>
    by_cases hc : ∃ level below name, c = .relative level below name
    · obtain ⟨level, below, name, rfl⟩ := hc
      exact .level (h level below name .here).1 (h level below name .here).2
    · refine .node (fun level below name heq => hc ⟨level, below, name, heq⟩) rfl rfl
        fun i p p' hp hp' => ?_
      cases hp.symm.trans hp'
      have hmem := List.mem_of_getElem? hp
      exact ih p hmem fun level below name hrefers => h level below name (.part hmem hrefers)

/-- No level from `n` on is left. -/
theorem Twins.refers {n : Nat} {c c' : Con} (h : Twins double ref path Shared n c c') :
    (∀ level below name, c.Refers level below name → level < n) ∧
      ∀ level below name, c'.Refers level below name → level < n := by
  induction h with
  | item =>
    constructor <;>
    · intro level below name hrefers
      cases hrefers with
      | part hp => cases hp
  | level hlevel =>
    constructor <;>
    · intro level below name hrefers
      cases hrefers with
      | here => exact hlevel
      | part hp => cases hp
  | @node c c' hc hframe _ _ ih =>
    constructor
    · intro level below name hrefers
      cases hrefers with
      | here => exact absurd rfl (hc level below name)
      | part hp h =>
        obtain ⟨i, hi, rfl⟩ := List.getElem_of_mem hp
        have hi' : i < c'.parts.length := length_parts_eq hframe ▸ hi
        exact (ih i _ _ (List.getElem?_eq_getElem hi) (List.getElem?_eq_getElem hi')).1 _ _ _ h
    · intro level below name hrefers
      cases hrefers with
      | here => exact absurd rfl (ne_relative_of_frame hframe hc level below name)
      | part hp h =>
        obtain ⟨i, hi, rfl⟩ := List.getElem_of_mem hp
        have hi' : i < c.parts.length := length_parts_eq hframe ▸ hi
        exact (ih i _ _ (List.getElem?_eq_getElem hi') (List.getElem?_eq_getElem hi)).2 _ _ _ h

theorem ReadsAs.member_eq {here : ModuleRef} {k : Nat} {module : ModuleId} {below : List String}
    {name : String} {c : Con} (h : ReadsAs here k (.member module below name) c) :
    c = .member module below name := by
  cases h with
  | node _ hframe => exact (eq_of_frame_leaf hframe rfl rfl).symm

/-- Reading one more level, through both structures. -/
theorem Twins.reads {k : Nat} {a b a' b' : Con}
    (h : Twins double ref path Shared (k + 1) a b)
    (ha : ReadsAs ⟨double, path.take (path.length - k)⟩ k a a')
    (hb : ReadsAs ⟨ref.module, ref.path ++ path.take (path.length - k)⟩ k b b') :
    Twins double ref path Shared k a' b' := by
  induction h generalizing a' b' with
  | item h =>
    cases ha.member_eq
    cases hb.member_eq
    exact .item h
  | @level level below name hlevel h =>
    cases ha with
    | here =>
      cases hb with
      | here => exact List.append_assoc .. ▸ .item h
      | inside _ _ hlt => exact absurd hlt (lt_irrefl _)
      | node hc => exact absurd rfl (hc k below name)
    | inside _ _ hlt =>
      cases hb with
      | here => exact absurd hlt (lt_irrefl _)
      | inside => exact .level hlt h
      | node hc => exact absurd rfl (hc level below name)
    | node hc => exact absurd rfl (hc level below name)
  | @node c c' hc hframe hkinds hparts ih =>
    cases ha with
    | here below name => exact absurd rfl (hc k below name)
    | inside below name => exact absurd rfl (hc _ below name)
    | node hca hframea hkindsa hpartsa =>
      cases hb with
      | here below name => exact absurd rfl (ne_relative_of_frame hframe hc k below name)
      | inside below name => exact absurd rfl (ne_relative_of_frame hframe hc _ below name)
      | node hcb hframeb hkindsb hpartsb =>
        refine .node (ne_relative_of_frame hframea hc) (hframea.symm.trans (hframe.trans hframeb))
          (hkindsa.symm.trans (hkinds.trans hkindsb)) fun i p p' hp hp' => ?_
        have hlength := length_parts_eq hframea
        have hlength' := length_parts_eq hframeb
        obtain ⟨hi, -⟩ := List.getElem?_eq_some_iff.mp hp
        obtain ⟨hi', -⟩ := List.getElem?_eq_some_iff.mp hp'
        have hq := List.getElem?_eq_getElem (hlength ▸ hi : i < c.parts.length)
        have hq' := List.getElem?_eq_getElem (hlength' ▸ hi' : i < c'.parts.length)
        exact ih i _ _ hq hq' (hpartsa i _ _ hq hp) (hpartsb i _ _ hq' hp')

theorem Twins.substModules {k : Nat} {a b : Con} (rest rest' : List ModuleRef)
    (h : Twins double ref path Shared (k + 1) a b) :
    Twins double ref path Shared k
      (a.substModules k (⟨double, path.take (path.length - k)⟩ :: rest))
      (b.substModules k (⟨ref.module, ref.path ++ path.take (path.length - k)⟩ :: rest')) :=
  h.reads
    (readsAs_substModules rest fun _ _ _ hrefers => Nat.le_of_lt_succ (h.refers.1 _ _ _ hrefers))
    (readsAs_substModules rest' fun _ _ _ hrefers => Nat.le_of_lt_succ (h.refers.2 _ _ _ hrefers))

/-- Once every level has been read, the readings are equal up to shared items. -/
theorem Twins.congr {base : Con → Con → Prop} {kinds : Kind → Kind → Prop} {a b : Con}
    (hshared : ∀ below name, Shared below name → Congr base kinds (.member double below name)
      (.member ref.module (ref.path ++ below) name)) (hkinds : ∀ k, kinds k k)
    (h : Twins double ref path Shared 0 a b) : Congr base kinds a b := by
  induction h with
  | item h => exact hshared _ _ h
  | level hlevel => cases hlevel
  | node _ hframe hannotations _ ih =>
    exact .node hframe (hannotations ▸ List.forall₂_same.mpr fun k _ => hkinds k) ih

/-- Reading a constructor through the structures on the way to where it stands. -/
theorem twins_readThrough (f f' : Nat → Con → Con) (outer outer' : List ModuleRef) {c : Con}
    (done rest : List String) (hpath : path = done ++ rest)
    (hf : Twins double ref path Shared (rest.length + 1) (f rest.length c) (f' rest.length c)) :
    Twins double ref path Shared 1
      (Signature.readThrough f ⟨double, done⟩ (⟨double, done⟩ :: outer) rest 0 c)
      (Signature.readThrough f' ⟨ref.module, ref.path ++ done⟩
        (⟨ref.module, ref.path ++ done⟩ :: outer') rest 0 c) := by
  induction rest generalizing f f' done outer outer' with
  | nil => exact hf
  | cons step rest ih =>
    have hdone : path.take (path.length - (rest.length + 1)) = done := by
      simp [hpath]
    have h := hf.substModules outer outer'
    rw [List.length_cons, hdone] at h
    let here := ⟨double, done⟩ :: outer
    let here' := ⟨ref.module, ref.path ++ done⟩ :: outer'
    have hnext := ih (fun level c => (f (level + 1) c).substModules (level + 1) here)
      (fun level c => (f' (level + 1) c).substModules (level + 1) here') here here'
      (done ++ [step]) (by simpa using hpath) h
    rw [← List.append_assoc] at hnext
    exact hnext

end Twins

end Con

end RowML
