import RowML.Proofs.Normal.Conversion

/-!
# Head normal forms are convertible

Reducing a constructor until its outermost node shows gives a constructor that is convertible to it.
-/

namespace RowML

open RowML.Con

variable {globals : Globals} {layout : Layout} {store store' : Store}

/-- A step from `c` to the sound constructor `r` that conversion justifies. -/
structure Reduces (globals : Globals) (layout : Layout) (store : Store) (c r : Con) : Prop where
  sound : r.Sound layout store
  conv : store.kinds.Closed → Convertible globals store c r

namespace Reduces

theorem refl {c : Con} (hc : c.Sound layout store) : Reduces globals layout store c c :=
  ⟨hc, fun _ => .refl c⟩

theorem trans {a b c : Con} (h : Reduces globals layout store a b)
    (h' : Reduces globals layout store b c) : Reduces globals layout store a c :=
  ⟨h'.sound, fun hclosed => (h.conv hclosed).trans (h'.conv hclosed)⟩

theorem grows {c r : Con} (h : Reduces globals layout store c r) (grows : store.Grows store') :
    Reduces globals layout store' c r :=
  ⟨h.sound.mono grows, fun hclosed => (h.conv (grows.kinds.closed hclosed)).lift grows hclosed⟩

theorem law {c r : Con} (hr : r.Sound layout store) (h : Law globals c r) :
    Reduces globals layout store c r :=
  ⟨hr, fun _ => .law h⟩

theorem concat {l l' r r' : Con} (hrows : layout.rows = .concatenating)
    (hl : Reduces globals layout store l l') (hr : Reduces globals layout store r r') :
    Reduces globals layout store (.concat l r) (.concat l' r') :=
  ⟨.concat hrows hl.sound hr.sound, fun hclosed => .concat (hl.conv hclosed) (hr.conv hclosed)⟩

end Reduces

/-! ## The row operators -/

theorem concatHeads_reduces {l r : Con} (hrows : layout.rows = .concatenating)
    (hl : l.Sound layout store) (hr : r.Sound layout store) :
    Reduces globals layout store (.concat l r) (concatHeads l r) := by
  unfold concatHeads
  split
  · exact absurd rfl hl.ne_error
  · exact absurd rfl hr.ne_error
  · exact .law hr (.concatEmpty _ _)
  · exact ⟨hl, fun _ =>
      (Convertible.law (.concatComm _ _)).trans (Convertible.law (.concatEmpty _ _))⟩
  next k fields k' fields' _ _ =>
    refine .law (.row (hl.kind (by simp [annotations])) (by simp [hrows]) ?_) (.concatRow _ _ _ _)
    intro field hfield
    rcases List.mem_append.mp hfield with h | h
    · exact hl.field h
    · exact hr.field h
  · exact .refl (.concat hrows hl hr)

theorem compose_sound {d : Kind} {f g : Con} (hd : d.Sound store.kinds.vars.size)
    (hf : f.Sound layout store) (hg : g.Sound layout store) :
    (compose d f g).Sound layout store := by
  have lift_sound : ∀ {c : Con}, c.Sound layout store → (c.lift 1).Sound layout store := by
    intro c hc
    rw [lift_eq_traverse]
    exact hc.traverse (fun _ _ => bvar_sound _) (fun _ _ hk => hk) _
  refine .node (by simp [compose]) (by simp [compose]) (by simp [compose, annotations, hd])
    trivial ?_
  simpa [compose, parts] using (lift_sound hf).app ((lift_sound hg).app (bvar_sound 0))

theorem mapRow_reduces {d c : Kind} {f row : Con} (hrows : layout.rows = .concatenating)
    (hd : d.Sound store.kinds.vars.size) (hc : c.Sound store.kinds.vars.size)
    (hf : f.Sound layout store) (hrow : row.Sound layout store) :
    Reduces globals layout store (.map d c f row) (mapRow d c f row) := by
  induction row using inductionOnParts with
  | step row ih =>
    cases row with
    | error => exact absurd rfl hrow.ne_error
    | row k fields =>
      refine .law (.row hc (by simp [hrows]) fun field hfield => ?_) (.mapRow _ _ _ _ _)
      obtain ⟨old, hold, rfl⟩ := List.mem_map.mp hfield
      exact ⟨(hrow.field hold).1, hf.app (hrow.field hold).2⟩
    | concat l r =>
      have hl := ih l (by simp [parts]) (hrow.part (by simp [parts]))
      have hr := ih r (by simp [parts]) (hrow.part (by simp [parts]))
      have hstep : Reduces globals layout store (.map d c f (.concat l r))
          (.concat (.map d c f l) (.map d c f r)) :=
        .law (.concat hrows (.map hrows hd hc hf (hrow.part (by simp [parts])))
          (.map hrows hd hc hf (hrow.part (by simp [parts])))) (.mapConcat _ _ _ _ _)
      exact hstep.trans ((Reduces.concat hrows hl hr).trans
        (concatHeads_reduces hrows hl.sound hr.sound))
    | map d' c' g base =>
      have hd' : d'.Sound store.kinds.vars.size := hrow.kind (by simp [annotations])
      have hg : g.Sound layout store := hrow.part (by simp [parts])
      have hbase : base.Sound layout store := hrow.part (by simp [parts])
      exact .law (.map hrows hd' hc (compose_sound hd' hf hg) hbase) (.mapMap _ _ _ _ _ _ _)
    | _ => exact .refl (.map hrows hd hc hf hrow)

theorem mapHead_reduces {d c : Kind} {f row : Con} (hrows : layout.rows = .concatenating)
    (hd : d.Sound store.kinds.vars.size) (hc : c.Sound store.kinds.vars.size)
    (hf : f.Sound layout store) (hrow : row.Sound layout store) :
    Reduces globals layout store (.map d c f row) (mapHead d c f row) := by
  unfold mapHead
  split
  next h =>
    rcases h with h | h
    · exact absurd h hrow.ne_error
    · exact absurd h hf.ne_error
  next =>
    split
    next h =>
      unfold isIdentity at h
      split at h
      · exact .law hrow (.mapIdentity _ _ _ _ _)
      · cases h
    next => exact mapRow_reduces hrows hd hc hf hrow

/-! ## Reduction -/

/-- What reduction to head normal form answers. -/
structure HeadOf (globals : Globals) (layout : Layout) (store : Store) (c r : Con) : Prop
    extends Reduces globals layout store c r where
  label : KeepsLabel c r

/-- A reduction from everywhere, as `findField` and the cases of `headNormal` use it. -/
def Heads (globals : Globals) (layout : Layout) (reduce : Con → FuelM Con) : Prop :=
  ∀ {store c}, store.WellFormed layout → globals.Sound layout store → c.Sound layout store →
    Yields (Store.reading layout) store (reduce c) fun r store' =>
      HeadOf globals layout store' c r

/-- In a row that may be projected from, the value found is that of the only field with the
label. -/
theorem findField_yields (globals : Globals) {reduce : Con → FuelM Con} {field row : Con}
    {fuel : Nat} (hrows : layout.rows = .projecting) (ok : store.WellFormed layout)
    (hrow : row.Sound layout store) :
    Yields (Store.reading layout) store (findField reduce field fuel row) fun found store' =>
      store' = store ∧ ∀ value, found = some value →
        value.Sound layout store ∧ Law globals (.proj row field) value := by
  cases fuel with
  | zero => exact Yields.of_none rfl
  | succ fuel =>
    cases row with
    | concat l r =>
      have hconcat : layout.rows = .concatenating := hrow.top.layout
      cases hconcat.symm.trans hrows
    | row k fields =>
      refine Yields.pure ok ⟨rfl, fun value hvalue => ?_⟩
      obtain ⟨entry, hentry, rfl⟩ := Option.map_eq_some_iff.mp hvalue
      have hmem := List.mem_of_find?_eq_some hentry
      have hname : entry.1 = field := by simpa using List.find?_some hentry
      have hdistinct : DistinctLabels fields := hrow.top.layout hrows
      obtain ⟨names, hnames, -⟩ := id hdistinct
      have hlabel : entry.1 ∈ names.map Con.label := hnames ▸ List.mem_map_of_mem hmem
      obtain ⟨x, -, hx⟩ := List.mem_map.mp hlabel
      refine ⟨(hrow.field hmem).2, ?_⟩
      rw [← hname, ← hx]
      exact .projRow hdistinct (by rwa [hx])
    | _ => exact Yields.pure ok ⟨rfl, by simp⟩

private theorem HeadOf.of_reduces {c r : Con} (h : Reduces globals layout store c r)
    (hlabel : ∀ x, c ≠ .label x) : HeadOf globals layout store c r :=
  ⟨h, fun x hx => absurd hx (hlabel x)⟩

/-- Goes on with the reduction of what `c` has reduced to. -/
private theorem Heads.next {reduce : Con → FuelM Con} (H : Heads globals layout reduce)
    {c c' : Con} (ok : store.WellFormed layout) (hg : globals.Sound layout store)
    (h : Reduces globals layout store c c') (hlabel : ∀ x, c ≠ .label x) :
    Yields (Store.reading layout) store (reduce c') fun r store' =>
      HeadOf globals layout store' c r :=
  (H ok hg h.sound).mono fun _ _ _ reads head =>
    .of_reduces ((h.grows reads.toGrows).trans head.toReduces) hlabel

/-- A law whose right side is computed up to the kinds that are read on the way. -/
private theorem Reduces.law_alike {c r r' : Con} (hr : r.Sound layout store)
    (h : Law globals c r) (halike : Alike store.kinds.Reads r r') :
    Reduces globals layout store c r' :=
  ⟨hr.of_alike halike fun _ _ hk => hk.sound, fun hclosed => (Convertible.law h).trans
    (.of_alike (halike.mono fun _ _ hk => hk.conv hclosed))⟩

private theorem Reduces.app {f f' a : Con} (hf : Reduces globals layout store f f')
    (ha : a.Sound layout store) : Reduces globals layout store (.app f a) (.app f' a) :=
  ⟨.app hf.sound ha, fun hclosed => .app (hf.conv hclosed) (.refl a)⟩

private theorem Reduces.kapp {f f' : Con} {k : Kind} (hf : Reduces globals layout store f f')
    (hk : k.Sound store.kinds.vars.size) :
    Reduces globals layout store (.kapp f k) (.kapp f' k) :=
  ⟨.node (by simp) (by simp) (by simp [annotations, hk]) trivial (by simp [parts, hf.sound]),
    fun hclosed => .kapp (hf.conv hclosed) (.refl k)⟩

private theorem Reduces.map {d c : Kind} {f f' r r' : Con} (hrows : layout.rows = .concatenating)
    (hd : d.Sound store.kinds.vars.size) (hc : c.Sound store.kinds.vars.size)
    (hf : Reduces globals layout store f f') (hr : Reduces globals layout store r r') :
    Reduces globals layout store (.map d c f r) (.map d c f' r') :=
  ⟨.map hrows hd hc hf.sound hr.sound, fun hclosed =>
    .map (.refl d) (.refl c) (hf.conv hclosed) (hr.conv hclosed)⟩

private theorem Reduces.proj {r r' f f' : Con} (hrows : layout.rows = .projecting)
    (hr : Reduces globals layout store r r') (hf : Reduces globals layout store f f') :
    Reduces globals layout store (.proj r f) (.proj r' f') :=
  ⟨.proj hrows hr.sound hf.sound, fun hclosed => .proj (hr.conv hclosed) (hf.conv hclosed)⟩

private theorem Reduces.component {t t' : Con} {i : Nat} (hi : i < layout.width)
    (ht : Reduces globals layout store t t') :
    Reduces globals layout store (.component t i) (.component t' i) :=
  ⟨.node (by simp) (by simp) (by simp [annotations]) hi (by simp [parts, ht.sound]),
    fun hclosed => .component (ht.conv hclosed) i⟩

theorem headNormal_yields (fuel : Nat) : Heads globals layout (headNormal globals fuel) := by
  induction fuel with
  | zero => exact fun _ _ _ => Yields.of_none rfl
  | succ fuel ih =>
    intro store c ok hg hc
    refine Yields.bind ok (.of_exec_eq rfl (Store.resolve_yields ok hc)) ?_
    intro c₁ store₁ ok₁ reads₁ resolved
    have hg₁ := hg.mono reads₁.toGrows
    have hc₁ := resolved.sound
    -- it remains to reduce `c₁`, which shows an unsolved metavariable or another node
    suffices h : Yields (Store.reading layout) store₁ _ fun r store' =>
        HeadOf globals layout store' c₁ r by
      refine h.mono fun r store₂ _ reads₂ head => ⟨⟨head.sound, fun hclosed => ?_⟩, fun x hx => ?_⟩
      · have hsame := resolved.same (reads₂.kinds.closed hclosed)
        exact ((Convertible.of_same hsame).lift reads₂.toGrows hclosed).trans (head.conv hclosed)
      · refine head.label x ?_
        rw [← hx]
        exact resolved.other (by simp [hx])
    cases c₁ with
    | global id =>
      simp only
      split
      next h => exact ih.next ok₁ hg₁ (.law (hg₁.definition h) (.definition h)) (by simp)
      next h => exact ih.next ok₁ hg₁ (.law (hg₁.classDefinition h) (.classDefinition h)) (by simp)
      next => exact Yields.pure ok₁ (.of_reduces (.refl hc₁) (by simp))
    | member module path item =>
      have href : (globals.canonical ⟨module, path⟩).module < layout.modules :=
        hg₁.canonical hc₁.top.layout
      simp only
      split
      next h => exact ih.next ok₁ hg₁ (.law (hg₁.item href h) (.item h)) (by simp)
      next h => exact ih.next ok₁ hg₁ (.law (hg₁.classItem href h) (.classItem h)) (by simp)
      next =>
        refine Yields.pure ok₁ (.of_reduces (.law ?_ (.canonical module path item)) (by simp))
        exact .node (by simp) (by simp) (by simp [annotations]) href (by simp [parts])
    | app f a =>
      refine Yields.bind ok₁ (ih ok₁ hg₁ (hc₁.part (by simp [parts]))) ?_
      intro f' store₂ ok₂ reads₂ hf
      have hg₂ := hg₁.mono reads₂.toGrows
      have ha : a.Sound layout store₂ := (hc₁.mono reads₂.toGrows).part (by simp [parts])
      have happ := hf.app ha
      cases f' with
      | abs x k body =>
        have hbody : body.Sound layout store₂ := hf.sound.part (by simp [parts])
        refine Yields.bind ok₂ (.of_exec_eq rfl
          (Store.onKinds_yields ok₂ (subst_yields ok₂.kinds hbody ha))) ?_
        intro c' store₃ ok₃ reads₃ h
        have hspine : ∀ p ∈ [a], p.Sound layout store₂ := by simpa using ha
        have hsound := (hbody.instantiated hspine).mono reads₃.toGrows
        exact ih.next ok₃ (hg₂.mono reads₃.toGrows)
          ((happ.grows reads₃.toGrows).trans (.law_alike hsound (.beta x k body a) h.2)) (by simp)
      | error => exact absurd rfl hf.sound.ne_error
      | _ => exact Yields.pure ok₂ (.of_reduces happ (by simp))
    | kapp f k =>
      refine Yields.bind ok₁ (ih ok₁ hg₁ (hc₁.part (by simp [parts]))) ?_
      intro f' store₂ ok₂ reads₂ hf
      have hg₂ := hg₁.mono reads₂.toGrows
      have hk : k.Sound store₂.kinds.vars.size :=
        (hc₁.mono reads₂.toGrows).kind (by simp [annotations])
      have hkapp := hf.kapp hk
      cases f' with
      | kabs x body =>
        have hbody : body.Sound layout store₂ := hf.sound.part (by simp [parts])
        refine Yields.bind ok₂ (.of_exec_eq rfl
          (Store.onKinds_yields ok₂ (substKind_yields ok₂.kinds hbody hk))) ?_
        intro c' store₃ ok₃ reads₃ h
        have hsound := (hbody.kindSubstituted hk).mono reads₃.toGrows
        exact ih.next ok₃ (hg₂.mono reads₃.toGrows)
          ((hkapp.grows reads₃.toGrows).trans (.law_alike hsound (.kindBeta x body k) h.2))
          (by simp)
      | error => exact absurd rfl hf.sound.ne_error
      | _ => exact Yields.pure ok₂ (.of_reduces hkapp (by simp))
    | concat l r =>
      have hrows : layout.rows = .concatenating := hc₁.top.layout
      refine Yields.bind ok₁ (ih ok₁ hg₁ (hc₁.part (by simp [parts]))) ?_
      intro l' store₂ ok₂ reads₂ hl
      refine Yields.bind ok₂ (ih ok₂ (hg₁.mono reads₂.toGrows)
        ((hc₁.mono reads₂.toGrows).part (by simp [parts]))) ?_
      intro r' store₃ ok₃ reads₃ hr
      have hl := hl.grows reads₃.toGrows
      exact Yields.pure ok₃ (.of_reduces ((Reduces.concat hrows hl hr.toReduces).trans
        (concatHeads_reduces hrows hl.sound hr.sound)) (by simp))
    | map d e f r =>
      have hrows : layout.rows = .concatenating := hc₁.top.layout
      refine Yields.bind ok₁ (ih ok₁ hg₁ (hc₁.part (by simp [parts]))) ?_
      intro f' store₂ ok₂ reads₂ hf
      refine Yields.bind ok₂ (ih ok₂ (hg₁.mono reads₂.toGrows)
        ((hc₁.mono reads₂.toGrows).part (by simp [parts]))) ?_
      intro r' store₃ ok₃ reads₃ hr
      have hf := hf.grows reads₃.toGrows
      have hc₃ := hc₁.mono (reads₂.trans reads₃).toGrows
      have hd : d.Sound store₃.kinds.vars.size := hc₃.kind (by simp [annotations])
      have he : e.Sound store₃.kinds.vars.size := hc₃.kind (by simp [annotations])
      exact Yields.pure ok₃ (.of_reduces ((Reduces.map hrows hd he hf hr.toReduces).trans
        (mapHead_reduces hrows hd he hf.sound hr.sound)) (by simp))
    | proj r field =>
      have hrows : layout.rows = .projecting := hc₁.top.layout
      refine Yields.bind ok₁ (ih ok₁ hg₁ (hc₁.part (by simp [parts]))) ?_
      intro r' store₂ ok₂ reads₂ hr
      refine Yields.bind ok₂ (ih ok₂ (hg₁.mono reads₂.toGrows)
        ((hc₁.mono reads₂.toGrows).part (by simp [parts]))) ?_
      intro field' store₃ ok₃ reads₃ hfield
      have hg₃ := hg₁.mono (reads₂.trans reads₃).toGrows
      have hr := hr.grows reads₃.toGrows
      have hproj := Reduces.proj hrows hr hfield.toReduces
      split
      next h =>
        rcases h with h | h
        · exact absurd h hr.sound.ne_error
        · exact absurd h hfield.sound.ne_error
      next =>
        refine Yields.bind ok₃ (findField_yields globals hrows ok₃ hr.sound) ?_
        rintro found store₄ ok₄ - ⟨rfl, hfound⟩
        cases found with
        | some value =>
          obtain ⟨hvalue, hlaw⟩ := hfound value rfl
          exact ih.next ok₃ hg₃ (hproj.trans (.law hvalue hlaw)) (by simp)
        | none =>
          cases r' with
          | map d e f base =>
            have hmap : layout.rows = .concatenating := hr.sound.top.layout
            cases hmap.symm.trans hrows
          | _ => exact Yields.pure ok₃ (.of_reduces hproj (by simp))
    | component t i =>
      have hi : i < layout.width := hc₁.top.layout
      refine Yields.bind ok₁ (ih ok₁ hg₁ (hc₁.part (by simp [parts]))) ?_
      intro t' store₂ ok₂ reads₂ ht
      have hcomponent := Reduces.component hi ht.toReduces
      cases t' with
      | tuple cs =>
        have hwidth : layout.width ≤ cs.length := ht.sound.top.layout
        have hget := List.getElem?_eq_getElem (Nat.lt_of_lt_of_le hi hwidth)
        simp only [hget]
        have hc := ht.sound.part (List.getElem_mem (Nat.lt_of_lt_of_le hi hwidth))
        exact ih.next ok₂ (hg₁.mono reads₂.toGrows)
          (hcomponent.trans (.law hc (.component hget))) (by simp)
      | error => exact absurd rfl ht.sound.ne_error
      | _ => exact Yields.pure ok₂ (.of_reduces hcomponent (by simp))
    | _ => exact Yields.pure ok₁ ⟨.refl hc₁, fun _ h => h⟩

end RowML
