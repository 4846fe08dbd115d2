import RowML.Proofs.Obligation.Queue
import RowML.Proofs.Elaboration.Balance

/-!
# The slots of a declaration

An obligation for a dictionary knows the slot that it fills and the number of term variables in
scope where the dictionary is used.  No two obligations fill the same slot, and all of them agree
with a record of how many term variables there were when each slot was made.

A session is described by such a record, with which what is outstanding agrees.  Trying obligations
keeps the record, and a new slot adds to it, so that a term can be said to have its slots under as
many term binders as the record says.
-/

namespace RowML

/-- The slot that an obligation fills, and the number of term variables in scope there. -/
def Obligation.use? (obligation : Obligation) : Option (SlotId × Nat) :=
  match obligation.demand with
  | .class slot _ _ _ valDepth => some (slot, valDepth)
  | _ => none

/-- The slots that obligations fill. -/
def uses (obligations : List Obligation) : List (SlotId × Nat) :=
  obligations.filterMap Obligation.use?

@[simp] theorem uses_append (obligations obligations' : List Obligation) :
    uses (obligations ++ obligations') = uses obligations ++ uses obligations' :=
  List.filterMap_append

theorem uses_cons_of_none {obligation : Obligation} (h : obligation.use? = none)
    (obligations : List Obligation) : uses (obligation :: obligations) = uses obligations :=
  List.filterMap_cons_none h

/-- The obligations fill different slots, and the record `depths` says for each of these how many
term variables were in scope when it was made. -/
structure Recorded (depths : List Nat) (obligations : List Obligation) : Prop where
  depth : ∀ use ∈ uses obligations, depths[use.1]? = some use.2
  nodup : ((uses obligations).map Prod.fst).Nodup

namespace Recorded

variable {depths depths' : List Nat} {obligations obligations' : List Obligation}

theorem nil (depths : List Nat) : Recorded depths [] := ⟨by simp [uses], by simp [uses]⟩

theorem perm (h : Recorded depths obligations) (hperm : obligations.Perm obligations') :
    Recorded depths obligations' := by
  have huses : (uses obligations).Perm (uses obligations') := hperm.filterMap _
  exact ⟨fun use hmem => h.depth use (huses.mem_iff.mpr hmem), (huses.map _).nodup_iff.mp h.nodup⟩

theorem sublist (h : Recorded depths obligations) (hsub : obligations'.Sublist obligations) :
    Recorded depths obligations' := by
  have huses : (uses obligations').Sublist (uses obligations) := hsub.filterMap _
  exact ⟨fun use hmem => h.depth use (huses.subset hmem), (huses.map _).nodup h.nodup⟩

theorem cons_of_none {obligation : Obligation} (hnone : obligation.use? = none) :
    Recorded depths (obligation :: obligations) ↔ Recorded depths obligations := by
  refine ⟨fun h => h.sublist (List.sublist_cons_self _ _), fun h => ?_⟩
  constructor <;> rw [uses_cons_of_none hnone]
  · exact h.depth
  · exact h.nodup

theorem grow (h : Recorded depths obligations) (hgrown : depths <+: depths') :
    Recorded depths' obligations := by
  obtain ⟨rest, rfl⟩ := hgrown
  refine ⟨fun use hmem => ?_, h.nodup⟩
  have hdepth := h.depth use hmem
  rw [List.getElem?_append_left (List.getElem?_eq_some_iff.mp hdepth).1, hdepth]

theorem lt (h : Recorded depths obligations) {use : SlotId × Nat} (hmem : use ∈ uses obligations) :
    use.1 < depths.length :=
  (List.getElem?_eq_some_iff.mp (h.depth use hmem)).1

/-- An obligation for the slot that is made next. -/
theorem cons (h : Recorded depths obligations) {obligation : Obligation} {valDepth : Nat}
    (huse : obligation.use? = some (depths.length, valDepth)) :
    Recorded (depths ++ [valDepth]) (obligation :: obligations) := by
  have hcons : uses (obligation :: obligations) = (depths.length, valDepth) :: uses obligations :=
    List.filterMap_cons_some huse
  constructor
  · rw [hcons]
    refine List.forall_mem_cons.mpr ⟨List.getElem?_concat_length, ?_⟩
    exact (h.grow (List.prefix_append _ _)).depth
  · rw [hcons, List.map_cons, List.nodup_cons]
    refine ⟨fun hmem => ?_, h.nodup⟩
    obtain ⟨use, huse, hslot⟩ := List.mem_map.mp hmem
    exact Nat.lt_irrefl _ (hslot ▸ h.lt huse)

end Recorded

namespace Queue

variable {queue : Queue}

/-- The obligations that have not been taken, the oldest first. -/
def outstanding (queue : Queue) : List Obligation := queue.waiting.map (·.obligation)

@[simp] theorem outstanding_empty : empty.outstanding = [] := rfl

@[simp] theorem outstanding_push (obligation : Obligation) (blockers : List MetaId) :
    (queue.push obligation blockers).outstanding = queue.outstanding ++ [obligation] := by
  simp [outstanding]

@[simp] theorem outstanding_wake (solved : List MetaId) :
    (queue.wake solved).outstanding = queue.outstanding := by
  simp [outstanding]

@[simp] theorem outstanding_newSlot (goal : Con) :
    (queue.newSlot goal).2.outstanding = queue.outstanding := rfl

@[simp] theorem outstanding_fillSlot (slot : SlotId) (dict : Dict) :
    (queue.fillSlot slot dict).outstanding = queue.outstanding := rfl

/-- Popping takes one of the outstanding obligations, or none. -/
theorem outstanding_pop (queue : Queue) :
    queue.outstanding.Perm (queue.pop.1.toList ++ queue.pop.2.outstanding) := by
  suffices h : ∀ ids (queue : Queue), queue.outstanding.Perm
      (((queue.takeFirst ids).1.map (·.obligation)).toList ++
        (queue.takeFirst ids).2.outstanding) from
    h queue.ready queue
  intro ids
  induction ids with
  | nil => exact fun _ => .refl _
  | cons id ids ih =>
    intro queue
    rw [takeFirst]
    cases hentry : queue.left? id with
    | none =>
      rw [take_of_left?_eq_none hentry]
      exact ih queue
    | some entry =>
      have hperm := (waiting_perm_take hentry).map (·.obligation)
      rw [take_of_left? hentry] at hperm ⊢
      exact hperm

theorem outstanding_drain (queue : Queue) : queue.drain.1.map (·.1) = queue.outstanding := by
  rw [fst_drain, List.map_map]
  rfl

/-! ## Slots -/

@[simp] theorem slots_push (obligation : Obligation) (blockers : List MetaId) :
    (queue.push obligation blockers).slots = queue.slots := rfl

@[simp] theorem slots_wake (solved : List MetaId) : (queue.wake solved).slots = queue.slots := by
  induction solved generalizing queue with
  | nil => rfl
  | cons var solved ih => exact @ih (queue.wakeOne var)

@[simp] theorem slots_take (id : Nat) : (queue.take id).2.slots = queue.slots := by
  cases h : queue.left? id with
  | none => rw [take_of_left?_eq_none h]
  | some entry => rw [take_of_left? h]

@[simp] theorem slots_pop : queue.pop.2.slots = queue.slots := by
  suffices h : ∀ ids (queue : Queue), (queue.takeFirst ids).2.slots = queue.slots from
    h queue.ready queue
  intro ids
  induction ids with
  | nil => exact fun _ => rfl
  | cons id ids ih =>
    intro queue
    rw [takeFirst]
    cases hentry : queue.left? id with
    | none =>
      rw [take_of_left?_eq_none hentry]
      exact ih queue
    | some entry => rw [take_of_left? hentry]

@[simp] theorem slots_drain : queue.drain.2.slots = queue.slots := by
  suffices h : ∀ ids (queue : Queue), (queue.takeEach ids).2.slots = queue.slots from h _ queue
  intro ids
  induction ids with
  | nil => exact fun _ => rfl
  | cons id ids ih => exact fun queue => (ih (queue.take id).2).trans (slots_take id)

@[simp] theorem size_slots_newSlot (goal : Con) :
    (queue.newSlot goal).2.slots.size = queue.slots.size + 1 :=
  Array.size_push _

@[simp] theorem size_slots_fillSlot (slot : SlotId) (dict : Dict) :
    (queue.fillSlot slot dict).slots.size = queue.slots.size :=
  Array.size_modify

/-- A dictionary that is put into a slot is found there. -/
theorem slotDict?_fillSlot {slot other : SlotId} (dict : Dict) (h : slot < queue.slots.size) :
    (queue.fillSlot slot dict).slotDict? other =
      if other = slot then some dict else queue.slotDict? other := by
  simp only [slotDict?, fillSlot, Array.getElem?_modify]
  grind

end Queue

/-! ## Sessions -/

namespace Session

variable {s s' s'' : Session} {depths : List Nat} {tried tried' held : List Obligation}

/-- The record `depths` is about the slots that there are, and the outstanding obligations, with
those that are held outside the queue, agree with it. -/
structure Holds (depths : List Nat) (held : List Obligation) (s : Session) : Prop where
  size : depths.length = s.queue.slots.size
  recorded : Recorded depths (held ++ s.queue.outstanding)

theorem Holds.of_queue (h : s.Holds depths held) (hslots : s'.queue.slots.size = s.queue.slots.size)
    (hperm : (held ++ s.queue.outstanding).Perm (tried ++ s'.queue.outstanding)) :
    s'.Holds depths tried :=
  ⟨h.size.trans hslots.symm, h.recorded.perm hperm⟩

theorem holds_empty (hqueue : s.queue = Queue.empty) : s.Holds [] [] := by
  constructor <;> rw [hqueue]
  · rfl
  · exact .nil []

/-- Every record is kept, if what is tried was held. -/
structure Drops (tried : List Obligation) (s s' : Session) : Prop extends Balanced s s' where
  holds : ∀ {depths held}, s.Holds depths (tried ++ held) → s'.Holds depths held

/-- Every record is kept. -/
abbrev Calm : Session → Session → Prop := Drops []

namespace Drops

theorem trans (h : s.Drops tried s') (h' : s'.Drops tried' s'') : s.Drops (tried ++ tried') s'' :=
  ⟨trans_of Balanced h.toBalanced h'.toBalanced, fun holds =>
    h'.holds (h.holds (by rwa [List.append_assoc] at holds))⟩

theorem of_calm (h : s.Calm s') (tried : List Obligation) : s.Drops tried s' :=
  ⟨h.toBalanced, fun holds => h.holds
    ⟨holds.size, holds.recorded.sublist ((List.sublist_append_right _ _).append_right _)⟩⟩

end Drops

/-- The queue is the same. -/
theorem Calm.of_queue (h : s.Balanced s') (hqueue : s'.queue = s.queue) : s.Calm s' :=
  ⟨h, fun holds => holds.of_queue (by rw [hqueue]) (by rw [hqueue, List.nil_append])⟩

theorem Calm.requeue (queue : Queue) (hslots : queue.slots.size = s.queue.slots.size)
    (houtstanding : queue.outstanding = s.queue.outstanding) : s.Calm { s with queue } :=
  ⟨.of_scope rfl rfl, fun holds => holds.of_queue hslots (by rw [houtstanding, List.nil_append])⟩

instance : AllowsComputing Calm where
  refl s := .of_queue (refl_of Balanced s) rfl
  trans _ _ _ h h' := h.trans h'
  of_compute operation hrun := .of_queue (AllowsComputing.of_compute operation hrun) rfl

end Session

namespace Elaborate

open Session (Holds Drops Calm Balanced Deepens AllowsForcing AllowsAsking)

variable {α β : Type} {tried tried' : List Obligation}

/-! ## Trying obligations -/

/-- What is held is dropped in two parts. -/
theorem drops_bind {x : ElaborateM α} {f : α → ElaborateM β} (hx : Within (Drops tried) x)
    (hf : ∀ a, Within (Drops tried') (f a)) : Within (Drops (tried ++ tried')) (x >>= f) := by
  intro s s'' heffect
  rcases effect_bind heffect with h | ⟨a, s', h, h'⟩
  · have dropped := hx _ _ h
    refine ⟨dropped.toBalanced, fun holds => dropped.holds ⟨holds.size, holds.recorded.sublist ?_⟩⟩
    simpa only [List.append_assoc] using
      (List.sublist_append_right tried' (_ ++ s.queue.outstanding)).append_left tried
  · exact (hx _ _ h).trans (hf a _ _ h')

theorem drops_bind_calm {x : ElaborateM α} {f : α → ElaborateM β} (hx : Within (Drops tried) x)
    (hf : ∀ a, Within Calm (f a)) : Within (Drops tried) (x >>= f) := by
  rw [← List.append_nil tried]
  exact drops_bind hx hf

theorem push_drops (obligation : Obligation) (blockers : List MetaId) :
    Within (Drops [obligation]) (modifyQueue (·.push obligation blockers)) := by
  rintro s s' ⟨config, r, heffect⟩
  cases heffect
  refine ⟨.of_scope rfl rfl, fun holds => holds.of_queue rfl ?_⟩
  change (obligation :: _ ++ s.queue.outstanding).Perm (_ ++ (s.queue.push _ _).outstanding)
  rw [Queue.outstanding_push, ← List.append_assoc]
  exact (List.perm_append_singleton _ _).symm

/-- An obligation that fills no slot may be pushed at any time. -/
theorem push_calm {obligation : Obligation} (h : obligation.use? = none) (blockers : List MetaId) :
    Within Calm (modifyQueue (·.push obligation blockers)) := by
  intro s s' heffect
  obtain ⟨balanced, holds⟩ := push_drops obligation blockers s s' heffect
  exact ⟨balanced, fun held => holds ⟨held.size, (Recorded.cons_of_none h).mpr held.recorded⟩⟩

theorem fillSlot_calm (slot : SlotId) (dict : Dict) :
    Within Calm (modifyQueue (·.fillSlot slot dict)) := by
  rintro s s' ⟨config, r, heffect⟩
  cases heffect
  exact .requeue _ (Queue.size_slots_fillSlot slot dict) (Queue.outstanding_fillSlot slot dict)

theorem dischargeDisjoint_calm (fuel : Nat) (left right : Con) (facts : List Fact) (depth : Nat)
    (span : Span) : Within Calm (dischargeDisjoint fuel left right facts depth span) := by
  refine .bind getGlobals_within fun globals => ?_
  refine .bind (onStore_within (.checkDisjoint globals fuel left right facts)) fun result => ?_
  split
  · exact .pure _
  · exact .bind (push_calm rfl _) fun _ => .pure _
  · exact fail_within _ _

theorem discharge_drops (fuel : Nat) (obligation : Obligation) :
    Within (Drops [obligation]) (discharge fuel obligation) := by
  obtain ⟨demand, depth, span⟩ := obligation
  have calm {x : ElaborateM Bool} (h : Within Calm x) : Within (Drops [⟨demand, depth, span⟩]) x :=
    h.mono (.of_calm · _)
  unfold discharge
  simp only
  cases demand with
  | unify expected found =>
    refine calm ?_
    refine .bind getGlobals_within fun globals => ?_
    refine .bind (onStore_within (.unify globals fuel _ _ _)) fun result => ?_
    split
    · exact fail_within _ _
    · exact .bind (.forM (fun p => push_calm rfl _) _) fun _ => .pure _
  | disjoint left right facts => exact calm (dischargeDisjoint_calm _ _ _ _ _ _)
  | «class» slot goal locals facts valDepth =>
    refine @drops_bind _ _ [] _ _ _ (resolveClass_within fuel _ _ _ _) fun result => ?_
    split
    · refine calm ?_
      refine .bind (fillSlot_calm _ _) fun _ => ?_
      refine .bind (.forM (fun pair => ?_) _) fun _ => .pure _
      exact .bind (dischargeDisjoint_calm _ _ _ _ _ _) fun _ => .pure _
    · exact drops_bind_calm (push_drops _ _) fun _ => .pure _
    · exact calm (fail_within _ _)

theorem wakeSolved_calm : Within Calm wakeSolved := by
  rintro s s' ⟨config, r, heffect⟩
  cases heffect
  refine ⟨.of_scope rfl rfl, fun holds => holds.of_queue ?_ ?_⟩
  · exact congrArg Array.size (Queue.slots_wake _)
  · exact .of_eq (congrArg _ (Queue.outstanding_wake _).symm)

/-- What is popped is held by whoever tries it. -/
theorem popReady_bind {f : Option Obligation → ElaborateM α} (hnone : Within Calm (f none))
    (hsome : ∀ obligation, Within (Drops [obligation]) (f (some obligation))) :
    Within Calm (popReady >>= f) := by
  intro s s' heffect
  have heffect : Effect (f s.queue.pop.1) { s with queue := s.queue.pop.2 } s' := heffect
  have hperm := s.queue.outstanding_pop
  cases hpop : s.queue.pop.1 with
  | none =>
    rw [hpop] at heffect hperm
    have popped : s.Calm { s with queue := s.queue.pop.2 } :=
      ⟨.of_scope rfl rfl, fun holds => holds.of_queue (congrArg Array.size Queue.slots_pop)
        (hperm.append_left _)⟩
    exact popped.trans (hnone _ _ heffect)
  | some obligation =>
    rw [hpop] at heffect hperm
    have balanced : s.Balanced { s with queue := s.queue.pop.2 } := .of_scope rfl rfl
    have tried := hsome obligation _ _ heffect
    refine ⟨trans_of Balanced balanced tried.toBalanced, fun holds => tried.holds ?_⟩
    refine holds.of_queue (congrArg Array.size Queue.slots_pop) ?_
    exact (hperm.append_left _).trans List.perm_middle

theorem runReady_calm (fuel : Nat) : Within Calm (runReady fuel) := by
  induction fuel with
  | zero => exact noFuel_within
  | succ fuel ih =>
    refine .bind wakeSolved_calm fun _ => popReady_bind (.pure _) fun obligation => ?_
    exact drops_bind_calm (discharge_drops fuel obligation) fun _ => ih

/-- An obligation that fills no slot is dropped without a trace. -/
theorem calm_of_drops {obligation : Obligation} {x : ElaborateM α} (h : obligation.use? = none)
    (hx : Within (Drops [obligation]) x) : Within Calm x := by
  intro s s' heffect
  obtain ⟨balanced, holds⟩ := hx s s' heffect
  exact ⟨balanced, fun held => holds ⟨held.size, (Recorded.cons_of_none h).mpr held.recorded⟩⟩

instance : AllowsAsking Calm where
  of_unify fuel _ _ _ := .bind conDepth_within fun _ =>
    .bind (calm_of_drops rfl (discharge_drops fuel _)) fun _ => runReady_calm fuel
  of_requireDisjoint fuel _ _ _ := .bind get_within fun _ =>
    .bind (calm_of_drops rfl (discharge_drops fuel _)) fun _ => runReady_calm fuel
  of_inside enters h :=
    ⟨AllowsAsking.of_inside enters h.toBalanced, fun holds =>
      have kept := h.holds ⟨holds.size, holds.recorded⟩
      ⟨kept.size, kept.recorded⟩⟩

end Elaborate

end RowML
