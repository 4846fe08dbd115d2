import RowML.Obligation.Queue
import Mathlib.Data.List.Basic
import Mathlib.Data.List.Perm.Basic

/-!
# What the lists of a queue say about each other

A queue keeps an obligation in one place and speaks of it by its id in two others: in the lists of
those that wait for a metavariable, and in the list of those that are ready.  `Consistent` says that
the lists agree; every use of a queue keeps that, and then each use does what it is for.
-/

namespace RowML

/-- Something is taken out of a list in which places can be empty. -/
theorem perm_filterMap_set_none {α : Type} {list : List (Option α)} {i : Nat} {a : α}
    (h : list[i]?.join = some a) :
    (list.filterMap id).Perm (a :: (list.set i none).filterMap id) := by
  induction list generalizing i with
  | nil => cases h
  | cons head tail ih =>
    cases i with
    | zero =>
      obtain rfl : head = some a := h
      exact .refl _
    | succ i =>
      cases head with
      | none => exact ih h
      | some b => exact ((ih h).cons b).trans (.swap a b _)

theorem filterMap_set_none_sublist {α : Type} (list : List (Option α)) (i : Nat) :
    ((list.set i none).filterMap id).Sublist (list.filterMap id) := by
  induction list generalizing i with
  | nil => exact .refl _
  | cons head tail ih =>
    cases i with
    | zero =>
      cases head with
      | none => exact .refl _
      | some a => exact List.sublist_cons_self a _
    | succ i =>
      cases head with
      | none => exact ih i
      | some a => exact (ih i).cons_cons a

namespace Waiters

variable {waiters : Waiters} {var v : MetaId} {id other : Nat}

@[simp] theorem of_erase : (waiters.erase var).of v = if v = var then [] else waiters.of v := by
  induction waiters with
  | nil => simp [erase, of]
  | cons entry waiters ih =>
    obtain ⟨w, ids⟩ := entry
    simp only [erase, of, List.filter_cons, List.lookup_cons] at ih ⊢
    grind

@[simp] theorem of_set {ids : List Nat} :
    (waiters.set var ids).of v = if v = var then ids else waiters.of v := by
  unfold set
  split
  next h => simp [List.isEmpty_iff.mp h]
  next h =>
    by_cases hv : v = var
    · simp [of, hv]
    · have herase : (waiters.erase var).of v = waiters.of v := by simp [hv]
      simpa [of, List.lookup_cons, beq_false_of_ne hv, hv] using herase

theorem mem_foldl_add {vars : List MetaId} :
    id ∈ (vars.foldl (add other) waiters).of v ↔ id ∈ waiters.of v ∨ v ∈ vars ∧ id = other := by
  induction vars generalizing waiters with
  | nil => simp
  | cons var vars ih =>
    rw [List.foldl_cons, ih, add, of_set]
    grind

theorem mem_foldl_drop {vars : List MetaId} :
    id ∈ (vars.foldl (drop other) waiters).of v ↔ id ∈ waiters.of v ∧
      ¬ (v ∈ vars ∧ id = other) := by
  induction vars generalizing waiters with
  | nil => simp
  | cons var vars ih =>
    rw [List.foldl_cons, ih, drop, of_set]
    grind

end Waiters

namespace Queue

variable {queue : Queue} {entry : Waiting} {id other : Nat}

/-! ## Places -/

theorem lt_pushed (h : queue.left? id = some entry) : id < queue.pushed := by
  by_contra hlt
  rw [left?, Array.getElem?_eq_none (Nat.le_of_not_lt hlt)] at h
  cases h

theorem mem_waiting_of_left? (h : queue.left? id = some entry) : entry ∈ queue.waiting := by
  rw [left?, Option.join_eq_some_iff] at h
  exact List.mem_filterMap.mpr ⟨some entry, Array.mem_toList_iff.mpr (Array.mem_of_getElem? h), rfl⟩

theorem exists_left?_of_mem_waiting (h : entry ∈ queue.waiting) :
    ∃ id, queue.left? id = some entry := by
  obtain ⟨_, hmem, rfl⟩ := List.mem_filterMap.mp h
  obtain ⟨id, hid⟩ := Array.getElem?_of_mem (Array.mem_toList_iff.mp hmem)
  exact ⟨id, by rw [left?, hid]; rfl⟩

@[simp] theorem left?_push (obligation : Obligation) (blockers : List MetaId) :
    (queue.push obligation blockers).left? id =
      if id = queue.pushed then some ⟨id, obligation, blockers⟩ else queue.left? id := by
  simp only [left?, push, pushed, Array.getElem?_push]
  grind

@[simp] theorem waiting_push (obligation : Obligation) (blockers : List MetaId) :
    (queue.push obligation blockers).waiting =
      queue.waiting ++ [⟨queue.pushed, obligation, blockers⟩] := by
  simp [waiting, push]

@[simp] theorem entries_wake (solved : List MetaId) :
    (queue.wake solved).entries = queue.entries := by
  induction solved generalizing queue with
  | nil => rfl
  | cons var solved ih => exact @ih (queue.wakeOne var)

@[simp] theorem left?_wake (solved : List MetaId) :
    (queue.wake solved).left? id = queue.left? id := by
  rw [left?, entries_wake, left?]

@[simp] theorem waiting_wake (solved : List MetaId) :
    (queue.wake solved).waiting = queue.waiting := by
  rw [waiting, entries_wake, waiting]

theorem mem_ready_wakeOne {var : MetaId} :
    id ∈ (queue.wakeOne var).ready ↔
      id ∈ queue.ready ∨ id ∈ queue.waiters.of var ∧ (queue.left? id).isSome := by
  rw [wakeOne, mem_foldl_insertLast, List.mem_filter]

theorem of_waiters_wakeOne {var v : MetaId} :
    (queue.wakeOne var).waiters.of v = if v = var then [] else queue.waiters.of v :=
  Waiters.of_erase

theorem mem_ready_wake_iff (solved : List MetaId) :
    id ∈ (queue.wake solved).ready ↔
      id ∈ queue.ready ∨ ∃ var ∈ solved, id ∈ queue.waiters.of var ∧ (queue.left? id).isSome := by
  induction solved generalizing queue with
  | nil => simp [wake]
  | cons head solved ih =>
    refine (@ih (queue.wakeOne head)).trans ?_
    have hentry : (queue.wakeOne head).left? id = queue.left? id := rfl
    simp only [hentry, mem_ready_wakeOne, of_waiters_wakeOne, List.mem_cons, exists_eq_or_imp]
    grind

/-! ## Taking -/

theorem take_of_left? (h : queue.left? id = some entry) :
    queue.take id = (some entry, { queue with
      entries := queue.entries.setIfInBounds id none
      waiters := entry.blockers.foldl (·.drop id) queue.waiters
      pending := queue.pending - 1 }) := by
  rw [take, h]

theorem take_of_left?_eq_none (h : queue.left? id = none) : queue.take id = (none, queue) := by
  rw [take, h]

@[simp] theorem fst_take : (queue.take id).1 = queue.left? id := by
  cases h : queue.left? id with
  | none => rw [take_of_left?_eq_none h]
  | some entry => rw [take_of_left? h]

@[simp] theorem pushed_take : (queue.take id).2.pushed = queue.pushed := by
  cases h : queue.left? id with
  | none => rw [take_of_left?_eq_none h]
  | some entry => simp [take_of_left? h, pushed]

@[simp] theorem left?_take :
    (queue.take id).2.left? other = if other = id then none else queue.left? other := by
  cases h : queue.left? id with
  | none =>
    rw [take_of_left?_eq_none h]
    grind
  | some entry =>
    simp only [take_of_left? h, left?, Array.getElem?_setIfInBounds]
    grind

theorem waiting_take_sublist : (queue.take id).2.waiting.Sublist queue.waiting := by
  cases h : queue.left? id with
  | none => rw [take_of_left?_eq_none h]
  | some entry =>
    simpa [take_of_left? h, waiting] using filterMap_set_none_sublist queue.entries.toList id

theorem waiting_perm_take (h : queue.left? id = some entry) :
    queue.waiting.Perm (entry :: (queue.take id).2.waiting) := by
  have hplace : queue.entries.toList[id]?.join = some entry := by
    rw [Array.getElem?_toList]
    exact h
  simpa [take_of_left? h, waiting] using perm_filterMap_set_none hplace

/-- Nothing is ready after a search for something ready that found nothing. -/
theorem ready_takeFirst {ids : List Nat} (h : (queue.takeFirst ids).1 = none) :
    (queue.takeFirst ids).2.ready = [] := by
  induction ids generalizing queue with
  | nil => rfl
  | cons id ids ih =>
    rw [takeFirst] at h ⊢
    cases hentry : queue.left? id with
    | none =>
      rw [take_of_left?_eq_none hentry] at h ⊢
      exact ih h
    | some entry =>
      rw [take_of_left? hentry] at h
      cases h

theorem pop_of_ready_eq_nil (h : queue.ready = []) : queue.pop = (none, queue) := by
  rw [pop, h, takeFirst, ← h]
  rfl

theorem ready_eq_nil_of_pop (h : queue.pop.1 = none) : queue.pop.2.ready = [] :=
  ready_takeFirst (Option.map_eq_none_iff.mp h)

/-! ## Consistent queues -/

/-- An obligation stands at the place that is its id, what is left is counted, and only what is left
waits for a metavariable, which is one of its blockers. -/
structure Sorted (queue : Queue) : Prop where
  id_eq : ∀ {id entry}, queue.left? id = some entry → entry.id = id
  pending_eq : queue.pending = queue.waiting.length
  blocked : ∀ {var id}, id ∈ queue.waiters.of var →
    ∃ entry, queue.left? id = some entry ∧ var ∈ entry.blockers

/-- What is ready is left, and is listed once.  What is left waits for each of its blockers unless
it is ready. -/
structure Consistent (queue : Queue) : Prop extends queue.Sorted where
  unclaimed : ∀ {id}, id ∈ queue.ready → (queue.left? id).isSome
  once : queue.ready.Nodup
  heeds : ∀ {entry}, entry ∈ queue.waiting → ∀ var ∈ entry.blockers,
    entry.id ∈ queue.waiters.of var ∨ entry.id ∈ queue.ready

namespace Sorted

theorem left?_id (h : queue.Sorted) (hentry : entry ∈ queue.waiting) :
    queue.left? entry.id = some entry := by
  obtain ⟨id, hid⟩ := exists_left?_of_mem_waiting hentry
  rwa [h.id_eq hid]

theorem pending_pos (h : queue.Sorted) (hentry : queue.left? id = some entry) :
    0 < queue.pending :=
  h.pending_eq ▸ List.length_pos_of_mem (mem_waiting_of_left? hentry)

/-- Taking an obligation counts it off; there is always one to count off. -/
theorem pending_take (h : queue.Sorted) (id : Nat) :
    (queue.take id).2.pending + (queue.take id).1.toList.length = queue.pending := by
  cases hentry : queue.left? id with
  | none => simp [take_of_left?_eq_none hentry]
  | some entry =>
    have := h.pending_pos hentry
    simp only [take_of_left? hentry, Option.toList_some, List.length_singleton]
    omega

theorem take (h : queue.Sorted) (id : Nat) : (queue.take id).2.Sorted := by
  cases hentry : queue.left? id with
  | none => rwa [take_of_left?_eq_none hentry]
  | some entry =>
    refine ⟨fun {other _} hother => ?_, ?_, fun {var other} hother => ?_⟩
    · rw [left?_take] at hother
      exact h.id_eq (ite_eq_iff.mp hother |>.resolve_left (by simp) |>.2)
    · have hcount := h.pending_take id
      have hlength := (waiting_perm_take hentry).length_eq
      rw [fst_take, hentry, h.pending_eq, hlength] at hcount
      simpa using hcount
    · have hmem : other ∈ (entry.blockers.foldl (Waiters.drop id) queue.waiters).of var := by
        simpa [take_of_left? hentry] using hother
      obtain ⟨hmem, hne⟩ := Waiters.mem_foldl_drop.mp hmem
      obtain ⟨found, hfound, hvar⟩ := h.blocked hmem
      refine ⟨found, ?_, hvar⟩
      rw [left?_take, if_neg, hfound]
      rintro rfl
      cases hentry.symm.trans hfound
      exact hne ⟨hvar, rfl⟩

end Sorted

namespace Consistent

theorem empty : Queue.empty.Consistent where
  id_eq h := by simp [left?, Queue.empty] at h
  pending_eq := rfl
  blocked h := by simp [Waiters.of, Queue.empty] at h
  unclaimed h := by simp [Queue.empty] at h
  once := .nil
  heeds h := by simp [waiting, Queue.empty] at h

theorem push (h : queue.Consistent) (obligation : Obligation) (blockers : List MetaId) :
    (queue.push obligation blockers).Consistent where
  id_eq {id entry} hentry := by
    rw [left?_push] at hentry
    split at hentry
    next => cases hentry; rfl
    next => exact h.id_eq hentry
  pending_eq := by
    rw [waiting_push, List.length_append, ← h.pending_eq]
    rfl
  blocked {var id} hid := by
    rcases Waiters.mem_foldl_add.mp hid with hid | ⟨hvar, rfl⟩
    · obtain ⟨entry, hentry, hvar⟩ := h.blocked hid
      exact ⟨entry, by rw [left?_push, if_neg (Nat.ne_of_lt (lt_pushed hentry)), hentry], hvar⟩
    · exact ⟨_, by rw [left?_push, if_pos rfl], hvar⟩
  unclaimed {id} hid := by
    rw [left?_push]
    split
    next => rfl
    next => exact h.unclaimed hid
  once := h.once
  heeds {entry} hentry var hvar := by
    rw [waiting_push, List.mem_append, List.mem_singleton] at hentry
    rcases hentry with hentry | rfl
    · exact (h.heeds hentry var hvar).imp_left fun hid => Waiters.mem_foldl_add.mpr (.inl hid)
    · exact .inl (Waiters.mem_foldl_add.mpr (.inr ⟨hvar, rfl⟩))

theorem wakeOne (h : queue.Consistent) (var : MetaId) : (queue.wakeOne var).Consistent where
  id_eq := h.id_eq
  pending_eq := h.pending_eq
  blocked {v id} hid := by
    simp only [Queue.wakeOne, Waiters.of_erase] at hid
    split at hid
    next => cases hid
    next => exact h.blocked hid
  unclaimed {id} hid := by
    rcases mem_foldl_insertLast.mp hid with hid | hid
    · exact h.unclaimed hid
    · exact (List.mem_filter.mp hid).2
  once := by
    have insert {ids : List Nat} (hids : ids.Nodup) (id : Nat) : (insertLast ids id).Nodup := by
      unfold insertLast
      split
      next => exact hids
      next hid => exact List.nodup_append.mpr ⟨hids, by simp, by grind⟩
    refine List.foldlRecOn _ _ h.once fun ids hids id _ => insert hids id
  heeds {entry} hentry v hv := by
    have hleft : (queue.left? entry.id).isSome := by rw [h.left?_id hentry]; rfl
    rcases h.heeds hentry v hv with hid | hid
    · by_cases hvar : v = var
      · exact .inr (mem_foldl_insertLast.mpr (.inr (List.mem_filter.mpr ⟨hvar ▸ hid, hleft⟩)))
      · exact .inl (by simpa [Queue.wakeOne, hvar] using hid)
    · exact .inr (mem_foldl_insertLast.mpr (.inl hid))

theorem wake (h : queue.Consistent) (solved : List MetaId) : (queue.wake solved).Consistent :=
  List.foldlRecOn _ _ h fun _ hqueue var _ => hqueue.wakeOne var

/-- An obligation becomes ready when one of its blockers is solved. -/
theorem mem_ready_wake {solved : List MetaId} {b : MetaId} (h : queue.Consistent)
    (hentry : entry ∈ queue.waiting) (hb : b ∈ entry.blockers) (hsolved : b ∈ solved) :
    entry.id ∈ (queue.wake solved).ready := by
  rw [mem_ready_wake_iff]
  rcases h.heeds hentry b hb with hwaits | hready
  · exact .inr ⟨b, hsolved, hwaits, by rw [h.left?_id hentry]; rfl⟩
  · exact .inl hready

/-- Popping takes the first ready obligation. -/
theorem takeFirst_cons {ids : List Nat} (h : queue.Consistent) (hready : queue.ready = id :: ids) :
    ∃ entry, queue.left? id = some entry ∧
      queue.takeFirst queue.ready = (some entry, { (queue.take id).2 with ready := ids }) := by
  obtain ⟨entry, hentry⟩ := Option.isSome_iff_exists.mp (h.unclaimed (hready ▸ List.mem_cons_self))
  refine ⟨entry, hentry, ?_⟩
  rw [hready, takeFirst, take_of_left? hentry]

/-- Nothing is ready when there is nothing to pop. -/
theorem ready_eq_nil (h : queue.Consistent) (hpop : queue.pop.1 = none) : queue.ready = [] := by
  cases hready : queue.ready with
  | nil => rfl
  | cons id ids =>
    obtain ⟨entry, -, htake⟩ := h.takeFirst_cons hready
    rw [Queue.pop, htake] at hpop
    cases hpop

/-- What still waits after popping is as ready as before. -/
theorem pop_keeps (h : queue.Consistent) (hentry : entry ∈ queue.pop.2.waiting) :
    entry ∈ queue.waiting ∧ (entry.id ∈ queue.ready → entry.id ∈ queue.pop.2.ready) := by
  cases hready : queue.ready with
  | nil =>
    rw [pop_of_ready_eq_nil hready] at hentry
    exact ⟨hentry, nofun⟩
  | cons id ids =>
    obtain ⟨taken, hid, htake⟩ := h.takeFirst_cons hready
    have hpop : queue.pop.2 = { (queue.take id).2 with ready := ids } := by rw [Queue.pop, htake]
    rw [hpop] at hentry ⊢
    have hne := (h.toSorted.take id).left?_id hentry
    refine ⟨waiting_take_sublist.subset hentry, fun hmem => ?_⟩
    exact (List.mem_cons.mp hmem).resolve_left fun heq => by simp [heq] at hne

theorem pop (h : queue.Consistent) : queue.pop.2.Consistent := by
  cases hready : queue.ready with
  | nil => rwa [pop_of_ready_eq_nil hready]
  | cons id ids =>
    obtain ⟨entry, hentry, htake⟩ := h.takeFirst_cons hready
    have hpop : queue.pop.2 = { (queue.take id).2 with ready := ids } := by
      rw [Queue.pop, htake]
    have honce := h.once
    rw [hready, List.nodup_cons] at honce
    have sorted := h.toSorted.take id
    rw [hpop]
    refine ⟨⟨sorted.id_eq, sorted.pending_eq, sorted.blocked⟩, fun {other} hother => ?_, honce.2,
      fun {left} hleft var hvar => ?_⟩
    · have hne : other ≠ id := fun heq => honce.1 (heq ▸ hother)
      change ((queue.take id).2.left? other).isSome
      rw [left?_take, if_neg hne]
      exact h.unclaimed (hready ▸ List.mem_cons_of_mem _ hother)
    · have hne : left.id ≠ id := by
        have := sorted.left?_id hleft
        rw [left?_take] at this
        exact fun heq => by simp [heq] at this
      rcases h.heeds (waiting_take_sublist.subset hleft) var hvar with hid | hid
      · refine .inl ?_
        simpa [take_of_left? hentry] using Waiters.mem_foldl_drop.mpr ⟨hid, fun heq => hne heq.2⟩
      · exact .inr ((List.mem_cons.mp (hready ▸ hid)).resolve_left hne)

end Consistent

/-! ## Draining -/

theorem Sorted.takeEach (h : queue.Sorted) (ids : List Nat) : (queue.takeEach ids).2.Sorted := by
  induction ids generalizing queue with
  | nil => exact h
  | cons id ids ih => exact ih (h.take id)

theorem Sorted.pending_takeEach (h : queue.Sorted) (ids : List Nat) :
    (queue.takeEach ids).2.pending + (queue.takeEach ids).1.length = queue.pending := by
  induction ids generalizing queue with
  | nil => rfl
  | cons id ids ih =>
    have hfirst := h.pending_take id
    have hrest := ih (h.take id)
    simp only [Queue.takeEach, List.length_append]
    omega

@[simp] theorem pushed_takeEach {ids : List Nat} :
    (queue.takeEach ids).2.pushed = queue.pushed := by
  induction ids generalizing queue with
  | nil => rfl
  | cons id ids ih => exact (@ih (queue.take id).2).trans pushed_take

theorem left?_takeEach (ids : List Nat) :
    (queue.takeEach ids).2.left? other = if other ∈ ids then none else queue.left? other := by
  induction ids generalizing queue with
  | nil => rfl
  | cons id ids ih =>
    refine (@ih (queue.take id).2).trans ?_
    rw [left?_take]
    grind

theorem fst_takeEach {ids : List Nat} (h : ids.Nodup) :
    (queue.takeEach ids).1 = ids.filterMap queue.left? := by
  induction ids generalizing queue with
  | nil => rfl
  | cons id ids ih =>
    obtain ⟨hid, hids⟩ := List.nodup_cons.mp h
    have hrest : ids.filterMap (queue.take id).2.left? = ids.filterMap queue.left? :=
      List.filterMap_congr fun other hother => by
        have hne : other ≠ id := fun heq => hid (heq ▸ hother)
        rw [left?_take, if_neg hne]
    simp only [takeEach, fst_take, ih hids, hrest, List.filterMap_cons]
    cases queue.left? id <;> rfl

theorem waiting_eq_filterMap : queue.waiting = (List.range queue.pushed).filterMap queue.left? := by
  have hentries :
      queue.entries.toList = (List.range queue.pushed).map (queue.entries[·]?.join) := by
    refine List.ext_getElem (by simp [pushed]) fun i hi _ => ?_
    simp at hi
    simp [hi]
  rw [waiting, hentries, List.filterMap_map]
  rfl

/-- Draining takes everything that is left, in the order in which it was pushed. -/
theorem fst_drain (queue : Queue) :
    queue.drain.1 = queue.waiting.map fun entry => (entry.obligation, entry.blockers) := by
  rw [drain, waiting_eq_filterMap, ← fst_takeEach List.nodup_range]

@[simp] theorem left?_drain (queue : Queue) : queue.drain.2.left? id = none := by
  change (queue.takeEach (List.range queue.pushed)).2.left? id = none
  rw [left?_takeEach, ite_eq_left_iff, List.mem_range]
  intro hlt
  by_contra hentry
  obtain ⟨entry, hentry⟩ := Option.ne_none_iff_exists'.mp hentry
  exact hlt (lt_pushed hentry)

@[simp] theorem waiting_drain (queue : Queue) : queue.drain.2.waiting = [] := by
  refine List.eq_nil_iff_forall_not_mem.mpr fun entry hentry => ?_
  obtain ⟨id, hid⟩ := exists_left?_of_mem_waiting hentry
  cases queue.left?_drain.symm.trans hid

theorem Consistent.drain (h : queue.Consistent) : queue.drain.2.Consistent where
  id_eq hentry := by cases queue.left?_drain.symm.trans hentry
  pending_eq := (h.toSorted.takeEach _).pending_eq
  blocked hid := by cases hid
  unclaimed hid := by cases hid
  once := .nil
  heeds hentry := by simp at hentry

/-! ## Slots -/

theorem Consistent.newSlot (h : queue.Consistent) (goal : Con) :
    (queue.newSlot goal).2.Consistent :=
  { h with id_eq := h.id_eq, heeds := h.heeds }

theorem Consistent.fillSlot (h : queue.Consistent) (slot : SlotId) (dict : Dict) :
    (queue.fillSlot slot dict).Consistent :=
  { h with id_eq := h.id_eq, heeds := h.heeds }

end Queue

end RowML
