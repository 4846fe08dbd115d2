import RowML.Proofs.Obligation.Queue
import Mathlib.Data.List.Induction
import Mathlib.Data.List.Perm.Basic

/-!
# What becomes of what is pushed

A queue is used by pushing, waking, popping and draining, in any order.  Everything that was pushed
is left or has been taken, once; popping takes only what was woken by one of its blockers after it
was pushed, and answers nothing only when all of that has been taken.

Equal obligations can be pushed more than once, so that what is pushed is told apart by its id: the
number of obligations that were pushed before it.
-/

namespace RowML

namespace Queue

/-- What can be done with a queue. -/
inductive Use where
  | push (obligation : Obligation) (blockers : List MetaId)
  | wake (solved : List MetaId)
  | pop
  | drain

namespace Use

/-- The queue that a use leaves. -/
def next (queue : Queue) : Use → Queue
  | push obligation blockers => queue.push obligation blockers
  | wake solved => queue.wake solved
  | pop => queue.pop.2
  | drain => queue.drain.2

/-- The obligations that a use gives back. -/
def answer (queue : Queue) : Use → List Obligation
  | push _ _ | wake _ => []
  | pop => queue.pop.1.toList
  | drain => queue.drain.1.map (·.1)

/-- What a use takes out of the queue. -/
def taken (queue : Queue) : Use → List Waiting
  | push _ _ | wake _ => []
  | pop => (queue.takeFirst queue.ready).1.toList
  | drain => (queue.takeEach (List.range queue.pushed)).1

def pushed? : Use → Option (Obligation × List MetaId)
  | push obligation blockers => some (obligation, blockers)
  | _ => none

theorem map_taken (queue : Queue) (use : Use) :
    (use.taken queue).map (·.obligation) = use.answer queue := by
  cases use with
  | pop => exact Option.toList_map.symm
  | drain => simp [taken, answer, Queue.drain]
  | _ => rfl

end Use

/-- What the uses of a queue give, one after the other. -/
def collect {α : Type} (give : Queue → Use → List α) : Queue → List Use → List α
  | _, [] => []
  | queue, use :: uses => give queue use ++ collect give (use.next queue) uses

/-- The queue that is left when an empty one is used so. -/
def after (uses : List Use) : Queue := uses.foldl Use.next empty

/-- What is pushed, in that order. -/
def pushedBy (uses : List Use) : List Waiting :=
  (uses.filterMap Use.pushed?).mapIdx fun id pushed => ⟨id, pushed.1, pushed.2⟩

def takenBy (uses : List Use) : List Waiting := collect Use.taken empty uses

def answeredBy (uses : List Use) : List Obligation := collect Use.answer empty uses

/-- After it was pushed, one of its blockers is among those that a use reports as solved. -/
def Woken (uses : List Use) (entry : Waiting) : Prop :=
  ∃ before solved rest, uses = before ++ .wake solved :: rest ∧ entry ∈ pushedBy before ∧
    ∃ b ∈ entry.blockers, b ∈ solved

/-! ## One use more -/

variable {uses : List Use} {use : Use} {entry : Waiting}

theorem collect_concat {α : Type} (give : Queue → Use → List α) (queue : Queue) (uses : List Use)
    (use : Use) :
    collect give queue (uses ++ [use]) =
      collect give queue uses ++ give (uses.foldl Use.next queue) use := by
  induction uses generalizing queue with
  | nil => simp [collect]
  | cons first uses ih => simp [collect, ih]

theorem map_takenBy (uses : List Use) : (takenBy uses).map (·.obligation) = answeredBy uses := by
  unfold takenBy answeredBy
  generalize empty = queue
  induction uses generalizing queue with
  | nil => rfl
  | cons use uses ih => simp [collect, ih, Use.map_taken]

@[simp] theorem after_concat : after (uses ++ [use]) = use.next (after uses) := by simp [after]

theorem takenBy_concat : takenBy (uses ++ [use]) = takenBy uses ++ use.taken (after uses) :=
  collect_concat Use.taken empty uses use

theorem pushedBy_concat_push (obligation : Obligation) (blockers : List MetaId) :
    pushedBy (uses ++ [.push obligation blockers]) =
      pushedBy uses ++ [⟨(pushedBy uses).length, obligation, blockers⟩] := by
  simp [pushedBy, Use.pushed?]

theorem pushedBy_concat (h : use.pushed? = none) : pushedBy (uses ++ [use]) = pushedBy uses := by
  simp [pushedBy, h]

theorem pushedBy_sublist_concat : (pushedBy uses).Sublist (pushedBy (uses ++ [use])) := by
  cases use with
  | push obligation blockers =>
    rw [pushedBy_concat_push]
    exact List.sublist_append_left _ _
  | _ => rw [pushedBy_concat rfl]

theorem map_id_pushedBy (uses : List Use) :
    (pushedBy uses).map (·.id) = List.range (pushedBy uses).length := by
  refine List.ext_getElem (by simp) fun i _ _ => ?_
  simp [pushedBy]

theorem woken_concat : Woken (uses ++ [use]) entry ↔
    Woken uses entry ∨ ∃ solved, use = .wake solved ∧ entry ∈ pushedBy uses ∧
      ∃ b ∈ entry.blockers, b ∈ solved := by
  constructor
  · rintro ⟨before, solved, rest, huses, hpushed, hb⟩
    rcases List.eq_nil_or_concat rest with rfl | ⟨rest, last, rfl⟩
    · obtain ⟨rfl, huse⟩ := List.append_inj' huses rfl
      exact .inr ⟨solved, List.singleton_inj.mp huse, hpushed, hb⟩
    · have hsplit : uses ++ [use] = (before ++ .wake solved :: rest) ++ [last] := by simp [huses]
      exact .inl ⟨before, solved, rest, (List.append_inj' hsplit rfl).1, hpushed, hb⟩
  · rintro (⟨before, solved, rest, rfl, hpushed, hb⟩ | ⟨solved, rfl, hpushed, hb⟩)
    · exact ⟨before, solved, rest ++ [use], by simp, hpushed, hb⟩
    · exact ⟨uses, solved, [], rfl, hpushed, hb⟩

theorem woken_concat_iff (h : ∀ solved, use ≠ .wake solved) :
    Woken (uses ++ [use]) entry ↔ Woken uses entry := by
  simp [woken_concat, h]

theorem Woken.mem_pushedBy (h : Woken uses entry) : entry ∈ pushedBy uses := by
  induction uses using List.reverseRecOn with
  | nil => obtain ⟨_, _, _, h, -⟩ := h; simp at h
  | append_singleton uses use ih =>
    refine pushedBy_sublist_concat.subset ?_
    rcases woken_concat.mp h with h | ⟨_, _, h, -⟩
    · exact ih h
    · exact h

/-! ## The account of a queue -/

/-- What is known of a queue that has been used so, and of what was taken from it. -/
structure Accounts (uses : List Use) (taken : List Waiting) (queue : Queue) : Prop where
  consistent : queue.Consistent
  count : (pushedBy uses).length = queue.pushed
  whole : (taken ++ queue.waiting).Perm (pushedBy uses)
  order : queue.waiting.Sublist (pushedBy uses)
  woken : ∀ {id}, id ∈ queue.ready → ∃ entry, queue.left? id = some entry ∧ Woken uses entry
  ready : ∀ {entry}, entry ∈ queue.waiting → Woken uses entry → entry.id ∈ queue.ready

namespace Accounts

variable {taken : List Waiting} {queue : Queue}

theorem empty : Accounts [] [] Queue.empty where
  consistent := .empty
  count := rfl
  whole := .refl _
  order := .refl _
  woken h := by cases h
  ready h := by simp [waiting, Queue.empty] at h

theorem lt_pushed (h : Accounts uses taken queue) (hentry : entry ∈ pushedBy uses) :
    entry.id < queue.pushed := by
  have hid : entry.id ∈ (pushedBy uses).map (·.id) := List.mem_map_of_mem hentry
  rwa [map_id_pushedBy, List.mem_range, h.count] at hid

theorem push (h : Accounts uses taken queue) (obligation : Obligation) (blockers : List MetaId) :
    Accounts (uses ++ [.push obligation blockers]) taken (queue.push obligation blockers) where
  consistent := h.consistent.push obligation blockers
  count := by
    rw [pushedBy_concat_push, List.length_append, h.count]
    simp [pushed, Queue.push]
  whole := by
    rw [pushedBy_concat_push, waiting_push, h.count, ← List.append_assoc]
    exact h.whole.append_right _
  order := by
    rw [pushedBy_concat_push, waiting_push, h.count]
    exact h.order.append_right _
  woken hid := by
    obtain ⟨entry, hentry, hwoken⟩ := h.woken hid
    refine ⟨entry, ?_, (woken_concat_iff (by simp)).mpr hwoken⟩
    rw [left?_push, if_neg (Nat.ne_of_lt (Queue.lt_pushed hentry)), hentry]
  ready {entry} hentry hwoken := by
    have hearlier : Woken uses entry := (woken_concat_iff (by simp)).mp hwoken
    rw [waiting_push, List.mem_append, List.mem_singleton] at hentry
    rcases hentry with hentry | rfl
    · exact h.ready hentry hearlier
    · exact absurd (h.lt_pushed hearlier.mem_pushedBy) (Nat.lt_irrefl _)

theorem wake (h : Accounts uses taken queue) (solved : List MetaId) :
    Accounts (uses ++ [.wake solved]) taken (queue.wake solved) where
  consistent := h.consistent.wake solved
  count := by rw [pushedBy_concat rfl, h.count, pushed, pushed, entries_wake]
  whole := by
    rw [pushedBy_concat rfl, waiting_wake]
    exact h.whole
  order := by
    rw [pushedBy_concat rfl, waiting_wake]
    exact h.order
  woken {id} hid := by
    rcases (mem_ready_wake_iff solved).mp hid with hid | ⟨b, hb, hid, -⟩
    · obtain ⟨entry, hentry, hwoken⟩ := h.woken hid
      exact ⟨entry, by rw [left?_wake, hentry], woken_concat.mpr (.inl hwoken)⟩
    · obtain ⟨entry, hentry, hblocker⟩ := h.consistent.blocked hid
      have hpushed := h.order.subset (mem_waiting_of_left? hentry)
      exact ⟨entry, by rw [left?_wake, hentry],
        woken_concat.mpr (.inr ⟨solved, rfl, hpushed, b, hblocker, hb⟩)⟩
  ready {entry} hentry hwoken := by
    rw [waiting_wake] at hentry
    rcases woken_concat.mp hwoken with hwoken | ⟨_, huse, -, b, hblocker, hb⟩
    · exact (mem_ready_wake_iff solved).mpr (.inl (h.ready hentry hwoken))
    · cases huse
      exact h.consistent.mem_ready_wake hentry hblocker hb

theorem takeFirst (h : Accounts uses taken queue) :
    Accounts uses (taken ++ (queue.takeFirst queue.ready).1.toList) queue.pop.2 := by
  cases hready : queue.ready with
  | nil =>
    rw [pop_of_ready_eq_nil hready]
    simpa [Queue.takeFirst] using h
  | cons id ids =>
    obtain ⟨entry, hentry, htake⟩ := h.consistent.takeFirst_cons hready
    have hpop : queue.pop.2 = { (queue.take id).2 with ready := ids } := by rw [Queue.pop, htake]
    have hwaiting : queue.pop.2.waiting = (queue.take id).2.waiting := by rw [hpop]; rfl
    rw [← hready, htake]
    refine ⟨h.consistent.pop, ?count, ?whole, ?order, fun {other} hother => ?woken,
      fun {other} hother hwoken => ?ready⟩
    case count => rw [h.count, hpop]; exact pushed_take.symm
    case whole =>
      have hperm := (waiting_perm_take hentry).append_left taken
      rw [hwaiting, List.append_assoc]
      exact hperm.symm.trans h.whole
    case order => rw [hwaiting]; exact waiting_take_sublist.trans h.order
    case woken =>
      have hother : other ∈ ids := by simpa [hpop] using hother
      have hne : other ≠ id := by
        have honce := h.consistent.once
        rw [hready, List.nodup_cons] at honce
        exact fun heq => honce.1 (heq ▸ hother)
      obtain ⟨found, hfound, hwoken⟩ := h.woken (hready ▸ List.mem_cons_of_mem _ hother)
      refine ⟨found, ?_, hwoken⟩
      rw [hpop]
      change (queue.take id).2.left? other = some found
      rw [left?_take, if_neg hne, hfound]
    case ready =>
      obtain ⟨hother, hkeeps⟩ := h.consistent.pop_keeps hother
      exact hkeeps (h.ready hother hwoken)

theorem takeEach (h : Accounts uses taken queue) :
    Accounts uses (taken ++ (queue.takeEach (List.range queue.pushed)).1) queue.drain.2 where
  consistent := h.consistent.drain
  count := h.count.trans pushed_takeEach.symm
  whole := by
    rw [waiting_drain, List.append_nil, fst_takeEach List.nodup_range, ← waiting_eq_filterMap]
    exact h.whole
  order := by simp
  woken hid := by cases hid
  ready hentry := by simp at hentry

/-- A use that neither pushes nor wakes changes nothing but by what it takes. -/
theorem concat (h : Accounts uses taken queue) (hpush : use.pushed? = none)
    (hwake : ∀ solved, use ≠ .wake solved) : Accounts (uses ++ [use]) taken queue where
  consistent := h.consistent
  count := by rw [pushedBy_concat hpush, h.count]
  whole := by rw [pushedBy_concat hpush]; exact h.whole
  order := by rw [pushedBy_concat hpush]; exact h.order
  woken hid := by simpa [woken_concat_iff hwake] using h.woken hid
  ready hentry hwoken := h.ready hentry ((woken_concat_iff hwake).mp hwoken)

end Accounts

/-- Every use keeps the account. -/
theorem accounts_after (uses : List Use) : Accounts uses (takenBy uses) (after uses) := by
  induction uses using List.reverseRecOn with
  | nil => exact .empty
  | append_singleton uses use ih =>
    rw [after_concat, takenBy_concat]
    cases use with
    | push obligation blockers =>
      rw [Use.taken, List.append_nil]
      exact ih.push obligation blockers
    | wake solved =>
      rw [Use.taken, List.append_nil]
      exact ih.wake solved
    | pop => exact ih.takeFirst.concat rfl (by simp)
    | drain => exact ih.takeEach.concat rfl (by simp)

/-- The queue neither loses nor repeats an obligation, however it is used.  What was taken and what
is left are together what was pushed, each once.  Popping answers an obligation that is left and was
woken since it was pushed, and nothing only if everything that was woken has been taken.  Draining
answers what is left in the order in which it was pushed, and leaves nothing.  The number of pending
obligations is that of what is left, and no taking counts further than to zero.  Every id that the
queue speaks of is a place in it. -/
theorem accounts_whole (uses : List Use) :
    (takenBy uses).map (·.obligation) = answeredBy uses ∧
    (takenBy uses ++ (after uses).waiting).Perm (pushedBy uses) ∧
    ((pushedBy uses).map (·.id)).Nodup ∧
    (∀ obligation, (after uses).pop.1 = some obligation → ∃ entry ∈ (after uses).waiting,
      entry.obligation = obligation ∧ Woken uses entry ∧
      takenBy (uses ++ [.pop]) = takenBy uses ++ [entry]) ∧
    ((after uses).pop.1 = none → ∀ entry, Woken uses entry → entry ∈ takenBy uses) ∧
    (after uses).drain.1 =
      (after uses).waiting.map (fun entry => (entry.obligation, entry.blockers)) ∧
    (after uses).waiting.Sublist (pushedBy uses) ∧
    (after uses).drain.2.waiting = [] ∧
    (after uses).pending = (after uses).waiting.length ∧
    (∀ ids, ((after uses).takeEach ids).2.pending + ((after uses).takeEach ids).1.length =
      (after uses).pending) ∧
    ∀ id, (id ∈ (after uses).ready ∨ ∃ var, id ∈ (after uses).waiters.of var) →
      id < (after uses).entries.size := by
  have account := accounts_after uses
  have consistent := account.consistent
  refine ⟨map_takenBy uses, account.whole, ?_, fun obligation hpop => ?_,
    fun hpop entry hwoken => ?_, fst_drain _, account.order, waiting_drain _, consistent.pending_eq,
    consistent.toSorted.pending_takeEach, fun id hid => ?_⟩
  · rw [map_id_pushedBy]
    exact List.nodup_range
  · obtain ⟨entry, hentry, rfl⟩ := Option.map_eq_some_iff.mp hpop
    rcases hready : (after uses).ready with _ | ⟨id, ids⟩
    · simp [hready, takeFirst] at hentry
    · obtain ⟨found, hfound, htake⟩ := consistent.takeFirst_cons hready
      obtain ⟨woken, hwoken, hwokenBy⟩ := account.woken (hready ▸ List.mem_cons_self)
      cases hfound.symm.trans hwoken
      rw [htake] at hentry
      cases hentry
      refine ⟨entry, mem_waiting_of_left? hfound, rfl, hwokenBy, ?_⟩
      rw [takenBy_concat, Use.taken, htake]
      rfl
  · have hready := consistent.ready_eq_nil hpop
    refine (List.mem_append.mp (account.whole.mem_iff.mpr hwoken.mem_pushedBy)).resolve_right ?_
    intro hleft
    have := account.ready hleft hwoken
    simp [hready] at this
  · rcases hid with hid | ⟨var, hid⟩
    · obtain ⟨entry, hentry⟩ := Option.isSome_iff_exists.mp (consistent.unclaimed hid)
      exact lt_pushed hentry
    · obtain ⟨entry, hentry, -⟩ := consistent.blocked hid
      exact lt_pushed hentry

/-- Two obligations wait, the second one for the same metavariable twice, which is then solved. -/
def repeatedBlocker : List Use :=
  [.push ⟨.unify .int .int, 0, default⟩ [], .push ⟨.unify .int .bool, 0, default⟩ [0, 1, 0],
    .wake [2, 0, 1]]

theorem accounts_whole_repeatedBlocker :
    ∃ entry, entry.id = 1 ∧ Woken repeatedBlocker entry ∧
      takenBy (repeatedBlocker ++ [.pop]) = [entry] ∧
      (after (repeatedBlocker ++ [.pop])).drain.1 = [(⟨.unify .int .int, 0, default⟩, [])] ∧
      (after (repeatedBlocker ++ [.pop])).pop.1 = none ∧
      entry ∈ takenBy (repeatedBlocker ++ [.pop]) := by
  obtain ⟨-, -, -, hpop, -⟩ := accounts_whole repeatedBlocker
  obtain ⟨-, -, -, -, hnone, hdrain, -⟩ := accounts_whole (repeatedBlocker ++ [.pop])
  obtain ⟨entry, -, hobligation, hwoken, htaken⟩ := hpop ⟨.unify .int .bool, 0, default⟩ rfl
  have hwoken' : Woken (repeatedBlocker ++ [.pop]) entry := woken_concat.mpr (.inl hwoken)
  refine ⟨entry, ?_, hwoken, htaken, hdrain, rfl, hnone rfl entry hwoken'⟩
  have htaken' := congrArg (List.map (·.id)) htaken
  exact (List.singleton_inj.mp htaken').symm

end Queue

end RowML
