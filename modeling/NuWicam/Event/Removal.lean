import NuWicam.Event.Loop
import NuWicam.Lib.Chain
import Mathlib.Data.List.Perm.Subperm

/-!
# Removal of events (`event.c`)

`remove_event` only flags an event. The loop, which may be anywhere in the three lists, goes on over the links as they are, and
`strip_events` takes the flagged events out at the end of the pass (`stripEvents_spec`).
-/

namespace NuWicam.Event

open Lib List Function Option

namespace Loop

variable {s s' : Loop} {a : Act} {e : Nat}

/-! ## The lists -/

/-- The events of the list are `xs`, linked both ways. -/
structure ListOf (s : Loop) (k : Kind) (xs : List Nat) : Prop where
  chain : Chain (fun b => (s.ev b).next) (fun b => (s.ev b).prev) none (s.head k) xs
  nodup : xs.Nodup
  known : ∀ b ∈ xs, b < s.fresh ∧ (s.ev b).kind = k

def Linked (s : Loop) : Prop := ∀ k, ∃ xs, s.ListOf k xs

section

variable {t : Loop} {k k' : Kind} {xs ys ks : List Nat}

def SameLinks (x y : Ev) : Prop := x.next = y.next ∧ x.prev = y.prev ∧ x.kind = y.kind

theorem ListOf.congr (h : s.ListOf k xs) (hhead : t.head k = s.head k) (hfresh : s.fresh ≤ t.fresh)
    (hev : ∀ b ∈ xs, SameLinks (t.ev b) (s.ev b)) : t.ListOf k xs := by
  refine ⟨?_, h.nodup, fun b hb => ?_⟩
  · rw [hhead]
    exact h.chain.congr (fun b hb => (hev b hb).1) fun b hb => (hev b hb).2.1
  · exact ⟨Nat.lt_of_lt_of_le (h.known b hb).1 hfresh, (hev b hb).2.2.trans (h.known b hb).2⟩

theorem Linked.congr (h : s.Linked) (hhead : t.head = s.head) (hfresh : s.fresh ≤ t.fresh)
    (hev : ∀ b, SameLinks (t.ev b) (s.ev b)) : t.Linked := by
  intro k
  obtain ⟨xs, hxs⟩ := h k
  exact ⟨xs, hxs.congr (congrFun hhead k) hfresh fun b _ => hev b⟩

theorem sameLinks_modify {f : Ev → Ev} (hf : ∀ x, SameLinks (f x) x) (b : Nat) : SameLinks ((s.modify e f).ev b) (s.ev b) := by
  rw [ev_modify]
  split
  · rename_i hb
    rw [hb]
    exact hf _
  · exact ⟨rfl, rfl, rfl⟩

theorem ListOf.modify (h : s.ListOf k xs) {f : Ev → Ev} (hf : ∀ x, SameLinks (f x) x) : (s.modify e f).ListOf k xs :=
  h.congr rfl (Nat.le_refl _) fun b _ => sameLinks_modify hf b

theorem Linked.modify (h : s.Linked) {f : Ev → Ev} (hf : ∀ x, SameLinks (f x) x) : (s.modify e f).Linked :=
  h.congr rfl (Nat.le_refl _) (sameLinks_modify hf)

theorem ListOf.ne (h : s.ListOf k xs) (h' : s.ListOf k' ys) (hne : k' ≠ k) {b c : Nat} (hb : b ∈ xs) (hc : c ∈ ys) : b ≠ c := by
  rintro rfl
  exact hne ((h'.known b hc).2.symm.trans (h.known b hb).2)

theorem ListOf.length_le (h : s.ListOf k xs) : xs.length ≤ s.fresh := by
  have hsub : xs ⊆ List.range s.fresh := fun b hb => mem_range.mpr (h.known b hb).1
  have hlen := (subperm_of_subset h.nodup hsub).length_le
  rwa [length_range] at hlen

section Link

variable (s : Loop) (k : Kind) (flags : Flags) (fire : TimeRef) (ival : Int32)

theorem ev_link_new (h : s.head k ≠ some s.fresh) :
    (s.link k flags fire ival).ev s.fresh = ⟨k, none, s.head k, flags, fire, ival⟩ := by
  unfold Loop.link setPrev
  dsimp only
  rw [if_neg h]
  exact update_self ..

theorem ev_link_old {b : Nat} (hb : b ≠ s.fresh) : (s.link k flags fire ival).ev b =
    if s.head k = some b then { s.ev b with prev := some s.fresh } else s.ev b := by
  have hsame : (update s.ev s.fresh ⟨k, none, s.head k, flags, fire, ival⟩) b = s.ev b :=
    update_of_ne hb ..
  unfold Loop.link setPrev
  dsimp only
  rw [hsame]

end Link

theorem ListOf.head_mem (h : s.ListOf k xs) {b : Nat} (hb : s.head k = some b) : b ∈ xs :=
  List.mem_of_head? (h.chain.head_eq ▸ hb)

theorem ListOf.fresh_not_mem (h : s.ListOf k xs) : s.fresh ∉ xs := fun hmem => Nat.lt_irrefl _ (h.known _ hmem).1

theorem ListOf.link_own (h : s.ListOf k xs) (flags : Flags) (fire : TimeRef) (ival : Int32) :
    (s.link k flags fire ival).ListOf k (s.fresh :: xs) := by
  have hnot := h.fresh_not_mem
  have hne : ∀ {b}, b ∈ xs → b ≠ s.fresh := fun hb he => hnot (he ▸ hb)
  have hnew := ev_link_new s k flags fire ival fun hb => hnot (h.head_mem hb)
  have hfirst : (s.link k flags fire ival).head k = some s.fresh := update_self ..
  refine ⟨?_, nodup_cons.mpr ⟨hnot, h.nodup⟩, ?_⟩
  · rw [hfirst]
    refine h.chain.push h.nodup hnot (by rw [hnew]) (by rw [hnew]) (fun b hb => ?_) (fun b hb => ?_)
      fun b hb hno => ?_
    · rw [ev_link_old s k flags fire ival (hne hb)]
      split <;> rfl
    · rw [ev_link_old s k flags fire ival (hne (h.head_mem hb)), if_pos hb]
    · rw [ev_link_old s k flags fire ival (hne hb), if_neg hno]
  · rw [forall_mem_cons]
    refine ⟨⟨Nat.lt_succ_self _, by rw [hnew]⟩, fun b hb => ⟨Nat.lt_succ_of_lt (h.known b hb).1, ?_⟩⟩
    rw [ev_link_old s k flags fire ival (hne hb), ← (h.known b hb).2]
    split <;> rfl

theorem ListOf.link_other (h : s.ListOf k xs) (h' : s.ListOf k' ys) (hk : k' ≠ k) (flags : Flags) (fire : TimeRef)
    (ival : Int32) : (s.link k flags fire ival).ListOf k' ys := by
  refine h'.congr (update_of_ne hk ..) (Nat.le_succ _) fun b hb => ?_
  have hno : s.head k ≠ some b := fun hhead => h.ne h' hk (h.head_mem hhead) hb rfl
  rw [ev_link_old s k flags fire ival (Nat.ne_of_lt (h'.known b hb).1), if_neg hno]
  exact ⟨rfl, rfl, rfl⟩

theorem ListOf.link (hl : s.Linked) (h : s.ListOf k' ys) (k : Kind) (flags : Flags) (fire : TimeRef) (ival : Int32) :
    (s.link k flags fire ival).ListOf k' (if k' = k then s.fresh :: ys else ys) := by
  by_cases hk : k' = k
  · subst hk
    rw [if_pos rfl]
    exact h.link_own flags fire ival
  · obtain ⟨xs, hxs⟩ := hl k
    rw [if_neg hk]
    exact hxs.link_other h hk flags fire ival

section Unlink

variable (s : Loop) (k : Kind) (a b : Nat)

theorem next_unlink : ((s.unlink k a).ev b).next = if (s.ev a).prev = some b then (s.ev a).next else (s.ev b).next := by
  unfold Loop.unlink setPrev setNext
  dsimp only
  split
  · rfl
  · split <;> rfl

theorem prev_unlink : ((s.unlink k a).ev b).prev = if (s.ev a).next = some b then (s.ev a).prev else (s.ev b).prev := by
  unfold Loop.unlink setPrev setNext
  dsimp only
  split
  · split <;> rfl
  · split <;> rfl

theorem kind_unlink : ((s.unlink k a).ev b).kind = (s.ev b).kind :=
  show ((s.unlink k a).ev b).core.kind = (s.ev b).core.kind by rw [core_unlink]

end Unlink

theorem ListOf.prev_eq_none_iff {a : Nat} (h : s.ListOf k (xs ++ a :: ys)) : (s.ev a).prev = none ↔ xs = [] := by
  constructor
  · intro hnone
    by_contra hxs
    obtain ⟨b, -, hb⟩ := h.chain.prev_mem hxs
    rw [hnone] at hb
    cases hb
  · rintro rfl
    exact h.chain.2.1

theorem ListOf.links_mem {a b : Nat} (h : s.ListOf k (xs ++ a :: ys))
    (hb : (s.ev a).next = some b ∨ (s.ev a).prev = some b) : b ∈ xs ++ a :: ys := by
  rcases hb with hb | hb
  · have hmem : b ∈ ys := List.mem_of_head? (h.chain.next_eq ▸ hb)
    exact mem_append_right _ (mem_cons_of_mem a hmem)
  · have hxs : xs ≠ [] := by
      intro hxs
      rw [h.prev_eq_none_iff.mpr hxs] at hb
      cases hb
    obtain ⟨c, hc, hac⟩ := h.chain.prev_mem hxs
    cases hac.symm.trans hb
    exact mem_append_left _ hc

theorem ListOf.unlink {a : Nat} (h : s.ListOf k (xs ++ a :: ys)) : (s.unlink k a).ListOf k (xs ++ ys) := by
  have hsub : List.Sublist (xs ++ ys) (xs ++ a :: ys) := List.Sublist.append_left (sublist_cons_self a ys) xs
  have hhead : (s.unlink k a).head k = if xs = [] then (s.ev a).next else s.head k := by
    unfold Loop.unlink
    dsimp only
    by_cases hxs : xs = []
    · rw [if_pos hxs, if_pos (h.prev_eq_none_iff.mpr hxs)]
      exact update_self ..
    · rw [if_neg hxs, if_neg (mt h.prev_eq_none_iff.mp hxs)]
  refine ⟨?_, h.nodup.sublist hsub, fun b hb => ?_⟩
  · rw [hhead]
    exact h.chain.unlink h.nodup (fun b _ hb => by cases hb) (fun b _ => next_unlink s k a b)
      fun b _ => prev_unlink s k a b
  · obtain ⟨hlt, hkind⟩ := h.known b (hsub.subset hb)
    exact ⟨hlt, (kind_unlink s k a b).trans hkind⟩

theorem ListOf.unlink_other {a : Nat} {zs : List Nat} (h : s.ListOf k (xs ++ a :: ys)) (h' : s.ListOf k' zs)
    (hk : k' ≠ k) : (s.unlink k a).ListOf k' zs := by
  have hhead : (s.unlink k a).head k' = s.head k' := by
    unfold Loop.unlink
    dsimp only
    split
    · exact update_of_ne hk ..
    · rfl
  refine h'.congr hhead (Nat.le_refl _) fun b hb => ?_
  have hnot : ¬ ((s.ev a).next = some b ∨ (s.ev a).prev = some b) := fun hlink => h.ne h' hk (h.links_mem hlink) hb rfl
  refine ⟨?_, ?_, kind_unlink s k a b⟩
  · rw [next_unlink, if_neg fun hb => hnot (.inr hb)]
  · rw [prev_unlink, if_neg fun hb => hnot (.inl hb)]

theorem stripFrom_spec {fuel : Nat} (h : s.ListOf k (ks ++ xs)) (hfuel : xs.length ≤ fuel) :
    ∃ t, stripFrom k fuel xs.head? s = some t ∧ t.ListOf k (ks ++ xs.filter fun b => !(s.ev b).flags.remove) ∧
      ∀ k' ≠ k, ∀ zs, s.ListOf k' zs → t.ListOf k' zs := by
  induction xs generalizing s ks fuel with
  | nil =>
    refine ⟨s, ?_, h, fun _ _ _ hzs => hzs⟩
    cases fuel <;> rfl
  | cons a xs ih =>
    obtain ⟨fuel, rfl⟩ : ∃ n, fuel = n + 1 := Nat.exists_eq_succ_of_ne_zero (by rw [length_cons] at hfuel; omega)
    have hlen : xs.length ≤ fuel := Nat.le_of_succ_le_succ hfuel
    have hnext : (s.ev a).next = xs.head? := h.chain.next_eq
    rw [List.head?_cons, stripFrom, hnext]
    cases hrem : (s.ev a).flags.remove with
    | true =>
      obtain ⟨t, ht, hkept, hothers⟩ := ih h.unlink hlen
      have hflags : ∀ b, ((s.unlink k a).ev b).flags = (s.ev b).flags := fun b => Ev.flags_of_core (core_unlink s k a b)
      refine ⟨t, ht, ?_, fun k' hk zs hzs => hothers k' hk zs (h.unlink_other hzs hk)⟩
      rw [filter_cons_of_neg (by rw [hrem]; decide)]
      simpa only [hflags] using hkept
    | false =>
      have hshift : s.ListOf k ((ks ++ [a]) ++ xs) := by
        rw [append_assoc]
        exact h
      obtain ⟨t, ht, hkept, hothers⟩ := ih hshift hlen
      refine ⟨t, ht, ?_, hothers⟩
      rw [filter_cons_of_pos (by rw [hrem]; rfl)]
      rw [append_assoc] at hkept
      exact hkept

def unflagged (s : Loop) (xs : List Nat) : List Nat := xs.filter fun b => !(s.ev b).flags.remove

theorem unflagged_congr (h : ∀ b, (t.ev b).core = (s.ev b).core) (xs : List Nat) : t.unflagged xs = s.unflagged xs := by
  unfold unflagged
  simp only [fun b => Ev.flags_of_core (h b)]

section

variable {lists : Kind → List Nat}

/-- **`strip_events`** takes the flagged events out and keeps the others. -/
theorem stripEvents_spec (h : ∀ k, s.ListOf k (lists k)) (k : Kind) :
    ∃ t, s.stripEvents k = some t ∧ (∀ b, (t.ev b).core = (s.ev b).core) ∧
      ∀ k', t.ListOf k' (if k' = k then s.unflagged (lists k') else lists k') := by
  have hlist : s.ListOf k ([] ++ lists k) := h k
  obtain ⟨t, ht, hkept, hothers⟩ := stripFrom_spec hlist (h k).length_le
  rw [← (h k).chain.head_eq] at ht
  refine ⟨t, ht, (stripFrom_core ht).2, fun k' => ?_⟩
  split
  · rename_i hk
    subst hk
    exact hkept
  · rename_i hk
    exact hothers k' hk _ (h k')

theorem finish_spec (h : ∀ k, s.ListOf k (lists k)) : ∃ t, s.finish = some t ∧ ∀ k, t.ListOf k (s.unflagged (lists k)) := by
  obtain ⟨s₁, h₁, hc₁, hl₁⟩ := stripEvents_spec h .time
  obtain ⟨s₂, h₂, hc₂, hl₂⟩ := stripEvents_spec hl₁ .fd
  obtain ⟨s₃, h₃, hc₃, hl₃⟩ := stripEvents_spec hl₂ .always
  refine ⟨s₃, ?_, fun k => ?_⟩
  · rw [finish, h₁, bind_some, h₂, bind_some, h₃]
  · have hk := hl₃ k
    simp only [unflagged_congr hc₂, unflagged_congr hc₁] at hk
    cases k <;> exact hk

end

theorem Linked.finish (h : s.Linked) : ∃ t, s.finish = some t ∧ t.Linked := by
  obtain ⟨lists, hlists⟩ := Classical.skolem.mp h
  obtain ⟨t, ht, hl⟩ := finish_spec hlists
  exact ⟨t, ht, fun k => ⟨_, hl k⟩⟩

theorem markFrom_total {fuel : Nat} {p : Option Nat} (h : Chain (fun b => (s.ev b).next) (fun b => (s.ev b).prev) p
    xs.head? xs) (hfuel : xs.length ≤ fuel) : ∃ t, markFrom fuel xs.head? s = some t := by
  induction xs generalizing s p fuel with
  | nil => exact ⟨s, by cases fuel <;> rfl⟩
  | cons a xs ih =>
    obtain ⟨fuel, rfl⟩ : ∃ n, fuel = n + 1 := Nat.exists_eq_succ_of_ne_zero (by rw [length_cons] at hfuel; omega)
    have hnext : (s.ev a).next = xs.head? := h.2.2.head_eq
    have hsame : ∀ b, ((s.modify a Ev.mark).ev b).next = (s.ev b).next ∧
        ((s.modify a Ev.mark).ev b).prev = (s.ev b).prev := by
      intro b
      rw [ev_modify]
      split
      · rename_i hb
        rw [hb]
        exact ⟨rfl, rfl⟩
      · exact ⟨rfl, rfl⟩
    rw [List.head?_cons, markFrom, hnext]
    refine ih (p := some a) ?_ (Nat.le_of_succ_le_succ hfuel)
    have hrest : Chain (fun b => (s.ev b).next) (fun b => (s.ev b).prev) (some a) xs.head? xs := hnext ▸ h.2.2
    exact hrest.congr (fun b _ => (hsame b).1) fun b _ => (hsame b).2

theorem sameLinks_of_markFrom {fuel : Nat} {p : Option Nat} (h : markFrom fuel p s = some t) (b : Nat) :
    SameLinks (t.ev b) (s.ev b) := by
  rcases (markFrom_ev h).2.2 b with hb | hb <;> rw [hb] <;> exact ⟨rfl, rfl, rfl⟩

theorem Linked.mark (h : s.Linked) (k : Kind) : ∃ t, markFrom s.fresh (s.head k) s = some t ∧ t.Linked := by
  obtain ⟨xs, hxs⟩ := h k
  have hchain := hxs.chain
  rw [hxs.chain.head_eq] at hchain
  obtain ⟨t, ht⟩ := markFrom_total hchain hxs.length_le
  rw [← hxs.chain.head_eq] at ht
  obtain ⟨hfresh, hhead, -⟩ := markFrom_ev ht
  exact ⟨t, ht, h.congr hhead (by omega) (sameLinks_of_markFrom ht)⟩

theorem Linked.markAll (h : s.Linked) : ∃ t, s.markAll = some t ∧ t.Linked := by
  obtain ⟨s₁, h₁, hl₁⟩ := h.mark .time
  obtain ⟨s₂, h₂, hl₂⟩ := hl₁.mark .always
  obtain ⟨s₃, h₃, hl₃⟩ := hl₂.mark .fd
  refine ⟨s₃, ?_, hl₃⟩
  rw [Loop.markAll, h₁, bind_some, h₂, bind_some, h₃]

theorem sameLinks_setEventInterval (x : Ev) (msec : Int32) : SameLinks (x.setEventInterval msec now) x := by
  unfold Ev.setEventInterval
  split
  · exact ⟨rfl, rfl, rfl⟩
  · exact ⟨rfl, rfl, rfl⟩

theorem sameLinks_fired (x : Ev) (k : Kind) : SameLinks (x.fired k now) x := by
  unfold Ev.fired
  split
  · exact ⟨rfl, rfl, rfl⟩
  · split
    · exact ⟨rfl, rfl, rfl⟩
    · exact ⟨rfl, rfl, rfl⟩

theorem Linked.atPc (h : s.Linked) (endLoop : Bool) (p : Pc) : { s with endLoop := endLoop, pc := p }.Linked :=
  h.congr rfl (Nat.le_refl _) fun _ => ⟨rfl, rfl, rfl⟩

theorem ListOf.on (h : s.ListOf k xs) {f : Ev → Ev} (hf : ∀ x, SameLinks (f x) x) (ho : s.on e f = some s') :
    s'.ListOf k xs := by
  obtain ⟨-, rfl⟩ := on_eq_some ho
  exact h.modify hf

theorem ListOf.call {now : TimeRef} {op : Op} (hl : s.Linked) (h : s.ListOf k xs) (hc : s.call now op = some s') :
    s'.ListOf k xs ∨ s'.ListOf k (s.fresh :: xs) := by
  have hadd : ∀ {k' : Kind} {t : Loop}, t.ListOf k (if k = k' then s.fresh :: xs else xs) →
      t.ListOf k xs ∨ t.ListOf k (s.fresh :: xs) := by
    intro k' t ht
    split at ht
    · exact .inr ht
    · exact .inl ht
  cases op with
  | addTimer msec oneshot =>
    cases hc
    have hlink := h.link hl .time ⟨false, false, oneshot, false⟩ now msec
    exact hadd (hlink.modify fun _ => ⟨rfl, rfl, rfl⟩)
  | addAlarm t left =>
    cases hc
    have hlink := h.link hl .time ⟨false, false, true, false⟩ t left
    exact hadd (hlink.modify fun _ => ⟨rfl, rfl, rfl⟩)
  | addFd oneshot =>
    cases hc
    exact hadd (h.link hl .fd _ _ _)
  | addAlways oneshot =>
    cases hc
    exact hadd (h.link hl .always _ _ _)
  | resched b t => exact .inl (h.on (f := fun x => x.resched t now) (fun _ => ⟨rfl, rfl, rfl⟩) hc)
  | remove b => exact .inl (h.on (f := Ev.removeEvent) (fun _ => ⟨rfl, rfl, rfl⟩) hc)
  | setInterval b msec => exact .inl (h.on (fun x => sameLinks_setEventInterval x msec) hc)
  | setEnabled b enabled => exact .inl (h.on (f := fun x => x.setEventEnabled enabled) (fun _ => ⟨rfl, rfl, rfl⟩) hc)
  | exitLoop =>
    cases hc
    exact .inl (h.congr rfl (Nat.le_refl _) fun _ _ => ⟨rfl, rfl, rfl⟩)

theorem Linked.call {now : TimeRef} {op : Op} (h : s.Linked) (hc : s.call now op = some s') : s'.Linked := by
  intro k
  obtain ⟨xs, hxs⟩ := h k
  rcases hxs.call h hc with hxs | hxs
  · exact ⟨_, hxs⟩
  · exact ⟨_, hxs⟩

/-- **One step** keeps the lists linked. -/
theorem step_linked (h : s.Linked) (hs : s.step a = some s') : s'.Linked := by
  cases step_cases hs with
  | @go p => exact h.atPc s.endLoop p
  | begins _ _ _ hmark =>
    obtain ⟨t, ht, hl⟩ := h.markAll
    cases ht.symm.trans hmark
    exact hl.atPc false _
  | @fires k b =>
    have hfired := h.modify (e := b) (f := fun x => x.fired k a.1) fun x => sameLinks_fired x k
    exact hfired.atPc s.endLoop (.calling k b)
  | ends _ _ hfinish =>
    obtain ⟨t, ht, hl⟩ := h.finish
    cases ht.symm.trans hfinish
    exact hl.atPc _ .idle
  | calls _ _ hcall => exact h.call hcall

theorem start_linked : start.Linked := fun _ => ⟨[], rfl, by simp, fun _ hb => by cases hb⟩

theorem linked_of_run {acts : List Act} (h : run step start acts = some s) : s.Linked :=
  (always_of_step (fun _ _ _ hl hs => step_linked hl hs) start_linked).last h

end

end Loop

/-! ## Removal is final -/

def Op.Adds (op : Op) : Prop :=
  (∃ msec oneshot, op = .addTimer msec oneshot) ∨ (∃ t left, op = .addAlarm t left) ∨ (∃ oneshot, op = .addFd oneshot) ∨
    ∃ oneshot, op = .addAlways oneshot

namespace Loop

variable {s s' : Loop} {now : TimeRef} {op : Op} {e : Nat}

theorem quiet_of_remove (h : s.call now (.remove e) = some s') : s'.Quiet e := by
  obtain ⟨he, rfl⟩ := on_eq_some h
  refine ⟨⟨he, ?_⟩, ?_⟩
  · rw [ev_modify, if_pos rfl]
    rfl
  · rw [ev_modify, if_pos rfl]
    rfl

theorem running_link (k : Kind) (flags : Flags) (fire : TimeRef) (ival : Int32) :
    ((s.link k flags fire ival).ev s.fresh).flags.running = flags.running := by
  unfold link setPrev
  dsimp only
  rw [update_self]
  split <;> rfl

theorem waiting_of_adds (h : s.call now op = some s') (hop : op.Adds) : s'.Waiting s.fresh := by
  rcases hop with ⟨msec, oneshot, rfl⟩ | ⟨t, left, rfl⟩ | ⟨oneshot, rfl⟩ | ⟨oneshot, rfl⟩
  · cases h
    refine ⟨Nat.lt_succ_self _, ?_⟩
    rw [ev_modify, if_pos rfl]
    exact running_link ..
  · cases h
    refine ⟨Nat.lt_succ_self _, ?_⟩
    rw [ev_modify, if_pos rfl]
    exact running_link ..
  · cases h
    exact ⟨Nat.lt_succ_self _, running_link ..⟩
  · cases h
    exact ⟨Nat.lt_succ_self _, running_link ..⟩

theorem call_of_step (h : s.step (now, .call op) = some s') : s.call now op = some s' := by
  unfold step at h
  cases hpc : s.pc with
  | idle =>
    rw [hpc] at h
    exact h
  | scan k e =>
    rw [hpc] at h
    cases h
  | calling k e =>
    rw [hpc] at h
    exact h

theorem quiet_of_run {later : List Act} (hq : s.Quiet e) (hlater : ∀ b ∈ later, ¬ b.2.Revives e)
    (h : run step s later = some s') : s'.Quiet e :=
  (always_of_eachStep (fun _ _ _ hq hrev hs => step_quiet hs hrev hq) hq (eachStep_of_forall hlater s)).last h

theorem waiting_of_run {later : List Act} (hw : s.Waiting e) (hlater : ∀ b ∈ later, b.2 ≠ .startPass)
    (h : run step s later = some s') : s'.Waiting e :=
  (always_of_eachStep (fun _ _ _ hw hno hs => step_waiting hs hno hw) hw (eachStep_of_forall hlater s)).last h

end Loop

open Loop in
/-- **Removal is final**, and a new event does not run in the pass that adds it. -/
theorem event_removal_final {acts : List Act} {s : Loop} (h : run step start acts = some s) :
    (∀ e now s₁ later s₂ a, s.step (now, .call (.remove e)) = some s₁ → (∀ b ∈ later, ¬ b.2.Revives e) →
      run step s₁ later = some s₂ → s₂.invoked a ≠ some e) ∧
    (∀ op now s₁ later s₂ a, op.Adds → s.step (now, .call op) = some s₁ → (∀ b ∈ later, b.2 ≠ .startPass) →
      run step s₁ later = some s₂ → s₂.invoked a ≠ some s.fresh) ∧ ∃ lists : Kind → List Nat, (∀ k, s.ListOf k (lists k)) ∧
      (∀ k, ∃ t, s.stripEvents k = some t ∧ (∀ b, (t.ev b).core = (s.ev b).core) ∧
        ∀ k', t.ListOf k' (if k' = k then s.unflagged (lists k') else lists k')) ∧
      ∃ t, s.finish = some t ∧ ∀ k, t.ListOf k (s.unflagged (lists k)) := by
  refine ⟨?_, ?_, ?_⟩
  · intro e now s₁ later s₂ a hs hlater hr
    exact invoked_ne (quiet_of_run (quiet_of_remove (call_of_step hs)) hlater hr).1.2
  · intro op now s₁ later s₂ a hop hs hlater hr
    exact invoked_ne (waiting_of_run (waiting_of_adds (call_of_step hs) hop) hlater hr).2
  · obtain ⟨lists, hlists⟩ := Classical.skolem.mp (linked_of_run h)
    exact ⟨lists, hlists, stripEvents_spec hlists, finish_spec hlists⟩

/-- The timer's callback is being called. -/
def timerCalled : List Act :=
  [(⟨0, 0⟩, .call (.addTimer 0 false)), (⟨0, 0⟩, .call (.addAlways false)), (⟨0, 0⟩, .startPass), (⟨0, 0⟩, .visit false)]

open Loop in
theorem event_removal_final_timerCalled : ∃ s s₁ s₂, run step start timerCalled = some s ∧ s.pc = .calling .time 0 ∧
    s.step (⟨0, 0⟩, .call (.remove 1)) = some s₁ ∧ run step s₁ [(⟨0, 0⟩, .ret), (⟨0, 0⟩, .advance false)] = some s₂ ∧
    s₂.pc = .scan .always (some 1) ∧ (s.ev 1).flags.running = true ∧ s₂.invoked (⟨0, 0⟩, .visit false) ≠ some 1 := by
  refine ⟨_, _, _, rfl, rfl, rfl, rfl, rfl, rfl, ?_⟩
  refine (event_removal_final (h := (rfl : run step start timerCalled = some _))).1 1 ⟨0, 0⟩ _
    [(⟨0, 0⟩, .ret), (⟨0, 0⟩, .advance false)] _ _ rfl ?_ rfl
  simp [Move.Revives]

end NuWicam.Event
