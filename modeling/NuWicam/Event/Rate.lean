import NuWicam.Event.Removal

/-!
# How often a timer fires (`event.c`, `rtp.c`)

A timer's next deadline is its last one plus the interval, and `set_event_enabled` does not touch it: a timer that was
disabled for some time fires once a pass until its deadline has caught up with the clock (`timer_rate_bounded`).
-/

namespace NuWicam.Event

open Lib List

namespace Loop

variable {s s' : Loop} {a : Act} {k k' : Kind} {e b : Nat} {xs ys : List Nat}

/-! ## Where the loop is -/

/-- The pass is in the list, and has still to come to the events `ys`. -/
def Ahead (s : Loop) (k : Kind) (ys : List Nat) : Prop :=
  ∃ xs, s.ListOf k (xs ++ ys) ∧ (s.pc = .scan k ys.head? ∨ ∃ b, s.pc = .calling k b ∧ xs.getLast? = some b)

/-- The timers that the loop has still to come to, in this pass or, if it is idle, in the next one, are as `Q` says. -/
def Within (s : Loop) (Q : List Nat → Prop) : Prop :=
  (s.pc = .idle ∧ ∃ xs, s.ListOf .time xs ∧ Q xs) ∨
  (∃ ys, s.Ahead .time ys ∧ Q ys) ∨
  ∃ k ys, k ≠ .time ∧ s.Ahead k ys

theorem ListOf.atPc (h : s.ListOf k xs) (endLoop : Bool) (p : Pc) : { s with endLoop := endLoop, pc := p }.ListOf k xs :=
  h.congr rfl (Nat.le_refl _) fun _ _ => ⟨rfl, rfl, rfl⟩

theorem Ahead.at_event (h : s.Ahead k ys) (hat : s.pc = .scan k' (some e) ∨ s.pc = .calling k' e) :
    k' = k ∧ ∃ xs zs, s.ListOf k (xs ++ e :: zs) ∧
      (s.pc = .scan k (some e) ∧ ys = e :: zs ∨ s.pc = .calling k e ∧ ys = zs) := by
  obtain ⟨xs, hlist, hscan | ⟨b, hcall, hlast⟩⟩ := h
  · rcases hat with hat | hat
    · rw [hscan] at hat
      injection hat with hk hhead
      obtain ⟨zs, rfl⟩ := List.head?_eq_some_iff.mp hhead
      exact ⟨hk.symm, xs, zs, hlist, .inl ⟨hscan, rfl⟩⟩
    · cases hscan.symm.trans hat
  · rcases hat with hat | hat
    · cases hcall.symm.trans hat
    · rw [hcall] at hat
      injection hat with hk hb
      subst hb
      obtain ⟨xs', rfl⟩ := List.getLast?_eq_some_iff.mp hlast
      rw [append_assoc] at hlist
      exact ⟨hk.symm, xs', ys, hlist, .inr ⟨hcall, rfl⟩⟩

theorem Ahead.not_idle (h : s.Ahead k ys) : s.pc ≠ .idle := by
  obtain ⟨xs, -, hscan | ⟨b, hcall, -⟩⟩ := h
  · rw [hscan]
    exact Pc.noConfusion
  · rw [hcall]
    exact Pc.noConfusion

theorem Ahead.behind (h : s.Ahead k ys) (hat : s.pc = .scan k' (some e) ∨ s.pc = .calling k' e) :
    k' = k ∧ ∃ zs, { s with pc := .scan k' (s.ev e).next }.Ahead k zs ∧ (ys = e :: zs ∨ ys = zs) := by
  obtain ⟨rfl, xs, zs, hlist, hys⟩ := h.at_event hat
  have hnext : (s.ev e).next = zs.head? := hlist.chain.next_eq
  refine ⟨rfl, zs, ⟨xs ++ [e], ?_, .inl (by rw [hnext])⟩, hys.imp And.right And.right⟩
  rw [append_assoc]
  exact hlist.atPc s.endLoop _

theorem Ahead.called {f : Ev → Ev} (hf : ∀ x, SameLinks (f x) x) (h : s.Ahead k ys) (hpc : s.pc = .scan k' (some e)) :
    k' = k ∧ ∃ zs, { s.modify e f with pc := .calling k' e }.Ahead k zs ∧ ys = e :: zs ∧ e ∉ zs := by
  obtain ⟨rfl, xs, zs, hlist, ⟨-, rfl⟩ | ⟨hcall, -⟩⟩ := h.at_event (.inl hpc)
  · have hnot : e ∉ zs := (nodup_cons.mp (nodup_append.mp hlist.nodup).2.1).1
    refine ⟨rfl, zs, ⟨xs ++ [e], ?_, .inr ⟨e, rfl, List.getLast?_concat⟩⟩, rfl, hnot⟩
    rw [append_assoc]
    exact (hlist.modify hf).atPc s.endLoop _
  · cases hpc.symm.trans hcall

variable {now : TimeRef} {acts : List Act}

theorem call_pc {op : Op} (h : s.call now op = some s') : s'.pc = s.pc := by
  have hon : ∀ {b : Nat} {f : Ev → Ev}, s.on b f = some s' → s'.pc = s.pc := by
    intro b f hb
    obtain ⟨-, rfl⟩ := on_eq_some hb
    rfl
  cases op with
  | addTimer | addAlarm | addFd | addAlways | exitLoop =>
    cases h
    rfl
  | resched | remove | setInterval | setEnabled => exact hon h

theorem Ahead.call {op : Op} (hl : s.Linked) (h : s.Ahead k ys) (hc : s.call now op = some s') : s'.Ahead k ys := by
  obtain ⟨xs, hlist, hpc⟩ := h
  rw [← call_pc hc] at hpc
  rcases hlist.call hl hc with hlist | hlist
  · exact ⟨xs, hlist, hpc⟩
  · refine ⟨s.fresh :: xs, hlist, hpc.imp_right ?_⟩
    rintro ⟨b, hb, hlast⟩
    obtain ⟨xs', rfl⟩ := List.getLast?_eq_some_iff.mp hlast
    exact ⟨b, hb, List.getLast?_concat (l := s.fresh :: xs')⟩

section

variable {Q : List Nat → Prop}

/-- **One step** leaves fewer timers to look at, apart from new ones. -/
theorem step_within (hnil : Q []) (htail : ∀ {b ys}, Q (b :: ys) → Q ys) (hnew : ∀ {xs}, Q xs → Q (s.fresh :: xs))
    (hend : ∀ {xs}, s.ListOf .time xs → Q (s.unflagged xs)) (hl : s.Linked) (hw : s.Within Q)
    (h : s.step a = some s') : s'.Within Q := by
  cases step_cases h with
  | go _ _ hgoes =>
    rcases hgoes with ⟨k, e, hat, rfl⟩ | ⟨k, rfl⟩ | ⟨k, hk, rfl⟩
    · rcases hw with ⟨hidle, -⟩ | ⟨ys, hys, hq⟩ | ⟨k', ys, hk', hys⟩
      · rw [hidle] at hat
        rcases hat with hat | hat <;> cases hat
      · obtain ⟨-, zs, hzs, rfl | rfl⟩ := hys.behind hat
        · exact .inr (.inl ⟨zs, hzs, htail hq⟩)
        · exact .inr (.inl ⟨ys, hzs, hq⟩)
      · obtain ⟨-, zs, hzs, -⟩ := hys.behind hat
        exact .inr (.inr ⟨k', zs, hk', hzs⟩)
    · obtain ⟨xs, hxs⟩ := hl k
      have hout : { s with pc := .scan k none }.Ahead k [] := by
        refine ⟨xs, ?_, .inl rfl⟩
        rw [append_nil]
        exact hxs.atPc s.endLoop _
      by_cases hk : k = .time
      · subst hk
        exact .inr (.inl ⟨[], hout, hnil⟩)
      · exact .inr (.inr ⟨k, [], hk, hout⟩)
    · obtain ⟨xs, hxs⟩ := hl k
      exact .inr (.inr ⟨k, xs, hk, [], hxs.atPc s.endLoop _, .inl (by rw [hxs.chain.head_eq])⟩)
  | @begins t _ _ hpc hmark =>
    rcases hw with ⟨-, xs, hxs, hq⟩ | ⟨ys, hys, -⟩ | ⟨k, ys, -, hys⟩
    · obtain ⟨hfresh, hhead, hev⟩ := markAll_ev hmark
      have hmarked : t.ListOf .time xs := by
        refine hxs.congr (congrFun hhead _) (by omega) fun b _ => ?_
        rcases hev b with hb | hb <;> rw [hb] <;> exact ⟨rfl, rfl, rfl⟩
      exact .inr (.inl ⟨xs, ⟨[], hmarked.atPc false _, .inl (by rw [hmarked.chain.head_eq])⟩, hq⟩)
    · exact absurd hpc hys.not_idle
    · exact absurd hpc hys.not_idle
  | fires _ _ hpc =>
    rcases hw with ⟨hidle, -⟩ | ⟨ys, hys, hq⟩ | ⟨k', ys, hk', hys⟩
    · cases hidle.symm.trans hpc
    · obtain ⟨rfl, zs, hzs, rfl, -⟩ := hys.called (fun x => sameLinks_fired x .time) hpc
      exact .inr (.inl ⟨zs, hzs, htail hq⟩)
    · obtain ⟨rfl, zs, hzs, -⟩ := hys.called (fun x => sameLinks_fired x k') hpc
      exact .inr (.inr ⟨_, zs, hk', hzs⟩)
  | ends _ _ hfinish =>
    obtain ⟨lists, hlists⟩ := Classical.skolem.mp hl
    obtain ⟨t, ht, hstripped⟩ := finish_spec hlists
    cases ht.symm.trans hfinish
    exact .inl ⟨rfl, _, (hstripped .time).atPc _ _, hend (hlists .time)⟩
  | calls _ _ hcall =>
    rcases hw with ⟨hidle, xs, hxs, hq⟩ | ⟨ys, hys, hq⟩ | ⟨k, ys, hk, hys⟩
    · refine .inl ⟨(call_pc hcall).trans hidle, ?_⟩
      rcases hxs.call hl hcall with hxs | hxs
      · exact ⟨xs, hxs, hq⟩
      · exact ⟨_, hxs, hnew hq⟩
    · exact .inr (.inl ⟨ys, hys.call hl hcall, hq⟩)
    · exact .inr (.inr ⟨k, ys, hk, hys.call hl hcall⟩)

end

def Sound (s : Loop) : Prop := s.Linked ∧ s.Within fun _ => True

theorem step_sound (hs : s.Sound) (h : s.step a = some s') : s'.Sound :=
  ⟨step_linked hs.1 h, step_within trivial (fun _ => trivial) (fun _ => trivial) (fun _ => trivial) hs.1 hs.2 h⟩

theorem sound_of_run (h : run step start acts = some s) : s.Sound := by
  have hstart : start.Sound := by
    obtain ⟨xs, hxs⟩ := start_linked .time
    exact ⟨start_linked, .inl ⟨rfl, xs, hxs, trivial⟩⟩
  exact (always_of_step (fun _ _ _ hs hstep => step_sound hs hstep) hstart).last h

theorem Sound.kind_eq (hs : s.Sound) (hpc : s.pc = .scan k (some e)) : (s.ev e).kind = k := by
  have hown : ∀ {k' ys}, s.Ahead k' ys → (s.ev e).kind = k := by
    intro k' ys hys
    obtain ⟨rfl, xs, zs, hlist, -⟩ := hys.at_event (.inl hpc)
    exact (hlist.known e (by simp)).2
  rcases hs.2 with ⟨hidle, -⟩ | ⟨ys, hys, -⟩ | ⟨k', ys, -, hys⟩
  · cases hidle.symm.trans hpc
  · exact hown hys
  · exact hown hys

theorem pc_of_invoked (h : s.invoked a = some e) : ∃ k, s.pc = .scan k (some e) := by
  unfold invoked at h
  split at h
  · rename_i k b isset hpc hm
    split at h
    · cases h
      exact ⟨k, hpc⟩
    · cases h
  · cases h

theorem fires_of_invoked (hs : s.Sound) (hkind : (s.ev e).kind = .time) (hinv : s.invoked a = some e) (h : s.step a = some s') :
    s.pc = .scan .time (some e) ∧ (s.ev e).flags.running ∧ (timeLeft (s.ev e).fire a.1).toInt < 5 ∧
      s' = { s.modify e (·.fired .time a.1) with pc := .calling .time e } := by
  cases step_cases h with
  | go hnone | begins hnone | ends hnone | calls hnone => cases hinv.symm.trans hnone
  | @fires k b isset hb hm hpc hrun hdue =>
    cases hinv.symm.trans hb
    obtain rfl : k = .time := (hs.kind_eq hpc).symm.trans hkind
    refine ⟨hpc, hrun, ?_, rfl⟩
    have hless : timeLeft (s.ev e).fire a.1 < 5 := of_decide_eq_true hdue
    rw [Int32.lt_iff_toInt_lt] at hless
    exact hless

/-! ## A timer between its calls -/

def SameTiming (x y : Ev) : Prop :=
  x.kind = y.kind ∧ x.fire = y.fire ∧ x.ival = y.ival ∧ x.flags.oneshot = y.flags.oneshot

theorem sameTiming_of_core {x y : Ev} (h : x.core = y.core) : SameTiming x y := by
  have hfields : SameTiming x.core y.core := by
    rw [h]
    exact ⟨rfl, rfl, rfl, rfl⟩
  exact hfields

def Steady (x : Ev) : Prop := x.flags.running = true → x.flags.enabled = true

def Undisturbed (e : Nat) (s : Loop) (a : Act) : Prop :=
  (∀ t, a.2 ≠ .call (.resched e t)) ∧ (∀ msec, a.2 ≠ .call (.setInterval e msec)) ∧
    (a.2 = .call (.setEnabled e false) → (s.ev e).flags.running = false)

theorem undisturbed_of_loop (h : ∀ op, a.2 ≠ .call op) : Undisturbed e s a :=
  ⟨fun _ => h _, fun _ => h _, fun hcall => absurd hcall (h _)⟩

structure Between (e : Nat) (s s' : Loop) : Prop where
  known : e < s'.fresh
  timing : SameTiming (s'.ev e) (s.ev e)
  steady : Steady (s.ev e) → Steady (s'.ev e)
  flagged : (s.ev e).flags.remove = true → (s'.ev e).flags.remove = true

theorem between_of_core (he : e < s'.fresh) (h : (s'.ev e).core = (s.ev e).core) : Between e s s' := by
  have hflags := Ev.flags_of_core h
  refine ⟨he, sameTiming_of_core h, fun hsteady => ?_, fun hrem => ?_⟩
  · unfold Steady
    rw [hflags]
    exact hsteady
  · rw [hflags]
    exact hrem

theorem between_of_call {op : Op} (he : e < s.fresh) (hu : Undisturbed e s (now, .call op))
    (h : s.call now op = some s') : Between e s s' := by
  by_cases ht : op.target = some e
  · have hon : ∀ {f : Ev → Ev}, SameTiming (f (s.ev e)) (s.ev e) → (Steady (s.ev e) → Steady (f (s.ev e))) →
        ((s.ev e).flags.remove → (f (s.ev e)).flags.remove) → s.on e f = some s' → Between e s s' := by
      intro f htiming hsteady hrem hf
      obtain ⟨-, rfl⟩ := on_eq_some hf
      have hev : (s.modify e f).ev e = f (s.ev e) := by rw [ev_modify, if_pos rfl]
      exact ⟨he, hev ▸ htiming, hev ▸ hsteady, hev ▸ hrem⟩
    cases op with
    | resched b t =>
      cases ht
      exact absurd rfl (hu.1 t)
    | setInterval b msec =>
      cases ht
      exact absurd rfl (hu.2.1 msec)
    | remove b =>
      cases ht
      exact hon ⟨rfl, rfl, rfl, rfl⟩ (fun _ hrun => by cases hrun) (fun _ => rfl) h
    | setEnabled b enabled =>
      cases ht
      refine hon (f := fun x => x.setEventEnabled enabled) ⟨rfl, rfl, rfl, rfl⟩ (fun _ hrun => ?_) (fun hrem => hrem) h
      cases enabled with
      | true => rfl
      | false =>
        have hnot := hu.2.2 rfl
        rw [show (s.ev e).flags.running = true from hrun] at hnot
        cases hnot
    | addTimer | addAlarm | addFd | addAlways | exitLoop => cases ht
  · obtain ⟨hlt, hcore⟩ := call_core h he ht
    exact between_of_core hlt hcore

/-- **One step**: when a timer fires changes only as it fires. -/
theorem step_between (he : e < s.fresh) (hu : Undisturbed e s a) (hinv : s.invoked a ≠ some e)
    (h : s.step a = some s') : Between e s s' := by
  cases step_cases h with
  | go => exact between_of_core he rfl
  | @begins t _ _ _ hmark =>
    obtain ⟨hfresh, -, hev⟩ := markAll_ev hmark
    have hlt : e < t.fresh := by omega
    rcases hev e with hb | hb
    · exact between_of_core hlt (congrArg Ev.core hb)
    · have hmarked : Between e s t := by
        refine ⟨hlt, ?_, ?_, ?_⟩
        · rw [hb]
          exact ⟨rfl, rfl, rfl, rfl⟩
        · rw [hb]
          exact fun _ hrun => hrun
        · rw [hb]
          exact fun hrem => hrem
      exact ⟨hlt, hmarked.timing, hmarked.steady, hmarked.flagged⟩
  | @fires k b _ hb =>
    have hne : e ≠ b := by
      rintro rfl
      exact hinv hb
    refine between_of_core he ?_
    rw [ev_modify, if_neg hne]
  | ends _ _ hfinish =>
    obtain ⟨hfresh, hcore⟩ := finish_core hfinish
    exact between_of_core (Nat.lt_of_lt_of_eq he hfresh.symm) (hcore e)
  | @calls op _ _ hm hcall =>
    have ha : a = (a.1, .call op) := by rw [← hm]
    rw [ha] at hu
    exact between_of_call he hu hcall

/-! ## The number of calls -/

def callsOf (e : Nat) : Loop → List Act → Nat
  | _, [] => 0
  | s, a :: acts => (if s.invoked a = some e then 1 else 0) + (s.step a).elim 0 fun s' => callsOf e s' acts

theorem callsOf_cons (h : s.step a = some s') (acts : List Act) :
    callsOf e s (a :: acts) = (if s.invoked a = some e then 1 else 0) + callsOf e s' acts := by
  rw [callsOf, h]
  rfl

theorem invoked_of_stuck (h : s.step a = none) : s.invoked a = none := by
  cases hinv : s.invoked a with
  | none => rfl
  | some b =>
    obtain ⟨k, hpc⟩ := pc_of_invoked hinv
    cases hm : a.2 with
    | visit isset =>
      unfold step at h
      rw [hm, hpc] at h
      dsimp only at h
      split at h
      · cases h
      · split at h
        · cases h
        · split at h <;> cases h
    | startPass | advance | call | ret =>
      rw [invoked_eq_none fun isset => by rw [hm]; exact Move.noConfusion] at hinv
      cases hinv

theorem callsOf_stuck (h : s.step a = none) (acts : List Act) : callsOf e s (a :: acts) = 0 := by
  rw [callsOf, h, invoked_of_stuck h]
  rfl

/-! ### Timers that fire once -/

/-- A `oneshot` timer that has fired. -/
structure Spent (e : Nat) (s : Loop) : Prop where
  known : e < s.fresh
  kind : (s.ev e).kind = .time
  flagged : (s.ev e).flags.remove = true
  passed : s.Within fun ys => e ∉ ys

theorem Spent.not_invoked (h : Spent e s) : s.invoked a ≠ some e := by
  intro hinv
  obtain ⟨k, hpc⟩ := pc_of_invoked hinv
  rcases h.passed with ⟨hidle, -⟩ | ⟨ys, hys, hnot⟩ | ⟨k', ys, hk', hys⟩
  · cases hidle.symm.trans hpc
  · obtain ⟨-, -, zs, -, ⟨-, rfl⟩ | ⟨hcall, -⟩⟩ := hys.at_event (.inl hpc)
    · exact hnot mem_cons_self
    · cases hpc.symm.trans hcall
  · obtain ⟨-, xs, zs, hlist, -⟩ := hys.at_event (.inl hpc)
    have hown := (hlist.known e (by simp)).2
    exact hk' (hown.symm.trans h.kind)

theorem step_spent (hl : s.Linked) (hu : Undisturbed e s a) (h : Spent e s) (hs : s.step a = some s') : Spent e s' := by
  have hb := step_between h.known hu h.not_invoked hs
  refine ⟨hb.known, hb.timing.1.trans h.kind, hb.flagged h.flagged, ?_⟩
  refine step_within not_mem_nil (fun hnot hmem => hnot (mem_cons_of_mem _ hmem)) ?_ ?_ hl h.passed hs
  · intro xs hnot hmem
    rcases mem_cons.mp hmem with rfl | hmem
    · exact Nat.lt_irrefl _ h.known
    · exact hnot hmem
  · intro xs _ hmem
    have hkept := (mem_filter.mp hmem).2
    rw [h.flagged] at hkept
    cases hkept

theorem spent_of_fired (hs : s.Sound) (he : e < s.fresh) (hkind : (s.ev e).kind = .time)
    (honce : (s.ev e).flags.oneshot) (hinv : s.invoked a = some e) (h : s.step a = some s') : Spent e s' := by
  obtain ⟨hpc, -, -, rfl⟩ := fires_of_invoked hs hkind hinv h
  have hev : (s.modify e fun x => x.fired .time a.1).ev e =
      { s.ev e with flags := { (s.ev e).flags with remove := true } } := by
    rw [ev_modify, if_pos rfl, Ev.fired, if_pos honce]
  refine ⟨he, (congrArg Ev.kind hev).trans hkind, congrArg (·.flags.remove) hev, ?_⟩
  rcases hs.2 with ⟨hidle, -⟩ | ⟨ys, hys, -⟩ | ⟨k', ys, hk', hys⟩
  · cases hidle.symm.trans hpc
  · obtain ⟨-, zs, hzs, -, hnot⟩ := hys.called (fun x => sameLinks_fired x .time) hpc
    exact .inr (.inl ⟨zs, hzs, hnot⟩)
  · exact absurd (hys.at_event (.inl hpc)).1.symm hk'

theorem callsOf_spent (hl : s.Linked) (hu : EachStep step (Undisturbed e) s acts) (h : Spent e s) : callsOf e s acts = 0 := by
  induction acts generalizing s with
  | nil => rfl
  | cons a acts ih =>
    cases hstep : s.step a with
    | none => exact callsOf_stuck hstep acts
    | some s' =>
      obtain ⟨hua, hrest⟩ := hu s' hstep
      rw [callsOf_cons hstep, if_neg h.not_invoked, ih (step_linked hl hstep) hrest (step_spent hl hua h hstep)]

/-- **A `oneshot` timer fires once** in a run. -/
theorem callsOf_oneshot (hs : s.Sound) (he : e < s.fresh) (hkind : (s.ev e).kind = .time)
    (honce : (s.ev e).flags.oneshot) (hu : EachStep step (Undisturbed e) s acts) : callsOf e s acts ≤ 1 := by
  induction acts generalizing s with
  | nil => exact Nat.zero_le _
  | cons a acts ih =>
    cases hstep : s.step a with
    | none =>
      rw [callsOf_stuck hstep]
      omega
    | some s' =>
      obtain ⟨hua, hrest⟩ := hu s' hstep
      have hs' := step_sound hs hstep
      rw [callsOf_cons hstep]
      by_cases hinv : s.invoked a = some e
      · have hspent := spent_of_fired hs he hkind honce hinv hstep
        rw [if_pos hinv, callsOf_spent hs'.1 hrest hspent]
      · have hb := step_between he hua hinv hstep
        rw [if_neg hinv, Nat.zero_add]
        exact ih hs' hb.known (hb.timing.1.trans hkind) (hb.timing.2.2.2.trans honce) hrest

/-! ### Timers that fire again and again -/

theorem near_of_due {fire : TimeRef} {d k : Int} (hd : fire.micros = d + 4294967296 * k)
    (hfar : d ≤ now.micros + 2147483648) (hdue : (timeLeft fire now).toInt < 5) : d < now.micros + 5500 := by
  have hleft : (timeLeft fire now).toInt = -computed (now.micros - d) := by
    rw [timeLeft_toInt]
    exact congrArg _ (computed_congr (k := -k) (by omega))
  rw [hleft] at hdue
  unfold computed at hdue
  obtain ⟨j, hj, hlow, hhigh⟩ := bmod_cases (now.micros - d + 500)
  generalize (now.micros - d + 500).bmod (2 ^ 32) = y at hj hlow hhigh hdue
  rcases tdiv_cases y with ⟨hy, hq⟩ | ⟨hy, hq⟩
  · omega
  · omega

/-- A timer that has fired `n` times since `t₀`: its deadline is at least `n` intervals after `t₀`, and the last one it fired
for was not after `now`. -/
structure OnSchedule (e : Nat) (ival t₀ : Int) (s : Loop) (now : Int) (n : Nat) : Prop where
  known : e < s.fresh
  kind : (s.ev e).kind = .time
  periodic : (s.ev e).flags.oneshot = false
  interval : (s.ev e).ival.toInt = ival
  steady : Steady (s.ev e)
  deadline : ∃ d k, (s.ev e).fire.micros = d + 4294967296 * k ∧ t₀ + 499 + n * (1000 * ival) ≤ d ∧ d ≤ now + 2147483648
  count : n * (1000 * ival) ≤ now - t₀ + 5000 + 1000 * ival

section

variable {ival t₀ now : Int} {n : Nat}

theorem OnSchedule.fires (h : OnSchedule e ival t₀ s now n) (hfit : 1000 * ival + 5000 ≤ 2147483648) (hs : s.Sound)
    (hnow : now ≤ a.1.micros) (hinv : s.invoked a = some e) (hstep : s.step a = some s') :
    OnSchedule e ival t₀ s' a.1.micros (n + 1) := by
  obtain ⟨-, hrun, hdue, rfl⟩ := fires_of_invoked hs h.kind hinv hstep
  have hev : (s.modify e fun x => x.fired .time a.1).ev e = (s.ev e).resched none a.1 := by
    rw [ev_modify, if_pos rfl, Ev.fired, if_neg (by rw [h.periodic]; exact Bool.noConfusion), if_pos rfl]
  have hfire : ((s.ev e).resched none a.1).fire = timeAdd (s.ev e).fire (s.ev e).ival := by
    unfold Ev.resched
    rw [if_pos (h.steady hrun)]
    rfl
  obtain ⟨d, k, hd, hlow, hhigh⟩ := h.deadline
  have hnear := near_of_due hd (by omega) hdue
  obtain ⟨j, hj⟩ := micros_timeAdd (s.ev e).fire (s.ev e).ival
  rw [h.interval] at hj
  have hnext : ((n + 1 : Nat) : Int) * (1000 * ival) = n * (1000 * ival) + 1000 * ival := by
    rw [Int.natCast_add, Int.add_mul, Int.natCast_one, Int.one_mul]
  refine ⟨h.known, ?_, ?_, ?_, ?_, ?_, ?_⟩
  · exact (congrArg Ev.kind hev).trans h.kind
  · exact (congrArg (·.flags.oneshot) hev).trans h.periodic
  · exact (congrArg (·.ival.toInt) hev).trans h.interval
  · intro _
    exact congrArg (·.flags.enabled) hev
  · refine ⟨d + 1000 * ival, k + j, ?_, ?_, ?_⟩
    · refine (congrArg (·.fire.micros) hev).trans ?_
      rw [hfire, hj, hd]
      omega
    · omega
    · omega
  · omega

theorem OnSchedule.goes (h : OnSchedule e ival t₀ s now n) (hu : Undisturbed e s a) (hnow : now ≤ a.1.micros)
    (hinv : s.invoked a ≠ some e) (hstep : s.step a = some s') : OnSchedule e ival t₀ s' a.1.micros n := by
  have hb := step_between h.known hu hinv hstep
  obtain ⟨hkind, hfire, hival, hone⟩ := hb.timing
  have hcount := h.count
  refine ⟨hb.known, hkind.trans h.kind, hone.trans h.periodic, ?_, hb.steady h.steady, ?_, by omega⟩
  · rw [hival]
    exact h.interval
  · obtain ⟨d, k, hd, hlow, hhigh⟩ := h.deadline
    rw [hfire]
    exact ⟨d, k, hd, hlow, by omega⟩

/-- **The calls of a timer on schedule** in a run, up to the time `t`. -/
theorem OnSchedule.calls {acts : List Act} {t : Int} (h : OnSchedule e ival t₀ s now n)
    (hfit : 1000 * ival + 5000 ≤ 2147483648) (hs : s.Sound)
    (hclock : (now :: (acts.map (·.1.micros) ++ [t])).Pairwise (· ≤ ·)) (hu : EachStep step (Undisturbed e) s acts) :
    ((n + callsOf e s acts : Nat) : Int) * (1000 * ival) ≤ t - t₀ + 5000 + 1000 * ival := by
  have hlast : now ≤ t := (pairwise_cons.mp hclock).1 t (by simp)
  have hcount := h.count
  -- along the run: `n` grows with each call, and `now` is the clock of the last step
  induction acts generalizing s now n with
  | nil =>
    show (n : Int) * (1000 * ival) ≤ t - t₀ + 5000 + 1000 * ival
    omega
  | cons a acts ih =>
    obtain ⟨hfirst, hrest⟩ := pairwise_cons.mp hclock
    have hnow : now ≤ a.1.micros := hfirst _ mem_cons_self
    have hat : a.1.micros ≤ t := (pairwise_cons.mp hrest).1 t (by simp)
    cases hstep : s.step a with
    | none =>
      rw [callsOf_stuck hstep, Nat.add_zero]
      omega
    | some s' =>
      obtain ⟨hua, hu⟩ := hu s' hstep
      have hs' := step_sound hs hstep
      rw [callsOf_cons hstep, ← Nat.add_assoc]
      by_cases hinv : s.invoked a = some e
      · rw [if_pos hinv]
        have hnext := h.fires hfit hs hnow hinv hstep
        exact ih hnext hs' hrest hu hat hnext.count
      · rw [if_neg hinv]
        have hnext := h.goes hua hnow hinv hstep
        exact ih hnext hs' hrest hu hat hnext.count

end

/-! ## The rate of a timer -/

/-- The call adds the timer `e`, or is `set_event_enabled`. -/
def Enables (s : Loop) (e : Nat) (op : Op) : Prop :=
  (∃ msec oneshot, op = .addTimer msec oneshot ∧ e = s.fresh) ∨ (op = .setEnabled e true ∧ (s.ev e).kind = .time)

def intervalOf (s : Loop) (e : Nat) : Op → Int32
  | .addTimer msec _ => msec
  | _ => (s.ev e).ival

/-- When the timer is enabled, its interval and 5 ms are no longer than a difference of times can be, and its deadline is at
least half a millisecond ahead. -/
def DeadlineAhead (s : Loop) (e : Nat) (t₀ : TimeRef) : Op → Prop
  | .addTimer msec oneshot => oneshot = true ∨ 1000 * msec.toInt + 5000 ≤ 2147483648
  | _ => (s.ev e).flags.oneshot = true ∨
    (1000 * (s.ev e).ival.toInt + 5000 ≤ 2147483648 ∧ t₀.micros + 499 ≤ (s.ev e).fire.micros ∧
      (s.ev e).fire.micros ≤ t₀.micros + 2147483648)

section

variable {s₁ : Loop} {t₀ : TimeRef} {op : Op}

theorem ev_addTimer {msec : Int32} {oneshot : Bool} (h : s.call t₀ (.addTimer msec oneshot) = some s₁) :
    s₁.fresh = s.fresh + 1 ∧ (s₁.ev s.fresh).core =
      ⟨.time, none, none, ⟨true, false, oneshot, false⟩, timeAdd t₀ msec, msec⟩ := by
  cases h
  refine ⟨rfl, ?_⟩
  rw [ev_modify, if_pos rfl]
  unfold link setPrev
  dsimp only
  rw [Function.update_self]
  split <;> rfl

theorem timer_of_enables (hop : s.Enables e op) (h : s.call t₀ op = some s₁) :
    e < s₁.fresh ∧ (s₁.ev e).kind = .time ∧ (s₁.ev e).ival = s.intervalOf e op ∧ (s₁.ev e).flags.enabled = true := by
  rcases hop with ⟨msec, oneshot, rfl, rfl⟩ | ⟨rfl, hkind⟩
  · obtain ⟨hfresh, hcore⟩ := ev_addTimer h
    refine ⟨by omega, ?_, ?_, ?_⟩
    · exact congrArg Ev.kind hcore
    · exact congrArg Ev.ival hcore
    · exact congrArg (·.flags.enabled) hcore
  · obtain ⟨he, rfl⟩ := on_eq_some h
    have hev : (s.modify e fun x => x.setEventEnabled true).ev e = (s.ev e).setEventEnabled true := by
      rw [ev_modify, if_pos rfl]
    rw [hev]
    exact ⟨he, hkind, rfl, rfl⟩

theorem onSchedule_of_enables (hop : s.Enables e op) (hahead : s.DeadlineAhead e t₀ op)
    (hival : 0 < (s.intervalOf e op).toInt) (h : s.call t₀ op = some s₁) (hper : (s₁.ev e).flags.oneshot = false) :
    1000 * (s.intervalOf e op).toInt + 5000 ≤ 2147483648 ∧
      OnSchedule e (s.intervalOf e op).toInt t₀.micros s₁ t₀.micros 0 := by
  obtain ⟨he, hkind, hsame, hen⟩ := timer_of_enables hop h
  have hsched : 1000 * (s.intervalOf e op).toInt + 5000 ≤ 2147483648 ∧
      ∃ d k, (s₁.ev e).fire.micros = d + 4294967296 * k ∧ t₀.micros + 499 ≤ d ∧ d ≤ t₀.micros + 2147483648 := by
    rcases hop with ⟨msec, oneshot, rfl, rfl⟩ | ⟨rfl, -⟩
    · obtain ⟨-, hcore⟩ := ev_addTimer h
      have hone : (s₁.ev s.fresh).flags.oneshot = oneshot := congrArg (·.flags.oneshot) hcore
      have hfire : (s₁.ev s.fresh).fire = timeAdd t₀ msec := congrArg Ev.fire hcore
      rcases hahead with rfl | hfit
      · cases hone.symm.trans hper
      · obtain ⟨k, hk⟩ := micros_timeAdd t₀ msec
        have hpos : 0 < msec.toInt := hival
        refine ⟨hfit, t₀.micros + 1000 * msec.toInt, k, ?_, by omega, by omega⟩
        rw [hfire]
        exact hk
    · obtain ⟨-, rfl⟩ := on_eq_some h
      have hev : (s.modify e fun x => x.setEventEnabled true).ev e = (s.ev e).setEventEnabled true := by
        rw [ev_modify, if_pos rfl]
      rcases hahead with hone | ⟨hfit, hlow, hhigh⟩
      · rw [hev] at hper
        cases hone.symm.trans hper
      · refine ⟨hfit, (s.ev e).fire.micros, 0, ?_, hlow, hhigh⟩
        rw [hev]
        exact (Int.add_zero _).symm
  obtain ⟨hfit, d, k, hd, hlow, hhigh⟩ := hsched
  refine ⟨hfit, he, hkind, hper, congrArg Int32.toInt hsame, fun _ => hen, ⟨d, k, hd, ?_, hhigh⟩, ?_⟩
  · omega
  · omega

end

end Loop

open Loop in
/-- **The rate of a timer**: once, and once more for every interval that fits, in every run with a monotone clock. -/
theorem timer_rate_bounded {acts later : List Act} {s s₁ : Loop} {op : Op} {e : Nat} {t₀ t : TimeRef}
    (h : run step start acts = some s) (hs : s.step (t₀, .call op) = some s₁) (hop : s.Enables e op)
    (hival : 0 < (s.intervalOf e op).toInt) (hahead : s.DeadlineAhead e t₀ op)
    (hclock : (t₀.micros :: (later.map (·.1.micros) ++ [t.micros])).Pairwise (· ≤ ·))
    (hu : EachStep step (Undisturbed e) s₁ later) :
    (callsOf e s₁ later : Int) ≤ (t.micros - t₀.micros + 5000) / (1000 * (s.intervalOf e op).toInt) + 1 := by
  have hsound := step_sound (sound_of_run h) hs
  have hcall := call_of_step hs
  obtain ⟨he, hkind, -, -⟩ := timer_of_enables hop hcall
  have hpos : 0 < 1000 * (s.intervalOf e op).toInt := by omega
  have hlast : t₀.micros ≤ t.micros :=
    (pairwise_cons.mp hclock).1 _ (by simp)
  cases hone : (s₁.ev e).flags.oneshot with
  | true =>
    have honce : callsOf e s₁ later ≤ 1 := callsOf_oneshot hsound he hkind hone hu
    have hnonneg : 0 ≤ (t.micros - t₀.micros + 5000) / (1000 * (s.intervalOf e op).toInt) :=
      Int.ediv_nonneg (by omega) (by omega)
    omega
  | false =>
    obtain ⟨hfit, hsched⟩ := onSchedule_of_enables hop hahead hival hcall hone
    have hcount := hsched.calls hfit hsound hclock hu
    rw [Nat.zero_add] at hcount
    have hle : (callsOf e s₁ later : Int) - 1 ≤
        (t.micros - t₀.micros + 5000) / (1000 * (s.intervalOf e op).toInt) := by
      refine Int.le_ediv_of_mul_le hpos ?_
      rw [Int.sub_mul, Int.one_mul]
      omega
    omega

/-- The RTCP timer, as `new_rtp_endpoint` leaves it. -/
def rtcpTimer : List Act := [(⟨0, 0⟩, .call (.addTimer 5000 false)), (⟨0, 0⟩, .call (.setEnabled 0 false))]

def passAt (t : TimeRef) : List Act := [(t, .startPass), (t, .visit false)]

def restOfPass (t : TimeRef) : List Act := [(t, .ret), (t, .advance false), (t, .advance false), (t, .advance false)]

open Loop in
theorem timer_rate_bounded_rtcp : ∃ s s₁, run step start rtcpTimer = some s ∧
    s.step (⟨1, 0⟩, .call (.setEnabled 0 true)) = some s₁ ∧ callsOf 0 s₁ (passAt ⟨5, 0⟩) = 1 ∧
    (callsOf 0 s₁ (passAt ⟨5, 0⟩) : Int) ≤
      (TimeRef.micros ⟨5, 0⟩ - TimeRef.micros ⟨1, 0⟩ + 5000) / (1000 * (s.intervalOf 0 (.setEnabled 0 true)).toInt) + 1 := by
  refine ⟨_, _, rfl, rfl, by decide, ?_⟩
  refine timer_rate_bounded (h := (rfl : run step start rtcpTimer = some _)) rfl (.inr ⟨rfl, by decide⟩) (by decide)
    (.inr ⟨by decide, by decide, by decide⟩) (by decide) ?_
  exact fun _ _ => ⟨undisturbed_of_loop fun _ => Move.noConfusion, fun _ _ =>
    ⟨undisturbed_of_loop fun _ => Move.noConfusion, trivial⟩⟩

open Loop in
theorem timer_burst : ∃ s s₁, run step start rtcpTimer = some s ∧ s.step (⟨60, 0⟩, .call (.setEnabled 0 true)) = some s₁ ∧ ¬
    (callsOf 0 s₁ (passAt ⟨60, 0⟩ ++ restOfPass ⟨60, 0⟩ ++ passAt ⟨60, 0⟩) : Int) ≤
      (TimeRef.micros ⟨60, 0⟩ - TimeRef.micros ⟨60, 0⟩ + 5000) /
        (1000 * (s.intervalOf 0 (.setEnabled 0 true)).toInt) + 1 :=
  ⟨_, _, rfl, rfl, by decide⟩

end NuWicam.Event
