import NuWicam.Rtsp.Steps

/-!
# How many sessions play (`u32CurConn`, `u32MaxConnNum`)

The count is the number of playing sessions as long as no `PLAY` is repeated on a session that plays
(`curConn_eq_playing_iff`). `live_open` compares it with the limit, but what is limited starts with `PLAY`
(`playing_le_max_of_room`).
-/

namespace NuWicam.Rtsp

open Lib Function Option

/-! ## Playing sessions -/

def Heap.isPlaying (h : Heap) (a : Addr) : Bool := (h.live a).any fun l => l.playing

/-- The sessions in `sess_list` whose `playing` is 1. -/
def Heap.playing (h : Heap) (b : SourceId) : Nat := (h.source b).sessList.countP h.isPlaying

structure SameCount (h h' : Heap) : Prop where
  live : h'.live = h.live
  list : ∀ b, (h'.source b).sessList = (h.source b).sessList
  cur : ∀ b, (h'.source b).u32CurConn = (h.source b).u32CurConn
  max : ∀ b, (h'.source b).u32MaxConnNum = (h.source b).u32MaxConnNum

section

variable {h h' : Heap} {op : Op}

theorem SameCount.trans {h₁ : Heap} (hs : SameCount h h₁) (hs' : SameCount h₁ h') : SameCount h h' where
  live := hs'.live.trans hs.live
  list b := (hs'.list b).trans (hs.list b)
  cur b := (hs'.cur b).trans (hs.cur b)
  max b := (hs'.max b).trans (hs.max b)

theorem SameCount.playing (hs : SameCount h h') (b : SourceId) : h'.playing b = h.playing b := by
  have hp : h'.isPlaying = h.isPlaying := by
    funext a
    rw [Heap.isPlaying, Heap.isPlaying, hs.live]
  rw [Heap.playing, Heap.playing, hs.list, hp]

theorem sameCount_modifyTrack (h : Heap) (b : SourceId) (t : Track) (f : LiveTrack → LiveTrack) :
    SameCount h (h.modifyTrack b t f) where
  live := rfl
  list b' := sessList_modifyTrack b b' t f
  cur := update_same LiveSource.u32CurConn (by rfl)
  max := update_same LiveSource.u32MaxConnNum (by rfl)

inductive Counts (h h' : Heap) : Prop
  | same : SameCount h h' → Counts h h'
  | opens (b : SourceId) (a s : Addr) : h.live a = none → h'.live = h.live.put a ⟨s, b, false⟩ →
      h'.source = Function.update h.source b { h.source b with sessList := a :: (h.source b).sessList } → Counts h h'
  | closes (a : Addr) (l : LiveSession) : h.live a = some l → h'.live = h.live.del a →
      h'.source = Function.update h.source l.source ((h.source l.source).unlink a l.playing) → Counts h h'

/-- **One change**, on the counts. -/
theorem OpStep.counts (hs : OpStep h op h') (hw : h.Wf) (hp : op.plays = false) : Counts h h' := by
  cases hq : op.quiet with
  | true =>
    obtain ⟨hsrc, hlive⟩ := hs.frame hq
    exact .same ⟨hlive, fun _ => by rw [hsrc], fun _ => by rw [hsrc], fun _ => by rw [hsrc]⟩
  | false =>
    cases hs with
    | @openSession b a s _ ho =>
      obtain ⟨-, ⟨-, ha⟩, -, rfl⟩ := liveOpen_eq ho
      exact .opens b a s ha rfl rfl
    | play => cases hp
    | ready => exact .same ((sameCount_modifyTrack ..).trans (sameCount_modifyTrack ..))
    | drop hx ht hl hd hc =>
      obtain ⟨conn, h₁, hd', hw₁, -, -, heq⟩ := dropEndpoint_spec hw hx ht
      have hsame : SameCount h h₁ := by
        rw [heq]
        exact ⟨rfl, fun _ => rfl, fun _ => rfl, fun _ => rfl⟩
      cases hd.symm.trans hd'
      cases hc.symm.trans (trackCheckRunning_eq hw₁ _ _)
      split
      · exact .same hsame
      · exact .same (hsame.trans (sameCount_modifyTrack ..))
    | @close s x _ hx hnone hc =>
      obtain ⟨l, hl, -⟩ := hw.live_of_sess hx
      obtain ⟨_, _, _, hc', -, rfl⟩ := closeLive_spec hw hx hl hnone
      cases hc.symm.trans hc'
      exact .closes x.priv l hl rfl rfl
    | accept | hangUp | setup | udp | inter | bind => cases hq

/-! ## How the number changes -/

variable {a : Addr} {b : SourceId} {l : LiveSession}

theorem isPlaying_congr (hl : h'.live a = h.live a) : h'.isPlaying a = h.isPlaying a := by
  rw [Heap.isPlaying, Heap.isPlaying, hl]

theorem Heap.Wf.ne_of_mem (hw : h.Wf) {a' : Addr} (ha : h.live a = none) (hm : a' ∈ (h.source b).sessList) : a' ≠ a := by
  rintro rfl
  obtain ⟨l, hl, -⟩ := hw.live_of_mem hm
  rw [hl] at ha
  cases ha

theorem Heap.Wf.ne_of_source (hw : h.Wf) {a' : Addr} (ha : h.live a = some l)
    (hm : a' ∈ (h.source b).sessList) (hb : b ≠ l.source) : a' ≠ a := by
  rintro rfl
  obtain ⟨l', hl', hb'⟩ := hw.live_of_mem hm
  cases ha.symm.trans hl'
  exact hb hb'.symm

theorem playing_opens (hw : h.Wf) {s : Addr} (ha : h.live a = none) (hl : h'.live = h.live.put a ⟨s, b, false⟩)
    (hsrc : h'.source = update h.source b { h.source b with sessList := a :: (h.source b).sessList })
    (b' : SourceId) : h'.playing b' = h.playing b' := by
  have hcongr : (h.source b').sessList.countP h'.isPlaying = (h.source b').sessList.countP h.isPlaying :=
    List.countP_congr fun a' hm => by
      have hl' : h'.live a' = h.live a' := by
        rw [hl]
        exact Table.put_ne (hw.ne_of_mem ha hm) _
      rw [isPlaying_congr hl']
  rw [Heap.playing, Heap.playing, ← hcongr, hsrc, update_apply]
  split
  · rename_i hb
    have hnew : h'.isPlaying a = false := by simp [Heap.isPlaying, hl]
    rw [hb, List.countP_cons_of_neg (by rw [hnew]; exact nofun)]
  · rfl

theorem playing_closes (hw : h.Wf) (ha : h.live a = some l) (hl : h'.live = h.live.del a)
    (hsrc : h'.source = update h.source l.source ((h.source l.source).unlink a l.playing)) (b : SourceId) :
    h'.playing b = h.playing b - if b = l.source ∧ l.playing then 1 else 0 := by
  have hmem := hw.mem_of_live ha
  have hother : ∀ {a' : Addr}, a' ≠ a → h'.isPlaying a' = h.isPlaying a' := fun hne =>
    isPlaying_congr (by rw [hl]; exact Table.del_ne hne)
  rw [Heap.playing, Heap.playing, hsrc, update_apply]
  split
  · rename_i hb
    subst hb
    have hcongr : ((h.source l.source).sessList.erase a).countP h'.isPlaying =
        ((h.source l.source).sessList.erase a).countP h.isPlaying :=
      List.countP_congr fun a' hm => by
        rw [hother ((hw.lives.nodup l.source).mem_erase_iff.mp hm).1]
    have hpa : h.isPlaying a = l.playing := by simp [Heap.isPlaying, ha]
    simp only [LiveSource.unlink, hcongr, List.countP_erase, hpa, true_and, hmem]
  · rename_i hb
    have hcongr : (h.source b).sessList.countP h'.isPlaying = (h.source b).sessList.countP h.isPlaying :=
      List.countP_congr fun a' hm => by rw [hother (hw.ne_of_source ha hm hb)]
    rw [hcongr, if_neg fun hc => hb hc.1, Nat.sub_zero]

theorem playing_starts (hw : h.Wf) (ha : h.live a = some l) (hl : h'.live = h.live.put a { l with playing := true })
    (hlist : ∀ b, (h'.source b).sessList = (h.source b).sessList) (b : SourceId) :
    h'.playing b = h.playing b + if b = l.source ∧ l.playing = false then 1 else 0 := by
  have hother : ∀ a' ≠ a, h'.isPlaying a' = h.isPlaying a' := fun a' hne =>
    isPlaying_congr (by rw [hl]; exact Table.put_ne hne _)
  have hnew : h'.isPlaying a := by simp [Heap.isPlaying, hl]
  have hold : h.isPlaying a = l.playing := by simp [Heap.isPlaying, ha]
  rw [Heap.playing, Heap.playing, hlist]
  by_cases hb : b = l.source
  · subst hb
    cases hp : l.playing with
    | false =>
      rw [countP_change hother hnew (hold.trans hp) (hw.lives.nodup _) (hw.mem_of_live ha), if_pos ⟨rfl, rfl⟩]
    | true =>
      rw [if_neg nofun, Nat.add_zero]
      refine List.countP_congr fun a' _ => ?_
      by_cases haa : a' = a
      · rw [haa, hnew, hold, hp]
      · rw [hother a' haa]
  · rw [if_neg fun hc => hb hc.1, Nat.add_zero]
    refine List.countP_congr fun a' hm => ?_
    rw [hother a' (hw.ne_of_source ha hm hb)]

theorem playing_plays (hw : h.Wf) {s : Addr} (hs : OpStep h (.play s) h') :
    ∃ v, h.view s = some v ∧ (∀ b, (h'.source b).u32MaxConnNum = (h.source b).u32MaxConnNum) ∧
      (∀ b, (h'.source b).u32CurConn = if b = v.source then (h.source b).u32CurConn + 1 else (h.source b).u32CurConn) ∧
      (∀ b, (h'.source b).sessList = (h.source b).sessList) ∧
      ∀ b, h'.playing b = h.playing b + if b = v.source ∧ v.playing = false then 1 else 0 := by
  cases hs with
  | play ho =>
    obtain ⟨x, l, hx, hl, rfl⟩ := livePlay_inv ho
    have hlist : ∀ b, (update h.source l.source ((h.source l.source).played x.ep) b).sessList =
        (h.source b).sessList := update_same LiveSource.sessList (by rfl)
    refine ⟨_, view_eq hx hl, update_same LiveSource.u32MaxConnNum (by rfl), fun b => ?_, hlist,
      playing_starts hw hl rfl hlist⟩
    simp only [update_apply]
    split
    · rename_i hb
      rw [hb]
      rfl
    · rfl

theorem Heap.Wf.playing_lt (hw : h.Wf) (b : SourceId) : h.playing b < 2 ^ 32 := by
  have h0 : (0 : Addr) ∉ (h.source b).sessList := fun hm => by
    obtain ⟨l, hl, -⟩ := hw.live_of_mem hm
    rw [hw.live_null] at hl
    cases hl
  exact Nat.lt_of_le_of_lt List.countP_le_length (length_lt_of_nodup (hw.lives.nodup b) h0)

/-! ## The count -/

def Heap.Counted (h : Heap) : Prop := ∀ b, (h.source b).u32CurConn.toNat = h.playing b

theorem Counts.counted (hc : Counts h h') (hw : h.Wf) (hi : h.Counted) : h'.Counted := by
  intro b
  cases hc with
  | same hs => rw [hs.cur, hs.playing, hi]
  | opens b₀ a s ha hl hsrc =>
    rw [playing_opens hw ha hl hsrc, ← hi, hsrc, update_apply]
    split
    · rename_i hb
      rw [hb]
    · rfl
  | closes a l ha hl hsrc =>
    rw [playing_closes hw ha hl hsrc, ← hi, hsrc, update_apply]
    by_cases hb : b = l.source
    · subst hb
      rw [if_pos rfl, LiveSource.unlink]
      cases hp : l.playing with
      | false => simp
      | true =>
        by_cases hpos : (h.source l.source).u32CurConn > 0
        · have hle : (1 : UInt32).toNat ≤ (h.source l.source).u32CurConn.toNat := UInt32.lt_iff_toNat_lt.mp hpos
          simp [hpos, UInt32.toNat_sub_of_le _ _ hle]
        · have hzero : ¬ 0 < (h.source l.source).u32CurConn.toNat := fun hlt => hpos (UInt32.lt_iff_toNat_lt.mpr hlt)
          simp only [hpos, false_and, ↓reduceIte]
          omega
    · rw [if_neg hb, if_neg fun hc => hb hc.1, Nat.sub_zero]

theorem counted_plays (hw : h.Wf) (hi : h.Counted) {s : Addr} (hs : OpStep h (.play s) h') :
    ∃ v, h.view s = some v ∧ (h'.Counted ↔ v.playing = false) := by
  obtain ⟨v, hv, -, hcur, -, hplay⟩ := playing_plays hw hs
  refine ⟨v, hv, fun hc => ?_, fun hp b => ?_⟩
  · have hb := hc v.source
    rw [hcur, if_pos rfl, hplay, ← hi, UInt32.toNat_add] at hb
    have hone : (1 : UInt32).toNat = 1 := rfl
    by_contra hp
    rw [if_neg fun hc => hp hc.2] at hb
    omega
  · have hlt := (hs.wf hw).playing_lt b
    have hb := hi b
    rw [hplay] at hlt
    rw [hcur, hplay]
    by_cases hbv : b = v.source
    · rw [if_pos ⟨hbv, hp⟩] at hlt
      rw [if_pos hbv, if_pos ⟨hbv, hp⟩, UInt32.toNat_add]
      have hone : (1 : UInt32).toNat = 1 := rfl
      omega
    · rw [if_neg hbv, if_neg fun hc => hbv hc.1]
      exact hb

end

/-- The count is right, and with no session left it is `0` and `live_open` does not refuse. -/
def Heap.Accounts (h : Heap) : Prop :=
  h.Counted ∧ ∀ b, (h.source b).sessList = [] → (h.source b).u32CurConn = 0 ∧
    ((h.source b).u32MaxConnNum ≠ 0 → ∀ a s, liveOpen h b a s ≠ some none)

theorem Heap.accounts_iff {h : Heap} : h.Accounts ↔ h.Counted := by
  refine ⟨And.left, fun hc => ⟨hc, fun b hnil => ?_⟩⟩
  have hzero : (h.source b).u32CurConn = 0 := by
    have hb := hc b
    rw [Heap.playing, hnil, List.countP_nil] at hb
    exact UInt32.toNat_inj.mp hb
  refine ⟨hzero, fun hmax a s ho => ?_⟩
  rcases liveOpen_cases h b a s with ⟨ho', -⟩ | ⟨-, hlt⟩ | ⟨h', ho'⟩
  · cases ho.symm.trans ho'
  · rw [hzero] at hlt
    exact hlt (UInt32.pos_iff_ne_zero.mpr hmax)
  · cases ho.symm.trans ho'

def NoReplay (st : State) (ev : Event) : Prop := ∀ s ∈ playOf st ev, ∀ v ∈ st.heap.view s, v.playing = false

theorem startHeap_counted (blocks : SourceId → List Directive) : (startHeap blocks).Counted := by
  intro b
  have hcur : ((startHeap blocks).source b).u32CurConn = 0 := by
    refine startHeap_source (P := fun src => src.u32CurConn = 0) rfl (fun src d hz => ?_) blocks b
    cases d with
    | track m =>
      cases m with
      | none => exact hz
      | some m => simp only [LiveSource.configure]; split <;> exact hz
    | mtu n => exact hz
    | conn n => exact hz
  rw [hcur, Heap.playing, startHeap_sessList]
  rfl

/-- **One event** keeps the count right exactly if it plays no session again. -/
theorem step_counted_iff {md5 : Md5} {locs : List RtspLocation} {st st' : State} {ev : Event} (hw : st.heap.Wf)
    (hi : st.heap.Counted) (hs : step md5 locs st ev = some st') : st'.heap.Counted ↔ NoReplay st ev := by
  rcases step_ops hw hs with ⟨hnone, ops, hops, hall⟩ | ⟨s, hplay, ho⟩
  · refine iff_of_true ?_ fun s hs => by rw [hnone] at hs; cases hs
    exact Ops.inv (fun _ _ _ hw hp hi ho => (ho.counts hw hp).counted hw hi) hops hw hall hi
  · obtain ⟨v, hv, hiff⟩ := counted_plays hw hi ho
    rw [hiff, NoReplay, hplay]
    constructor
    · intro hp s' hs' v' hv'
      cases hs'
      cases hv.symm.trans hv'
      exact hp
    · exact fun hno => hno s rfl v hv

/-- **The count** of a source is right along a run exactly if no `PLAY` is for a session that plays already. -/
theorem curConn_eq_playing_iff (md5 : Md5) (locs : List RtspLocation) (blocks : SourceId → List Directive) (evs : List Event) :
    Always (step md5 locs) (fun st => st.heap.Accounts) (State.start blocks) evs ↔
      EachStep (step md5 locs) NoReplay (State.start blocks) evs := by
  simp only [Heap.accounts_iff]
  exact always_iff_eachStep (I := fun st : State => st.heap.Wf) (P := fun st => st.heap.Counted)
    (fun _ _ _ hw hs => step_wf hw hs) (fun _ _ _ hw hi hs => step_counted_iff hw hi hs) (startHeap_wf blocks)
    (startHeap_counted blocks)

theorem play_twice_counted_twice : ¬ Always (step Md5.ofLibrary [Camera.location []]) (fun st => st.heap.Accounts)
    (State.start (Camera.blocks 4)) [.accept 1, Camera.setup 1, Camera.play 1, Camera.play 1] := by
  intro h
  have heval : (run (step Md5.ofLibrary [Camera.location []]) (State.start (Camera.blocks 4))
      [.accept 1, Camera.setup 1, Camera.play 1, Camera.play 1]).map
      (fun st => ((st.heap.source 0).u32CurConn, st.heap.playing 0)) = some (2, 1) := by decide +kernel
  obtain ⟨st, hrun, hst⟩ := map_eq_some_iff.mp heval
  have hcount := (h.last hrun).1 0
  rw [(Prod.mk.inj hst).1, (Prod.mk.inj hst).2] at hcount
  cases hcount

/-! ## The limit -/

/-- An event is no `PLAY` of a session whose source has reached its limit. -/
def HasRoom (st : State) (ev : Event) : Prop :=
  ∀ s ∈ playOf st ev, ∀ v ∈ st.heap.view s,
    (st.heap.source v.source).u32CurConn < (st.heap.source v.source).u32MaxConnNum

-- by name: the addresses are a finite type too, and that instance would go through all of them
instance (st : State) (ev : Event) : Decidable (HasRoom st ev) := decidableForallMem (playOf st ev)

/-- `u32CurConn` lies between the number of playing sessions and the limit. -/
def Heap.Capped (h : Heap) : Prop :=
  ∀ b, h.playing b ≤ (h.source b).u32CurConn.toNat ∧ (h.source b).u32CurConn ≤ (h.source b).u32MaxConnNum

theorem Counts.capped {h h' : Heap} (hc : Counts h h') (hw : h.Wf) (hi : h.Capped) : h'.Capped := by
  intro b
  obtain ⟨hle, hmax⟩ := hi b
  cases hc with
  | same hs =>
    rw [hs.cur, hs.playing, hs.max]
    exact ⟨hle, hmax⟩
  | opens b₀ a s ha hl hsrc =>
    rw [playing_opens hw ha hl hsrc, hsrc, update_apply]
    split
    · rename_i hb
      exact hb ▸ ⟨hle, hmax⟩
    · exact ⟨hle, hmax⟩
  | closes a l ha hl hsrc =>
    rw [playing_closes hw ha hl hsrc, hsrc, update_apply]
    by_cases hb : b = l.source
    · subst hb
      rw [if_pos rfl, LiveSource.unlink]
      cases hp : l.playing with
      | false => simpa using ⟨hle, hmax⟩
      | true =>
        by_cases hpos : (h.source l.source).u32CurConn > 0
        · have hone : (1 : UInt32).toNat ≤ (h.source l.source).u32CurConn.toNat := UInt32.lt_iff_toNat_lt.mp hpos
          have hsub := UInt32.toNat_sub_of_le _ _ hone
          rw [UInt32.le_iff_toNat_le] at hmax ⊢
          simp only [hpos, and_self, ↓reduceIte, hsub]
          have hone' : (1 : UInt32).toNat = 1 := rfl
          omega
        · simp only [hpos, false_and, ↓reduceIte]
          exact ⟨by omega, hmax⟩
    · rw [if_neg hb, if_neg fun hc => hb hc.1, Nat.sub_zero]
      exact ⟨hle, hmax⟩

theorem capped_plays {h h' : Heap} (hw : h.Wf) (hi : h.Capped) {s : Addr} (hs : OpStep h (.play s) h')
    (hroom : ∀ v ∈ h.view s, (h.source v.source).u32CurConn < (h.source v.source).u32MaxConnNum) : h'.Capped := by
  obtain ⟨v, hv, hmax, hcur, -, hplay⟩ := playing_plays hw hs
  intro b
  obtain ⟨hle, hmax'⟩ := hi b
  rw [hcur, hplay, hmax]
  by_cases hb : b = v.source
  · subst hb
    have hlt := UInt32.lt_iff_toNat_lt.mp (hroom v hv)
    have hsum : ((h.source v.source).u32CurConn + 1).toNat = (h.source v.source).u32CurConn.toNat + 1 := by
      have hbound := (h.source v.source).u32MaxConnNum.toNat_lt
      have hone : (1 : UInt32).toNat = 1 := rfl
      rw [UInt32.toNat_add]
      omega
    rw [if_pos rfl, UInt32.le_iff_toNat_le, hsum]
    split <;> omega
  · rw [if_neg hb, if_neg fun hc => hb hc.1]
    exact ⟨hle, hmax'⟩

theorem startHeap_capped (blocks : SourceId → List Directive) : (startHeap blocks).Capped := by
  intro b
  have hzero : ((startHeap blocks).source b).u32CurConn = 0 := ((Heap.accounts_iff.mpr (startHeap_counted blocks)).2 b
    (startHeap_sessList blocks b)).1
  rw [← startHeap_counted blocks b, hzero]
  exact ⟨by omega, UInt32.zero_le⟩

/-- **The limit** holds along every run in which each `PLAY` finds room. -/
theorem playing_le_max_of_room (md5 : Md5) (locs : List RtspLocation) (blocks : SourceId → List Directive)
    (evs : List Event) (hroom : EachStep (step md5 locs) HasRoom (State.start blocks) evs) :
    Always (step md5 locs) (fun st => ∀ b, st.heap.playing b ≤ (st.heap.source b).u32MaxConnNum.toNat)
      (State.start blocks) evs := by
  have hkeep : Always (step md5 locs) (fun st => st.heap.Wf ∧ st.heap.Capped) (State.start blocks) evs := by
    refine always_of_eachStep (fun st ev st' hi hr hs => ⟨step_wf hi.1 hs, ?_⟩)
      ⟨startHeap_wf blocks, startHeap_capped blocks⟩ hroom
    rcases step_ops hi.1 hs with ⟨-, ops, hops, hall⟩ | ⟨s, hplay, ho⟩
    · exact Ops.inv (fun _ _ _ hw hp hi ho => (ho.counts hw hp).capped hw hi) hops hi.1 hall hi.2
    · exact capped_plays hi.1 hi.2 ho (hr s hplay)
  exact hkeep.mono fun st hi b => Nat.le_trans (hi.2 b).1 (UInt32.le_iff_toNat_le.mp (hi.2 b).2)

theorem playing_le_max_one_client : EachStep (step Md5.ofLibrary [Camera.location []]) HasRoom (State.start (Camera.blocks 1))
      [.accept 1, Camera.setup 1, Camera.play 1] ∧ Always (step Md5.ofLibrary [Camera.location []])
      (fun st => ∀ b, st.heap.playing b ≤ (st.heap.source b).u32MaxConnNum.toNat) (State.start (Camera.blocks 1))
      [.accept 1, Camera.setup 1, Camera.play 1] :=
  have hroom := by decide +kernel
  ⟨hroom, playing_le_max_of_room _ _ _ _ hroom⟩

theorem two_clients_play_at_once : ¬ Always (step Md5.ofLibrary [Camera.location []])
    (fun st => ∀ b, st.heap.playing b ≤ (st.heap.source b).u32MaxConnNum.toNat) (State.start (Camera.blocks 1))
    [.accept 1, Camera.setup 1, Camera.setup 2, Camera.play 1, Camera.play 2] := by
  intro h
  have heval : (run (step Md5.ofLibrary [Camera.location []]) (State.start (Camera.blocks 1))
      [.accept 1, Camera.setup 1, Camera.setup 2, Camera.play 1, Camera.play 2]).map
      (fun st => (st.heap.playing 0, (st.heap.source 0).u32MaxConnNum)) = some (2, 1) := by decide +kernel
  obtain ⟨st, hrun, hst⟩ := map_eq_some_iff.mp heval
  have hle := h.last hrun 0
  rw [(Prod.mk.inj hst).1, (Prod.mk.inj hst).2] at hle
  exact absurd hle (by decide)

end NuWicam.Rtsp
