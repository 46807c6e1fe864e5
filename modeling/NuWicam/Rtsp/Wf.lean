import NuWicam.Rtsp.Live

/-!
# The pointers between connections, sessions and endpoints

`Heap.Wf` is the invariant of the memory. Each function that changes the memory keeps it, where it is called as the handlers
call it, and follows no pointer that leads nowhere.
-/

namespace NuWicam.Rtsp

open Lib Option Function

/-! The pointer fields, by the address of the block they are in. -/

def privOf (sess : Table Session) : Table Addr := sess.field fun x => some x.priv
def ctlOf (sess : Table Session) : Table Addr := sess.field fun x => x.controlPrivate
def epOf (sess : Table Session) (t : Track) : Table Addr := sess.field fun x => x.ep t
def liveSessOf (live : Table LiveSession) : Table Addr := live.field fun l => some l.sess
def sourceOf (live : Table LiveSession) : Table SourceId := live.field fun l => some l.source
def rtspSessOf (rtsp : Table RtspSession) : Table Addr := rtsp.field fun r => some r.sess
def epSessOf (ep : Table Endpoint) : Table Addr := ep.field fun p => some p.session
def transOf (ep : Table Endpoint) : Table Trans := ep.field fun p => some p.trans

def chanOf (conn : Table Conn) (k : Chan) : Table (Addr × Bool) :=
  conn.field fun c => c.protoState.bind fun rc => (rc k).ep.map fun e => (e, (rc k).rtcp)

/-- The connections that have an `rtsp_conn`. -/
def stateOf (conn : Table Conn) : Table Unit := conn.field fun c => c.protoState.map fun _ => ()

structure EpOk (sess : Table Session) (ep : Table Endpoint) : Prop where
  owner : ∀ e s, epSessOf ep e = some s ↔ ∃ t, epOf sess t s = some e
  track : ∀ {s t t' e}, epOf sess t s = some e → epOf sess t' s = some e → t = t'

structure ChanOk (conn : Table Conn) (ep : Table Endpoint) : Prop where
  holder : ∀ k c e rtcp, chanOf conn k c = some (e, rtcp) ↔
    ∃ i j, transOf ep e = some (.inter c i j) ∧ k.val = if rtcp then j else i
  lt : ∀ {e c i j}, transOf ep e = some (.inter c i j) → i < maxInterleaveChannels ∧ j < maxInterleaveChannels

structure Heap.Wf (h : Heap) : Prop where
  conns : Lists h.connList h.conn
  sessions : Lists h.sessList h.sess
  rtsps : Lists h.rtspList h.rtsp
  lives : Buckets (fun b => (h.source b).sessList) (sourceOf h.live)
  live_null : h.live 0 = none
  track_first : ∀ b, ((h.source b).track 1).rtp.isSome → ((h.source b).track 0).rtp.isSome
  live_sess : Inverse (liveSessOf h.live) (privOf h.sess)
  rtsp_sess : Inverse (rtspSessOf h.rtsp) (ctlOf h.sess)
  eps : EpOk h.sess h.ep
  ep_conf : ∀ {s t e a b}, epOf h.sess t s = some e → privOf h.sess s = some a → sourceOf h.live a = some b →
    t ∈ (h.source b).tracks
  chans : ChanOk h.conn h.ep

/-! ## The start -/

theorem configure_sessList (src : LiveSource) (d : Directive) : (src.configure d).sessList = src.sessList := by
  cases d with
  | track m =>
    cases m with
    | none => rfl
    | some m => simp only [LiveSource.configure]; split <;> rfl
  | mtu n => rfl
  | conn n => rfl

theorem configure_track_first (src : LiveSource) (d : Directive) (h : (src.track 1).rtp.isSome → (src.track 0).rtp.isSome) :
    ((src.configure d).track 1).rtp.isSome → ((src.configure d).track 0).rtp.isSome := by
  cases d with
  | track m =>
    cases m with
    | none => exact h
    | some m =>
      have hlist : List.finRange maxTracks = [0, 1] := rfl
      simp only [LiveSource.configure, hlist, List.find?_cons, List.find?_nil]
      cases h0 : (src.track 0).rtp <;> cases h1 : (src.track 1).rtp <;> simp_all
  | mtu n => exact h
  | conn n => exact h

theorem startHeap_source {P : LiveSource → Prop} (hstart : P .startBlock)
    (hstep : ∀ src d, P src → P (src.configure d)) (blocks : SourceId → List Directive) (b : SourceId) :
    P ((startHeap blocks).source b) := by
  have key : ∀ (ds : List Directive) (src : LiveSource), P src → P (ds.foldl LiveSource.configure src) := by
    intro ds
    induction ds with
    | nil => exact fun _ h => h
    | cons d ds ih => exact fun src h => ih _ (hstep src d h)
  exact key _ _ hstart

theorem startHeap_sessList (blocks : SourceId → List Directive) (b : SourceId) : ((startHeap blocks).source b).sessList = [] :=
  startHeap_source (P := fun src => src.sessList = []) rfl (fun src d h => (configure_sessList src d).trans h) blocks b

theorem startHeap_wf (blocks : SourceId → List Directive) : (startHeap blocks).Wf where
  conns := ⟨fun a => by simp [startHeap], List.nodup_nil⟩
  sessions := ⟨fun a => by simp [startHeap], List.nodup_nil⟩
  rtsps := ⟨fun a => by simp [startHeap], List.nodup_nil⟩
  lives := by
    simp only [startHeap_sessList]
    exact ⟨fun _ _ => iff_of_false List.not_mem_nil nofun, fun _ => by simp⟩
  live_null := rfl
  track_first b := startHeap_source nofun configure_track_first blocks b
  live_sess _ _ := iff_of_false nofun nofun
  rtsp_sess _ _ := iff_of_false nofun nofun
  eps := ⟨fun _ _ => iff_of_false nofun nofun, nofun⟩
  ep_conf := nofun
  chans := ⟨fun _ _ _ _ => iff_of_false nofun nofun, nofun⟩

/-! ## Reading the memory -/

section Read

variable {h : Heap} (hw : h.Wf)
include hw

variable {s : Addr} {x : Session} {a : Addr} {l : LiveSession} {e : Addr}

theorem Heap.Wf.live_of_sess (hs : h.sess s = some x) : ∃ l, h.live x.priv = some l ∧ l.sess = s := by
  have hp : privOf h.sess s = some x.priv := Table.field_of_some _ hs
  obtain ⟨l, hl, hls⟩ := Table.field_eq_some.mp ((hw.live_sess _ _).mpr hp)
  exact ⟨l, hl, some.inj hls⟩

theorem Heap.Wf.sess_of_live (hl : h.live a = some l) : ∃ x, h.sess l.sess = some x ∧ x.priv = a := by
  have hp : liveSessOf h.live a = some l.sess := Table.field_of_some _ hl
  obtain ⟨x, hx, hpx⟩ := Table.field_eq_some.mp ((hw.live_sess _ _).mp hp)
  exact ⟨x, hx, some.inj hpx⟩

theorem Heap.Wf.live_of_mem {b : SourceId} (ha : a ∈ (h.source b).sessList) : ∃ l, h.live a = some l ∧ l.source = b := by
  obtain ⟨l, hl, hb⟩ := Table.field_eq_some.mp ((hw.lives.mem_iff b a).mp ha)
  exact ⟨l, hl, some.inj hb⟩

theorem Heap.Wf.mem_of_live (hl : h.live a = some l) : a ∈ (h.source l.source).sessList :=
  (hw.lives.mem_iff _ _).mpr (Table.field_of_some _ hl)

theorem Heap.Wf.sess_of_rtsp {r : RtspSession} (hr : h.rtsp a = some r) :
    ∃ x, h.sess r.sess = some x ∧ x.controlPrivate = some a :=
  Table.field_eq_some.mp ((hw.rtsp_sess _ _).mp (Table.field_of_some _ hr))

theorem Heap.Wf.rtsp_of_sess (hs : h.sess s = some x) (hc : x.controlPrivate = some a) :
    ∃ r, h.rtsp a = some r ∧ r.sess = s := by
  obtain ⟨r, hr, hrs⟩ := Table.field_eq_some.mp ((hw.rtsp_sess a s).mpr ((Table.field_of_some _ hs).trans hc))
  exact ⟨r, hr, some.inj hrs⟩

theorem Heap.Wf.ep_of_sess {t : Track} (hs : h.sess s = some x) (he : x.ep t = some e) :
    ∃ p, h.ep e = some p ∧ p.session = s := by
  obtain ⟨p, hp, hps⟩ := Table.field_eq_some.mp ((hw.eps.owner e s).mpr ⟨t, (Table.field_of_some _ hs).trans he⟩)
  exact ⟨p, hp, some.inj hps⟩

theorem Heap.Wf.sess_of_ep {p : Endpoint} (he : h.ep e = some p) : ∃ x t, h.sess p.session = some x ∧ x.ep t = some e := by
  obtain ⟨t, ht⟩ := (hw.eps.owner e p.session).mp (Table.field_of_some _ he)
  obtain ⟨x, hx, hxt⟩ := Table.field_eq_some.mp ht
  exact ⟨x, t, hx, hxt⟩

theorem Heap.Wf.mem_tracks {t : Track} (hs : h.sess s = some x)
    (hl : h.live x.priv = some l) (he : x.ep t = some e) : t ∈ (h.source l.source).tracks :=
  hw.ep_conf ((Table.field_of_some _ hs).trans he) (Table.field_of_some _ hs) (Table.field_of_some _ hl)

theorem Heap.Wf.chans_of_ep {c : Addr} {p : Endpoint} {i j : Nat} (he : h.ep e = some p) (ht : p.trans = .inter c i j) :
    ∃ (conn : Conn) (rc : RtspConn) (hi : i < maxInterleaveChannels) (hj : j < maxInterleaveChannels),
      h.conn c = some conn ∧ conn.protoState = some rc ∧ rc ⟨i, hi⟩ = ⟨some e, false⟩ ∧
        rc ⟨j, hj⟩ = ⟨some e, true⟩ := by
  have htr : transOf h.ep e = some (.inter c i j) := (Table.field_of_some _ he).trans (congrArg some ht)
  obtain ⟨hi, hj⟩ := hw.chans.lt htr
  have hci := (hw.chans.holder ⟨i, hi⟩ c e false).mpr ⟨i, j, htr, rfl⟩
  have hcj := (hw.chans.holder ⟨j, hj⟩ c e true).mpr ⟨i, j, htr, rfl⟩
  obtain ⟨conn, hconn, hci⟩ := Table.field_eq_some.mp hci
  obtain ⟨conn', hconn', hcj⟩ := Table.field_eq_some.mp hcj
  cases hconn.symm.trans hconn'
  obtain ⟨rc, hrc, hci⟩ := bind_eq_some_iff.mp hci
  obtain ⟨rc', hrc', hcj⟩ := bind_eq_some_iff.mp hcj
  cases hrc.symm.trans hrc'
  simp only [map_eq_some_iff, Prod.mk.injEq] at hci hcj
  obtain ⟨_, hei, rfl, hri⟩ := hci
  obtain ⟨_, hej, rfl, hrj⟩ := hcj
  refine ⟨conn, rc, hi, hj, hconn, hrc, ?_, ?_⟩
  · rw [← hei, ← hri]
  · rw [← hej, ← hrj]

theorem Heap.Wf.ep_of_chan {c : Addr} {conn : Conn} {rc : RtspConn} {k : Chan} (hc : h.conn c = some conn)
    (hrc : conn.protoState = some rc) (he : (rc k).ep = some e) :
    ∃ p i j, h.ep e = some p ∧ p.trans = .inter c i j ∧ k.val = if (rc k).rtcp then j else i := by
  have hch : chanOf h.conn k c = some (e, (rc k).rtcp) := by
    rw [chanOf, Table.field_of_some _ hc, hrc]
    simp [he]
  obtain ⟨i, j, htr, hk⟩ := (hw.chans.holder k c e _).mp hch
  obtain ⟨p, hp, hpt⟩ := Table.field_eq_some.mp htr
  exact ⟨p, i, j, hp, some.inj hpt, hk⟩

end Read

/-! ## Sources -/

section Source

variable {h : Heap}

variable (b b' : SourceId)

@[simp] theorem source_modifySource (f : LiveSource → LiveSource) :
    (h.modifySource b f).source b' = if b' = b then f (h.source b) else h.source b' := update_apply ..

theorem sessList_modifyTrack (t : Track) (f : LiveTrack → LiveTrack) :
    ((h.modifyTrack b t f).source b').sessList = (h.source b').sessList := by
  refine update_same LiveSource.sessList ?_ b'
  rfl

theorem track_modifyTrack (t t' : Track) (f : LiveTrack → LiveTrack) : ((h.modifyTrack b t f).source b').track t' =
      if b' = b ∧ t' = t then f ((h.source b).track t) else (h.source b').track t' := by
  rw [Heap.modifyTrack, source_modifySource]
  by_cases hb : b' = b
  · subst hb
    by_cases ht : t' = t <;> simp [ht]
  · simp [hb]

theorem rtp_modifyTrack (t t' : Track) {f : LiveTrack → LiveTrack} (hf : ∀ x, (f x).rtp = x.rtp) :
    (((h.modifyTrack b t f).source b').track t').rtp = ((h.source b').track t').rtp := by
  rw [track_modifyTrack]
  split
  · rename_i hbt
    rw [hf, hbt.1, hbt.2]
  · rfl

theorem tracks_congr {src src' : LiveSource} (hr : ∀ t, (src'.track t).rtp = (src.track t).rtp) : src'.tracks = src.tracks := by
  unfold LiveSource.tracks
  congr 1
  funext t
  rw [hr]

theorem mem_tracks_of_rtp {src : LiveSource} {t : Track} (hm : (src.track t).rtp.isSome)
    (hfirst : (src.track 1).rtp.isSome → (src.track 0).rtp.isSome) : t ∈ src.tracks := by
  have hlist : List.finRange maxTracks = [0, 1] := rfl
  unfold LiveSource.tracks
  rw [hlist]
  match t, hm with
  | 0, h0 => simp [h0]
  | 1, h1 => simp [h1, hfirst h1]

theorem sessList_update (src : SourceId → LiveSource) (b : SourceId) (x : LiveSource) :
    (fun b' => (update src b x b').sessList) = update (fun b' => (src b').sessList) b x.sessList := by
  funext b'
  simp only [update_apply]
  split <;> rfl

theorem Heap.Wf.with_source (hw : h.Wf) {src : SourceId → LiveSource} (hl : ∀ b, (src b).sessList = (h.source b).sessList)
    (ht : ∀ b t, ((src b).track t).rtp = ((h.source b).track t).rtp) : Heap.Wf { h with source := src } :=
  { hw with
    lives := by simp only [hl]; exact hw.lives
    track_first := fun b => by simp only [ht]; exact hw.track_first b
    ep_conf := fun he hp hb => by rw [tracks_congr (ht _)]; exact hw.ep_conf he hp hb }

theorem Heap.Wf.modifyTrack (hw : h.Wf) (b : SourceId) (t : Track) {f : LiveTrack → LiveTrack}
    (hf : ∀ x, (f x).rtp = x.rtp) : (h.modifyTrack b t f).Wf :=
  hw.with_source (fun b' => sessList_modifyTrack b b' t f) fun b' t' => rtp_modifyTrack b b' t t' hf

theorem Heap.Wf.setWaiting (hw : h.Wf) (b : SourceId) (t : Track) (w : Bool) : (setWaiting h b t w).Wf :=
  hw.modifyTrack b t fun _ => rfl

end Source

/-! ## `live_open`, `live_setup`, `live_play` -/

section Open

variable {h h' : Heap}

theorem liveOpen_eq {b : SourceId} {a s : Addr} (ho : liveOpen h b a s = some (some h')) :
    (h.source b).u32CurConn < (h.source b).u32MaxConnNum ∧ (a ≠ 0 ∧ h.live a = none) ∧ (s ≠ 0 ∧ h.sess s = none) ∧
      h' = { h with
        source := update h.source b { h.source b with sessList := a :: (h.source b).sessList }
        live := h.live.put a ⟨s, b, false⟩
        sessList := s :: h.sessList
        sess := h.sess.put s ⟨a, none, fun _ => none⟩ } := by
  unfold liveOpen at ho
  split at ho
  · cases ho
  · rename_i hlt
    split at ho
    · rename_i hf
      rw [Bool.and_eq_true, Table.fresh_iff, Table.fresh_iff] at hf
      cases ho
      exact ⟨UInt32.not_le.mp hlt, hf.1, hf.2, rfl⟩
    · cases ho

theorem Heap.Wf.open (hw : h.Wf) {b : SourceId} {a s : Addr} (ho : liveOpen h b a s = some (some h')) : h'.Wf := by
  obtain ⟨-, ⟨ha0, ha⟩, ⟨-, hs⟩, rfl⟩ := liveOpen_eq ho
  have hpriv : privOf (h.sess.put s ⟨a, none, fun _ => none⟩) = (privOf h.sess).put s a := Table.field_set ..
  have hsess : liveSessOf (h.live.put a ⟨s, b, false⟩) = (liveSessOf h.live).put a s := Table.field_set ..
  have hsource : sourceOf (h.live.put a ⟨s, b, false⟩) = (sourceOf h.live).put a b := Table.field_set ..
  -- the new session has no endpoints, and nothing controls it
  have hctl : ctlOf (h.sess.put s ⟨a, none, fun _ => none⟩) = ctlOf h.sess :=
    (Table.field_set ..).trans (Table.set_eq_self (Table.field_of_none _ hs))
  have hep : ∀ t, epOf (h.sess.put s ⟨a, none, fun _ => none⟩) t = epOf h.sess t := fun t =>
    (Table.field_set ..).trans (Table.set_eq_self (Table.field_of_none _ hs))
  have hlist := sessList_update h.source b { h.source b with sessList := a :: (h.source b).sessList }
  have htrack : ∀ b', (update h.source b { h.source b with sessList := a :: (h.source b).sessList } b').track =
      (h.source b').track := update_same LiveSource.track (by rfl)
  generalize update h.source b { h.source b with sessList := a :: (h.source b).sessList } = src at hlist htrack
  refine { hw with
    sessions := hw.sessions.put hs _
    lives := ?_
    live_null := (Table.put_ne (Ne.symm ha0) _).trans hw.live_null
    track_first := fun b' => ?_
    live_sess := ?_
    rtsp_sess := hctl ▸ hw.rtsp_sess
    eps := ⟨fun e s' => by simp only [hep]; exact hw.eps.owner e s', by simp only [hep]; exact hw.eps.track⟩
    ep_conf := fun {s' t e a' b'} => ?_ }
  · simp only [hsource, hlist]
    exact hw.lives.put (Table.field_of_none _ ha) b
  · rw [htrack]
    exact hw.track_first b'
  · simp only [hsess, hpriv]
    exact hw.live_sess.put (Table.field_of_none _ ha) (Table.field_of_none _ hs)
  · simp only [hep, hpriv, hsource]
    intro he hp hb
    have hs' : s' ≠ s := by
      rintro rfl
      rw [epOf, Table.field_of_none _ hs] at he
      cases he
    rw [Table.put_ne hs'] at hp
    have ha' : a' ≠ a := by
      rintro rfl
      rw [← hw.live_sess, liveSessOf, Table.field_of_none _ ha] at hp
      cases hp
    rw [Table.put_ne ha'] at hb
    have htracks : (src b').tracks = (h.source b').tracks := tracks_congr fun t => by rw [htrack]
    rw [htracks]
    exact hw.ep_conf he hp hb

theorem liveSetup_eq {s e : Addr} {t : Track} (ho : liveSetup h s t e = some (some h')) :
    ∃ x l m, h.sess s = some x ∧ h.live x.priv = some l ∧ ((h.source l.source).track t).rtp = some m ∧
      (e ≠ 0 ∧ h.ep e = none) ∧ ∃ payload, h' = { h with
        ep := h.ep.put e ⟨s, payload, (h.source l.source).i32MaxRTPTransSize, .unset⟩
        sess := h.sess.put s { x with ep := update x.ep t (some e) } } := by
  simp only [liveSetup, bind_eq_bind, bind_eq_some_iff] at ho
  obtain ⟨x, hx, l, hl, ho⟩ := ho
  split at ho
  · cases ho
  · rename_i m hm
    split at ho
    · rename_i hf
      cases ho
      exact ⟨x, l, m, hx, hl, hm, Table.fresh_iff.mp hf, _, rfl⟩
    · cases ho

theorem ChanOk.congr {conn : Table Conn} {ep ep' : Table Endpoint} (hc : ChanOk conn ep)
    (ht : ∀ e c i j, transOf ep' e = some (.inter c i j) ↔ transOf ep e = some (.inter c i j)) : ChanOk conn ep' :=
  ⟨fun k c e rtcp => by simp only [ht]; exact hc.holder k c e rtcp, fun h => hc.lt ((ht ..).mp h)⟩

theorem epOf_put {sess : Table Session} {s : Addr} {x : Session} (hx : sess s = some x) (t : Track) (o : Option Addr)
    (t' : Track) (s' : Addr) : epOf (sess.put s { x with ep := update x.ep t o }) t' s' =
      if s' = s ∧ t' = t then o else epOf sess t' s' := by
  by_cases hs : s' = s
  · subst hs
    have hold : epOf sess t' s' = x.ep t' := Table.field_of_some _ hx
    rw [epOf, Table.field_of_some _ (Table.set_self _), hold]
    by_cases ht : t' = t <;> simp [ht]
  · rw [epOf, Table.field, Table.put_ne hs]
    simp [hs, epOf, Table.field]

theorem EpOk.add {sess : Table Session} {ep : Table Endpoint} (hok : EpOk sess ep) {s e : Addr} {x : Session}
    {t : Track} {p : Endpoint} (hx : sess s = some x) (ht : x.ep t = none) (he : ep e = none) (hp : p.session = s) :
    EpOk (sess.put s { x with ep := update x.ep t (some e) }) (ep.put e p) := by
  have hnew : ∀ {s' t'}, epOf sess t' s' ≠ some e := fun {s' t'} h => by
    have := (hok.owner e s').mpr ⟨t', h⟩
    rw [epSessOf, Table.field_of_none _ he] at this
    cases this
  have hfree : epOf sess t s = none := (Table.field_of_some _ hx).trans ht
  have hsess : ∀ e', epSessOf (ep.put e p) e' = if e' = e then some s else epSessOf ep e' := by
    intro e'
    rw [epSessOf, Table.field_set, Table.set_apply, ← hp]
    rfl
  constructor
  · intro e' s'
    simp only [hsess, epOf_put hx]
    by_cases he' : e' = e
    · subst he'
      rw [if_pos rfl]
      constructor
      · intro hs
        exact ⟨t, by rw [if_pos ⟨(some.inj hs).symm, rfl⟩]⟩
      · rintro ⟨t', ht'⟩
        split at ht'
        · rename_i hst
          rw [hst.1]
        · exact (hnew ht').elim
    · rw [if_neg he', hok.owner]
      constructor
      · rintro ⟨t', ht'⟩
        refine ⟨t', ?_⟩
        rw [if_neg]
        · exact ht'
        · rintro ⟨rfl, rfl⟩
          rw [hfree] at ht'
          cases ht'
      · rintro ⟨t', ht'⟩
        split at ht'
        · exact (he' (some.inj ht').symm).elim
        · exact ⟨t', ht'⟩
  · intro s' t₁ t₂ e' h1 h2
    simp only [epOf_put hx] at h1 h2
    split at h1 <;> split at h2
    · rename_i hst hst'
      rw [hst.2, hst'.2]
    · cases h1
      exact (hnew h2).elim
    · cases h2
      exact (hnew h1).elim
    · exact hok.track h1 h2

theorem Heap.Wf.setup (hw : h.Wf) {s e : Addr} {t : Track} (ho : liveSetup h s t e = some (some h'))
    (hslot : epOf h.sess t s = none) : h'.Wf := by
  obtain ⟨x, l, m, hx, hl, hm, ⟨-, he⟩, payload, rfl⟩ := liveSetup_eq ho
  have hfree : x.ep t = none := (Table.field_of_some _ hx).symm.trans hslot
  have hpriv : privOf (h.sess.put s { x with ep := update x.ep t (some e) }) = privOf h.sess :=
    Table.field_put_same hx rfl
  have hctl : ctlOf (h.sess.put s { x with ep := update x.ep t (some e) }) = ctlOf h.sess :=
    Table.field_put_same hx rfl
  refine { hw with
    sessions := hw.sessions.write hx _
    live_sess := hpriv ▸ hw.live_sess
    rtsp_sess := hctl ▸ hw.rtsp_sess
    eps := hw.eps.add hx hfree he rfl
    ep_conf := fun {s' t' e' a' b'} => ?_
    chans := hw.chans.congr fun e' c i j => ?_ }
  · rw [hpriv, epOf_put hx]
    intro hep hp hb
    split at hep
    · rename_i hst
      obtain ⟨rfl, rfl⟩ := hst
      rw [privOf, Table.field_of_some _ hx] at hp
      cases hp
      rw [sourceOf, Table.field_of_some _ hl] at hb
      cases hb
      exact mem_tracks_of_rtp (by rw [hm]; rfl) (hw.track_first _)
    · exact hw.ep_conf hep hp hb
  · rw [transOf, Table.field_set, Table.set_apply]
    split
    · rename_i he'
      rw [he', transOf, Table.field_of_none _ he]
      exact iff_of_false nofun nofun
    · rfl

end Open

/-! ## Transports -/

section Connect

variable {h h' : Heap}

theorem EpOk.write {sess : Table Session} {ep : Table Endpoint} (hok : EpOk sess ep) {e : Addr} {p p' : Endpoint}
    (he : ep e = some p) (hp : p'.session = p.session) : EpOk sess (ep.put e p') := by
  have hsess : epSessOf (ep.put e p') = epSessOf ep := Table.field_put_same he (congrArg some hp)
  exact ⟨hsess ▸ hok.owner, hok.track⟩

theorem Heap.Wf.connectUdp (hw : h.Wf) {e : Addr} {sdpAddr : Str} {sdpPort : Int}
    (hunset : transOf h.ep e = some .unset) (ho : connectUdpEndpoint h e sdpAddr sdpPort = some h') : h'.Wf := by
  simp only [connectUdpEndpoint, bind_eq_bind, bind_eq_some_iff] at ho
  obtain ⟨p, he, ho⟩ := ho
  cases ho
  refine { hw with eps := hw.eps.write he rfl, chans := hw.chans.congr fun e' c i j => ?_ }
  rw [transOf, Table.field_set, Table.set_apply]
  split
  · rename_i he'
    rw [he', hunset]
    exact iff_of_false nofun nofun
  · rfl

theorem chanOf_put {conn : Table Conn} {c e : Addr} {cn : Conn} (hc : conn c = some cn) {i j : Nat}
    (hi : i < maxInterleaveChannels) (hj : j < maxInterleaveChannels) (k : Chan) (c' : Addr) :
    chanOf (conn.put c { cn with protoState := some (update (update
      (cn.protoState.getD fun _ => ⟨none, false⟩) ⟨i, hi⟩ ⟨some e, false⟩) ⟨j, hj⟩ ⟨some e, true⟩) }) k c' =
      if c' = c then (if k.val = j then some (e, true) else if k.val = i then some (e, false) else chanOf conn k c)
      else chanOf conn k c' := by
  rw [chanOf, Table.field_set, Table.set_apply]
  by_cases hc' : c' = c
  · rw [if_pos hc', if_pos hc', chanOf, Table.field_of_some _ hc]
    simp only [bind_some, update_apply, Fin.ext_iff]
    by_cases hkj : k.val = j
    · simp [hkj]
    · by_cases hki : k.val = i
      · subst hki
        simp [hkj]
      · cases hs : cn.protoState <;> simp [hki, hkj]
  · rw [if_neg hc', if_neg hc', chanOf]

theorem connectInterleaved_eq {c e : Addr} {i j : Nat} (ho : connectInterleaved h c e i j = some h') :
    ∃ (cn : Conn) (p : Endpoint) (hi : i < maxInterleaveChannels) (hj : j < maxInterleaveChannels),
      h.conn c = some cn ∧ h.ep e = some p ∧ h' = { h with
        conn := h.conn.put c { cn with protoState := some (update (update
          (cn.protoState.getD fun _ => ⟨none, false⟩) ⟨i, hi⟩ ⟨some e, false⟩) ⟨j, hj⟩ ⟨some e, true⟩) }
        ep := h.ep.put e { p with trans := .inter c i j } } := by
  simp only [connectInterleaved, bind_eq_bind, bind_eq_some_iff] at ho
  obtain ⟨cn, hc, p, he, ho⟩ := ho
  split at ho
  · rename_i hij
    cases ho
    exact ⟨cn, p, hij.1, hij.2, hc, he, rfl⟩
  · cases ho

theorem Heap.Wf.connectInter (hw : h.Wf) {c e : Addr} {i j : Nat} (hunset : transOf h.ep e = some .unset)
    (hij : i ≠ j) (hfree : ∀ k : Chan, k.val = i ∨ k.val = j → chanOf h.conn k c = none)
    (ho : connectInterleaved h c e i j = some h') : h'.Wf := by
  obtain ⟨cn, p, hi, hj, hc, he, rfl⟩ := connectInterleaved_eq ho
  have htrans : ∀ e', transOf (h.ep.put e { p with trans := .inter c i j }) e' =
      if e' = e then some (.inter c i j) else transOf h.ep e' := fun e' => by
    rw [transOf, Table.field_set, Table.set_apply]
    rfl
  -- no channel was held by the endpoint before
  have hnone : ∀ k c' rtcp, chanOf h.conn k c' ≠ some (e, rtcp) := fun k c' rtcp hch => by
    obtain ⟨i', j', htr, _⟩ := (hw.chans.holder k c' e rtcp).mp hch
    rw [hunset] at htr
    cases htr
  refine { hw with conns := hw.conns.write hc _, eps := hw.eps.write he rfl, chans := ⟨fun k c' e' rtcp => ?_, ?_⟩ }
  · rw [chanOf_put hc hi hj, htrans]
    by_cases he' : e' = e
    · subst he'
      have hnone' := hnone k c' rtcp
      rw [if_pos rfl]
      simp only [some.injEq, Trans.inter.injEq]
      by_cases hc' : c' = c
      · subst hc'
        by_cases hkj : k.val = j
        · cases rtcp <;> simp [hkj]
          omega
        · by_cases hki : k.val = i
          · cases rtcp <;> simp [hki, hij]
          · cases rtcp <;> simp [hkj, hki, hnone]
      · rw [if_neg hc']
        refine iff_of_false hnone' ?_
        rintro ⟨i', j', ⟨rfl, _⟩, _⟩
        exact hc' rfl
    · rw [if_neg he', ← hw.chans.holder]
      by_cases hc' : c' = c
      · subst hc'
        rw [if_pos rfl]
        by_cases hkj : k.val = j
        · rw [if_pos hkj, hfree k (Or.inr hkj)]
          simp [Ne.symm he']
        · by_cases hki : k.val = i
          · rw [if_neg hkj, if_pos hki, hfree k (Or.inl hki)]
            simp [Ne.symm he']
          · rw [if_neg hkj, if_neg hki]
      · rw [if_neg hc']
  · intro e' c' i' j' htr
    rw [htrans] at htr
    split at htr
    · cases htr
      exact ⟨hi, hj⟩
    · exact hw.chans.lt htr

end Connect

/-! ## `new_rtsp_session`, `live_play`, `track_check_running`, `do_accept` -/

section Change

variable {h h' : Heap}

theorem newRtspSession_eq {s a : Addr} {id : Str} (ho : newRtspSession h s a id = some h') :
    ∃ x, h.sess s = some x ∧ (a ≠ 0 ∧ h.rtsp a = none) ∧ h' = { h with
      rtspList := a :: h.rtspList
      rtsp := h.rtsp.put a ⟨id, s⟩
      sess := h.sess.put s { x with controlPrivate := some a } } := by
  simp only [newRtspSession, bind_eq_bind, bind_eq_some_iff] at ho
  obtain ⟨x, hx, ho⟩ := ho
  split at ho
  · rename_i hf
    cases ho
    exact ⟨x, hx, Table.fresh_iff.mp hf, rfl⟩
  · cases ho

theorem Heap.Wf.bind (hw : h.Wf) {s a : Addr} {id : Str} (hctl : ctlOf h.sess s = none)
    (ho : newRtspSession h s a id = some h') : h'.Wf := by
  obtain ⟨x, hx, ⟨-, ha⟩, rfl⟩ := newRtspSession_eq ho
  have hpriv : privOf (h.sess.put s { x with controlPrivate := some a }) = privOf h.sess :=
    Table.field_put_same hx rfl
  have hep : epOf (h.sess.put s { x with controlPrivate := some a }) = epOf h.sess := by
    funext t
    exact Table.field_put_same hx rfl
  have hctl' : ctlOf (h.sess.put s { x with controlPrivate := some a }) = (ctlOf h.sess).put s a := Table.field_set ..
  have hrtsp : rtspSessOf (h.rtsp.put a ⟨id, s⟩) = (rtspSessOf h.rtsp).put a s := Table.field_set ..
  refine { hw with
    sessions := hw.sessions.write hx _
    rtsps := hw.rtsps.put ha _
    live_sess := hpriv ▸ hw.live_sess
    rtsp_sess := ?_
    eps := ⟨hep ▸ hw.eps.owner, by simp only [hep]; exact hw.eps.track⟩
    ep_conf := by simp only [hep, hpriv]; exact hw.ep_conf }
  simp only [hctl', hrtsp]
  exact hw.rtsp_sess.put (Table.field_of_none _ ha) hctl

theorem Heap.Wf.with_live (hw : h.Wf) {a : Addr} {l l' : LiveSession} (hl : h.live a = some l) (hs : l'.sess = l.sess)
    (hb : l'.source = l.source) : Heap.Wf { h with live := h.live.put a l' } := by
  have hsess : liveSessOf (h.live.put a l') = liveSessOf h.live := Table.field_put_same hl (congrArg some hs)
  have hsource : sourceOf (h.live.put a l') = sourceOf h.live := Table.field_put_same hl (congrArg some hb)
  have hnull : a ≠ 0 := by
    rintro rfl
    rw [hw.live_null] at hl
    cases hl
  exact { hw with
    lives := hsource ▸ hw.lives
    live_null := (Table.put_ne (Ne.symm hnull) _).trans hw.live_null
    live_sess := hsess ▸ hw.live_sess
    ep_conf := by simp only [hsource]; exact hw.ep_conf }

def LiveSource.played (src : LiveSource) (ep : Track → Option Addr) : LiveSource :=
  { src with
    u32CurConn := src.u32CurConn + 1
    track := fun t => if t ∈ src.tracks ∧ (ep t).isSome then { src.track t with waiting := true } else src.track t }

theorem foldl_setWaiting (ep : Track → Option Addr) (b : SourceId) : ∀ (ts : List Track) (h : Heap),
    ts.foldl (fun h t => if (ep t).isSome then setWaiting h b t true else h) h = { h with
      source := update h.source b { h.source b with
        track := fun t => if t ∈ ts ∧ (ep t).isSome then { (h.source b).track t with waiting := true }
          else (h.source b).track t } }
  | [], h => by simp
  | t :: ts, h => by
    rw [List.foldl_cons, foldl_setWaiting ep b ts]
    by_cases ht : (ep t).isSome
    · rw [if_pos ht]
      simp only [setWaiting, Heap.modifyTrack, Heap.modifySource, update_self, update_idem]
      congr 3
      funext t'
      by_cases htt : t' = t
      · subst htt
        simp [ht]
      · simp [htt]
    · rw [if_neg ht]
      dsimp only
      congr 3
      funext t'
      by_cases htt : t' = t
      · subst htt
        simp [ht]
      · simp [htt]

theorem livePlay_eq {s : Addr} {x : Session} {l : LiveSession} (hx : h.sess s = some x)
    (hl : h.live x.priv = some l) : livePlay h s = some { h with
      source := update h.source l.source ((h.source l.source).played x.ep)
      live := h.live.put x.priv { l with playing := true } } := by
  simp only [livePlay, hx, hl, bind_eq_bind, bind_some, foldl_setWaiting]
  simp only [Heap.modifySource, update_self, update_idem]
  rfl

theorem livePlay_inv {s : Addr} (ho : livePlay h s = some h') :
    ∃ x l, h.sess s = some x ∧ h.live x.priv = some l ∧ h' = { h with
      source := update h.source l.source ((h.source l.source).played x.ep)
      live := h.live.put x.priv { l with playing := true } } := by
  cases hx : h.sess s with
  | none => simp [livePlay, hx] at ho
  | some x =>
    cases hl : h.live x.priv with
    | none => simp [livePlay, hx, hl] at ho
    | some l =>
      rw [livePlay_eq hx hl] at ho
      exact ⟨x, l, rfl, hl, (some.inj ho).symm⟩

theorem Heap.Wf.play (hw : h.Wf) {s : Addr} (ho : livePlay h s = some h') : h'.Wf := by
  obtain ⟨x, l, -, hl, rfl⟩ := livePlay_inv ho
  have hplay : Heap.Wf { h with live := h.live.put x.priv { l with playing := true } } := hw.with_live hl rfl rfl
  refine hplay.with_source (update_same LiveSource.sessList (by rfl))
    fun b t => update_same (fun src : LiveSource => (src.track t).rtp) ?_ b
  simp only [LiveSource.played]
  split <;> rfl

theorem Heap.Wf.checkRunning (hw : h.Wf) {b : SourceId} {t : Track} (ho : trackCheckRunning h b t = some h') : h'.Wf := by
  simp only [trackCheckRunning, bind_eq_bind, bind_eq_some_iff] at ho
  obtain ⟨d, _, ho⟩ := ho
  cases ho
  split
  · exact hw
  · exact hw.setWaiting _ _ _

theorem chanOf_new {conn : Table Conn} {c : Addr} (hc : conn c = none) (k : Chan) :
    chanOf (conn.put c ⟨none⟩) k = chanOf conn k :=
  (Table.field_set ..).trans (Table.set_eq_self (Table.field_of_none _ hc))

theorem Heap.Wf.accept (hw : h.Wf) {c : Addr} (ho : doAccept h c = some h') : h'.Wf := by
  unfold doAccept at ho
  split at ho
  · rename_i hf
    obtain ⟨-, hc⟩ := Table.fresh_iff.mp hf
    cases ho
    exact { hw with
      conns := hw.conns.put hc _
      chans := ⟨fun k => by rw [chanOf_new hc]; exact hw.chans.holder k, hw.chans.lt⟩ }
  · cases ho

end Change

/-! ## `del_rtp_endpoint`, `live_teardown` -/

section Teardown

variable {h h' : Heap}

theorem chanOf_clear {conn : Table Conn} {c : Addr} {cn : Conn} {rc : RtspConn} (hc : conn c = some cn)
    (hrc : cn.protoState = some rc) {i : Nat} (hi : i < maxInterleaveChannels) (k : Chan) (c' : Addr) : chanOf (conn.put c
      { cn with protoState := some (update rc ⟨i, hi⟩ { rc ⟨i, hi⟩ with ep := none }) }) k c' =
      if c' = c ∧ k.val = i then none else chanOf conn k c' := by
  rw [chanOf, Table.field_set, Table.set_apply]
  by_cases hc' : c' = c
  · subst hc'
    rw [if_pos rfl, chanOf, Table.field_of_some _ hc, hrc]
    by_cases hk : k.val = i
    · subst hk
      simp
    · have hne : k ≠ ⟨i, hi⟩ := fun e => hk (congrArg Fin.val e)
      simp [hk, hne]
  · rw [if_neg hc', if_neg fun e => hc' e.1, chanOf]

theorem interleaveDisconnect_spec {c : Addr} {cn : Conn} {rc : RtspConn} (hc : h.conn c = some cn)
    (hrc : cn.protoState = some rc) {i : Nat} (hi : i < maxInterleaveChannels) :
    ∃ conn cn' rc', interleaveDisconnect h c i = some { h with conn := conn } ∧ conn c = some cn' ∧
      cn'.protoState = some rc' ∧ (Lists h.connList h.conn → Lists h.connList conn) ∧ stateOf conn = stateOf h.conn ∧
      ∀ k c', chanOf conn k c' = if c' = c ∧ k.val = i then none else chanOf h.conn k c' :=
  ⟨_, _, _, by simp only [interleaveDisconnect, hc, hrc, hi, bind_eq_bind, bind_some, ↓reduceDIte]; rfl,
    Table.set_self _, rfl, fun hl => hl.write hc _, Table.field_put_same hc (by rw [hrc]; rfl), chanOf_clear hc hrc hi⟩

theorem delRtpEndpoint_spec (hw : h.Wf) {e : Addr} {p : Endpoint} (he : h.ep e = some p) :
    ∃ conn, delRtpEndpoint h e = some { h with conn := conn, ep := h.ep.del e } ∧ Lists h.connList conn ∧
      stateOf conn = stateOf h.conn ∧
      ∀ k c e' rtcp, chanOf conn k c = some (e', rtcp) ↔ chanOf h.conn k c = some (e', rtcp) ∧ e' ≠ e := by
  have htrans : transOf h.ep e = some p.trans := Table.field_of_some _ he
  by_cases hinter : ∃ c i j, p.trans = .inter c i j
  · obtain ⟨c, i, j, hp⟩ := hinter
    obtain ⟨cn, rc, hi, hj, hc, hrc, hri, hrj⟩ := hw.chans_of_ep he hp
    rw [hp] at htrans
    obtain ⟨conn₁, cn₁, rc₁, h1, hc1, hrc1, hl1, hst1, hch1⟩ := interleaveDisconnect_spec hc hrc hi
    obtain ⟨conn₂, cn₂, rc₂, h2, hc2, hrc2, hl2, hst2, hch2⟩ :=
      interleaveDisconnect_spec (h := { h with conn := conn₁ }) hc1 hrc1 hj
    refine ⟨conn₂, ?_, hl2 (hl1 hw.conns), hst2.trans hst1, fun k c' e' rtcp => ?_⟩
    · simp only [delRtpEndpoint, he, hp, h1, h2, bind_eq_bind, bind_some]
      rfl
    · rw [hch2, hch1]
      constructor
      · intro hch
        split at hch
        · cases hch
        split at hch
        · cases hch
        rename_i hnj hni
        refine ⟨hch, ?_⟩
        rintro rfl
        obtain ⟨i', j', htr, hk⟩ := (hw.chans.holder k c' e' rtcp).mp hch
        rw [htrans] at htr
        cases htr
        cases rtcp
        · exact hni ⟨rfl, hk⟩
        · exact hnj ⟨rfl, hk⟩
      · rintro ⟨hch, hne⟩
        -- the two channels that are freed were held by `e`
        have hown : ∀ rtcp' : Bool, k.val = (if rtcp' then j else i) → c' ≠ c := by
          rintro rtcp' hk rfl
          have := (hw.chans.holder k c' e rtcp').mpr ⟨i, j, htrans, hk⟩
          rw [hch] at this
          cases this
          exact hne rfl
        rw [if_neg fun hcj => hown true hcj.2 hcj.1, if_neg fun hci => hown false hci.2 hci.1]
        exact hch
  · refine ⟨h.conn, ?_, hw.conns, rfl, fun k c e' rtcp => ⟨fun hch => ⟨hch, ?_⟩, And.left⟩⟩
    · cases hp : p.trans with
      | inter c i j => exact (hinter ⟨c, i, j, hp⟩).elim
      | unset => simp only [delRtpEndpoint, he, hp, bind_eq_bind, bind_some]; rfl
      | udp sdpAddr sdpPort => simp only [delRtpEndpoint, he, hp, bind_eq_bind, bind_some]; rfl
    · rintro rfl
      obtain ⟨i, j, htr, _⟩ := (hw.chans.holder k c e' rtcp).mp hch
      rw [htrans] at htr
      exact hinter ⟨c, i, j, some.inj htr⟩

variable {s : Addr} {x : Session}

theorem EpOk.remove {sess : Table Session} {ep : Table Endpoint} (hok : EpOk sess ep) {e : Addr}
    {t : Track} (hx : sess s = some x) (ht : x.ep t = some e) :
    EpOk (sess.put s { x with ep := update x.ep t none }) (ep.del e) := by
  have hheld : epOf sess t s = some e := (Table.field_of_some _ hx).trans ht
  have hsess : ∀ e', epSessOf (ep.del e) e' = if e' = e then none else epSessOf ep e' := fun e' => by
    rw [epSessOf, Table.field_set, Table.set_apply]
    rfl
  constructor
  · intro e' s'
    simp only [hsess, epOf_put hx]
    by_cases he' : e' = e
    · subst he'
      rw [if_pos rfl]
      refine iff_of_false nofun ?_
      rintro ⟨t', ht'⟩
      split at ht'
      · cases ht'
      · rename_i hne
        -- the endpoint was held by this session, and in one slot
        have hs : s' = s :=
          some.inj (((hok.owner e' s').mpr ⟨t', ht'⟩).symm.trans ((hok.owner e' s).mpr ⟨t, hheld⟩))
        subst hs
        exact hne ⟨rfl, hok.track ht' hheld⟩
    · rw [if_neg he', hok.owner]
      constructor
      · rintro ⟨t', ht'⟩
        refine ⟨t', ?_⟩
        rw [if_neg]
        · exact ht'
        · rintro ⟨rfl, rfl⟩
          exact he' (some.inj (ht'.symm.trans hheld))
      · rintro ⟨t', ht'⟩
        split at ht'
        · cases ht'
        · exact ⟨t', ht'⟩
  · intro s' t₁ t₂ e' h1 h2
    simp only [epOf_put hx] at h1 h2
    split at h1
    · cases h1
    · split at h2
      · cases h2
      · exact hok.track h1 h2

theorem dropEndpoint_spec (hw : h.Wf) {e : Addr} {t : Track} (hx : h.sess s = some x) (ht : x.ep t = some e) :
    ∃ conn h', dropEndpoint h s t e = some h' ∧ h'.Wf ∧ stateOf conn = stateOf h.conn ∧
      (∀ k c e' rtcp, chanOf conn k c = some (e', rtcp) ↔ chanOf h.conn k c = some (e', rtcp) ∧ e' ≠ e) ∧
      h' = { h with
        conn := conn
        ep := h.ep.del e
        sess := h.sess.put s { x with ep := update x.ep t none } } := by
  obtain ⟨p, he, hp⟩ := hw.ep_of_sess hx ht
  obtain ⟨conn, hdel, hlist, hst, hch⟩ := delRtpEndpoint_spec hw he
  have hpriv : privOf (h.sess.put s { x with ep := update x.ep t none }) = privOf h.sess :=
    Table.field_put_same hx rfl
  have hctl : ctlOf (h.sess.put s { x with ep := update x.ep t none }) = ctlOf h.sess :=
    Table.field_put_same hx rfl
  have htrans : ∀ e' c i j, transOf (h.ep.del e) e' = some (.inter c i j) ↔
      transOf h.ep e' = some (.inter c i j) ∧ e' ≠ e := fun e' c i j => by
    rw [transOf, Table.field_set, Table.set_apply]
    by_cases he' : e' = e <;> simp [he', transOf]
  refine ⟨conn, _, ?_, ?_, hst, hch, rfl⟩
  · simp only [dropEndpoint, hdel, hx, bind_eq_bind, bind_some]
    rfl
  refine { hw with
    conns := hlist
    sessions := hw.sessions.write hx _
    live_sess := hpriv ▸ hw.live_sess
    rtsp_sess := hctl ▸ hw.rtsp_sess
    eps := hw.eps.remove hx ht
    ep_conf := fun {s' t' e' a' b'} => ?_
    chans := ⟨fun k c e' rtcp => ?_, fun htr => hw.chans.lt ((htrans ..).mp htr).1⟩ }
  · rw [hpriv, epOf_put hx]
    intro hep
    split at hep
    · cases hep
    · exact hw.ep_conf hep
  · rw [hch, hw.chans.holder]
    simp only [htrans]
    constructor
    · rintro ⟨⟨i, j, htr, hk⟩, hne⟩
      exact ⟨i, j, ⟨htr, hne⟩, hk⟩
    · rintro ⟨i, j, ⟨htr, hne⟩, hk⟩
      exact ⟨⟨i, j, htr, hk⟩, hne⟩

theorem epOf_del {sess : Table Session} (hx : sess s = some x) (hnone : ∀ t, x.ep t = none) :
    epOf (sess.del s) = epOf sess := by
  funext t
  exact (Table.field_set ..).trans (Table.set_eq_self ((Table.field_of_some _ hx).trans (hnone t)))

theorem delSession_spec (hw : h.Wf) (hx : h.sess s = some x) (h₀ : Heap)
    (hs : h₀.sess = h.sess) (hr : h₀.rtsp = h.rtsp) (hrl : h₀.rtspList = h.rtspList) :
    ∃ rtspList rtsp, delSession h₀ s = some { h₀ with
        sessList := h₀.sessList.erase s, sess := h₀.sess.del s, rtspList := rtspList, rtsp := rtsp } ∧
      Lists rtspList rtsp ∧ Inverse (rtspSessOf rtsp) (ctlOf (h.sess.del s)) := by
  have hctl : ctlOf (h.sess.del s) = (ctlOf h.sess).del s := Table.field_set ..
  cases hc : x.controlPrivate with
  | none =>
    refine ⟨h.rtspList, h.rtsp, ?_, hw.rtsps, ?_⟩
    · simp only [delSession, hs, hx, hc, bind_eq_bind, bind_some, ← hr, ← hrl]
      rfl
    · have hsame : (ctlOf h.sess).del s = ctlOf h.sess := Table.set_eq_self ((Table.field_of_some _ hx).trans hc)
      rw [hctl, hsame]
      exact hw.rtsp_sess
  | some a =>
    obtain ⟨r, hra, hrs⟩ := hw.rtsp_of_sess hx hc
    refine ⟨h.rtspList.erase a, h.rtsp.del a, ?_, hw.rtsps.del, ?_⟩
    · simp only [delSession, rtspSessionClose, hs, hx, hc, hr, hrl, hra, bind_eq_bind, bind_some]
      rfl
    · have hrtsp : rtspSessOf (h.rtsp.del a) = (rtspSessOf h.rtsp).del a := Table.field_set ..
      rw [hctl, hrtsp]
      exact hw.rtsp_sess.del ((Table.field_of_some _ hra).trans (congrArg some hrs))

theorem closeLive_spec (hw : h.Wf) {l : LiveSession} (hx : h.sess s = some x)
    (hl : h.live x.priv = some l) (hnone : ∀ t, x.ep t = none) :
    ∃ rtspList rtsp h', closeLive h s x.priv = some h' ∧ h'.Wf ∧ h' = { h with
      source := update h.source l.source ((h.source l.source).unlink x.priv l.playing)
      live := h.live.del x.priv
      sessList := h.sessList.erase s
      sess := h.sess.del s
      rtspList := rtspList
      rtsp := rtsp } := by
  obtain ⟨l', hl', hls⟩ := hw.live_of_sess hx
  cases hl.symm.trans hl'
  have hlist := sessList_update h.source l.source ((h.source l.source).unlink x.priv l.playing)
  have htrack : ∀ b, (update h.source l.source ((h.source l.source).unlink x.priv l.playing) b).track =
      (h.source b).track := update_same LiveSource.track (by rfl)
  have hclose : closeLive h s x.priv = delSession { h with
      source := update h.source l.source ((h.source l.source).unlink x.priv l.playing)
      live := h.live.del x.priv } s := by
    simp only [closeLive, hl, bind_eq_bind, bind_some]
    rfl
  generalize update h.source l.source _ = src at hlist htrack hclose ⊢
  obtain ⟨rtspList, rtsp, hdel, hrlist, hrinv⟩ := delSession_spec hw hx { h with
    source := src
    live := h.live.del x.priv } rfl rfl rfl
  refine ⟨rtspList, rtsp, _, hclose.trans hdel, ?_, rfl⟩
  have hsource : sourceOf (h.live.del x.priv) = (sourceOf h.live).del x.priv := Table.field_set ..
  have hlsess : liveSessOf (h.live.del x.priv) = (liveSessOf h.live).del x.priv := Table.field_set ..
  have hpriv : privOf (h.sess.del s) = (privOf h.sess).del s := Table.field_set ..
  have hep := epOf_del hx hnone
  refine { hw with
    sessions := hw.sessions.del
    rtsps := hrlist
    lives := ?_
    live_null := Table.del_of_none hw.live_null
    track_first := fun b => by rw [htrack]; exact hw.track_first b
    live_sess := ?_
    rtsp_sess := hrinv
    eps := ⟨hep ▸ hw.eps.owner, by simp only [hep]; exact hw.eps.track⟩
    ep_conf := fun {s' t e a b} => ?_ }
  · simp only [hsource, hlist]
    exact hw.lives.del (Table.field_of_some _ hl)
  · simp only [hlsess, hpriv]
    exact hw.live_sess.del ((Table.field_of_some _ hl).trans (congrArg some hls))
  · simp only [hep, hpriv, hsource, Table.set_apply]
    intro he hp hb
    have htracks : (src b).tracks = (h.source b).tracks := tracks_congr fun t => by rw [htrack]
    rw [htracks]
    split at hp
    · cases hp
    · split at hb
      · cases hb
      · exact hw.ep_conf he hp hb

end Teardown

end NuWicam.Rtsp
