import NuWicam.Rtsp.Handlers
import NuWicam.Rtsp.Teardown
import NuWicam.Rtsp.View

/-!
# What a request does to the memory

`rtspHandleMsg_spec` says of every request which of the elementary changes it makes and in which order, and that it ends
without a fault if its URI fits into the buffers of the handlers.
-/

namespace NuWicam.Rtsp

open Lib Option Function

/-! ## What a request asks for -/

section

variable (md5 : Md5) (locs : List RtspLocation)

def matchedLocation (m : Pmsg) : Option (RtspLocation × Int) :=
  match methodOf m with
  | .describe => (findRtspLocation locs m.uri true false).join
  | .setup => (findRtspLocation locs m.uri true true).join
  | _ => none

def Passes (srv : Server) (m : Pmsg) (env : Env) (loc : RtspLocation) : Prop :=
  loc.realm = [] ∨ 0 < checkDigestResponse md5 srv.secret env.now m loc.realm loc.username loc.password

instance (srv : Server) (m : Pmsg) (env : Env) (loc : RtspLocation) : Decidable (Passes md5 srv m env loc) :=
  inferInstanceAs (Decidable (_ ∨ _))

/-- A `DESCRIBE` that is challenged after `live_open` has made a session for it. -/
def Leaks (srv : Server) (m : Pmsg) (env : Env) : Prop :=
  methodOf m = .describe ∧ ∃ loc n, matchedLocation locs m = some (loc, n) ∧
    (srv.heap.source loc.source).u32CurConn < (srv.heap.source loc.source).u32MaxConnNum ∧ ¬ Passes md5 srv m env loc

def named (srv : Server) (m : Pmsg) : Option RtspSession :=
  (getSession srv.heap (getHeader m (bytes "Session"))).bind srv.heap.rtsp

def playTarget (srv : Server) (m : Pmsg) : Option Addr :=
  if methodOf m = .play then (named srv m).map (·.sess) else none

structure SetupOf (srv : Server) (m : Pmsg) (env : Env) (loc : RtspLocation) (t : Track) : Prop where
  method : methodOf m = .setup
  location : matchedLocation locs m = some (loc, (t.val : Int))
  passes : Passes md5 srv m env loc

inductive Clean (srv : Server) (m : Pmsg) (env : Env) : Heap → Reply → Prop
  /-- nothing is changed -/
  | same {r} : r.sdp = none → Clean srv m env srv.heap r
  /-- a session is opened and closed again -/
  | brief {loc n h₁ h' r} : matchedLocation locs m = some (loc, n) → Passes md5 srv m env loc →
      OpStep srv.heap (.openSession loc.source env.live env.sess) h₁ → Loses h₁ h' env.sess → h'.sess env.sess = none →
      (∀ p, r.sdp = some p → p.1 = loc.source) → Clean srv m env h' r
  /-- a session is opened, and closed again because the transport is refused -/
  | refused {loc t h₁ h₂ h' r} : SetupOf md5 locs srv m env loc t → getHeader m (bytes "Session") = none →
      OpStep srv.heap (.openSession loc.source env.live env.sess) h₁ → OpStep h₁ (.setup env.sess t env.ep) h₂ →
      Loses h₂ h' env.sess → h'.sess env.sess = none → r.sdp = none → Clean srv m env h' r
  /-- a session is opened for a track -/
  | setup {loc t h₁ h₂ h₃ h' r} : SetupOf md5 locs srv m env loc t → getHeader m (bytes "Session") = none →
      OpStep srv.heap (.openSession loc.source env.live env.sess) h₁ → OpStep h₁ (.setup env.sess t env.ep) h₂ →
      OpStep h₂ (.connect env.ep) h₃ → OpStep h₃ (.bind env.sess env.rtsp) h' → r.sdp = none → r.resp.code = 200 →
      Clean srv m env h' r
  /-- a track is added to a session -/
  | join {loc t rs h₁ h' r} : SetupOf md5 locs srv m env loc t → named srv m = some rs →
      OpStep srv.heap (.setup rs.sess t env.ep) h₁ → OpStep h₁ (.connect env.ep) h' → r.sdp = none →
      Clean srv m env h' r
  /-- a track is added to a session, and taken away because the transport is refused -/
  | joinRefused {loc t rs h₁ h' r} : SetupOf md5 locs srv m env loc t → named srv m = some rs →
      OpStep srv.heap (.setup rs.sess t env.ep) h₁ → Loses h₁ h' rs.sess → r.sdp = none → Clean srv m env h' r
  | teardown {rs h' r} : methodOf m = .teardown → named srv m = some rs → Loses srv.heap h' rs.sess → r.sdp = none →
      Clean srv m env h' r

inductive Effect (srv : Server) (m : Pmsg) (env : Env) : Heap → Reply → Prop
  | leak {loc n h' r} : Leaks md5 locs srv m env → matchedLocation locs m = some (loc, n) →
      OpStep srv.heap (.openSession loc.source env.live env.sess) h' → r.sdp = none → Effect srv m env h' r
  | play {s h' r} : playTarget srv m = some s → OpStep srv.heap (.play s) h' → r.sdp = none → Effect srv m env h' r
  | clean {h' r} : ¬ Leaks md5 locs srv m env → playTarget srv m = none → Clean md5 locs srv m env h' r →
      Effect srv m env h' r

end

structure Env.Fresh (env : Env) (h : Heap) : Prop where
  live : h.live.fresh env.live = true
  sess : h.sess.fresh env.sess = true
  ep : h.ep.fresh env.ep = true
  rtsp : h.rtsp.fresh env.rtsp = true

def Fits (m : Pmsg) : Prop := m.uri.length ≤ 262

def Handled.Spec (o : Handled) (Fault : Prop) (E : Heap → Reply → Prop) : Prop :=
  match o with
  | none => Fault
  | some (srv, r) => E srv.heap r

theorem Handled.Spec.mono {o : Handled} {F F' : Prop} {E E' : Heap → Reply → Prop} (ho : o.Spec F E) (hf : F → F')
    (he : ∀ h r, E h r → E' h r) : o.Spec F' E' := by
  cases o with
  | none => exact hf ho
  | some x => exact he _ _ ho

/-! ## The parts of the handlers -/

section Parts

variable {md5 : Md5} {locs : List RtspLocation} {srv : Server} {h h' : Heap} {m : Pmsg} {env : Env}

theorem code_addPmsgString (r : Resp) (s : Str) : (addPmsgString r s).2.code = r.code := by
  unfold addPmsgString
  split <;> rfl

theorem code_addHeader (r : Resp) (name value : Str) : (addHeader r name value).2.code = r.code := by
  unfold addHeader
  split
  · rfl
  have hname := code_addPmsgString r name
  split
  · rename_i heq
    rw [heq] at hname
    exact hname
  · rename_i r₁ heq
    rw [heq] at hname
    have hvalue := code_addPmsgString r₁ value
    split <;>
    · rename_i heq'
      rw [heq'] at hvalue
      exact hvalue.trans hname

theorem code_rtspCreateReply (m : Pmsg) (code : Nat) (reason : Str) : (rtspCreateReply m code reason).code = code := by
  have hcopy : ∀ (fs : List (Str × Str)) (r : Resp),
      (fs.foldl (fun r f => (addHeader r f.1 f.2).2) r).code = r.code := by
    intro fs
    induction fs with
    | nil => exact fun _ => rfl
    | cons f fs ih => exact fun r => (ih _).trans (code_addHeader ..)
  refine (hcopy _ _).trans ?_
  show (addPmsgString (addPmsgString (newPmsg 512 code) (bytes "RTSP/1.0")).2 reason).2.code = code
  rw [code_addPmsgString, code_addPmsgString]
  rfl

theorem rtspVerifyAuth_eq_none (loc : RtspLocation) : rtspVerifyAuth md5 srv m env loc = none ↔ Passes md5 srv m env loc := by
  unfold rtspVerifyAuth Passes
  split
  · simp [*]
  · rename_i hrealm
    dsimp only
    split <;> simp [*]

theorem rtspVerifyAuth_eq_some {loc : RtspLocation} {x : Server × Reply} (hv : rtspVerifyAuth md5 srv m env loc = some x) :
    ¬ Passes md5 srv m env loc ∧ x.1.heap = srv.heap ∧ x.2.sdp = none := by
  refine ⟨fun hp => ?_, ?_⟩
  · rw [(rtspVerifyAuth_eq_none loc).mpr hp] at hv
    cases hv
  · unfold rtspVerifyAuth at hv
    split at hv
    · cases hv
    · dsimp only at hv
      split at hv
      · cases hv
      · cases hv
        exact ⟨rfl, rfl⟩

theorem interleaveChans_spec {rc : Option RtspConn} {t : Str} {i j : Nat} (hc : interleaveChans rc t = some (i, j)) :
    j = i + 1 ∧ j < maxInterleaveChannels ∧
      ∀ k : Chan, k.val = i ∨ k.val = j → (rc.bind fun rc => (rc k).ep) = none := by
  have hfree : ∀ k : Chan, chanUsed rc k.val = false → (rc.bind fun rc => (rc k).ep) = none := by
    intro k hk
    cases rc with
    | none => rfl
    | some rc => simpa [chanUsed] using hk
  unfold interleaveChans at hc
  split at hc
  · split at hc
    · cases hc
    dsimp only at hc
    split at hc
    · cases hc
    split at hc
    · cases hc
    split at hc
    · cases hc
    rename_i hn hused
    simp only [Bool.or_eq_true, not_or, Bool.not_eq_true] at hused
    cases hc
    refine ⟨rfl, by omega, fun k hk => hfree k ?_⟩
    rcases hk with hk | hk
    · rw [hk]
      exact hused.1
    · rw [hk]
      exact hused.2
  · simp only [map_eq_some_iff, Prod.mk.injEq] at hc
    obtain ⟨i', hfind, rfl, rfl⟩ := hc
    have hi' := List.mem_of_find?_eq_some hfind
    have hused := List.find?_some hfind
    simp only [Bool.and_eq_true, Bool.not_eq_true'] at hused
    refine ⟨rfl, ?_, fun k hk => hfree k ?_⟩
    · simp only [List.mem_cons, List.not_mem_nil, or_false] at hi'
      unfold maxInterleaveChannels
      omega
    · rcases hk with hk | hk
      · rw [hk]
        exact hused.1
      · rw [hk]
        exact hused.2

def Connects (h : Heap) (e : Addr) (resp : Resp) (o : Option (Option (Heap × Resp))) : Prop :=
  o = some none ∨ ∃ h' resp', o = some (some (h', resp')) ∧ OpStep h (.connect e) h' ∧ resp'.code = resp.code ∧
    h'.rtsp = h.rtsp ∧ h'.sess = h.sess

theorem rtspInterleaveSetup_spec {c e : Addr} {p : Endpoint} (hc : (h.conn c).isSome) (hp : h.ep e = some p)
    (hunset : transOf h.ep e = some .unset) (t : Str) (resp : Resp) : Connects h e resp (rtspInterleaveSetup h c e t resp) := by
  obtain ⟨cn, hcn⟩ := isSome_iff_exists.mp hc
  cases hch : interleaveChans cn.protoState t with
  | none =>
    left
    simp only [rtspInterleaveSetup, hcn, bind_eq_bind, bind_some, hch]
    rfl
  | some ij =>
    obtain ⟨i, j⟩ := ij
    obtain ⟨hij, hj, hfree⟩ := interleaveChans_spec hch
    have hi : i < maxInterleaveChannels := by omega
    have hfree' : ∀ k : Chan, k.val = i ∨ k.val = j → chanOf h.conn k c = none := fun k hk => by
      have hk := hfree k hk
      rw [chanOf, Table.field_of_some _ hcn]
      cases hrc : cn.protoState with
      | none => rfl
      | some rc =>
        rw [hrc] at hk
        simpa using hk
    obtain ⟨h', hcon⟩ : ∃ h', connectInterleaved h c e i j = some h' := by
      simp [connectInterleaved, hcn, hp, hi, hj]
    have hrun : rtspInterleaveSetup h c e t resp = some (some (h', (addHeader resp (bytes "Transport")
        (bytes "RTP/AVP/TCP;unicast;interleaved=" ++ decimal i ++ bytes "-" ++ decimal j)).2)) := by
      simp only [rtspInterleaveSetup, hcn, bind_eq_bind, bind_some, hch, hcon]
      rfl
    have hij' : i ≠ j := by omega
    refine .inr ⟨h', _, hrun, .inter hunset hij' hfree' hcon, code_addHeader .., ?_⟩
    obtain ⟨_, _, _, _, _, _, rfl⟩ := connectInterleaved_eq hcon
    exact ⟨rfl, rfl⟩

theorem rtspUdpSetup_spec (env : Env) {e : Addr} {p : Endpoint} (hp : h.ep e = some p)
    (hunset : transOf h.ep e = some .unset) (t : Str) (resp : Resp) : Connects h e resp (rtspUdpSetup h env e t resp) := by
  unfold rtspUdpSetup
  split
  · rename_i cport sdpAddr sdpPort serverPort _ _
    have hcon : connectUdpEndpoint h e sdpAddr sdpPort =
        some { h with ep := h.ep.put e { p with trans := .udp sdpAddr sdpPort } } := by
      simp only [connectUdpEndpoint, hp, bind_eq_bind, bind_some]
      rfl
    rw [hcon]
    exact .inr ⟨_, _, rfl, .udp hunset hcon, code_addHeader .., rfl, rfl⟩
  · exact .inl rfl

theorem transportSetup_spec (env : Env) {c e : Addr} {p : Endpoint} (hc : (h.conn c).isSome) (hp : h.ep e = some p)
    (hunset : p.trans = .unset) (t : Str) (resp : Resp) : Connects h e resp (transportSetup h env c e t resp) := by
  have htrans : transOf h.ep e = some .unset := (Table.field_of_some _ hp).trans (congrArg some hunset)
  unfold transportSetup
  split
  · exact rtspInterleaveSetup_spec hc hp htrans t resp
  · split
    · exact rtspUdpSetup_spec env hp htrans t resp
    · exact .inl rfl

theorem liveOpen_cases (h : Heap) (b : SourceId) (a s : Addr) :
    (liveOpen h b a s = none ∧ ¬ (h.live.fresh a ∧ h.sess.fresh s)) ∨
      (liveOpen h b a s = some none ∧ ¬ (h.source b).u32CurConn < (h.source b).u32MaxConnNum) ∨
      ∃ h', liveOpen h b a s = some (some h') := by
  unfold liveOpen
  by_cases hmax : (h.source b).u32CurConn ≥ (h.source b).u32MaxConnNum
  · exact .inr (.inl ⟨if_pos hmax, UInt32.not_lt.mpr hmax⟩)
  · rw [if_neg hmax]
    by_cases hf : (h.live.fresh a && h.sess.fresh s)
    · exact .inr (.inr ⟨_, if_pos hf⟩)
    · exact .inl ⟨if_neg hf, fun hf' => hf (by rw [hf'.1, hf'.2]; rfl)⟩

theorem liveSetup_cases (hw : h.Wf) {s : Addr} {x : Session} (hx : h.sess s = some x) (t : Track) (e : Addr) :
    (liveSetup h s t e = none ∧ ¬ h.ep.fresh e) ∨ liveSetup h s t e = some none ∨
      ∃ h', liveSetup h s t e = some (some h') := by
  obtain ⟨l, hl, -⟩ := hw.live_of_sess hx
  simp only [liveSetup, hx, hl, bind_eq_bind, bind_some]
  split
  · exact .inr (.inl rfl)
  · by_cases hf : h.ep.fresh e
    · exact .inr (.inr ⟨_, if_pos hf⟩)
    · exact .inl ⟨if_neg hf, hf⟩

theorem trackOf_len (path : Str) : (trackOf path).2 ≤ path.length := by
  unfold trackOf
  split
  · omega
  · split
    · dsimp only
      split
      · omega
      · omega
    · omega

theorem trackOf_name {s : Str} (hs : 47 ∉ s) (base : Str) : trackOf (base ++ (bytes "/track" ++ s)) =
      ((strtol s).1, if (strtol s).2 = [] then base.length else (base ++ (bytes "/track" ++ s)).length) := by
  have hslash : (47 : UInt8) ∉ bytes "track" ++ s := by
    rw [List.mem_append, not_or]
    exact ⟨by decide, hs⟩
  have hlast : strrchr 47 (base ++ (bytes "/track" ++ s)) = some (bytes "/track" ++ s) := strrchr_last hslash base
  have hpfx : hasPfx (bytes "/track") (bytes "/track" ++ s) :=
    List.isPrefixOf_iff_prefix.mpr (List.prefix_append ..)
  have hdrop : (bytes "/track" ++ s).drop 6 = s := @List.drop_left _ (bytes "/track") s
  have hlen : (base ++ (bytes "/track" ++ s)).length - (bytes "/track" ++ s).length = base.length := by
    rw [List.length_append, Nat.add_sub_cancel]
  unfold trackOf
  rw [hlast]
  dsimp only
  rw [if_pos hpfx, hdrop, hlen]

theorem findRtspLocation_fits (locs : List RtspLocation) (hm : Fits m) (base track : Bool) :
    ∃ o, findRtspLocation locs m.uri base track = some o := by
  unfold findRtspLocation
  cases hp : getLocalPath m.uri with
  | none => exact ⟨_, rfl⟩
  | some path =>
    have hlen : path.length < 256 := by
      unfold getLocalPath at hp
      split at hp
      · cases hp
        unfold Fits at hm
        cases hc : strchr 47 (m.uri.drop 7) with
        | none => decide
        | some r =>
          have := strchr_length hc
          rw [List.length_drop] at this
          rw [getD_some]
          omega
      · cases hp
    have htrack := trackOf_len path
    dsimp only
    rw [if_neg]
    · exact ⟨_, rfl⟩
    · rintro ⟨-, hge⟩
      cases track <;> simp at hge <;> split at hge <;> omega

theorem findRtspLocation_noBase (locs : List RtspLocation) (uri : Str) (track : Bool) :
    ∃ o, findRtspLocation locs uri false track = some o := by
  unfold findRtspLocation
  cases getLocalPath uri with
  | none => exact ⟨_, rfl⟩
  | some path => exact ⟨_, if_neg nofun⟩

theorem findRtspLocation_mem {locs : List RtspLocation} {uri : Str} {base track : Bool} {loc : RtspLocation} {n : Int}
    (hx : findRtspLocation locs uri base track = some (some (loc, n))) : loc ∈ locs := by
  unfold findRtspLocation at hx
  split at hx
  · cases hx
  · rename_i path _
    generalize (if track = true then trackOf path else _) = x at hx
    dsimp only at hx
    generalize (if 1 < x.2 ∧ path.getD (x.2 - 1) 0 = 47 then x.2 - 1 else x.2) = len at hx
    split at hx
    · cases hx
    · obtain ⟨loc', hloc, heq⟩ := map_eq_some_iff.mp (Option.some.inj hx)
      cases heq
      exact List.mem_of_find?_eq_some hloc

theorem liveGetSdp_total (hw : h.Wf) {s : Addr} {x : Session} (hx : h.sess s = some x) : ∃ o, liveGetSdp h s = some o := by
  obtain ⟨l, hl, -⟩ := hw.live_of_sess hx
  simp only [liveGetSdp, hx, hl, bind_eq_bind, bind_some]
  split <;> exact ⟨_, rfl⟩

end Parts

/-! ## The handlers -/

section Handlers

variable {md5 : Md5} {locs : List RtspLocation} {srv : Server} {c : Addr} {m : Pmsg} {env : Env}

theorem torn_update (x : Session) (t : Track) (e : Addr) (hnone : ∀ t', x.ep t' = none) (t' : Track) :
    Session.torn { x with ep := update x.ep t (some e) } (some e) t' = none := by
  unfold Session.torn
  by_cases ht : t' = t
  · subst ht
    simp
  · simp [ht, hnone]

theorem setupTransport_new (srv : Server) (hw : srv.heap.Wf) (hc : (srv.heap.conn c).isSome) {s e : Addr} {x : Session}
    {p : Endpoint} {t : Track} (hx : srv.heap.sess s = some x) (he : x.ep t = some e) (hp : srv.heap.ep e = some p)
    (hunset : p.trans = .unset) (hctl : x.controlPrivate = none) (honly : ∀ t', x.torn (some e) t' = none) (tr : Str) :
    (setupTransport srv c m env s t tr none).Spec (¬ srv.heap.rtsp.fresh env.rtsp) fun h' r => r.sdp = none ∧
      ((Loses srv.heap h' s ∧ h'.sess s = none) ∨
        (∃ h₃, OpStep srv.heap (.connect e) h₃ ∧ OpStep h₃ (.bind s env.rtsp) h' ∧ r.resp.code = 200)) := by
  simp only [setupTransport, hx, he, bind_eq_bind, bind_some]
  rcases transportSetup_spec env hc hp hunset tr (rtspCreateReply m 200 (bytes "OK")) with
    ht | ⟨h₃, resp, ht, hcon, hcode, hrtsp, hsess⟩
  · obtain ⟨h', hrun, hlo, -, hs⟩ := liveTeardown_spec hw hx (some e)
    simp only [ht, hrun, bind_some]
    exact ⟨rfl, .inl ⟨hlo, hs.trans (if_pos honly)⟩⟩
  · simp only [ht, bind_some, sessionOf, bind_eq_bind]
    cases hnew : newRtspSession h₃ s env.rtsp (hexBytesUpper env.idBytes) with
    | none =>
      intro hf
      simp [newRtspSession, hsess, hx, hrtsp, hf] at hnew
    | some h' =>
      have hctl₃ : ctlOf h₃.sess s = none := by rw [hsess]; exact (Table.field_of_some _ hx).trans hctl
      refine ⟨rfl, .inr ⟨h₃, hcon, .bind hctl₃ hnew, ?_⟩⟩
      exact (code_addHeader ..).trans (hcode.trans (code_rtspCreateReply ..))

theorem setupTransport_join (srv : Server) (hw : srv.heap.Wf) (hc : (srv.heap.conn c).isSome) {s e a : Addr} {x : Session}
    {p : Endpoint} {t : Track} {rs : RtspSession} (hx : srv.heap.sess s = some x) (he : x.ep t = some e)
    (hp : srv.heap.ep e = some p) (hunset : p.trans = .unset) (hr : srv.heap.rtsp a = some rs) (tr : Str) :
    (setupTransport srv c m env s t tr (some a)).Spec False fun h' r => r.sdp = none ∧
      (Loses srv.heap h' s ∨ OpStep srv.heap (.connect e) h') := by
  simp only [setupTransport, hx, he, bind_eq_bind, bind_some]
  rcases transportSetup_spec env hc hp hunset tr (rtspCreateReply m 200 (bytes "OK")) with
    ht | ⟨h₃, resp, ht, hcon, -, hrtsp, -⟩
  · obtain ⟨h', hrun, hlo, -⟩ := liveTeardown_spec hw hx (some e)
    simp only [ht, hrun, bind_some]
    exact ⟨rfl, .inl hlo⟩
  · simp only [ht, bind_some, sessionOf, bind_eq_bind, hrtsp, hr]
    exact ⟨rfl, .inr hcon⟩

theorem liveSetup_fields {h h' : Heap} {s e : Addr} {t : Track} {x : Session} (hx : h.sess s = some x)
    (hs : liveSetup h s t e = some (some h')) :
    h'.sess s = some { x with ep := update x.ep t (some e) } ∧ (∃ p, h'.ep e = some p ∧ p.trans = .unset) ∧
      h'.conn = h.conn ∧ h'.rtsp = h.rtsp := by
  obtain ⟨x', l, md, hx', -, -, -, payload, rfl⟩ := liveSetup_eq hs
  cases hx.symm.trans hx'
  exact ⟨Table.set_self _, ⟨_, Table.set_self _, rfl⟩, rfl, rfl⟩

theorem setupSession_new (hw : srv.heap.Wf) (hc : (srv.heap.conn c).isSome) {loc : RtspLocation} {t : Track} {h₁ : Heap}
    (hset : SetupOf md5 locs srv m env loc t) (hnone : getHeader m (bytes "Session") = none)
    (ho : liveOpen srv.heap loc.source env.live env.sess = some (some h₁)) (tr : Str) :
    (setupSession { srv with heap := h₁ } c m env env.sess t tr none).Spec (¬ env.Fresh srv.heap)
      (Clean md5 locs srv m env) := by
  have hopen : OpStep srv.heap (.openSession loc.source env.live env.sess) h₁ := .openSession ho
  have hw₁ := hopen.wf hw
  obtain ⟨-, -, -, heq⟩ := liveOpen_eq ho
  have hx₁ : h₁.sess env.sess = some ⟨env.live, none, fun _ => none⟩ := by rw [heq]; exact Table.set_self _
  have hep₁ : h₁.ep = srv.heap.ep := by rw [heq]
  have hrtsp₁ : h₁.rtsp = srv.heap.rtsp := by rw [heq]
  have hc₁ : (h₁.conn c).isSome := by rw [heq]; exact hc
  simp only [setupSession, hx₁, bind_eq_bind, bind_some, isSome_none, Bool.false_eq_true,
    ↓reduceIte]
  rcases liveSetup_cases hw₁ hx₁ t env.ep with ⟨hs, hf⟩ | hs | ⟨h₂, hs⟩
  · rw [hs]
    exact fun hfresh => hf (hep₁ ▸ hfresh.ep)
  · obtain ⟨h', hrun, hlo, -, hgone⟩ := liveTeardown_spec hw₁ hx₁ none
    simp only [hs, hrun, bind_some]
    exact .brief hset.location hset.passes hopen hlo (hgone.trans (if_pos fun _ => rfl)) nofun
  · have hsetup : OpStep h₁ (.setup env.sess t env.ep) h₂ := .setup (Table.field_of_some _ hx₁) hs
    obtain ⟨hx₂, ⟨p, hp, hunset⟩, hconn₂, hrtsp₂⟩ := liveSetup_fields hx₁ hs
    simp only [hs, bind_some]
    refine (setupTransport_new { srv with heap := h₂ } (hsetup.wf hw₁) (hconn₂ ▸ hc₁) hx₂
      (update_self ..) hp hunset rfl (torn_update _ t env.ep fun _ => rfl) tr).mono ?_ ?_
    · exact fun hf hfresh => hf (by rw [hrtsp₂, hrtsp₁]; exact hfresh.rtsp)
    · rintro h' r ⟨hsdp, ⟨hlo, hgone⟩ | ⟨h₃, hcon, hbind, hcode⟩⟩
      · exact .refused hset hnone hopen hsetup hlo hgone hsdp
      · exact .setup hset hnone hopen hsetup hcon hbind hsdp hcode

theorem setupSession_join (hw : srv.heap.Wf) (hc : (srv.heap.conn c).isSome) {loc : RtspLocation} {t : Track} {a : Addr}
    {rs : RtspSession} (hset : SetupOf md5 locs srv m env loc t) (hnamed : named srv m = some rs)
    (hr : srv.heap.rtsp a = some rs) (tr : Str) :
    (setupSession srv c m env rs.sess t tr (some a)).Spec (¬ env.Fresh srv.heap) (Clean md5 locs srv m env) := by
  obtain ⟨x, hx, -⟩ := hw.sess_of_rtsp hr
  simp only [setupSession, hx, bind_eq_bind, bind_some]
  cases he : x.ep t with
  | some e => exact .same rfl
  | none =>
    rcases liveSetup_cases hw hx t env.ep with ⟨hs, hf⟩ | hs | ⟨h₁, hs⟩
    · rw [hs]
      exact fun hfresh => hf hfresh.ep
    · rw [hs]
      exact .same rfl
    · have hsetup : OpStep srv.heap (.setup rs.sess t env.ep) h₁ := .setup ((Table.field_of_some _ hx).trans he) hs
      obtain ⟨hx₁, ⟨p, hp, hunset⟩, hconn₁, hrtsp₁⟩ := liveSetup_fields hx hs
      simp only [hs, bind_some]
      refine (setupTransport_join { srv with heap := h₁ } (hsetup.wf hw) (hconn₁ ▸ hc) hx₁
        (update_self ..) hp hunset (hrtsp₁ ▸ hr) tr).mono False.elim ?_
      rintro h' r ⟨hsdp, hlo | hcon⟩
      · exact .joinRefused hset hnamed hsetup hlo hsdp
      · exact .join hset hnamed hsetup hcon hsdp

theorem named_of_getSession {a : Addr} (hg : getSession srv.heap (getHeader m (bytes "Session")) = some a) :
    ∃ rs, srv.heap.rtsp a = some rs ∧ named srv m = some rs := by
  have hany : ((srv.heap.rtsp a).isSome) := by
    cases hh : getHeader m (bytes "Session") with
    | none => rw [hh] at hg; cases hg
    | some id =>
      rw [hh] at hg
      have := List.find?_some hg
      cases hr : srv.heap.rtsp a with
      | none => simp [hr] at this
      | some rs => rfl
  obtain ⟨rs, hr⟩ := isSome_iff_exists.mp hany
  exact ⟨rs, hr, by rw [named, hg]; exact hr⟩

theorem setupTrack_spec (hw : srv.heap.Wf) (hc : (srv.heap.conn c).isSome) {loc : RtspLocation} {t : Track}
    (hset : SetupOf md5 locs srv m env loc t) (tr : Str) :
    (setupTrack srv c m env loc t tr).Spec (¬ env.Fresh srv.heap) (Clean md5 locs srv m env) := by
  unfold setupTrack
  cases hsh : getHeader m (bytes "Session") with
  | none =>
    rcases liveOpen_cases srv.heap loc.source env.live env.sess with ⟨ho, hf⟩ | ⟨ho, -⟩ | ⟨h₁, ho⟩
    · rw [ho]
      exact fun hfresh => hf ⟨hfresh.live, hfresh.sess⟩
    · rw [ho]
      exact .same rfl
    · simp only [ho, bind_eq_bind, bind_some]
      exact setupSession_new hw hc hset hsh ho tr
  | some sh =>
    dsimp only
    cases hg : getSession srv.heap (some sh) with
    | none => exact .same rfl
    | some a =>
      obtain ⟨rs, hr, hnamed⟩ := named_of_getSession (hsh ▸ hg)
      simp only [hr, bind_eq_bind, bind_some]
      exact setupSession_join hw hc hset hnamed hr tr

theorem handleSETUP_spec (hw : srv.heap.Wf) (hc : (srv.heap.conn c).isSome) (hm : methodOf m = .setup) :
    (handleSETUP md5 locs srv c m env).Spec (¬ (env.Fresh srv.heap ∧ Fits m)) (Clean md5 locs srv m env) := by
  unfold handleSETUP
  cases hfind : findRtspLocation locs m.uri true true with
  | none =>
    rintro ⟨-, hfits⟩
    obtain ⟨o, ho⟩ := findRtspLocation_fits locs hfits true true
    rw [hfind] at ho
    cases ho
  | some o =>
    match o with
    | none => exact .same rfl
    | some (loc, n) =>
      simp only [bind_eq_bind, bind_some]
      split
      · rename_i ht
        cases hv : rtspVerifyAuth md5 srv m env loc with
        | some x =>
          obtain ⟨-, hheap, hsdp⟩ := rtspVerifyAuth_eq_some hv
          show Clean md5 locs srv m env x.1.heap x.2
          rw [hheap]
          exact .same hsdp
        | none =>
          have hset : SetupOf md5 locs srv m env loc ⟨n.toNat, ht.2⟩ := by
            refine ⟨hm, ?_, (rtspVerifyAuth_eq_none loc).mp hv⟩
            simp only [matchedLocation, hm, hfind, join_some, Int.toNat_of_nonneg ht.1]
          dsimp only
          split
          · exact .same rfl
          · exact (setupTrack_spec hw hc hset _).mono (fun hf hf' => hf hf'.1) fun _ _ he => he
      · exact .same rfl

theorem leaks_iff (hm : methodOf m = .describe) {loc : RtspLocation} {n : Int}
    (hmatch : matchedLocation locs m = some (loc, n)) :
    Leaks md5 locs srv m env ↔ (srv.heap.source loc.source).u32CurConn < (srv.heap.source loc.source).u32MaxConnNum ∧
      ¬ Passes md5 srv m env loc := by
  constructor
  · rintro ⟨-, loc', n', hloc, hl⟩
    rw [hmatch] at hloc
    cases hloc
    exact hl
  · exact fun hl => ⟨hm, loc, n, hmatch, hl⟩

theorem handleDESCRIBE_spec (hw : srv.heap.Wf) (hm : methodOf m = .describe) :
    (handleDESCRIBE md5 locs srv m env).Spec (¬ (env.Fresh srv.heap ∧ Fits m)) fun h' r =>
      (Leaks md5 locs srv m env ∧ ∃ loc n, matchedLocation locs m = some (loc, n) ∧
        OpStep srv.heap (.openSession loc.source env.live env.sess) h' ∧ r.sdp = none) ∨
      (¬ Leaks md5 locs srv m env ∧ Clean md5 locs srv m env h' r) := by
  unfold handleDESCRIBE
  cases hfind : findRtspLocation locs m.uri true false with
  | none =>
    rintro ⟨-, hfits⟩
    obtain ⟨o, ho⟩ := findRtspLocation_fits locs hfits true false
    rw [hfind] at ho
    cases ho
  | some o =>
    have hmatch : matchedLocation locs m = o := by simp [matchedLocation, hm, hfind]
    match o with
    | none =>
      refine .inr ⟨?_, .same rfl⟩
      rintro ⟨-, loc, n, hloc, -⟩
      rw [hmatch] at hloc
      cases hloc
    | some (loc, n) =>
      have hleaks : Leaks md5 locs srv m env ↔ _ := leaks_iff hm hmatch
      simp only [bind_eq_bind, bind_some]
      rcases liveOpen_cases srv.heap loc.source env.live env.sess with ⟨ho, hf⟩ | ⟨ho, hmax⟩ | ⟨h₁, ho⟩
      · rw [ho]
        exact fun hfresh => hf ⟨hfresh.1.live, hfresh.1.sess⟩
      · rw [ho]
        exact .inr ⟨fun hl => hmax (hleaks.mp hl).1, .same rfl⟩
      · have hopen : OpStep srv.heap (.openSession loc.source env.live env.sess) h₁ := .openSession ho
        have hw₁ := hopen.wf hw
        obtain ⟨hlt, -, -, heq⟩ := liveOpen_eq ho
        have hx₁ : h₁.sess env.sess = some ⟨env.live, none, fun _ => none⟩ := by rw [heq]; exact Table.set_self _
        simp only [ho, bind_some]
        cases hv : rtspVerifyAuth md5 { srv with heap := h₁ } m env loc with
        | some x =>
          obtain ⟨hp, hheap, hsdp⟩ := rtspVerifyAuth_eq_some hv
          refine .inl ⟨hleaks.mpr ⟨hlt, hp⟩, loc, n, hmatch, ?_, hsdp⟩
          rw [hheap]
          exact hopen
        | none =>
          have hp : Passes md5 { srv with heap := h₁ } m env loc := (rtspVerifyAuth_eq_none loc).mp hv
          obtain ⟨sdp, hsdp⟩ := liveGetSdp_total hw₁ hx₁
          obtain ⟨h', hrun, hlo, -, hgone⟩ := liveTeardown_spec hw₁ hx₁ none
          simp only [hsdp, bind_some]
          split
          · rename_i hlong
            rintro ⟨-, hfits⟩
            unfold Fits at hfits
            omega
          · simp only [hrun, bind_some]
            refine .inr ⟨fun hl => (hleaks.mp hl).2 hp,
              .brief hmatch hp hopen hlo (hgone.trans (if_pos fun _ => rfl)) ?_⟩
            cases sdp with
            | none => exact nofun
            | some text =>
              rintro p hpeq
              cases hpeq
              rfl

theorem handlePLAY_spec (hw : srv.heap.Wf) (hm : methodOf m = .play) : (handlePLAY srv m).Spec False fun h' r => r.sdp = none ∧
      ((∃ s, playTarget srv m = some s ∧ OpStep srv.heap (.play s) h') ∨
        (playTarget srv m = none ∧ h' = srv.heap)) := by
  unfold handlePLAY
  cases hg : getSession srv.heap (getHeader m (bytes "Session")) with
  | none =>
    refine ⟨rfl, .inr ⟨?_, rfl⟩⟩
    rw [playTarget, if_pos hm, named, hg]
    rfl
  | some a =>
    obtain ⟨rs, hr, hnamed⟩ := named_of_getSession hg
    obtain ⟨x, hx, -⟩ := hw.sess_of_rtsp hr
    obtain ⟨l, hl, -⟩ := hw.live_of_sess hx
    have hplay := livePlay_eq hx hl
    simp only [hr, hplay, bind_eq_bind, bind_some]
    exact ⟨rfl, .inl ⟨rs.sess, by rw [playTarget, if_pos hm, hnamed]; rfl, .play hplay⟩⟩

theorem handlePAUSE_spec (srv : Server) (m : Pmsg) :
    (handlePAUSE srv m).Spec False fun h' r => r.sdp = none ∧ h' = srv.heap := by
  unfold handlePAUSE
  split <;> exact ⟨rfl, rfl⟩

theorem handleTEARDOWN_spec (hw : srv.heap.Wf) (hm : methodOf m = .teardown) :
    (handleTEARDOWN locs srv m).Spec False (Clean md5 locs srv m env) := by
  unfold handleTEARDOWN
  obtain ⟨o, ho⟩ := findRtspLocation_noBase locs m.uri true
  simp only [ho, bind_eq_bind, bind_some]
  match o with
  | none => exact .same rfl
  | some (loc, n) =>
    dsimp only
    split
    · exact .same rfl
    · cases hg : getSession srv.heap (getHeader m (bytes "Session")) with
      | none => exact .same rfl
      | some a =>
        obtain ⟨rs, hr, hnamed⟩ := named_of_getSession hg
        obtain ⟨x, hx, -⟩ := hw.sess_of_rtsp hr
        obtain ⟨h', hrun, hlo, -⟩ := liveTeardown_spec hw hx
          (if ht : 0 ≤ n ∧ n.toNat < maxTracks then x.ep ⟨n.toNat, ht.2⟩ else none)
        simp only [hr, hx, hrun, bind_some]
        exact .teardown hm hnamed hlo rfl

/-- **What a request does**: one of the sequences of changes in `Effect`. -/
theorem rtspHandleMsg_spec (hw : srv.heap.Wf) (hc : (srv.heap.conn c).isSome) :
    (rtspHandleMsg md5 locs srv c m env).Spec (¬ (env.Fresh srv.heap ∧ Fits m)) (Effect md5 locs srv m env) := by
  have hleaks : methodOf m ≠ .describe → ¬ Leaks md5 locs srv m env := fun hm hl => hm hl.1
  have hplay : methodOf m ≠ .play → playTarget srv m = none := fun hm => if_neg hm
  unfold rtspHandleMsg
  cases hm : methodOf m <;> dsimp only <;> rw [hm] at hleaks hplay
  case options => exact .clean (hleaks nofun) (hplay nofun) (.same rfl)
  case unknown => exact .clean (hleaks nofun) (hplay nofun) (.same rfl)
  case pause =>
    refine (handlePAUSE_spec srv m).mono False.elim ?_
    rintro h r ⟨hsdp, rfl⟩
    exact .clean (hleaks nofun) (hplay nofun) (.same hsdp)
  case describe =>
    refine (handleDESCRIBE_spec hw hm).mono id ?_
    rintro h r (⟨hl, loc, n, hloc, hopen, hsdp⟩ | ⟨hl, hclean⟩)
    · exact .leak hl hloc hopen hsdp
    · exact .clean hl (hplay nofun) hclean
  case setup =>
    exact (handleSETUP_spec hw hc hm).mono id fun h r hclean => .clean (hleaks nofun) (hplay nofun) hclean
  case teardown =>
    exact (handleTEARDOWN_spec hw hm).mono False.elim fun h r hclean => .clean (hleaks nofun) (hplay nofun) hclean
  case play =>
    refine (handlePLAY_spec hw hm).mono False.elim ?_
    rintro h r ⟨hsdp, ⟨s, hs, hstep⟩ | ⟨hnone, rfl⟩⟩
    · exact .play hs hstep hsdp
    · exact .clean (hleaks nofun) hnone (.same hsdp)

end Handlers

end NuWicam.Rtsp
