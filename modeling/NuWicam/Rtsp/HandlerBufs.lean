import NuWicam.Rtsp.Bounds
import NuWicam.Rtsp.Framing

/-!
# The arrays of fixed size in the handlers (`rtsp.c`)

None of the functions that write into `path[256]`, `hdr[512]` and `trans[128]` but `handle_PLAY` looks at the size of the
array. `handlerWrites` lists the writes of a request, each with its array and the end of its bytes
(`handler_writes_fit_iff`).
-/

namespace NuWicam.Rtsp

open Lib List Option Int

/-! ## Writes -/

inductive FixedBuf
  | path
  | hdr
  | trans
deriving DecidableEq, Repr

def FixedBuf.size : FixedBuf → Nat
  | .path => 256
  | .hdr => 512
  | .trans => 128

structure BufWrite where
  buf : FixedBuf
  upto : Nat
deriving DecidableEq, Repr

def BufWrite.Fits (w : BufWrite) : Prop := w.upto ≤ w.buf.size

instance (w : BufWrite) : Decidable w.Fits := inferInstanceAs (Decidable (_ ≤ _))

def printed (b : FixedBuf) (text : Str) : BufWrite := ⟨b, text.length + 1⟩

/-- `len` of `find_rtsp_location` when it copies the path. -/
def baseLen (path : Str) (track : Bool) : Nat :=
  let len := if track then (trackOf path).2 else path.length
  if 1 < len ∧ path.getD (len - 1) 0 = 47 then len - 1 else len

/-- `strncpy(base, path, len); base[len] = 0;` -/
def locationWrites (uri : Str) (track : Bool) : List BufWrite :=
  match getLocalPath uri with
  | none => []
  | some path => [⟨.path, baseLen path track + 1⟩]

section Handlers

variable (md5 : Md5) (locs : List RtspLocation)

def describes (srv : Server) (m : Pmsg) (env : Env) : Bool :=
  match findRtspLocation locs m.uri false false with
  | some (some (loc, _)) =>
    match liveOpen srv.heap loc.source env.live env.sess with
    | some (some h) =>
      (rtspVerifyAuth md5 { srv with heap := h } m env loc).isNone && (liveGetSdp h env.sess).any Option.isSome
    | _ => false
  | _ => false

/-- The writes of `handle_DESCRIBE` -/
def describeWrites (srv : Server) (m : Pmsg) (env : Env) : List BufWrite :=
  locationWrites m.uri false ++ if describes md5 locs srv m env then [printed .hdr (m.uri ++ bytes "/")] else []

/-- `"RTP/AVP/TCP;unicast;interleaved=%d-%d"` -/
def interleavedText (i j : Nat) : Str := bytes "RTP/AVP/TCP;unicast;interleaved=" ++ decimal i ++ bytes "-" ++ decimal j

/-- `"RTP/AVP;unicast;client_port=%d-%d;server_port=%d-%d"` -/
def udpText (cport serverPort : Int) : Str :=
  bytes "RTP/AVP;unicast;client_port=" ++ portPair cport ++ bytes ";server_port=" ++ portPair serverPort

/-- The writes of `rtsp_interleave_setup` -/
def interleaveWrites (h : Heap) (c : Addr) (t : Str) : List BufWrite :=
  match (h.conn c).bind fun conn => interleaveChans conn.protoState t with
  | none => []
  | some (i, j) => [printed .trans (interleavedText i j)]

/-- The writes of `rtsp_udp_setup` -/
def udpWrites (env : Env) (t : Str) : List BufWrite :=
  match clientPort t, env.udp with
  | some cport, some (_, _, serverPort) => [printed .trans (udpText cport serverPort)]
  | _, _ => []

def transportWrites (h : Heap) (env : Env) (c : Addr) (t : Str) : List BufWrite :=
  if hasPfxCase (bytes "RTP/AVP/TCP") t then interleaveWrites h c t
  else if (hasPfxCase (bytes "RTP/AVP") t ∧ t.getD 7 0 ≠ 47) ∨ hasPfxCase (bytes "RTP/AVP/UDP") t then udpWrites env t
  else []

/-- The writes of `handle_SETUP` from the test of `s->ep[track]` on -/
def setupSessionWrites (h : Heap) (c : Addr) (env : Env) (s : Addr) (track : Track) (t : Str) : List BufWrite :=
  match h.sess s with
  | none => []
  | some sess =>
    if (sess.ep track).isSome then []
    else match liveSetup h s track env.ep with
      | some (some h) => transportWrites h env c t
      | _ => []

/-- The writes of `handle_SETUP` from the `Session` header on -/
def setupTrackWrites (h : Heap) (c : Addr) (m : Pmsg) (env : Env) (loc : RtspLocation) (track : Track) (t : Str) :
    List BufWrite :=
  match getHeader m (bytes "Session") with
  | none =>
    match liveOpen h loc.source env.live env.sess with
    | some (some h) => setupSessionWrites h c env env.sess track t
    | _ => []
  | some sh =>
    match (getSession h (some sh)).bind h.rtsp with
    | none => []
    | some rs => setupSessionWrites h c env rs.sess track t

theorem trackBound {track : Int} (h : 0 ≤ track ∧ track.toNat < maxTracks) : track.toNat < maxTracks := h.2

/-- The writes of `handle_SETUP` -/
def setupWrites (srv : Server) (c : Addr) (m : Pmsg) (env : Env) : List BufWrite :=
  locationWrites m.uri true ++
    match findRtspLocation locs m.uri false true with
    | some (some (loc, track)) =>
      if ht : 0 ≤ track ∧ track.toNat < maxTracks then
        match rtspVerifyAuth md5 srv m env loc, getHeader m (bytes "Transport") with
        | none, some t => setupTrackWrites srv.heap c m env loc ⟨track.toNat, trackBound ht⟩ t
        | _, _ => []
      else []
    | _ => []

/-- A start position that is not negative, as `handle_PLAY` prints it, with `seqnum` and `last_timestamp` of the
endpoints. -/
structure Position where
  /-- `"%.4f"` -/
  npt : Str
  seqnum : Track → Int
  lastTimestamp : Track → UInt32
  /-- a `double` has at most 309 digits before the point -/
  short : npt.length ≤ 314

/-- `"url=%s/track%d;seq=%d;rtptime=%u,"` -/
def Position.info (pos : Position) (uri : Str) (t : Track) : Str :=
  bytes "url=" ++ uri ++ bytes "/track" ++ decimal t.val ++ bytes ";seq=" ++ decimal (pos.seqnum t) ++
    bytes ";rtptime=" ++ decimal (pos.lastTimestamp t).toNat ++ bytes ","

/-- `snprintf` is given the room that is left, and a text that does not fit ends the loop; after the loop the last comma
goes. -/
def infoWrites (p : Nat) : List Str → List BufWrite
  | [] => if 0 < p then [⟨.hdr, p⟩] else []
  | text :: texts =>
    ⟨.hdr, p + min (text.length + 1) (512 - p)⟩ ::
      if 512 - p ≤ text.length then [] else infoWrites (p + text.length) texts

/-- `play` of the session leaves the position `pos`; `live_play` leaves `-1`, so that there is none. -/
def playWrites (srv : Server) (m : Pmsg) (pos : Option Position) : List BufWrite :=
  let rs := (getSession srv.heap (getHeader m (bytes "Session"))).bind srv.heap.rtsp
  match pos, rs.bind fun rs => srv.heap.sess rs.sess with
  | some pos, some sess =>
    printed .hdr (bytes "npt=" ++ pos.npt ++ bytes "-") ::
      infoWrites 0 (((List.finRange maxTracks).filter fun t => (sess.ep t).isSome).map (pos.info m.uri))
  | _, _ => []

/-- `handle_TEARDOWN` does not ask for the path. -/
def handlerWrites (srv : Server) (c : Addr) (m : Pmsg) (env : Env) (pos : Option Position) : List BufWrite :=
  match methodOf m with
  | .describe => describeWrites md5 locs srv m env
  | .setup => setupWrites md5 locs srv c m env
  | .play => playWrites srv m pos
  | .options | .pause | .teardown | .unknown => []

end Handlers

/-! ## The path -/

section Path

variable {path base uri : Str} {track : Bool}

/-- The path is `base` and the name of a track, which `strtol` reads to its end. -/
def TrackPath (path base : Str) : Prop := ∃ s, path = base ++ (bytes "/track" ++ s) ∧ 47 ∉ s ∧ (strtol s).2 = []

def ShortPath (path : Str) : Prop := path.length < 256 ∨ (path.length = 256 ∧ path.getLast? = some 47)

/-- What is left of the path without the name of a track, if that is looked for, is short. -/
def ShortUri (uri : Str) (track : Bool) : Prop :=
  ∀ path, getLocalPath uri = some path →
    (∃ base, track = true ∧ TrackPath path base ∧ ShortPath base) ∨
      ((track = true → ∀ base, ¬ TrackPath path base) ∧ ShortPath path)

theorem trackOf_trackPath (h : TrackPath path base) : (trackOf path).2 = base.length := by
  obtain ⟨s, rfl, hs, hend⟩ := h
  rw [trackOf_name hs, if_pos hend]

theorem trackOf_noTrack (h : ∀ base, ¬ TrackPath path base) : (trackOf path).2 = path.length := by
  unfold trackOf
  cases hc : strrchr 47 path with
  | none => rfl
  | some c =>
    obtain ⟨a, b, rfl, rfl, hb⟩ := strrchr_eq_some hc
    dsimp only
    split
    · rename_i hpfx
      obtain ⟨s, hs⟩ := List.isPrefixOf_iff_prefix.mp hpfx
      rw [if_neg]
      intro hend
      refine h a ⟨s, ?_, ?_, ?_⟩
      · rw [hs]
      · intro hmem
        have : b = bytes "track" ++ s := (List.cons.inj hs).2.symm
        exact hb (this ▸ mem_append_right _ hmem)
      · have hdrop : (bytes "/track" ++ s).drop 6 = s := @drop_left _ (bytes "/track") s
        rw [← hs, hdrop] at hend
        exact hend
    · rfl

theorem stripped_lt_iff (base rest : Str) :
    (if 1 < base.length ∧ (base ++ rest).getD (base.length - 1) 0 = 47 then base.length - 1 else base.length) < 256 ↔
      ShortPath base := by
  unfold ShortPath
  rcases eq_nil_or_concat base with rfl | ⟨init, x, rfl⟩
  · simp
  · have hget : (init.concat x ++ rest).getD ((init.concat x).length - 1) 0 = x := by simp
    have hlast : (init.concat x).getLast? = some x := by simp
    rw [hget, hlast, Option.some.injEq]
    by_cases hx : x = 47
    · simp only [hx, and_true]
      split <;> omega
    · simp [hx]

theorem baseLen_trackPath (h : TrackPath path base) : baseLen path true < 256 ↔ ShortPath base := by
  have hlen := trackOf_trackPath h
  obtain ⟨s, rfl, -⟩ := h
  rw [← stripped_lt_iff base (bytes "/track" ++ s)]
  unfold baseLen
  rw [if_pos rfl, hlen]

theorem baseLen_noTrack (h : track → ∀ base, ¬ TrackPath path base) : baseLen path track < 256 ↔ ShortPath path := by
  have hlen : (if track then (trackOf path).2 else path.length) = path.length := by
    split
    · exact trackOf_noTrack (h ‹_›)
    · rfl
  have hstrip := stripped_lt_iff path []
  rw [append_nil] at hstrip
  rw [← hstrip]
  unfold baseLen
  rw [hlen]

theorem locationWrites_fit_iff : (∀ w ∈ locationWrites uri track, w.Fits) ↔ ShortUri uri track := by
  unfold locationWrites ShortUri
  cases hp : getLocalPath uri with
  | none => simp
  | some path =>
    have hfits : (∀ w ∈ [BufWrite.mk .path (baseLen path track + 1)], w.Fits) ↔ baseLen path track < 256 := by
      rw [forall_mem_singleton]
      exact Iff.rfl
    simp only [hfits, Option.some.injEq, forall_eq']
    by_cases htrack : track ∧ ∃ base, TrackPath path base
    · obtain ⟨rfl, base, hbase⟩ := htrack
      rw [baseLen_trackPath hbase]
      constructor
      · intro hs
        exact .inl ⟨base, rfl, hbase, hs⟩
      · rintro (⟨base', -, hbase', hs⟩ | ⟨hno, -⟩)
        · exact (baseLen_trackPath hbase).mp ((baseLen_trackPath hbase').mpr hs)
        · exact absurd hbase (hno rfl base)
    · have hno : track → ∀ base, ¬ TrackPath path base := fun ht base hb => htrack ⟨ht, base, hb⟩
      rw [baseLen_noTrack hno]
      constructor
      · intro hs
        exact .inr ⟨hno, hs⟩
      · rintro (⟨base, ht, hbase, -⟩ | ⟨-, hs⟩)
        · exact absurd hbase (hno ht base)
        · exact hs

end Path

/-! ## The transport -/

def IsInt (n : Int) : Prop := -2 ^ 31 ≤ n ∧ n < 2 ^ 31

theorem strtol_isInt (s : Str) : IsInt (strtol s).1 := by
  have hclamp : ∀ n : Int, IsInt (clampLong n) := by
    intro n
    unfold clampLong IsInt
    omega
  have hvalue : ∀ (ds : Str) (n : Int) (rest : Str), IsInt (if ds = [] then (0, s) else (clampLong n, rest)).1 := by
    intro ds n rest
    split
    · show IsInt 0
      exact ⟨by decide, by decide⟩
    · exact hclamp n
  exact hvalue _ _ _

theorem clientPort_isInt {t : Str} {n : Int} (h : clientPort t = some n) : IsInt n := by
  unfold clientPort at h
  split at h
  · cases h
  · split at h
    · cases h
    · dsimp only at h
      split at h
      · cases h
      · cases h
        exact strtol_isInt _

variable (n : Nat)

theorem decimal_negSucc : decimal (negSucc n) = 45 :: decimal (n + 1 : Nat) := by
  show bytes ("-" ++ toString (n + 1)) = _
  simp only [bytes, String.toList_append, map_append]
  rfl

theorem length_decimal_int {n : Int} (h : IsInt n) : (decimal n).length ≤ 11 := by
  unfold IsInt at h
  cases n with
  | ofNat n =>
    rw [ofNat_eq_natCast] at h
    have hlen : (decimal n).length ≤ 10 := length_decimal_le (by decide) (by omega)
    exact Nat.le_succ_of_le hlen
  | negSucc n =>
    have hlen : (decimal (n + 1 : Nat)).length ≤ 10 := length_decimal_le (by decide) (by omega)
    rw [decimal_negSucc, length_cons]
    omega

theorem length_portPair {n : Int} (h : IsInt n) : (portPair n).length ≤ 23 := by
  have hnext : IsInt (bmod (n + 1) (2 ^ 32)) := by
    have hle := @le_bmod (n + 1) (2 ^ 32) (by decide)
    have hlt := @bmod_lt (n + 1) (2 ^ 32) (by decide)
    unfold IsInt
    omega
  have h₁ := length_decimal_int h
  have h₂ := length_decimal_int hnext
  simp only [portPair, length_append]
  have hdash : (bytes "-").length = 1 := rfl
  omega

theorem udpText_fits {cport serverPort : Int} (hc : IsInt cport) (hs : IsInt serverPort) :
    (printed .trans (udpText cport serverPort)).Fits := by
  have h₁ := length_portPair hc
  have h₂ := length_portPair hs
  have hfirst : (bytes "RTP/AVP;unicast;client_port=").length = 28 := by decide
  have hsecond : (bytes ";server_port=").length = 13 := by decide
  simp only [BufWrite.Fits, printed, FixedBuf.size, udpText, length_append]
  omega

theorem interleavedText_fits {i j : Nat} (hi : i < 8) (hj : j < 8) : (printed .trans (interleavedText i j)).Fits := by
  have h₁ : (decimal i).length ≤ 1 := length_decimal_le (by decide) (by omega)
  have h₂ : (decimal j).length ≤ 1 := length_decimal_le (by decide) (by omega)
  have hfirst : (bytes "RTP/AVP/TCP;unicast;interleaved=").length = 32 := by decide
  have hdash : (bytes "-").length = 1 := rfl
  simp only [BufWrite.Fits, printed, FixedBuf.size, interleavedText, length_append]
  omega

def Env.IntPort (env : Env) : Prop := ∀ udp, env.udp = some udp → IsInt udp.2.2

section Transport

variable {h h' : Heap} {env : Env} {c e : Addr} {t : Str} {w : BufWrite} {resp resp' : Resp}

theorem interleaveWrites_fit (hw : w ∈ interleaveWrites h c t) : w.Fits := by
  unfold interleaveWrites at hw
  split at hw
  · cases hw
  · rename_i i j hchan
    obtain ⟨conn, -, hchan⟩ := bind_eq_some_iff.mp hchan
    obtain ⟨rfl, hlt, -⟩ := interleaveChans_spec hchan
    rw [mem_singleton] at hw
    subst hw
    exact interleavedText_fits (Nat.lt_of_succ_lt hlt) hlt

theorem udpWrites_fit (hport : env.IntPort) (hw : w ∈ udpWrites env t) : w.Fits := by
  unfold udpWrites at hw
  split at hw
  · rename_i hcport hudp
    rw [mem_singleton] at hw
    subst hw
    exact udpText_fits (clientPort_isInt hcport) (hport _ hudp)
  · cases hw

theorem transportWrites_fit (hport : env.IntPort) (hw : w ∈ transportWrites h env c t) : w.Fits := by
  unfold transportWrites at hw
  split at hw
  · exact interleaveWrites_fit hw
  · split at hw
    · exact udpWrites_fit hport hw
    · cases hw

theorem setupSessionWrites_fit {s : Addr} {track : Track} (hport : env.IntPort)
    (hw : w ∈ setupSessionWrites h c env s track t) : w.Fits := by
  unfold setupSessionWrites at hw
  split at hw
  · cases hw
  · split at hw
    · cases hw
    · split at hw
      · exact transportWrites_fit hport hw
      · cases hw

theorem setupTrackWrites_fit {m : Pmsg} {loc : RtspLocation} {track : Track} (hport : env.IntPort)
    (hw : w ∈ setupTrackWrites h c m env loc track t) : w.Fits := by
  unfold setupTrackWrites at hw
  split at hw
  · split at hw
    · exact setupSessionWrites_fit hport hw
    · cases hw
  · split at hw
    · cases hw
    · exact setupSessionWrites_fit hport hw

end Transport

/-! ## `PLAY` -/

theorem infoWrites_fit {w : BufWrite} : ∀ {p : Nat} {texts : List Str}, p ≤ 512 → w ∈ infoWrites p texts → w.Fits
  | p, [], hp, hw => by
    unfold infoWrites at hw
    split at hw
    · rw [List.mem_singleton] at hw
      subst hw
      exact hp
    · cases hw
  | p, text :: texts, hp, hw => by
    rw [infoWrites, List.mem_cons] at hw
    rcases hw with rfl | hw
    · show p + min (text.length + 1) (512 - p) ≤ 512
      omega
    · split at hw
      · cases hw
      · exact infoWrites_fit (by omega) hw

theorem playWrites_fit {srv : Server} {m : Pmsg} {pos : Option Position} {w : BufWrite}
    (hw : w ∈ playWrites srv m pos) : w.Fits := by
  unfold playWrites at hw
  dsimp only at hw
  split at hw
  · rename_i pos _ _
    rcases mem_cons.mp hw with rfl | hw
    · have hshort := pos.short
      have hnpt : (bytes "npt=").length = 4 := by decide
      have hdash : (bytes "-").length = 1 := rfl
      simp only [BufWrite.Fits, printed, FixedBuf.size, length_append]
      omega
    · exact infoWrites_fit (by omega) hw
  · cases hw

/-! ## A request -/

section Request

variable {md5 : Md5} {locs : List RtspLocation} {srv : Server} {c : Addr} {m : Pmsg} {env : Env}

/-- The path of a `DESCRIBE` or of a `SETUP` is short, and so is the URI of a `DESCRIBE` that gets its description. -/
def ShortRequest (md5 : Md5) (locs : List RtspLocation) (srv : Server) (m : Pmsg) (env : Env) : Prop :=
  match methodOf m with
  | .describe => ShortUri m.uri false ∧ (describes md5 locs srv m env = true → m.uri.length ≤ 510)
  | .setup => ShortUri m.uri true
  | .options | .play | .pause | .teardown | .unknown => True

theorem contentBase_fits_iff (uri : Str) : (printed .hdr (uri ++ bytes "/")).Fits ↔ uri.length ≤ 510 := by
  have hslash : (bytes "/").length = 1 := rfl
  simp only [BufWrite.Fits, printed, FixedBuf.size, length_append]
  omega

theorem describeWrites_fit_iff : (∀ w ∈ describeWrites md5 locs srv m env, w.Fits) ↔
    ShortUri m.uri false ∧ (describes md5 locs srv m env → m.uri.length ≤ 510) := by
  unfold describeWrites
  rw [forall_mem_append, locationWrites_fit_iff]
  refine and_congr_right fun _ => ?_
  split
  · rename_i hd
    rw [forall_mem_singleton, contentBase_fits_iff]
    exact ⟨fun h _ => h, fun h => h hd⟩
  · rename_i hd
    exact ⟨fun _ h => absurd h hd, fun _ w hw => by cases hw⟩

theorem setupWrites_fit_iff (hport : env.IntPort) : (∀ w ∈ setupWrites md5 locs srv c m env, w.Fits) ↔ ShortUri m.uri true := by
  unfold setupWrites
  rw [forall_mem_append, locationWrites_fit_iff, and_iff_left]
  intro w hw
  split at hw
  · split at hw
    · split at hw
      · exact setupTrackWrites_fit hport hw
      · cases hw
    · cases hw
  · cases hw

theorem findRtspLocation_of_path {uri path : Str} (hp : getLocalPath uri = some path) (base track : Bool) :
    findRtspLocation locs uri base track =
      if base ∧ 256 ≤ baseLen path track then none
      else some ((nodeFindLocation locs path (baseLen path track)).map fun loc =>
        (loc, if track then (trackOf path).1 else -1)) := by
  cases track with
  | false => simp [findRtspLocation, hp, baseLen]
  | true => simp [findRtspLocation, hp, baseLen]

theorem findRtspLocation_copies {uri : Str} {track : Bool} {o : Option (RtspLocation × Int)}
    (h : findRtspLocation locs uri true track = some o) :
    (∀ w ∈ locationWrites uri track, w.Fits) ∧ findRtspLocation locs uri false track = some o := by
  cases hp : getLocalPath uri with
  | none =>
    unfold findRtspLocation at h ⊢
    unfold locationWrites
    rw [hp] at h ⊢
    exact ⟨fun w hw => (by cases hw), h⟩
  | some path =>
    rw [findRtspLocation_of_path hp] at h ⊢
    split at h
    · cases h
    · rename_i hlen
      have hlt : baseLen path track < 256 := by simpa using hlen
      refine ⟨?_, (if_neg (by simp)).trans h⟩
      unfold locationWrites
      rw [hp, forall_mem_singleton]
      exact hlt

theorem describes_cases (hd : describes md5 locs srv m env) : ∃ loc n h sdp,
    findRtspLocation locs m.uri false false = some (some (loc, n)) ∧
      liveOpen srv.heap loc.source env.live env.sess = some (some h) ∧
        rtspVerifyAuth md5 { srv with heap := h } m env loc = none ∧ liveGetSdp h env.sess = some (some sdp) := by
  unfold describes at hd
  split at hd
  · rename_i loc n hfind
    split at hd
    · rename_i h hopen
      obtain ⟨hauth, hsdp⟩ := (Bool.and_eq_true_iff).mp hd
      obtain ⟨o, hget, hsome⟩ := (Option.any_eq_true ..).mp hsdp
      obtain ⟨sdp, rfl⟩ := isSome_iff_exists.mp hsome
      exact ⟨loc, n, h, sdp, hfind, hopen, isNone_iff_eq_none.mp hauth, hget⟩
    · cases hd
  · cases hd

/-- **A handler without a fault** has kept to its arrays. -/
theorem fits_of_rtspHandleMsg {r : Server × Reply} (hport : env.IntPort) (pos : Option Position)
    (h : rtspHandleMsg md5 locs srv c m env = some r) : ∀ w ∈ handlerWrites md5 locs srv c m env pos, w.Fits := by
  unfold rtspHandleMsg at h
  unfold handlerWrites
  cases hm : methodOf m with
  | describe =>
    rw [hm] at h
    obtain ⟨o, hcopy, h⟩ := bind_eq_some_iff.mp h
    obtain ⟨hpath, hfind⟩ := findRtspLocation_copies hcopy
    rw [describeWrites_fit_iff, ← locationWrites_fit_iff]
    refine ⟨hpath, fun hd => ?_⟩
    obtain ⟨loc, n, heap, sdp, hfind', hopen, hauth, hsdp⟩ := describes_cases hd
    cases Option.some.inj (hfind.symm.trans hfind')
    simp only [hopen, hauth, hsdp, bind_eq_bind, bind_some, isSome_some, true_and] at h
    split at h
    · cases h
    · omega
  | setup =>
    rw [hm] at h
    obtain ⟨o, hfind, -⟩ := bind_eq_some_iff.mp h
    rw [setupWrites_fit_iff hport, ← locationWrites_fit_iff]
    exact (findRtspLocation_copies hfind).1
  | play => exact fun w hw => playWrites_fit hw
  | options => exact fun w hw => by cases hw
  | pause => exact fun w hw => by cases hw
  | teardown => exact fun w hw => by cases hw
  | unknown => exact fun w hw => by cases hw

/-- **The arrays of a handler are large enough** exactly if what it copies of the URI is short. -/
theorem handler_writes_fit_iff (md5 : Md5) (locs : List RtspLocation) (srv : Server) (c : Addr) (m : Pmsg) (env : Env)
    (pos : Option Position) (hport : env.IntPort) :
    (∀ w ∈ handlerWrites md5 locs srv c m env pos, w.Fits) ↔ ShortRequest md5 locs srv m env := by
  unfold handlerWrites ShortRequest
  cases methodOf m with
  | describe => exact describeWrites_fit_iff
  | setup => exact setupWrites_fit_iff hport
  | play => exact iff_of_true (fun w hw => playWrites_fit hw) trivial
  | options => exact iff_of_true (fun w hw => by cases hw) trivial
  | pause => exact iff_of_true (fun w hw => by cases hw) trivial
  | teardown => exact iff_of_true (fun w hw => by cases hw) trivial
  | unknown => exact iff_of_true (fun w hw => by cases hw) trivial

end Request

/-! ## Descriptions of a short URI and of two long ones -/

def describeText (uri : Str) : Str := bytes "DESCRIBE " ++ uri ++ bytes " RTSP/1.0\r\n\r\n"

def describeMsg (uri : Str) : Pmsg := ⟨.req (bytes "DESCRIBE") uri, bytes "RTSP/1.0", []⟩

theorem noStops {t₁ t₂ : UInt8} {s : Str} (h : s.all (fun c => !stops t₁ t₂ c)) : ∀ c ∈ s, stops t₁ t₂ c = false := by
  intro c hc
  simpa using List.all_eq_true.mp h c hc

theorem parsePmsg_describeText {uri : Str} (hne : uri ≠ []) (huri : ∀ c ∈ uri, stops 32 0 c = false) :
    parsePmsg (describeText uri) = .ok (describeMsg uri, []) := by
  let eol : LineEnd := ⟨13, [], false, by decide, by simp⟩
  let r : RequestText :=
    { method := bytes "DESCRIBE"
      blanks₁ := []
      uri := uri
      blanks₂ := []
      proto := bytes "RTSP/1.0"
      eol := eol
      method_ok := noStops (by decide)
      no_slash := by decide
      blanks₁_ok := by simp
      uri_ok := huri
      uri_ne := hne
      blanks₂_ok := by simp
      proto_ok := noStops (by decide)
      proto_head := by
        intro c hc
        cases hc
        decide }
  have htext : describeText uri = r.text ++ [13, 10] := by
    simp only [RequestText.text, r, append_assoc, cons_append, nil_append]
    rfl
  rw [htext, parsePmsg_eq, startOf_request]
  rfl

def longPath (n : Nat) : Str := bytes "rtsp://c/" ++ List.replicate n 97

def longHost (n : Nat) : Str := bytes "rtsp://" ++ (List.replicate n 97 ++ bytes "/live")

theorem length_describeText (uri : Str) : (describeText uri).length = uri.length + 22 := by
  have hfirst : (bytes "DESCRIBE ").length = 9 := by decide
  have hlast : (bytes " RTSP/1.0\r\n\r\n").length = 13 := by decide
  rw [describeText, length_append, length_append]
  omega

theorem length_longPath : (longPath n).length = n + 9 := by
  have hfirst : (bytes "rtsp://c/").length = 9 := by decide
  rw [longPath, length_append, length_replicate]
  omega

theorem length_longHost : (longHost n).length = n + 12 := by
  have hfirst : (bytes "rtsp://").length = 7 := by decide
  have hlast : (bytes "/live").length = 5 := by decide
  rw [longHost, length_append, length_append, length_replicate]
  omega

theorem longPath_local : getLocalPath (longPath n) = some (47 :: List.replicate n 97) := rfl

theorem longPath_not_short {n : Nat} (hn : 255 ≤ n) : ¬ ShortUri (longPath n) false := by
  intro h
  have hlast : (47 :: List.replicate n (97 : UInt8)).getLast? = some 97 := by
    obtain ⟨k, rfl⟩ : ∃ k, n = k + 1 := ⟨n - 1, by omega⟩
    rw [replicate_succ', ← cons_append, List.getLast?_concat]
  rcases h _ (longPath_local n) with ⟨_, ht, -⟩ | ⟨-, hlen | ⟨-, hslash⟩⟩
  · cases ht
  · rw [length_cons, length_replicate] at hlen
    omega
  · rw [hlast] at hslash
    exact absurd hslash (by decide)

theorem longHost_local : getLocalPath (longHost n) = some (bytes "/live") := by
  have hfirst : strchr 47 (List.replicate n 97 ++ 47 :: bytes "live") = some (47 :: bytes "live") :=
    strchr_first _ fun hmem => absurd (eq_of_mem_replicate hmem) (by decide)
  show some ((strchr 47 (List.replicate n 97 ++ 47 :: bytes "live")).getD _) = _
  rw [hfirst]
  rfl

def Camera.ready (t : Track) : Option State :=
  run (step Md5.ofLibrary [Camera.location []]) (State.start (Camera.blocks 1)) [.frame 0 t true fun _ => false]

theorem longHost_describes : ∃ st, Camera.ready 0 = some st ∧
    describes Md5.ofLibrary [Camera.location []] st.srv (describeMsg (longHost n)) (Camera.env 1) = true := by
  refine ⟨_, rfl, ?_⟩
  unfold describes
  rw [show (describeMsg (longHost n)).uri = longHost n from rfl, findRtspLocation_of_path (longHost_local n)]
  rfl

theorem describe_leaves_arrays : ((describeText (longPath 255)).length ≤ 4094 ∧
      parsePmsg (describeText (longPath 255)) = .ok (describeMsg (longPath 255), []) ∧
      ∀ md5 locs srv c env pos, ¬ ∀ w ∈ handlerWrites md5 locs srv c (describeMsg (longPath 255)) env pos, w.Fits) ∧
    ((describeText (longHost 500)).length ≤ 4094 ∧
      parsePmsg (describeText (longHost 500)) = .ok (describeMsg (longHost 500), []) ∧
      ∃ st, Camera.ready 0 = some st ∧ ¬ ∀ w ∈ handlerWrites Md5.ofLibrary [Camera.location []] st.srv 1
        (describeMsg (longHost 500)) (Camera.env 1) none, w.Fits) := by
  have hletters : ∀ n, ∀ c ∈ List.replicate n (97 : UInt8), stops 32 0 c = false := by
    intro n c hc
    rw [eq_of_mem_replicate hc]
    decide
  have hpath : ∀ c ∈ longPath 255, stops 32 0 c = false :=
    forall_mem_append.mpr ⟨noStops (by decide), hletters 255⟩
  have hhost : ∀ c ∈ longHost 500, stops 32 0 c = false :=
    forall_mem_append.mpr ⟨noStops (by decide), forall_mem_append.mpr ⟨hletters 500, noStops (by decide)⟩⟩
  have hpath_ne : longPath 255 ≠ [] := ne_nil_of_length_eq_add_one (length_longPath 255)
  have hhost_ne : longHost 500 ≠ [] := ne_nil_of_length_eq_add_one (length_longHost 500)
  refine ⟨⟨?_, parsePmsg_describeText hpath_ne hpath, ?_⟩, ⟨?_, parsePmsg_describeText hhost_ne hhost, ?_⟩⟩
  · rw [length_describeText, length_longPath]
    decide
  · intro md5 locs srv c env pos h
    exact longPath_not_short (by omega) (describeWrites_fit_iff.mp h).1
  · rw [length_describeText, length_longHost]
    decide
  · obtain ⟨st, hst, hd⟩ := longHost_describes 500
    refine ⟨st, hst, fun h => ?_⟩
    have hlen : (longHost 500).length ≤ 510 := (describeWrites_fit_iff.mp h).2 hd
    rw [length_longHost] at hlen
    omega

theorem describe_live_fits : (Camera.env 1).IntPort ∧ ∃ st, Camera.ready 0 = some st ∧
      handlerWrites Md5.ofLibrary [Camera.location []] st.srv 1 (describeMsg (longHost 1)) (Camera.env 1) none =
        [⟨.path, 6⟩, ⟨.hdr, 15⟩] ∧
      ∀ w ∈ handlerWrites Md5.ofLibrary [Camera.location []] st.srv 1 (describeMsg (longHost 1)) (Camera.env 1) none,
        w.Fits := by
  have hport : (Camera.env 1).IntPort := by
    intro udp hudp
    cases hudp
    exact ⟨by decide, by decide⟩
  refine ⟨hport, _, rfl, rfl, (handler_writes_fit_iff _ _ _ _ _ _ _ hport).mpr ⟨?_, fun _ => by decide⟩⟩
  intro path hp
  cases (longHost_local 1).symm.trans hp
  exact .inr ⟨fun ht => (by cases ht), .inl (by decide)⟩

end NuWicam.Rtsp
