import NuWicam.Rtsp.Response
import NuWicam.Rtsp.Steps

/-!
# Replies cannot be split

A reply takes bytes from the client in two places: the values of `CSeq` and the URI in `Content-Base`. Both are pieces of a
line that `parse_pmsg` has cut, so they hold no `CR`, `LF` or `NUL` (`parsePmsg_pieces`). `Resp.Sound` is what every reply
keeps while it is built.
-/

namespace NuWicam.Rtsp

open Lib List Option

/-! ## Strings on one line -/

section

variable {s t : Str}

theorem OneLine.append (hs : OneLine s) (ht : OneLine t) : OneLine (s ++ t) := fun b hb => by
  rcases mem_append.mp hb with hb | hb
  · exact hs b hb
  · exact ht b hb

theorem OneLine.tail {a : UInt8} (h : OneLine (a :: s)) : OneLine s := fun b hb => h b (mem_cons_of_mem _ hb)

theorem OneLine.isValue_append (hs : IsValue s) (hne : s ≠ []) (ht : OneLine t) : IsValue (s ++ t) := by
  obtain ⟨a, s, rfl⟩ := exists_cons_of_ne_nil hne
  exact ⟨hs.1.append ht, hs.2⟩

theorem oneLine_of_isDigit (h : ∀ b ∈ s, isDigit b) : OneLine s := fun b hb => by
  have hd := h b hb
  refine ⟨?_, ?_, ?_⟩ <;>
  · rintro rfl
    exact absurd hd (by decide)

theorem oneLine_decimal (n : Int) : OneLine (decimal n) := by
  cases n with
  | ofNat n => exact oneLine_of_isDigit (isDigit_decimal n)
  | negSucc n =>
    have hneg : decimal (.negSucc n) = 45 :: decimal (n + 1 : Nat) := by
      show bytes ("-" ++ (n + 1).repr) = 45 :: bytes (n + 1).repr
      simp only [bytes, String.toList_append, map_append]
      rfl
    rw [hneg]
    intro b hb
    rcases mem_cons.mp hb with rfl | hb
    · decide
    · exact oneLine_of_isDigit (isDigit_decimal (n + 1)) b hb

theorem hexDigitUpper_plain : ∀ n < 16, hexDigitUpper n ≠ 13 ∧ hexDigitUpper n ≠ 10 ∧ hexDigitUpper n ≠ 0 ∧
    hexDigitUpper n ≠ 32 ∧ hexDigitUpper n ≠ 9 := by
  decide

theorem isValue_hexBytesUpper (bs : List UInt8) : IsValue (hexBytesUpper bs) := by
  have hplain : ∀ b ∈ hexBytesUpper bs, b ≠ 13 ∧ b ≠ 10 ∧ b ≠ 0 ∧ b ≠ 32 ∧ b ≠ 9 := by
    intro b hb
    obtain ⟨x, _, hx⟩ := mem_flatMap.mp hb
    have hlt : x.toNat < 256 := x.toNat_lt
    simp only [mem_cons, not_mem_nil, or_false] at hx
    rcases hx with rfl | rfl
    · exact hexDigitUpper_plain _ (by omega)
    · exact hexDigitUpper_plain _ (by omega)
  refine ⟨fun b hb => ⟨(hplain b hb).1, (hplain b hb).2.1, (hplain b hb).2.2.1⟩, ?_, ?_⟩
  · intro h
    exact (hplain 32 (List.mem_of_mem_head? h)).2.2.2.1 rfl
  · intro h
    exact (hplain 9 (List.mem_of_mem_head? h)).2.2.2.2 rfl

theorem oneLine_hexBytes (bs : List UInt8) : OneLine (hexBytes bs) := fun b hb => by
  obtain ⟨x, _, hx⟩ := mem_flatMap.mp hb
  have hlt : x.toNat < 256 := x.toNat_lt
  have hall : ∀ n < 16, hexDigit n ≠ 13 ∧ hexDigit n ≠ 10 ∧ hexDigit n ≠ 0 := by decide
  simp only [mem_cons, not_mem_nil, or_false] at hx
  rcases hx with rfl | rfl
  · exact hall _ (by omega)
  · exact hall _ (by omega)

end

/-! ## Building a reply -/

def Resp.used (p r : Str) (fields : List (Str × Str)) : Nat :=
  (p.length + 1) + (r.length + 1) + (fields.map fun f => f.1.length + f.2.length + 2).sum

/-- The length of a body is told by `tcp_send_pmsg` alone. -/
def IsReplyName (s : Str) : Prop := IsName s ∧ caseEq s (bytes "Content-Length") = false

instance (s : Str) : Decidable (IsReplyName s) := inferInstanceAs (Decidable (_ ∧ _))

/-- It can be printed line by line, and its strings are in its pool. -/
structure Resp.Sound (msg : Resp) (r : Str) : Prop where
  formed : msg.Formed (bytes "RTSP/1.0") r
  names : ∀ f ∈ msg.fields, caseEq f.1 (bytes "Content-Length") = false
  used : Resp.used (bytes "RTSP/1.0") r msg.fields ≤ msg.msgLen
  room : msg.msgLen ≤ msg.maxLen
  pool : msg.maxLen = 512

section

variable {msg : Resp} {r name value : Str}

theorem Resp.Sound.grow (h : msg.Sound r) {n : Nat} (hn : msg.msgLen ≤ n) (hroom : n ≤ msg.maxLen) :
    Resp.Sound { msg with msgLen := n } r :=
  ⟨⟨h.formed.protoId, h.formed.reason, h.formed.slash, h.formed.code, h.formed.value, h.formed.fields, h.formed.count⟩,
    h.names, Nat.le_trans h.used hn, hroom, h.pool⟩

theorem Resp.Sound.append (h : msg.Sound r) (hn : IsReplyName name) (hv : IsValue value)
    (hcount : msg.fields.length ≠ maxFields) {n : Nat} (hlen : msg.msgLen + (name.length + 1) + (value.length + 1) ≤ n)
    (hroom : n ≤ msg.maxLen) : Resp.Sound { msg with msgLen := n, fields := msg.fields ++ [(name, value)] } r := by
  have hused := h.used
  have hc := h.formed.count
  refine ⟨⟨h.formed.protoId, h.formed.reason, h.formed.slash, h.formed.code, h.formed.value, ?_, ?_⟩, ?_, ?_, hroom,
    h.pool⟩
  · intro f hf
    rcases mem_append.mp hf with hf | hf
    · exact h.formed.fields f hf
    · rw [mem_singleton.mp hf]
      exact ⟨hn.1, hv⟩
  · simp only [length_append, length_singleton]
    omega
  · intro f hf
    rcases mem_append.mp hf with hf | hf
    · exact h.names f hf
    · rw [mem_singleton.mp hf]
      exact hn.2
  · simp only [Resp.used, map_append, sum_append, map_singleton, sum_singleton] at hused ⊢
    omega

theorem Resp.Sound.putHeader (h : msg.Sound r) (hn : IsReplyName name) (hv : IsValue value) {first second : Str}
    (hlen : first.length + second.length = name.length + value.length) :
    (putHeader msg first second (name, value)).2.Sound r := by
  unfold Rtsp.putHeader
  split
  · exact h
  · rename_i hfirst
    obtain ⟨hcount, hroom⟩ := not_or.mp hfirst
    split
    · exact h.grow (by omega) (by omega)
    · rename_i hboth
      exact h.append hn hv hcount (by omega) (by omega)

theorem Resp.Sound.addHeader (h : msg.Sound r) (hn : IsReplyName name) (hv : IsValue value) :
    (addHeader msg name value).2.Sound r := by
  rw [addHeader_eq_putHeader]
  exact h.putHeader hn hv rfl

theorem Resp.Sound.addHeaderPrintf (h : msg.Sound r) (hn : IsReplyName name) (hv : IsValue value) :
    (addHeaderPrintf msg name value).2.Sound r := by
  rw [addHeaderPrintf_eq_putHeader]
  exact h.putHeader hn hv (by omega)

end

theorem isReplyName_of_caseEq {name : Str} (h : caseEq name (bytes "CSeq"))
    (hf : ∀ c ∈ name, stops 32 58 c = false ∧ c ≠ 0) : IsReplyName name := by
  have hlength : caseEq name (bytes "Content-Length") = false := by
    refine Bool.eq_false_iff.mpr fun hl => ?_
    exact absurd (caseEq_trans (caseEq_symm h) hl) (by decide)
  rw [caseEq_iff] at h
  refine ⟨⟨?_, fun b hb => ?_⟩, hlength⟩
  · rintro rfl
    exact absurd h (by decide)
  · obtain ⟨hstop, h0⟩ := hf b hb
    simp only [stops, Bool.or_eq_false_iff, beq_eq_false_iff_ne] at hstop
    refine ⟨hstop.1.1.1, ?_, hstop.1.1.2, hstop.1.2, hstop.2, h0⟩
    -- a tab would be in the lower-case spelling as well
    rintro rfl
    have hmem : (9 : UInt8) ∈ name.map lower := List.mem_map.mpr ⟨9, hb, by decide⟩
    rw [h] at hmem
    exact absurd hmem (by decide)

theorem IsField.isValue {f : Str × Str} (h : IsField f) : IsValue f.2 := by
  refine ⟨fun b hb => ?_, fun h32 => (h.lead 32 h32).1 rfl, fun h9 => (h.lead 9 h9).2 rfl⟩
  have hstop := h.value b hb
  simp only [stops, Bool.or_eq_false_iff, beq_eq_false_iff_ne] at hstop
  exact ⟨hstop.1.2, hstop.2, hstop.1.1.1⟩

variable {msg : Resp} {r : Str} {locs : List RtspLocation}

theorem Resp.Sound.copyHeaders (h : msg.Sound r) {m : Pmsg} (hm : ∀ f ∈ m.fields, IsField f) :
    (copyHeaders msg m (bytes "CSeq")).Sound r := by
  have hfold : ∀ (fs : List (Str × Str)) (msg : Resp), msg.Sound r →
      (∀ f ∈ fs, IsField f ∧ caseEq f.1 (bytes "CSeq")) →
      (fs.foldl (fun msg f => (Rtsp.addHeader msg f.1 f.2).2) msg).Sound r := by
    intro fs
    induction fs with
    | nil => intro msg h _; exact h
    | cons f fs ih =>
      intro msg h hfs
      rw [forall_mem_cons] at hfs
      exact ih _ (h.addHeader (isReplyName_of_caseEq hfs.1.2 hfs.1.1.name) hfs.1.1.isValue) hfs.2
  refine hfold _ msg h fun f hf => ?_
  obtain ⟨hmem, hc⟩ := mem_filter.mp hf
  exact ⟨hm f hmem, hc⟩

def IsAnswer (code : Nat) (reason : Str) : Prop := (100 ≤ code ∧ code ≤ 999) ∧ IsValue reason ∧ reason.length < 500

instance (code : Nat) (reason : Str) : Decidable (IsAnswer code reason) := inferInstanceAs (Decidable (_ ∧ _ ∧ _))

theorem rtspCreateReply_sound {m : Pmsg} (hm : ∀ f ∈ m.fields, IsField f) {code : Nat} {reason : Str}
    (ha : IsAnswer code reason) : (rtspCreateReply m code reason).Sound reason := by
  obtain ⟨hc, hr, hlen⟩ := ha
  have hproto : addPmsgString (newPmsg 512 code) (bytes "RTSP/1.0") =
      (some (bytes "RTSP/1.0"), { newPmsg 512 code with msgLen := 9 }) := rfl
  have hreason : addPmsgString { newPmsg 512 code with msgLen := 9 } reason =
      (some reason, { newPmsg 512 code with msgLen := 9 + (reason.length + 1) }) :=
    if_neg (by show ¬ 512 < 9 + (reason.length + 1); omega)
  rw [rtspCreateReply, hproto]
  simp only [hreason]
  refine Resp.Sound.copyHeaders ⟨⟨rfl, rfl, by decide, hc, hr, ?_, ?_⟩, ?_, ?_, ?_, rfl⟩ hm
  · intro f hf
    cases hf
  · exact Nat.zero_le _
  · intro f hf
    cases hf
  · exact Nat.le_refl _
  · show 9 + (reason.length + 1) ≤ 512
    omega

/-! ## The ids of the sessions -/

def Heap.HexIds (h : Heap) : Prop := ∀ a rs, h.rtsp a = some rs → ∃ bs, rs.id = hexBytesUpper bs

section

variable {h h' : Heap}

theorem Heap.HexIds.of_eq (hi : h.HexIds) (he : h'.rtsp = h.rtsp) : h'.HexIds := fun a rs ha => hi a rs (he ▸ ha)

variable {a : Addr} {b : SourceId} {s : Addr}

theorem Heap.HexIds.of_del (hi : h.HexIds) (he : h'.rtsp = h.rtsp.del a) : h'.HexIds := by
  intro b rs hb
  rw [he, Table.del_apply] at hb
  split at hb
  · cases hb
  · exact hi b rs hb

theorem liveOpen_rtsp (ho : liveOpen h b a s = some (some h')) : h'.rtsp = h.rtsp := by
  obtain ⟨_, _, _, rfl⟩ := liveOpen_eq ho
  rfl

theorem liveSetup_rtsp {e : Addr} {t : Track} (ho : liveSetup h s t e = some (some h')) : h'.rtsp = h.rtsp := by
  obtain ⟨_, _, _, _, _, _, _, _, rfl⟩ := liveSetup_eq ho
  rfl

theorem livePlay_rtsp (ho : livePlay h s = some h') : h'.rtsp = h.rtsp := by
  obtain ⟨_, _, _, _, rfl⟩ := livePlay_inv ho
  rfl

theorem interleaveDisconnect_rtsp {c : Addr} {chan : Nat} (ho : interleaveDisconnect h c chan = some h') :
    h'.rtsp = h.rtsp := by
  simp only [interleaveDisconnect, bind_eq_bind, bind_eq_some_iff] at ho
  obtain ⟨_, _, _, _, ho⟩ := ho
  split at ho
  · cases ho
    rfl
  · cases ho

theorem delRtpEndpoint_rtsp {e : Addr} (ho : delRtpEndpoint h e = some h') : h'.rtsp = h.rtsp := by
  simp only [delRtpEndpoint, bind_eq_bind, bind_eq_some_iff] at ho
  obtain ⟨p, _, ho⟩ := ho
  split at ho
  · simp only [bind_eq_some_iff] at ho
    obtain ⟨h₁, ho₁, h₂, ho₂, ho⟩ := ho
    cases ho
    exact (interleaveDisconnect_rtsp ho₂).trans (interleaveDisconnect_rtsp ho₁)
  · cases ho
    rfl

theorem dropEndpoint_rtsp {e : Addr} {t : Track} (ho : dropEndpoint h s t e = some h') : h'.rtsp = h.rtsp := by
  simp only [dropEndpoint, bind_eq_bind, bind_eq_some_iff] at ho
  obtain ⟨h₁, ho₁, _, _, ho⟩ := ho
  have hdel := delRtpEndpoint_rtsp ho₁
  cases ho
  exact hdel

theorem trackCheckRunning_rtsp {t : Track} (ho : trackCheckRunning h b t = some h') : h'.rtsp = h.rtsp := by
  simp only [trackCheckRunning, bind_eq_bind, bind_eq_some_iff] at ho
  obtain ⟨demand, _, ho⟩ := ho
  cases ho
  cases demand <;> rfl

theorem tearTracks_rtsp {ep : Option Addr} : ∀ {ts : List Track} {h : Heap} {k : Nat}
    {x : Heap × Nat}, tearTracks s ep b ts h k = some x → x.1.rtsp = h.rtsp
  | [], h, k, x, ho => by
    cases ho
    rfl
  | t :: ts, h, k, x, ho => by
    simp only [tearTracks, bind_eq_bind, bind_eq_some_iff] at ho
    obtain ⟨sess, _, ho⟩ := ho
    split at ho
    · exact tearTracks_rtsp ho
    · split at ho
      · simp only [bind_eq_some_iff] at ho
        obtain ⟨h₁, ho₁, h₂, ho₂, ho⟩ := ho
        exact (tearTracks_rtsp ho).trans ((trackCheckRunning_rtsp ho₂).trans (dropEndpoint_rtsp ho₁))
      · exact tearTracks_rtsp ho

theorem closeLive_hexIds (ho : closeLive h s a = some h') (hi : h.HexIds) : h'.HexIds := by
  simp only [closeLive, delSession, bind_eq_bind, bind_eq_some_iff] at ho
  obtain ⟨l, _, sess, _, ho⟩ := ho
  split at ho
  · simp only [rtspSessionClose, bind_eq_bind, bind_eq_some_iff] at ho
    obtain ⟨h₁, ⟨_, _, ho₁⟩, ho⟩ := ho
    cases ho₁
    cases ho
    exact hi.of_del rfl
  · cases ho
    exact hi

theorem liveTeardown_hexIds {ep : Option Addr} (ho : liveTeardown h s ep = some h') (hi : h.HexIds) : h'.HexIds := by
  simp only [liveTeardown, bind_eq_bind, bind_eq_some_iff] at ho
  obtain ⟨sess, _, l, _, ⟨h₁, k⟩, ht, ho⟩ := ho
  have hi₁ : h₁.HexIds := hi.of_eq (tearTracks_rtsp ht)
  split at ho
  · exact closeLive_hexIds ho hi₁
  · cases ho
    exact hi₁

theorem newRtspSession_hexIds {bs : List UInt8} (ho : newRtspSession h s a (hexBytesUpper bs) = some h')
    (hi : h.HexIds) : h'.HexIds := by
  obtain ⟨_, _, _, rfl⟩ := newRtspSession_eq ho
  intro b rs hb
  dsimp only at hb
  rw [Table.put_apply] at hb
  split at hb
  · cases hb
    exact ⟨bs, rfl⟩
  · exact hi b rs hb

end

/-! ## The handlers -/

def Handled.Sound (o : Handled) : Prop :=
  ∀ srv rep, o = some (srv, rep) → srv.heap.HexIds ∧ ∃ r, rep.resp.Sound r

section

variable {md5 : Md5} {locs : List RtspLocation} {srv : Server} {m : Pmsg} {env : Env} {h : Heap}

theorem Handled.Sound.pure {rep : Reply} {r : Str} (hi : srv.heap.HexIds) (hr : rep.resp.Sound r) :
    Handled.Sound (some (srv, rep)) := by
  intro srv' rep' heq
  cases heq
  exact ⟨hi, r, hr⟩

theorem rtspSendError_sound {srv : Server} (hi : srv.heap.HexIds) (hm : ∀ f ∈ m.fields, IsField f) {code : Nat}
    {reason : String} (ha : IsAnswer code (bytes reason)) : Handled.Sound (some (srv, rtspSendError m code reason)) :=
  .pure hi (rtspCreateReply_sound hm ha)

theorem ok_sound (hm : ∀ f ∈ m.fields, IsField f) : (rtspCreateReply m 200 (bytes "OK")).Sound (bytes "OK") :=
  rtspCreateReply_sound hm (by decide)

theorem sessionReply_sound (hm : ∀ f ∈ m.fields, IsField f) (bs : List UInt8) :
    (sessionReply m (hexBytesUpper bs)).resp.Sound (bytes "OK") :=
  (ok_sound hm).addHeader (by decide) (isValue_hexBytesUpper bs)

theorem rtspVerifyAuth_sound {loc : RtspLocation} {x : Server × Reply} (hx : rtspVerifyAuth md5 srv m env loc = some x)
    (hi : srv.heap.HexIds) (hm : ∀ f ∈ m.fields, IsField f) (hrealm : OneLine loc.realm) : Handled.Sound (some x) := by
  unfold rtspVerifyAuth at hx
  split at hx
  · cases hx
  dsimp only at hx
  split at hx
  · cases hx
  · cases hx
    have hnonce : ∀ secret, OneLine (createNonce md5 secret env.later env.nonceBytes) := fun secret =>
      (oneLine_hexBytes _).append (oneLine_hexBytes _)
    refine .pure hi ((rtspCreateReply_sound hm (by decide)).addHeaderPrintf (by decide) ?_)
    simp only [append_assoc]
    refine OneLine.isValue_append (by decide) (by decide) (hrealm.append ?_)
    refine OneLine.append (by decide) ((hnonce _).append (OneLine.append (by decide) ?_))
    split
    · decide
    · decide

theorem Handled.Sound.none : Handled.Sound none := fun srv rep heq => by cases heq

theorem Handled.Sound.bind {α : Type} {o : Option α} {f : α → Handled} (hf : ∀ a, o = some a → (f a).Sound) :
    Handled.Sound (o >>= f) := by
  cases o with
  | none => exact .none
  | some a => exact hf a rfl

theorem isValue_uri (hp : m.sl.Pieces m.protoId) {base track : Bool} {x : RtspLocation × Int}
    (hx : findRtspLocation locs m.uri base track = some (some x)) : IsValue (m.uri ++ bytes "/") := by
  have hline : OneLine m.uri := by
    intro b hb
    unfold Pmsg.uri at hb
    split at hb
    · rename_i method uri hsl
      rw [hsl] at hp
      have hstop := hp.2.1 b hb
      simp only [stops, Bool.or_eq_false_iff, beq_eq_false_iff_ne] at hstop
      exact ⟨hstop.1.2, hstop.2, hstop.1.1.2⟩
    · cases hb
  have hlocal : ∃ path, getLocalPath m.uri = some path := by
    unfold findRtspLocation at hx
    split at hx
    · cases hx
    · rename_i path hpath
      exact ⟨path, hpath⟩
  obtain ⟨path, hpath⟩ := hlocal
  -- the URI starts with `rtsp://`
  have hpfx : hasPfxCase (bytes "rtsp://") m.uri := by
    unfold getLocalPath at hpath
    split at hpath
    · assumption
    · cases hpath
  cases huri : m.uri with
  | nil =>
    rw [huri] at hpfx
    exact absurd hpfx (by decide)
  | cons a s =>
    rw [huri] at hpfx hline
    have ha : lower a = 114 := by
      have := (List.isPrefixOf_iff_prefix.mp hpfx)
      obtain ⟨t, ht⟩ := this
      exact (List.cons.inj ht).1.symm
    refine ⟨hline.append (by decide), ?_, ?_⟩ <;>
    · intro h
      cases h
      exact absurd ha (by decide)

theorem handleOPTIONS_sound (hi : srv.heap.HexIds) (hm : ∀ f ∈ m.fields, IsField f) : (handleOPTIONS srv m).Sound :=
  .pure hi ((ok_sound hm).addHeader (by decide) (by decide))

theorem describeReply_sound (hm : ∀ f ∈ m.fields, IsField f) (huri : IsValue (m.uri ++ bytes "/")) (b : SourceId)
    (sdp : Str) : (describeReply m b sdp).resp.Sound (bytes "OK") :=
  ((ok_sound hm).addHeader (by decide) huri).addHeader (by decide) (by decide)

theorem handleDESCRIBE_sound (hrealm : ∀ loc ∈ locs, OneLine loc.realm) (hi : srv.heap.HexIds)
    (hp : m.sl.Pieces m.protoId) (hm : ∀ f ∈ m.fields, IsField f) : (handleDESCRIBE md5 locs srv m env).Sound := by
  refine .bind fun o ho => ?_
  cases o with
  | none => exact rtspSendError_sound hi hm (by decide)
  | some x =>
    obtain ⟨loc, n⟩ := x
    refine .bind fun o' ho' => ?_
    cases o' with
    | none => exact rtspSendError_sound hi hm (by decide)
    | some h₁ =>
      have hi₁ : h₁.HexIds := hi.of_eq (liveOpen_rtsp ho')
      dsimp only
      split
      · rename_i challenged hv
        exact rtspVerifyAuth_sound hv hi₁ hm (hrealm loc (findRtspLocation_mem ho))
      · refine .bind fun sdp _ => ?_
        split
        · exact .none
        · refine .bind fun h₂ ht => ?_
          have hi₂ := liveTeardown_hexIds ht hi₁
          cases sdp with
          | some sdp => exact .pure hi₂ (describeReply_sound hm (isValue_uri hp ho) loc.source sdp)
          | none => exact rtspSendError_sound hi₂ hm (by decide)

theorem transportSetup_sound {c e : Addr} {t : Str} {resp : Resp} {r : Str} (hr : resp.Sound r) (hi : h.HexIds)
    {x : Heap × Resp} (hx : transportSetup h env c e t resp = some (some x)) : x.1.HexIds ∧ x.2.Sound r := by
  unfold transportSetup at hx
  split at hx
  · simp only [rtspInterleaveSetup, bind_eq_bind, bind_eq_some_iff] at hx
    obtain ⟨conn, _, hx⟩ := hx
    split at hx
    · cases hx
    · simp only [bind_eq_some_iff] at hx
      obtain ⟨h₁, hcon, hx⟩ := hx
      cases hx
      obtain ⟨_, _, _, _, _, _, rfl⟩ := connectInterleaved_eq hcon
      refine ⟨hi.of_eq rfl, hr.addHeader (by decide) ?_⟩
      simp only [append_assoc]
      exact OneLine.isValue_append (by decide) (by decide)
        ((oneLine_decimal _).append (OneLine.append (by decide) (oneLine_decimal _)))
  · split at hx
    · unfold rtspUdpSetup at hx
      split at hx
      · simp only [connectUdpEndpoint, bind_eq_bind, bind_eq_some_iff] at hx
        obtain ⟨h₁, ⟨p, _, hcon⟩, hx⟩ := hx
        cases hcon
        cases hx
        have hpair : ∀ n, OneLine (portPair n) := fun n =>
          ((oneLine_decimal n).append (by decide)).append (oneLine_decimal _)
        refine ⟨hi.of_eq rfl, hr.addHeader (by decide) ?_⟩
        simp only [append_assoc]
        exact OneLine.isValue_append (by decide) (by decide) ((hpair _).append (OneLine.append (by decide) (hpair _)))
      · cases hx
    · cases hx

theorem setupTransport_sound {srv : Server} {c s : Addr} {track : Track} {t : Str} {rs : Option Addr}
    (hi : srv.heap.HexIds) (hm : ∀ f ∈ m.fields, IsField f) : (setupTransport srv c m env s track t rs).Sound := by
  refine .bind fun sess _ => .bind fun e _ => .bind fun o ho => ?_
  cases o with
  | none =>
    refine .bind fun h₁ ht => ?_
    exact rtspSendError_sound (liveTeardown_hexIds ht hi) hm (by decide)
  | some x =>
    obtain ⟨h₁, resp⟩ := x
    obtain ⟨hi₁, hr⟩ := transportSetup_sound (ok_sound hm) hi ho
    refine .bind fun y hy => ?_
    obtain ⟨h₂, id⟩ := y
    have hid : h₂.HexIds ∧ ∃ bs, id = hexBytesUpper bs := by
      cases rs with
      | some a =>
        simp only [sessionOf, bind_eq_bind, bind_eq_some_iff] at hy
        obtain ⟨rs, hrs, hy⟩ := hy
        cases hy
        exact ⟨hi₁, hi₁ a rs hrs⟩
      | none =>
        simp only [sessionOf, bind_eq_bind, bind_eq_some_iff] at hy
        obtain ⟨h₃, hnew, hy⟩ := hy
        cases hy
        exact ⟨newRtspSession_hexIds hnew hi₁, _, rfl⟩
    obtain ⟨hi₂, bs, rfl⟩ := hid
    exact .pure hi₂ (hr.addHeader (by decide) (isValue_hexBytesUpper bs))

theorem setupSession_sound {srv : Server} {c s : Addr} {track : Track} {t : Str} {rs : Option Addr}
    (hi : srv.heap.HexIds) (hm : ∀ f ∈ m.fields, IsField f) : (setupSession srv c m env s track t rs).Sound := by
  refine .bind fun sess _ => ?_
  split
  · exact rtspSendError_sound hi hm (by decide)
  · refine .bind fun o ho => ?_
    cases o with
    | some h₁ => exact setupTransport_sound (hi.of_eq (liveSetup_rtsp ho)) hm
    | none =>
      cases rs with
      | some a => exact rtspSendError_sound hi hm (by decide)
      | none =>
        refine .bind fun h₁ ht => ?_
        exact rtspSendError_sound (liveTeardown_hexIds ht hi) hm (by decide)

theorem handleSETUP_sound {c : Addr} (hrealm : ∀ loc ∈ locs, OneLine loc.realm) (hi : srv.heap.HexIds)
    (hm : ∀ f ∈ m.fields, IsField f) : (handleSETUP md5 locs srv c m env).Sound := by
  have herror : ∀ {srv : Server}, srv.heap.HexIds → Handled.Sound (some (srv, rtspSendError m 404 "Not Found")) :=
    fun hi => rtspSendError_sound hi hm (by decide)
  refine .bind fun o ho => ?_
  cases o with
  | none => exact herror hi
  | some x =>
    obtain ⟨loc, track⟩ := x
    dsimp only
    split
    · split
      · rename_i challenged hv
        exact rtspVerifyAuth_sound hv hi hm (hrealm loc (findRtspLocation_mem ho))
      · split
        · exact rtspSendError_sound hi hm (by decide)
        · unfold setupTrack
          split
          · refine .bind fun o' ho' => ?_
            cases o' with
            | none => exact herror hi
            | some h₁ => exact setupSession_sound (hi.of_eq (liveOpen_rtsp ho')) hm
          · split
            · exact rtspSendError_sound hi hm (by decide)
            · exact .bind fun rs _ => setupSession_sound hi hm
    · exact herror hi

theorem handlePLAY_sound (hi : srv.heap.HexIds) (hm : ∀ f ∈ m.fields, IsField f) : (handlePLAY srv m).Sound := by
  unfold handlePLAY
  split
  · exact rtspSendError_sound hi hm (by decide)
  · rename_i a _
    refine .bind fun rs hrs => .bind fun h₁ hp => ?_
    obtain ⟨bs, hid⟩ := hi a rs hrs
    refine .pure (hi.of_eq (livePlay_rtsp hp)) (r := bytes "OK") ?_
    rw [hid]
    exact sessionReply_sound hm bs

theorem handlePAUSE_sound (hi : srv.heap.HexIds) (hm : ∀ f ∈ m.fields, IsField f) : (handlePAUSE srv m).Sound := by
  unfold handlePAUSE
  split
  · exact rtspSendError_sound hi hm (by decide)
  · exact rtspSendError_sound hi hm (by decide)

theorem handleTEARDOWN_sound (hi : srv.heap.HexIds) (hm : ∀ f ∈ m.fields, IsField f) : (handleTEARDOWN locs srv m).Sound := by
  refine .bind fun o ho => ?_
  cases o with
  | none => exact rtspSendError_sound hi hm (by decide)
  | some x =>
    dsimp only
    split
    · exact rtspSendError_sound hi hm (by decide)
    · split
      · exact rtspSendError_sound hi hm (by decide)
      · rename_i a _
        refine .bind fun rs hrs => .bind fun sess _ => .bind fun h₁ ht => ?_
        obtain ⟨bs, hid⟩ := hi a rs hrs
        refine .pure (liveTeardown_hexIds ht hi) (r := bytes "OK") ?_
        rw [hid]
        exact sessionReply_sound hm bs

/-- **Every reply to an accepted request is sound.** -/
theorem rtspHandleMsg_sound {c : Addr} (hrealm : ∀ loc ∈ locs, OneLine loc.realm) (hi : srv.heap.HexIds)
    {buf rest : Str} (hparse : parsePmsg buf = .ok (m, rest)) : (rtspHandleMsg md5 locs srv c m env).Sound := by
  obtain ⟨hp, hm⟩ := parsePmsg_pieces hparse
  unfold rtspHandleMsg
  split
  · exact handleOPTIONS_sound hi hm
  · exact handleDESCRIBE_sound hrealm hi hp hm
  · exact handleSETUP_sound hrealm hi hm
  · exact handlePLAY_sound hi hm
  · exact handlePAUSE_sound hi hm
  · exact handleTEARDOWN_sound hi hm
  · exact rtspSendError_sound hi hm (by decide)

end

/-! ## Runs -/

section

variable {h h' : Heap}

theorem sendFrame_hexIds {t : Track} {fails : Addr → Bool} : ∀ {as : List Addr} {h : Heap} {x : Heap × List Addr},
    sendFrame t fails as h = some x → h.HexIds → x.1.HexIds
  | [], h, x, ho, hi => by
    cases ho
    exact hi
  | a :: as, h, x, ho, hi => by
    simp only [sendFrame, bind_eq_bind, bind_eq_some_iff] at ho
    obtain ⟨l, _, ho⟩ := ho
    split at ho
    · simp only [bind_eq_some_iff] at ho
      obtain ⟨sess, _, ho⟩ := ho
      split at ho
      · exact sendFrame_hexIds ho hi
      · simp only [bind_eq_some_iff, sendPackets] at ho
        obtain ⟨h₁, ho₁, y, hy, ho⟩ := ho
        cases ho
        refine sendFrame_hexIds (x := y) hy ?_
        split at ho₁
        · exact liveTeardown_hexIds ho₁ hi
        · cases ho₁
          exact hi
    · exact sendFrame_hexIds ho hi

theorem nextLiveFrame_hexIds {b : SourceId} {t : Track} {accepted : Bool} {fails : Addr → Bool} {x : Heap × List Addr}
    (ho : nextLiveFrame h b t accepted fails = some x) (hi : h.HexIds) : x.1.HexIds := by
  unfold nextLiveFrame at ho
  split at ho
  · refine sendFrame_hexIds ho ?_
    split
    · exact hi
    · exact hi.of_eq rfl
  · cases ho
    exact hi

theorem disconnectChans_hexIds {c : Addr} : ∀ {is : List Chan} {h : Heap}, disconnectChans c is h = some h' →
    h.HexIds → h'.HexIds
  | [], h, ho, hi => by
    cases ho
    exact hi
  | i :: is, h, ho, hi => by
    simp only [disconnectChans, bind_eq_bind, bind_eq_some_iff] at ho
    obtain ⟨conn, _, rc, _, ho⟩ := ho
    split at ho
    · exact disconnectChans_hexIds ho hi
    · split at ho
      · exact disconnectChans_hexIds ho hi
      · simp only [bind_eq_some_iff] at ho
        obtain ⟨p, _, h₁, ho₁, ho⟩ := ho
        exact disconnectChans_hexIds ho (liveTeardown_hexIds ho₁ hi)

theorem dropConn_hexIds {c : Addr} (ho : dropConn h c = some h') (hi : h.HexIds) : h'.HexIds := by
  simp only [dropConn, bind_eq_bind, bind_eq_some_iff] at ho
  obtain ⟨conn, _, ho⟩ := ho
  split at ho
  · simp only [bind_eq_some_iff] at ho
    obtain ⟨h₁, ho₁, ho⟩ := ho
    have hi₁ := disconnectChans_hexIds ho₁ hi
    cases ho
    exact hi₁.of_eq rfl
  · cases ho
    exact hi.of_eq rfl

end

/-- The request of an event is one that `parse_pmsg` has accepted. -/
def Event.Parsed : Event → Prop
  | .request _ m _ => ∃ buf rest, parsePmsg buf = .ok (m, rest)
  | _ => True

structure State.Sound (st : State) : Prop where
  ids : st.heap.HexIds
  replies : ∀ c rep, Output.reply c rep ∈ st.sent → ∃ r, rep.resp.Sound r

/-- **One event keeps the replies sound.** -/
theorem step_sound {md5 : Md5} (hrealm : ∀ loc ∈ locs, OneLine loc.realm) {st st' : State}
    {ev : Event} (hst : st.Sound) (hev : ev.Parsed) (hs : step md5 locs st ev = some st') : st'.Sound := by
  have hkeep : ∀ {h' : Heap}, h'.HexIds → (st.withHeap h').Sound := fun hi => ⟨hi, hst.replies⟩
  cases ev with
  | accept c =>
    simp only [step, map_eq_some_iff] at hs
    obtain ⟨h', ho, rfl⟩ := hs
    unfold doAccept at ho
    split at ho
    · cases ho
      exact hkeep (hst.ids.of_eq rfl)
    · cases ho
  | request c m env =>
    simp only [step] at hs
    split at hs
    · simp only [map_eq_some_iff] at hs
      obtain ⟨⟨srv', rep⟩, hx, rfl⟩ := hs
      obtain ⟨buf, rest, hparse⟩ := hev
      obtain ⟨hi, r, hr⟩ := rtspHandleMsg_sound hrealm hst.ids hparse srv' rep hx
      refine ⟨hi, fun c' rep' hmem => ?_⟩
      rcases mem_append.mp hmem with hmem | hmem
      · exact hst.replies c' rep' hmem
      · cases mem_singleton.mp hmem
        exact ⟨r, hr⟩
    · cases hs
  | drop c =>
    simp only [step, map_eq_some_iff] at hs
    obtain ⟨h', ho, rfl⟩ := hs
    exact hkeep (dropConn_hexIds ho hst.ids)
  | fail e =>
    simp only [step, bind_eq_some_iff, map_eq_some_iff] at hs
    obtain ⟨p, _, h', ho, rfl⟩ := hs
    exact hkeep (liveTeardown_hexIds ho hst.ids)
  | frame b t accepted fails =>
    simp only [step] at hs
    split at hs
    · simp only [map_eq_some_iff] at hs
      obtain ⟨x, hx, rfl⟩ := hs
      refine ⟨nextLiveFrame_hexIds hx hst.ids, fun c rep hmem => ?_⟩
      rcases mem_append.mp hmem with hmem | hmem
      · exact hst.replies c rep hmem
      · obtain ⟨_, _, heq⟩ := List.mem_map.mp hmem
        cases heq
    · cases hs
      exact hst

theorem always_sound {md5 : Md5} (hrealm : ∀ loc ∈ locs, OneLine loc.realm)
    (blocks : SourceId → List Directive) {evs : List Event} (hevs : ∀ ev ∈ evs, ev.Parsed) :
    Always (step md5 locs) State.Sound (State.start blocks) evs := by
  refine always_of_eachStep (C := fun _ ev => ev.Parsed) (fun st ev st' hst hev hs => step_sound hrealm hst hev hs) ?_
    (eachStep_of_forall hevs _)
  refine ⟨fun a rs ha => ?_, fun c rep hmem => ?_⟩
  · cases ha
  · cases hmem

/-! ## Lines -/

/-- Lines, each with its `CR LF`. -/
def joinLines (ls : List Str) : Str := ls.flatMap (· ++ [13, 10])

def sentFields (fields : List (Str × Str)) (len : Int) : List (Str × Str) :=
  if 0 ≤ len then fields ++ [(bytes "Content-Length", decimal len)] else fields

theorem Resp.Formed.responseText {p : Str} (h : msg.Formed p r) (len : Int) :
    responseText msg len = some (statusText p msg.code r (sentFields msg.fields len)) := by
  simp only [Rtsp.responseText, h.protoId, h.reason, statusText, sentFields, bind_eq_bind, bind_some]
  refine congrArg some ?_
  split
  · simp [fieldLine, bytes]
  · rfl

/-- One line for each header, none of them empty, between the status line and the blank line, whatever the body. -/
def Resp.Unsplit (msg : Resp) : Prop :=
  (∀ f ∈ msg.fields, OneLine f.1 ∧ OneLine f.2) ∧
    ∀ len, ∃ text ls, responseText msg len = some text ∧ text = joinLines (ls ++ [[]]) ∧
      (∀ l ∈ ls, l ≠ [] ∧ OneLine l) ∧ ls.length = 1 + (sentFields msg.fields len).length

theorem IsName.oneLine {s : Str} (h : IsName s) : OneLine s := fun b hb =>
  ⟨(h.2 b hb).2.2.2.1, (h.2 b hb).2.2.2.2.1, (h.2 b hb).2.2.2.2.2⟩

theorem Resp.Sound.oneLine_sentFields (h : msg.Sound r) (len : Int) :
    ∀ f ∈ sentFields msg.fields len, IsName f.1 ∧ OneLine f.2 := by
  have hfields : ∀ f ∈ msg.fields, IsName f.1 ∧ OneLine f.2 := fun f hf =>
    ⟨(h.formed.fields f hf).1, (h.formed.fields f hf).2.1⟩
  unfold sentFields
  split
  · intro f hf
    rcases mem_append.mp hf with hf | hf
    · exact hfields f hf
    · rw [mem_singleton.mp hf]
      exact ⟨show IsName (bytes "Content-Length") by decide, oneLine_decimal len⟩
  · exact hfields

def Resp.lines (msg : Resp) (len : Int) : List Str :=
  (msg.protoId.getD [] ++ 32 :: (decimal msg.code ++ 32 :: msg.reason.getD [])) ::
    (sentFields msg.fields len).map fun f => f.1 ++ 58 :: 32 :: f.2

theorem Resp.Sound.text_eq (h : msg.Sound r) (len : Int) :
    Rtsp.responseText msg len = some (joinLines (msg.lines len ++ [[]])) := by
  have hline : fieldLine = fun f => (f.1 ++ 58 :: 32 :: f.2) ++ [13, 10] := by
    funext f
    simp [fieldLine]
  rw [h.formed.responseText len]
  simp [Resp.lines, h.formed.protoId, h.formed.reason, statusText, statusLine, joinLines, flatMap_map, hline]

theorem Resp.Sound.lines_whole (h : msg.Sound r) (len : Int) : ∀ l ∈ msg.lines len, l ≠ [] ∧ OneLine l := by
  have hf := h.oneLine_sentFields len
  intro l hl
  rcases mem_cons.mp hl with rfl | hl
  · rw [h.formed.protoId, h.formed.reason]
    refine ⟨by simp, OneLine.append (by decide) ?_⟩
    refine OneLine.append (s := [32]) (by decide) ((oneLine_decimal _).append ?_)
    exact OneLine.append (s := [32]) (by decide) h.formed.value.1
  · obtain ⟨f, hmem, rfl⟩ := List.mem_map.mp hl
    refine ⟨by simp, (hf f hmem).1.oneLine.append ?_⟩
    exact OneLine.append (s := [58, 32]) (by decide) (hf f hmem).2

theorem Resp.Sound.unsplit (h : msg.Sound r) : msg.Unsplit := by
  refine ⟨fun f hf => ⟨(h.formed.fields f hf).1.oneLine, (h.formed.fields f hf).2.1⟩, fun len => ?_⟩
  exact ⟨_, msg.lines len, h.text_eq len, rfl, h.lines_whole len, by simp [Resp.lines, Nat.add_comm]⟩

/-- **No reply is split**: whatever the requests are, a reply has one line for each header. -/
theorem replies_never_split (md5 : Md5) (locs : List RtspLocation) (hrealm : ∀ loc ∈ locs, OneLine loc.realm)
    (blocks : SourceId → List Directive) (evs : List Event) (hevs : ∀ ev ∈ evs, ev.Parsed) :
    Always (step md5 locs) (fun st => ∀ c rep, Output.reply c rep ∈ st.sent → rep.resp.Unsplit) (State.start blocks)
      evs := by
  refine (always_sound hrealm blocks hevs).mono fun st hst c rep hmem => ?_
  obtain ⟨r, hr⟩ := hst.replies c rep hmem
  exact hr.unsplit

def oddRequest : Str := bytes "OPTIONS * RTSP/1.0\r\nCSeq: 1\r\nX: y\r\ncseq: 2 : 3\r\n\r\n"

def oddEvents : List Event := [.accept 1, .request 1 ⟨.req (bytes "OPTIONS") (bytes "*"), bytes "RTSP/1.0",
  [(bytes "CSeq", bytes "1"), (bytes "X", bytes "y"), (bytes "cseq", bytes "2 : 3")]⟩ (Camera.env 0)]

theorem oddEvents_parsed : ∀ ev ∈ oddEvents, ev.Parsed := by
  intro ev hev
  simp only [oddEvents, mem_cons, not_mem_nil, or_false] at hev
  rcases hev with rfl | rfl
  · trivial
  · exact ⟨oddRequest, [], by decide +kernel⟩

theorem oneLine_noRealm : ∀ loc ∈ [Camera.location []], OneLine loc.realm := by
  intro loc hloc
  rw [mem_singleton.mp hloc]
  exact fun b hb => by cases hb

theorem replies_never_split_options : Always (step Md5.ofLibrary [Camera.location []])
    (fun st => ∀ c rep, Output.reply c rep ∈ st.sent → rep.resp.Unsplit) (State.start (Camera.blocks 1)) oddEvents :=
  replies_never_split _ _ oneLine_noRealm _ _ oddEvents_parsed

/-! ## What a client reads -/

/-- `parse_pmsg` reads the reply as it was built, with the body left behind it, if it has room for the headers. -/
def Resp.ReadBack (msg : Resp) : Prop :=
  ∃ r, msg.reason = some r ∧ ∀ len rest, (sentFields msg.fields len).length ≤ maxFields → ∃ text,
    responseText msg len = some text ∧
      parsePmsg (text ++ rest) = .ok (⟨.stat msg.code r, bytes "RTSP/1.0", sentFields msg.fields len⟩, rest)

theorem isValue_decimal (n : Nat) : IsValue (decimal n) := by
  have hhead : ∀ b, isDigit b = false → (decimal n).head? ≠ some b := fun b hb heq => by
    rw [isDigit_decimal n b (mem_of_head? heq)] at hb
    cases hb
  exact ⟨oneLine_decimal n, hhead 32 rfl, hhead 9 rfl⟩

theorem Resp.Sound.readBack (h : msg.Sound r) : msg.ReadBack := by
  refine ⟨r, h.formed.reason, fun len rest hlen => ⟨_, h.formed.responseText len, ?_⟩⟩
  refine parsePmsg_statusText h.formed.slash (by decide) (by decide) h.formed.code h.formed.value ?_ hlen rest
  unfold sentFields
  split
  · rename_i hnat
    obtain ⟨n, rfl⟩ := Int.eq_ofNat_of_zero_le hnat
    have hname : IsName (bytes "Content-Length") := by decide
    exact forall_mem_append.mpr ⟨h.formed.fields, forall_mem_singleton.mpr ⟨hname, isValue_decimal n⟩⟩
  · exact h.formed.fields

/-- **Every reply of every run is read back.** -/
theorem replies_read_back (md5 : Md5) (locs : List RtspLocation) (hrealm : ∀ loc ∈ locs, OneLine loc.realm)
    (blocks : SourceId → List Directive) (evs : List Event) (hevs : ∀ ev ∈ evs, ev.Parsed) :
    Always (step md5 locs) (fun st => ∀ c rep, Output.reply c rep ∈ st.sent → rep.resp.ReadBack) (State.start blocks)
      evs := by
  refine (always_sound hrealm blocks hevs).mono fun st hst c rep hmem => ?_
  obtain ⟨r, hr⟩ := hst.replies c rep hmem
  exact hr.readBack

theorem replies_read_back_options : Always (step Md5.ofLibrary [Camera.location []])
    (fun st => ∀ c rep, Output.reply c rep ∈ st.sent → rep.resp.ReadBack) (State.start (Camera.blocks 1)) oddEvents :=
  replies_read_back _ _ oneLine_noRealm _ _ oddEvents_parsed

end NuWicam.Rtsp
