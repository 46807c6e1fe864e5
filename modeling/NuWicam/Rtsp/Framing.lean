import NuWicam.Lib.Code
import NuWicam.Rtsp.Reader
import NuWicam.Rtsp.Splitting
import Mathlib.Data.Nat.Digits.Defs

/-!
# Packets and replies on one connection (`rtsp.c`, `tcp.c`)

RTP packets and RTSP replies share the send buffer of a connection; each is queued by several calls of `send_data` whose
results nobody looks at, after the room of the whole was asked for. `stream_framed`: a client that takes the stream apart
(`readFramed`) finds exactly the packets and replies that were accepted.
-/

namespace NuWicam.Rtsp

open Lib List Option

/-! ## The functions of the source -/

/-- The results are unused. -/
def sendAll (c : SendSide) (ds : List Str) : SendSide := ds.foldl (fun c d => (sendData c d).2) c

def put16 (n : Nat) : Str := [UInt8.ofNat (n >>> 8), UInt8.ofNat n]

/-- The returned value, the connection, and the bytes that `write()` took if `tcp_conn_flush` was called, with its results
`rs`. -/
def interleaveSend (c : SendSide) (chan : Nat) (v : List Str) (rs : List WriteResult) :
    Option (Nat × SendSide × List UInt8) :=
  let len := (v.map List.length).sum
  let head := 36 :: UInt8.ofNat chan :: put16 len
  if availSendBuf c < len + 4 then
    (tcpConnFlush c rs).map fun x =>
      if availSendBuf x.1 < len + 4 then (1, x.1, x.2) else (0, sendAll (sendData x.1 head).2 v, x.2)
  else some (0, sendAll (sendData c head).2 v, [])

/-- The description that goes with a reply, and the length that is passed to `tcp_send_pmsg`. -/
def Reply.body (r : Reply) : Str := (r.sdp.map Prod.snd).getD []

def Reply.len (r : Reply) : Int := if r.sdp.isSome then r.body.length else -1

/-- `tcp_send_pmsg`, and the description if that went well. -/
def sendReply (c : SendSide) (r : Reply) : Option (Int × SendSide) :=
  (tcpSendPmsg c r.resp r.len).map fun x =>
    if 0 ≤ x.1 ∧ r.sdp.isSome then (x.1, (sendData x.2 r.body).2) else x

/-! ## Runs of one connection -/

inductive SendCall
  | packet (chan : Nat) (v : List Str) (rs : List WriteResult)
  | reply (r : Reply)
  | write (rs : List WriteResult)

inductive Accepted
  | packet (chan : Nat) (v : List Str)
  | reply (r : Reply)

/-- A connection (`none` after `drop_conn`), the packets and replies accepted so far, and the bytes handed to `write()`. -/
structure StreamRun where
  conn : Option SendSide
  accepted : List Accepted
  written : List UInt8

/-- A packet is accepted if `interleave_send` returns `0`, a reply if `tcp_send_pmsg` does. -/
def streamStep (s : StreamRun) : SendCall → Option StreamRun
  | .packet chan v rs => s.conn.bind fun c => (interleaveSend c chan v rs).map fun x =>
      ⟨some x.2.1, s.accepted ++ (if x.1 = 0 then [.packet chan v] else []), s.written ++ x.2.2⟩
  | .reply r => s.conn.bind fun c => (sendReply c r).map fun x =>
      ⟨some x.2, s.accepted ++ (if x.1 = 0 then [.reply r] else []), s.written⟩
  | .write rs => s.conn.bind fun c => (connWrite c rs).map fun x => { s with conn := x.1, written := s.written ++ x.2 }

/-! ## What a client reads -/

inductive Framed
  | frame (chan : UInt8) (payload : Str)
  | message (ls : List Str) (body : Str)
deriving DecidableEq, Repr

/-- `0` if the header lines do not tell. -/
def contentLength (headers : List Str) : Nat :=
  match headers.find? fun l => caseEq (l.takeWhile (· != 58)) (bytes "Content-Length") with
  | some l => digitsVal (((l.dropWhile (· != 58)).drop 1).dropWhile (· == 32))
  | none => 0

def Framed.text : Framed → Str
  | .frame chan payload => 36 :: chan :: (put16 payload.length ++ payload)
  | .message ls body => joinLines (ls ++ [[]]) ++ body

/-- A payload whose length fits into 16 bits; a start line, whole lines, and as much body as they tell. -/
def Framed.Formed : Framed → Prop
  | .frame _ payload => payload.length < 65536
  | .message ls body => hasPfx (bytes "RTSP/") (ls.headD []) = true ∧ (∀ l ∈ ls, l ≠ [] ∧ OneLine l) ∧
      body.length = contentLength ls.tail

def readLine : Str → Option (Str × Str)
  | [] => none
  | 13 :: 10 :: rest => some ([], rest)
  | c :: rest => (readLine rest).map fun x => (c :: x.1, x.2)

def readHead : Nat → Str → Option (List Str × Str)
  | 0, _ => none
  | fuel + 1, s => (readLine s).bind fun x =>
      if x.1 = [] then some ([], x.2) else (readHead fuel x.2).map fun y => (x.1 :: y.1, y.2)

/-- `none` if the packet or message is not complete. -/
def readFramed (s : Str) : Option (Framed × Str) :=
  if s.head? = some 36 then
    if s.length < packetLen s + 4 then none
    else some (.frame (s.getD 1 0) ((s.drop 4).take (packetLen s)), s.drop (packetLen s + 4))
  else (readHead s.length s).bind fun x =>
    if x.2.length < contentLength x.1.tail then none
    else some (.message x.1 (x.2.take (contentLength x.1.tail)), x.2.drop (contentLength x.1.tail))

/-! ## Packets and messages are read back -/

theorem readLine_line {l : Str} (hl : OneLine l) (rest : Str) : readLine (l ++ 13 :: 10 :: rest) = some (l, rest) := by
  induction l with
  | nil => rfl
  | cons c l ih =>
    have hc : c ≠ 13 := (hl c mem_cons_self).1
    have hstep : readLine (c :: (l ++ 13 :: 10 :: rest)) =
        (readLine (l ++ 13 :: 10 :: rest)).map fun x => (c :: x.1, x.2) := by
      rw [readLine]
      rintro _ rfl
      exact absurd rfl hc
    rw [cons_append, hstep, ih hl.tail]
    rfl

theorem readHead_joinLines : ∀ (ls : List Str) {fuel : Nat}, (∀ l ∈ ls, l ≠ [] ∧ OneLine l) → ls.length < fuel →
    ∀ rest, readHead fuel (joinLines (ls ++ [[]]) ++ rest) = some (ls, rest)
  | [], fuel + 1, _, _, rest => by
    rfl
  | l :: ls, fuel + 1, hls, hfuel, rest => by
    rw [List.forall_mem_cons] at hls
    have ih := readHead_joinLines ls hls.2 (Nat.lt_of_succ_lt_succ hfuel) rest
    have hjoin : joinLines (l :: ls ++ [[]]) ++ rest = l ++ 13 :: 10 :: (joinLines (ls ++ [[]]) ++ rest) := by
      simp [joinLines]
    rw [hjoin, readHead, readLine_line hls.1.2, bind_some, if_neg hls.1.1, ih]
    rfl

theorem length_le_joinLines (ls : List Str) : ls.length ≤ (joinLines ls).length := by
  induction ls with
  | nil => exact Nat.le_refl _
  | cons l ls ih =>
    have hcons : joinLines (l :: ls) = l ++ 13 :: 10 :: joinLines ls := by simp [joinLines]
    rw [hcons]
    simp only [length_append, length_cons]
    omega

theorem packetLen_frame {n : Nat} (hn : n < 65536) (chan : UInt8) (rest : Str) :
    packetLen (36 :: chan :: (put16 n ++ rest)) = n := by
  simp only [packetLen, put16, cons_append, nil_append, getD_cons_succ, getD_cons_zero,
    UInt8.toNat_ofNat', Nat.shiftRight_eq_div_pow]
  omega

theorem readFramed_frame (chan : UInt8) {payload : Str} (hp : payload.length < 65536) (rest : Str) :
    readFramed ((Framed.frame chan payload).text ++ rest) = some (.frame chan payload, rest) := by
  have htext : (Framed.frame chan payload).text ++ rest =
      36 :: chan :: (put16 payload.length ++ (payload ++ rest)) := by
    simp [Framed.text]
  have hlen : (36 :: chan :: (put16 payload.length ++ (payload ++ rest))).length = payload.length + rest.length + 4 := by
    simp [put16]
  rw [htext, readFramed, if_pos (by rfl), packetLen_frame hp, if_neg (by omega)]
  simp [put16]

theorem readFramed_message {ls : List Str} {body : Str} (h : (Framed.message ls body).Formed) (rest : Str) :
    readFramed ((Framed.message ls body).text ++ rest) = some (.message ls body, rest) := by
  obtain ⟨hstart, hls, hbody⟩ := h
  have htext : (Framed.message ls body).text ++ rest = joinLines (ls ++ [[]]) ++ (body ++ rest) := by
    simp [Framed.text]
  -- the start line keeps the message apart from a packet
  have hhead : (joinLines (ls ++ [[]]) ++ (body ++ rest)).head? ≠ some 36 := by
    cases ls with
    | nil => cases hstart
    | cons l ls =>
      cases l with
      | nil => cases hstart
      | cons a l =>
        rw [hasPfx, headD_cons, show bytes "RTSP/" = 82 :: bytes "TSP/" from rfl, isPrefixOf_cons_cons,
          Bool.and_eq_true, beq_iff_eq] at hstart
        simp [joinLines, ← hstart.1]
  have hread : readHead (joinLines (ls ++ [[]]) ++ (body ++ rest)).length (joinLines (ls ++ [[]]) ++ (body ++ rest)) =
      some (ls, body ++ rest) := by
    refine readHead_joinLines ls hls ?_ _
    have := length_le_joinLines (ls ++ [[]])
    simp only [length_append, length_singleton] at this ⊢
    omega
  rw [htext, readFramed, if_neg hhead, hread, bind_some]
  simp only [← hbody]
  simp

theorem framed_selfDelimiting : SelfDelimiting Framed.Formed Framed.text readFramed where
  ne_nil u hu := by
    cases u with
    | frame chan payload => exact cons_ne_nil _ _
    | message ls body =>
      cases ls with
      | nil => cases hu.1
      | cons l ls => simp [Framed.text, joinLines]
  read_enc u hu rest := by
    cases u with
    | frame chan payload => exact readFramed_frame chan hu rest
    | message ls body => exact readFramed_message hu rest

/-! ## What is accepted -/

def Accepted.framed : Accepted → Framed
  | .packet chan v => .frame (UInt8.ofNat chan) v.flatten
  | .reply r => .message (r.resp.lines r.len) r.body

section

variable {c : SendSide}

theorem sendAll_spec : ∀ (ds : List Str) {c : SendSide}, c.buf.Ok sendBufSize → (ds.map List.length).sum ≤ availSendBuf c →
      (sendAll c ds).buf.Ok sendBufSize ∧ (sendAll c ds).pending = c.pending ++ ds.flatten
  | [], c, hc, _ => ⟨hc, by simp [sendAll]⟩
  | d :: ds, c, hc, hroom => by
    rw [List.map_cons, List.sum_cons] at hroom
    have hfit : ¬ availSendBuf c < d.length := by omega
    rcases sendData_spec hc d with href | ⟨_, hok, hpend⟩
    · rw [sendData, if_neg hfit] at href
      cases href
    · have hroom' : (ds.map List.length).sum ≤ availSendBuf (sendData c d).2 := by
        have h₁ := availSendBuf_add_pending hc
        have h₂ := availSendBuf_add_pending hok
        rw [hpend, length_append] at h₂
        omega
      obtain ⟨hok', hpend'⟩ := sendAll_spec ds hok hroom'
      refine ⟨hok', ?_⟩
      show (sendAll (sendData c d).2 ds).pending = _
      rw [hpend', hpend, flatten_cons, append_assoc]

theorem sendPacket_spec (hc : c.buf.Ok sendBufSize) (chan : Nat) (v : List Str)
    (hroom : ¬ availSendBuf c < (v.map List.length).sum + 4) :
    (sendAll (sendData c (36 :: UInt8.ofNat chan :: put16 (v.map List.length).sum)).2 v).buf.Ok sendBufSize ∧
      (sendAll (sendData c (36 :: UInt8.ofNat chan :: put16 (v.map List.length).sum)).2 v).pending =
        c.pending ++ (Accepted.packet chan v).framed.text ∧ (Accepted.packet chan v).framed.Formed := by
  obtain ⟨hok, hpend⟩ := sendAll_spec ((36 :: UInt8.ofNat chan :: put16 (v.map List.length).sum) :: v) hc (by
    simp only [map_cons, sum_cons, put16, length_cons, length_nil]
    omega)
  have havail := availSendBuf_add_pending hc
  refine ⟨hok, hpend.trans ?_, ?_⟩
  · simp [Accepted.framed, Framed.text, length_flatten]
  · show v.flatten.length < 65536
    rw [length_flatten]
    omega

theorem interleaveSend_spec (hc : c.buf.Ok sendBufSize) {chan : Nat} {v : List Str} {rs : List WriteResult}
    {x : Nat × SendSide × List UInt8} (ho : interleaveSend c chan v rs = some x) : x.2.1.buf.Ok sendBufSize ∧
      ((x.1 = 1 ∧ x.2.2 ++ x.2.1.pending = c.pending) ∨
        (x.1 = 0 ∧ x.2.2 ++ x.2.1.pending = c.pending ++ (Accepted.packet chan v).framed.text ∧
          (Accepted.packet chan v).framed.Formed)) := by
  unfold interleaveSend at ho
  dsimp only at ho
  split at ho
  · obtain ⟨⟨c₁, w⟩, hflush, rfl⟩ := map_eq_some_iff.mp ho
    obtain ⟨hok, hcont⟩ := tcpConnFlush_spec hc hflush
    split
    · exact ⟨hok, .inl ⟨rfl, hcont⟩⟩
    · rename_i hroom
      obtain ⟨hok', hpend, hformed⟩ := sendPacket_spec hok chan v hroom
      refine ⟨hok', .inr ⟨rfl, ?_, hformed⟩⟩
      rw [hpend, ← append_assoc, hcont]
  · rename_i hroom
    cases ho
    obtain ⟨hok, hpend, hformed⟩ := sendPacket_spec hc chan v hroom
    exact ⟨hok, .inr ⟨rfl, hpend, hformed⟩⟩

end

/-! ## Replies of the server -/

def Reply.Served (r : Reply) : Prop :=
  ∃ (md5 : Md5) (locs : List RtspLocation) (blocks : SourceId → List Directive) (evs : List Event) (st : State) (c : Addr),
    (∀ loc ∈ locs, OneLine loc.realm) ∧ (∀ ev ∈ evs, ev.Parsed) ∧
      run (step md5 locs) (State.start blocks) evs = some st ∧ Output.reply c r ∈ st.sent

theorem Reply.Served.sound {r : Reply} (h : r.Served) : ∃ reason, r.resp.Sound reason := by
  obtain ⟨md5, locs, blocks, evs, st, c, hrealm, hevs, hrun, hmem⟩ := h
  exact ((always_sound hrealm blocks hevs).last hrun).replies c r hmem

theorem Reply.toNat_len (r : Reply) : r.len.toNat = r.body.length := by
  obtain ⟨resp, sdp⟩ := r
  cases sdp with
  | none => rfl
  | some p => rfl

theorem span_fieldLine {name : Str} (hn : IsName name) (value : Str) : (name ++ 58 :: 32 :: value).takeWhile (· != 58) = name ∧
      (name ++ 58 :: 32 :: value).dropWhile (· != 58) = 58 :: 32 :: value := by
  have hall : ∀ b ∈ name, (b != 58) := fun b hb => bne_iff_ne.mpr (hn.2 b hb).2.2.1
  rw [takeWhile_append_of_pos hall, dropWhile_append_of_pos hall]
  simp

theorem Resp.Sound.contentLength_lines {msg : Resp} {r : Str} (h : msg.Sound r) (len : Int) :
    contentLength (msg.lines len).tail = len.toNat := by
  have hnone : ∀ l ∈ msg.fields.map (fun f => f.1 ++ 58 :: 32 :: f.2),
      ¬ caseEq (l.takeWhile (· != 58)) (bytes "Content-Length") := by
    intro l hl
    obtain ⟨f, hf, rfl⟩ := List.mem_map.mp hl
    rw [(span_fieldLine (h.formed.fields f hf).1 f.2).1, h.names f hf]
    exact Bool.false_ne_true
  rw [Resp.lines, tail_cons, contentLength, sentFields]
  by_cases hlen : 0 ≤ len
  · rw [if_pos hlen]
    obtain ⟨n, rfl⟩ := Int.eq_ofNat_of_zero_le hlen
    obtain ⟨hname, hvalue⟩ := span_fieldLine (show IsName (bytes "Content-Length") by decide) (decimal n)
    have hdigits : (decimal n).dropWhile (· == 32) = decimal n := by
      obtain ⟨d, ds, hd⟩ := exists_cons_of_ne_nil (decimal_ne_nil n)
      have hdigit := isDigit_decimal n d (hd ▸ mem_cons_self)
      have hd32 : (d == 32) = false := by
        refine beq_eq_false_iff_ne.mpr fun h => ?_
        rw [h] at hdigit
        exact absurd hdigit (by decide)
      rw [hd, dropWhile_cons_of_neg (by rw [hd32]; decide)]
    rw [map_append, List.find?_append, List.find?_eq_none.mpr hnone, none_or, map_singleton,
      List.find?_singleton, hname, if_pos (by decide)]
    dsimp only
    rw [hvalue, drop_one, tail_cons, dropWhile_cons_of_pos (by rfl), hdigits, digitsVal_decimal]
    rfl
  · rw [if_neg hlen, List.find?_eq_none.mpr hnone]
    show 0 = _
    omega

theorem Resp.Sound.framed_formed {r : Reply} {reason : Str} (h : r.resp.Sound reason) : (Accepted.reply r).framed.Formed := by
  refine ⟨?_, h.lines_whole _, ?_⟩
  · show hasPfx (bytes "RTSP/") (r.resp.protoId.getD [] ++ _)
    rw [h.formed.protoId]
    rfl
  · rw [h.contentLength_lines, r.toNat_len]

theorem sendReply_spec {c : SendSide} (hc : c.buf.Ok sendBufSize) {r : Reply} {reason : Str}
    (hr : r.resp.Sound reason) {x : Int × SendSide} (ho : sendReply c r = some x) :
    x.2.buf.Ok sendBufSize ∧ ((x.1 ≠ 0 ∧ x.2.pending = c.pending) ∨
      (x.1 = 0 ∧ x.2.pending = c.pending ++ (Accepted.reply r).framed.text)) := by
  obtain ⟨y, hy, rfl⟩ := map_eq_some_iff.mp ho
  simp only [tcpSendPmsg, hr.text_eq, bind_eq_bind, bind_some] at hy
  split at hy
  · cases hy
  split at hy
  · cases hy
    exact ⟨hc, .inl ⟨show (-1 : Int) ≠ 0 by decide, rfl⟩⟩
  · rename_i hroom
    cases hy
    have hlen := r.toNat_len
    -- the room that was asked for is enough for the text and the description
    obtain ⟨hok, hpend⟩ := sendAll_spec [joinLines (r.resp.lines r.len ++ [[]])] hc (by
      simp only [map_cons, map_nil, sum_cons, sum_nil]
      omega)
    obtain ⟨hok', hpend'⟩ := sendAll_spec [joinLines (r.resp.lines r.len ++ [[]]), r.body] hc (by
      simp only [map_cons, map_nil, sum_cons, sum_nil]
      omega)
    rw [flatten_singleton] at hpend
    split
    · exact ⟨hok', .inr ⟨rfl, hpend'.trans (by simp [Accepted.framed, Framed.text])⟩⟩
    · rename_i hnone
      have hbody : r.body = [] := by
        have : r.sdp = none := by simpa using hnone
        rw [Reply.body, this]
        rfl
      refine ⟨hok, .inr ⟨rfl, ?_⟩⟩
      rw [Accepted.framed, Framed.text, hbody, append_nil]
      exact hpend

theorem length_decimal_le {n e : Nat} (he : 0 < e) (hn : n < 10 ^ e) : (decimal n).length ≤ e := by
  rw [decimal_natCast, length_map]
  exact Nat.toDigits_length 10 n e he hn

theorem length_fieldLines (fields : List (Str × Str)) :
    (fields.flatMap fieldLine).length = (fields.map fun f => f.1.length + f.2.length + 2).sum + 2 * fields.length := by
  induction fields with
  | nil => rfl
  | cons f fields ih =>
    simp only [flatMap_cons, length_append, ih, map_cons, sum_cons, length_cons, fieldLine,
      length_nil]
    omega

theorem Resp.Sound.text_lt {msg : Resp} {r : Str} (h : msg.Sound r) {n : Nat} (hn : n ≤ 8190) {len : Int}
    (hlen : len = n ∨ len = -1) {text : Str} (ht : Rtsp.responseText msg len = some text) : text.length < printBufSize := by
  have hused := Nat.le_trans h.used (h.pool ▸ h.room)
  have hcount := h.formed.count
  have hcode : (decimal msg.code).length ≤ 3 := length_decimal_le (by decide) (by have := h.formed.code; omega)
  have hsent : ((sentFields msg.fields len).flatMap fieldLine).length ≤ (msg.fields.flatMap fieldLine).length + 22 := by
    unfold sentFields
    rcases hlen with rfl | rfl
    · have hdigits : (decimal n).length ≤ 4 := length_decimal_le (by decide) (by omega)
      rw [if_pos (by omega), flatMap_append, length_append, flatMap_singleton]
      simp only [fieldLine, length_append, length_cons, length_nil]
      have : (bytes "Content-Length").length = 14 := rfl
      omega
    · rw [if_neg (by decide)]
      omega
  rw [h.formed.responseText, Option.some.injEq] at ht
  rw [← ht]
  rw [length_fieldLines msg.fields] at hsent
  simp only [Resp.used] at hused
  simp only [statusText, statusLine, length_append, length_cons, length_nil]
  unfold maxFields printBufSize at *
  omega

theorem Reply.Served.sendReply_total {r : Reply} (h : r.Served) (hbody : r.body.length ≤ 8190) (c : SendSide) :
    ∃ x, sendReply c r = some x := by
  obtain ⟨reason, hr⟩ := h.sound
  have hlen : r.len = r.body.length ∨ r.len = -1 := by
    unfold Reply.len
    split
    · exact .inl rfl
    · exact .inr rfl
  have hlt := hr.text_lt hbody hlen (hr.text_eq _)
  simp only [sendReply, tcpSendPmsg, hr.text_eq, bind_eq_bind, bind_some, if_neg (Nat.not_le.mpr hlt)]
  split
  · exact ⟨_, rfl⟩
  · exact ⟨_, rfl⟩

/-! ## The stream -/

def SendCall.Served : SendCall → Prop
  | .reply r => r.Served
  | _ => True

def StreamRun.start (c : SendSide) : StreamRun := ⟨some c, [], []⟩

structure StreamRun.Framed (before : Str) (s : StreamRun) : Prop where
  formed : ∀ a ∈ s.accepted, a.framed.Formed
  stream : ∀ c, s.conn = some c → c.buf.Ok sendBufSize ∧
    s.written ++ c.pending = before ++ (s.accepted.map Accepted.framed).flatMap Framed.text

theorem StreamRun.Framed.add {before : Str} {s : StreamRun} (h : s.Framed before) {c c' : SendSide}
    (hc : s.conn = some c) (hok : c'.buf.Ok sendBufSize) {as : List Accepted} (has : ∀ a ∈ as, a.framed.Formed)
    {w : Str} (hw : w ++ c'.pending = s.written ++ (c.pending ++ (as.map Accepted.framed).flatMap Framed.text)) :
    StreamRun.Framed before ⟨some c', s.accepted ++ as, w⟩ := by
  refine ⟨fun a ha => ?_, fun c'' hc'' => ?_⟩
  · rcases mem_append.mp ha with ha | ha
    · exact h.formed a ha
    · exact has a ha
  · cases hc''
    refine ⟨hok, ?_⟩
    calc w ++ c'.pending
        = (s.written ++ c.pending) ++ (as.map Accepted.framed).flatMap Framed.text := by
          rw [hw, append_assoc]
      _ = before ++ ((s.accepted ++ as).map Accepted.framed).flatMap Framed.text := by
          rw [(h.stream c hc).2, map_append, flatMap_append, append_assoc]

/-- **One call keeps the stream framed.** -/
theorem streamStep_framed {before : Str} {s s' : StreamRun} {call : SendCall} (h : s.Framed before)
    (hcall : call.Served) (hs : streamStep s call = some s') : s'.Framed before := by
  cases call with
  | packet chan v rs =>
    obtain ⟨c, hc, hs⟩ := bind_eq_some_iff.mp hs
    obtain ⟨x, hx, rfl⟩ := map_eq_some_iff.mp hs
    obtain ⟨hok, ⟨hret, hrest⟩ | ⟨hret, hrest, hformed⟩⟩ := interleaveSend_spec (h.stream c hc).1 hx
    · rw [if_neg (by rw [hret]; decide)]
      refine h.add hc hok (fun a ha => by cases ha) ?_
      rw [append_assoc, hrest]
      simp
    · rw [if_pos hret]
      refine h.add hc hok (fun a ha => ?_) ?_
      · rw [mem_singleton.mp ha]
        exact hformed
      · rw [append_assoc, hrest]
        simp
  | reply r =>
    obtain ⟨c, hc, hs⟩ := bind_eq_some_iff.mp hs
    obtain ⟨x, hx, rfl⟩ := map_eq_some_iff.mp hs
    obtain ⟨reason, hr⟩ := hcall.sound
    obtain ⟨hok, ⟨hret, hrest⟩ | ⟨hret, hrest⟩⟩ := sendReply_spec (h.stream c hc).1 hr hx
    · rw [if_neg hret]
      refine h.add hc hok (fun a ha => by cases ha) ?_
      rw [hrest]
      simp
    · rw [if_pos hret]
      refine h.add hc hok (fun a ha => ?_) ?_
      · rw [mem_singleton.mp ha]
        exact hr.framed_formed
      · rw [hrest]
        simp
  | write rs =>
    obtain ⟨c, hc, hs⟩ := bind_eq_some_iff.mp hs
    obtain ⟨x, hx, rfl⟩ := map_eq_some_iff.mp hs
    refine ⟨h.formed, fun c' hc' => ?_⟩
    obtain ⟨hok, hstream⟩ := h.stream c hc
    obtain ⟨hok', hcont⟩ := connWrite_spec hok hx hc'
    refine ⟨hok', ?_⟩
    rw [append_assoc, hcont]
    exact hstream

/-- While the connection is there: what was queued after `before` is read as the packets and replies that were accepted, in
order and in no other way, and a further reply does not overrun `buf`. -/
def StreamRun.ReadBack (before : Str) (s : StreamRun) : Prop :=
  ∀ c, s.conn = some c →
    (∃ stream, s.written ++ c.pending = before ++ stream ∧
      readAll readFramed stream = some (s.accepted.map Accepted.framed) ∧
      ∀ us : List Rtsp.Framed, (∀ u ∈ us, u.Formed) → us.flatMap Framed.text = stream →
        us = s.accepted.map Accepted.framed) ∧
    ∀ r : Reply, r.Served → r.body.length ≤ 8190 → ∃ x, sendReply c r = some x

/-- **The stream is framed**: what is queued is the accepted packets and replies, whole and in order. -/
theorem stream_framed {c₀ : SendSide} (h₀ : c₀.buf.Ok sendBufSize) (calls : List SendCall)
    (hcalls : ∀ call ∈ calls, call.Served) : Always streamStep (StreamRun.ReadBack c₀.pending) (StreamRun.start c₀) calls := by
  have hframed : Always streamStep (StreamRun.Framed c₀.pending) (StreamRun.start c₀) calls := by
    refine always_of_eachStep (C := fun _ call => call.Served) (fun s call s' h hcall hs => streamStep_framed h hcall hs)
      ⟨?_, ?_⟩ (eachStep_of_forall hcalls _)
    · intro a ha
      cases ha
    · intro c hc
      cases hc
      exact ⟨h₀, by simp [StreamRun.start]⟩
  refine hframed.mono fun s hs c hc => ⟨⟨_, (hs.stream c hc).2, ?_, fun us hus he => ?_⟩, fun r hr hbody => ?_⟩
  · exact framed_selfDelimiting.readAll_flatMap (List.forall_mem_map.mpr hs.formed)
  · exact framed_selfDelimiting.unique hus (List.forall_mem_map.mpr hs.formed) he
  · exact hr.sendReply_total hbody c

def oddReply : Reply := ⟨⟨512, 76, some (bytes "RTSP/1.0"), 200, some (bytes "OK"), [(bytes "CSeq", bytes "1"),
  (bytes "cseq", bytes "2 : 3"), (bytes "Public", bytes "DESCRIBE, SETUP, TEARDOWN, PLAY, PAUSE")]⟩, none⟩

theorem oddReply_served : oddReply.Served :=
  ⟨Md5.ofLibrary, [Camera.location []], Camera.blocks 1, oddEvents, _, 1, oneLine_noRealm, oddEvents_parsed, rfl,
    mem_singleton.mpr rfl⟩

theorem stream_framed_options : Always streamStep (StreamRun.ReadBack (SendSide.accept fun _ => 0).pending)
    (StreamRun.start (.accept fun _ => 0)) [.packet 0 [[128, 96], bytes "data"] [], .write [.wrote 3], .reply oddReply,
      .write [.wrote 7, .again, .wrote 20], .packet 1 [bytes "more"] []] := by
  refine stream_framed (accept_ok _) _ fun call hcall => ?_
  simp only [mem_cons, not_mem_nil, or_false] at hcall
  rcases hcall with rfl | rfl | rfl | rfl | rfl
  · trivial
  · trivial
  · exact oddReply_served
  · trivial
  · trivial

end NuWicam.Rtsp
