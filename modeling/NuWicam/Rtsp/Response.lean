import NuWicam.Rtsp.Reply
import NuWicam.Rtsp.SendBuf

/-!
# Sending a response (`tcp.c`), and reading it back

`tcp_send_pmsg` prints a response into a buffer of 2048 bytes and queues it whole, or not at all. What it prints is read back
by `parse_pmsg`, whatever follows (`parsePmsg_statusText`). `response_round_trip_iff`: a response whose strings meet the rules
of the format comes back as it was, exactly if its protocol id is one word.
-/

namespace NuWicam.Rtsp

open Lib List

/-! ## The functions of the source -/

/-- `"%s %d %s\r\n"` -/
def statusLine (protoId : Str) (code : Nat) (reason : Str) : Str :=
  protoId ++ 32 :: (decimal code ++ 32 :: (reason ++ [13, 10]))

/-- `"%s: %s\r\n"` -/
def fieldLine (f : Str × Str) : Str := f.1 ++ 58 :: 32 :: (f.2 ++ [13, 10])

/-- `none` where a string is missing. -/
def responseText (msg : Resp) (len : Int) : Option Str := do
  let protoId ← msg.protoId
  let reason ← msg.reason
  pure (statusLine protoId msg.code reason ++ msg.fields.flatMap fieldLine ++
    if 0 ≤ len then bytes "Content-Length: " ++ decimal len ++ bytes "\r\n\r\n" else bytes "\r\n")

/-- `sizeof(buf)` -/
def printBufSize : Nat := 2048

/-- `none` where it prints past `buf`, which has to hold the `NUL` as well. -/
def tcpSendPmsg (c : SendSide) (msg : Resp) (len : Int) : Option (Int × SendSide) := do
  let text ← responseText msg len
  if printBufSize ≤ text.length then none
  else if (availSendBuf c : Int) < text.length + max 0 len then pure (-1, c)
  else pure (0, (sendData c text).2)

/-! ## The rules of the format -/

def OneLine (s : Str) : Prop := ∀ b ∈ s, b ≠ 13 ∧ b ≠ 10 ∧ b ≠ 0

/-- It is there, and holds no blank, no colon and nothing that ends a line or a string. -/
def IsName (s : Str) : Prop := s ≠ [] ∧ ∀ b ∈ s, b ≠ 32 ∧ b ≠ 9 ∧ b ≠ 58 ∧ b ≠ 13 ∧ b ≠ 10 ∧ b ≠ 0

def IsValue (s : Str) : Prop := OneLine s ∧ s.head? ≠ some 32 ∧ s.head? ≠ some 9

def SlashFirst (s : Str) : Prop := (s.find? fun c => c == 32 || c == 47) = some 47

instance (s : Str) : Decidable (OneLine s) := List.decidableBAll _ s
instance (s : Str) : Decidable (IsName s) := @instDecidableAnd _ _ _ (List.decidableBAll _ s)
instance (s : Str) : Decidable (IsValue s) := inferInstanceAs (Decidable (OneLine s ∧ _ ∧ _))
instance (s : Str) : Decidable (SlashFirst s) := inferInstanceAs (Decidable (_ = _))

/-! ## Reading a response -/

theorem skipCr_cons {c : UInt8} (h : c ≠ 13) (d : Str) : skipCr (c :: d) = c :: d := by
  unfold skipCr
  split
  · rename_i heq
    cases heq
    exact absurd rfl h
  · rfl

theorem expect_cons (c : UInt8) (d : Str) : expect c (c :: d) = .ok d := if_pos rfl

theorem dropBlanks_value {v : Str} (hv : IsValue v) (rest : Str) :
    (32 :: (v ++ 13 :: rest)).dropWhile (fun c => c == 32 || c == 9) = v ++ 13 :: rest := by
  obtain ⟨_, h32, h9⟩ := hv
  cases v with
  | nil => rfl
  | cons a v =>
    have ha : (a == 32 || a == 9) = false := by simpa using ⟨fun h => h32 (by rw [h]; rfl), fun h => h9 (by rw [h]; rfl)⟩
    rw [dropWhile_cons_of_pos (by rfl), cons_append, dropWhile_cons_of_neg (by rw [ha]; decide)]

theorem skipBlanks_value {v : Str} (hv : IsValue v) (rest : Str) : skipBlanks (v ++ 13 :: rest) = v ++ 13 :: rest := by
  obtain ⟨_, h32, _⟩ := hv
  cases v with
  | nil => rfl
  | cons a v =>
    have ha : (a == 32) = false := by simpa using fun h => h32 (by rw [h]; rfl)
    rw [skipBlanks, cons_append, dropWhile_cons_of_neg (by rw [ha]; decide)]

theorem delim_line {v : Str} (hv : OneLine v) (rest : Str) : delim 0 0 (v ++ 13 :: rest) = (v, 13 :: rest) := by
  refine delim_append (fun c hc => ?_) (by decide) rest
  obtain ⟨h13, h10, h0⟩ := hv c hc
  simp [stops, h13, h10, h0]

theorem delim_name {n : Str} (hn : IsName n) (rest : Str) : delim 32 58 (n ++ 58 :: rest) = (n, 58 :: rest) := by
  refine delim_append (fun c hc => ?_) (by decide) rest
  obtain ⟨h32, _, h58, h13, h10, _⟩ := hn.2 c hc
  simp [stops, h32, h58, h13, h10]

theorem parseHeaders_line {name value : Str} (hn : IsName name) (hv : IsValue value) {fs : List (Str × Str)}
    (hlen : fs.length < maxFields) (fuel : Nat) (rest : Str) :
    parseHeaders (fuel + 1) fs (fieldLine (name, value) ++ rest) = parseHeaders fuel (fs ++ [(name, value)]) rest := by
  have hnul : cstr name = name := cstr_eq fun h => (hn.2 0 h).2.2.2.2.2 rfl
  obtain ⟨a, n, rfl⟩ := exists_cons_of_ne_nil hn.1
  obtain ⟨h32, h9, _, h13, h10, _⟩ := hn.2 a mem_cons_self
  have hline : fieldLine (a :: n, value) ++ rest = a :: (n ++ 58 :: 32 :: (value ++ 13 :: 10 :: rest)) := by
    simp [fieldLine]
  rw [hline, parseHeaders, skipCr_cons h13]
  simp only [h10, h9, h32, or_self, if_false, Nat.not_le.mpr hlen]
  have hname : delim 32 58 (a :: (n ++ 58 :: 32 :: (value ++ 13 :: 10 :: rest))) =
      (a :: n, 58 :: 32 :: (value ++ 13 :: 10 :: rest)) := delim_name hn _
  rw [hname]
  simp only [List.head?_cons, Option.some.injEq, show (58 : UInt8) ≠ 32 by decide, if_false, expect_cons]
  simp only [bind, Except.bind, dropBlanks_value hv, delim_line hv.1, putNul, expect_cons, hnul]

theorem parseHeaders_fields : ∀ (fields fs : List (Str × Str)) {fuel : Nat}, (∀ f ∈ fields, IsName f.1 ∧ IsValue f.2) →
    fs.length + fields.length ≤ maxFields → fields.length < fuel → ∀ rest,
      parseHeaders fuel fs (fields.flatMap fieldLine ++ 13 :: 10 :: rest) = .ok (fs ++ fields, rest)
  | [], fs, fuel + 1, _, _, _, rest => by
    simp [parseHeaders, skipCr]
  | (name, value) :: fields, fs, fuel + 1, hf, hlen, hfuel, rest => by
    rw [List.forall_mem_cons] at hf
    simp only [List.length_cons] at hlen hfuel
    have ih := parseHeaders_fields fields (fs ++ [(name, value)]) hf.2 (by simp; omega) (Nat.lt_of_succ_lt_succ hfuel) rest
    rw [flatMap_cons, append_assoc, parseHeaders_line hf.1.1 hf.1.2 (by omega), ih]
    simp

variable {n : Nat} {p r : Str}

theorem decimal_three (h : 100 ≤ n ∧ n ≤ 999) : ∃ a b c, decimal n = [a, b, c] ∧ isDigit a ∧ isDigit b ∧ isDigit c = true := by
  have hlen : (decimal n).length = 3 := by
    rw [decimal_natCast, length_map, Nat.toDigits_of_base_le (by decide) (by omega), length_append,
      Nat.toDigits_of_base_le (by decide) (by omega), length_append, Nat.toDigits_of_lt_base (by omega)]
    rfl
  obtain ⟨a, b, c, he⟩ := length_eq_three.mp hlen
  have hd := isDigit_decimal n
  rw [he] at hd
  simp only [mem_cons, not_mem_nil, or_false, forall_eq_or_imp, forall_eq] at hd
  exact ⟨a, b, c, he, hd⟩

theorem delim_word (hp : OneLine p) (hb : (32 : UInt8) ∉ p) (rest : Str) : delim 32 0 (p ++ 32 :: rest) = (p, 32 :: rest) := by
  refine delim_append (fun c hc => ?_) (by decide) rest
  obtain ⟨h13, h10, h0⟩ := hp c hc
  have h32 : c ≠ 32 := fun h => hb (h ▸ hc)
  simp [stops, h13, h10, h0, h32]

theorem parseStatus_line (hp : OneLine p) (hb : (32 : UInt8) ∉ p) (hn : 100 ≤ n ∧ n ≤ 999) (hr : IsValue r) (rest : Str) :
    parseStatus (statusLine p n r ++ rest) = .ok (.stat n r, p, 10 :: rest) := by
  obtain ⟨a, b, c, hd, ha, hb', hc⟩ := decimal_three hn
  have hval : digitsVal [a, b, c] = n := by rw [← hd, digitsVal_decimal]
  have ha32 : (a == 32) = false := by
    have : a ≠ 32 := fun h => by rw [h] at ha; exact absurd ha (by decide)
    simpa using this
  have hline : statusLine p n r ++ rest = p ++ 32 :: a :: b :: c :: 32 :: (r ++ 13 :: 10 :: rest) := by
    simp [statusLine, hd]
  have hskip : skipBlanks (a :: b :: c :: 32 :: (r ++ 13 :: 10 :: rest)) = a :: b :: c :: 32 :: (r ++ 13 :: 10 :: rest) := by
    rw [skipBlanks, dropWhile_cons_of_neg (by rw [ha32]; decide)]
  rw [hline, parseStatus, delim_word hp hb]
  simp only [bind, Except.bind, expect_cons, hskip, ha, hb', hc, Bool.and_self, if_true, skipBlanks_value hr,
    delim_line hr.1, putNul, hval]
  rfl

def statusText (p : Str) (n : Nat) (r : Str) (fields : List (Str × Str)) : Str :=
  statusLine p n r ++ fields.flatMap fieldLine ++ [13, 10]

theorem parsePmsg_statusText {fields : List (Str × Str)} (hs : SlashFirst p) (hp : OneLine p)
    (hb : (32 : UInt8) ∉ p) (hn : 100 ≤ n ∧ n ≤ 999) (hr : IsValue r) (hf : ∀ f ∈ fields, IsName f.1 ∧ IsValue f.2)
    (hlen : fields.length ≤ maxFields) (rest : Str) :
    parsePmsg (statusText p n r fields ++ rest) = .ok (⟨.stat n r, p, fields⟩, rest) := by
  set body := fields.flatMap fieldLine ++ 13 :: 10 :: rest with hbody
  have htext : statusText p n r fields ++ rest = statusLine p n r ++ body := by
    simp [statusText, hbody]
  have hfind : (statusLine p n r ++ body).find? (fun c => c == 32 || c == 47) = some 47 := by
    rw [statusLine, append_assoc, List.find?_append, hs]
    rfl
  have hfour : ¬ (statusLine p n r ++ body).length < 4 := by
    simp [statusLine, hbody]
    omega
  have hcount : fields.length ≤ (fields.flatMap fieldLine).length := by
    clear hbody hf hlen htext hfind hfour
    induction fields with
    | nil => exact Nat.le_refl _
    | cons f fields ih =>
      simp only [flatMap_cons, length_append, length_cons, fieldLine]
      omega
  have hheaders : parseHeaders (body.length + 1) [] body = .ok (fields, rest) := by
    refine parseHeaders_fields fields [] hf (by simpa using hlen) ?_ rest
    rw [hbody, length_append]
    omega
  rw [htext, parsePmsg, if_neg hfour, hfind]
  simp only [bind, Except.bind, if_true, parseStatus_line hp hb hn hr]
  have heol : parseEol (10 :: body) = .ok body := rfl
  rw [heol]
  simp only [hheaders]
  rfl

/-! ## The round trip -/

/-- Three digits, names, values, and a protocol id that starts like one. -/
structure Resp.Formed (msg : Resp) (p r : Str) : Prop where
  protoId : msg.protoId = some p
  reason : msg.reason = some r
  slash : SlashFirst p
  code : 100 ≤ msg.code ∧ msg.code ≤ 999
  value : IsValue r
  fields : ∀ f ∈ msg.fields, IsName f.1 ∧ IsValue f.2
  count : msg.fields.length ≤ maxFields

theorem Resp.Formed.text {msg : Resp} (h : msg.Formed p r) :
    responseText msg (-1) = some (statusText p msg.code r msg.fields) := by
  simp only [responseText, h.protoId, h.reason, statusText]
  rfl

theorem tcpSendPmsg_fits {c : SendSide} (hc : c.buf.Ok sendBufSize) {msg : Resp} {len : Int} {text : Str}
    (ht : responseText msg len = some text) (hbuf : text.length < printBufSize)
    (hroom : text.length + max 0 len ≤ (availSendBuf c : Int)) :
    ∃ c', tcpSendPmsg c msg len = some (0, c') ∧ c'.buf.Ok sendBufSize ∧ c'.pending = c.pending ++ text := by
  refine ⟨(sendData c text).2, ?_, ?_⟩
  · simp only [tcpSendPmsg, ht]
    show (if printBufSize ≤ text.length then none else _) = _
    rw [if_neg (by omega), if_neg (by omega)]
    rfl
  · rcases sendData_spec hc text with href | ⟨_, hok, hpend⟩
    · -- there is room, so `send_data` does not refuse
      have hfit : ¬ availSendBuf c < text.length := by omega
      rw [sendData, if_neg hfit] at href
      cases href
    · exact ⟨hok, hpend⟩

theorem word_of_parse {text rest : Str} {m : Pmsg} (h : parsePmsg text = .ok (m, rest))
    (hm : m.sl = .stat n r) : OneLine m.protoId ∧ (32 : UInt8) ∉ m.protoId := by
  have hp := (parsePmsg_pieces h).1
  rw [hm] at hp
  refine ⟨fun c hc => ?_, fun hb => ?_⟩
  · have hstop := hp.1 c hc
    simp only [stops, Bool.or_eq_false_iff, beq_eq_false_iff_ne] at hstop
    exact ⟨hstop.1.2, hstop.2, hstop.1.1.2⟩
  · exact absurd (hp.1 32 hb) (by decide)

/-- **Responses come back** from their text exactly if the protocol id is one word. -/
theorem response_round_trip_iff {msg : Resp} {p r : Str} (h : msg.Formed p r) {c : SendSide} (hc : c.buf.Ok sendBufSize) :
    ∃ text, responseText msg (-1) = some text ∧
      (text.length < printBufSize → text.length ≤ availSendBuf c →
        ∃ c', tcpSendPmsg c msg (-1) = some (0, c') ∧ c'.pending = c.pending ++ text) ∧
      (parsePmsg text = .ok (⟨.stat msg.code r, p, msg.fields⟩, []) ↔ OneLine p ∧ (32 : UInt8) ∉ p) := by
  refine ⟨_, h.text, fun hbuf hroom => ?_, fun hparse => word_of_parse hparse rfl, fun ⟨hp, hb⟩ => ?_⟩
  · obtain ⟨c', hsend, _, hpend⟩ := tcpSendPmsg_fits hc h.text hbuf (by omega)
    exact ⟨c', hsend, hpend⟩
  · have := parsePmsg_statusText h.slash hp hb h.code h.value h.fields h.count []
    rwa [append_nil] at this

def okReply : Resp := ⟨512, 0, some (bytes "RTSP/1.0"), 200, some (bytes "OK"), [(bytes "CSeq", bytes "1")]⟩

theorem okReply_formed : okReply.Formed (bytes "RTSP/1.0") (bytes "OK") :=
  ⟨rfl, rfl, by decide, by decide, by decide, by decide, by decide⟩

theorem accept_ok (mem : Nat → UInt8) : (SendSide.accept mem).buf.Ok sendBufSize :=
  ⟨by show 0 < sendBufSize; decide, by show 0 < sendBufSize; decide⟩

theorem okReply_round_trip : ∃ text, responseText okReply (-1) = some text ∧
    (text.length < printBufSize → text.length ≤ availSendBuf (.accept fun _ => 0) →
      ∃ c', tcpSendPmsg (.accept fun _ => 0) okReply (-1) = some (0, c') ∧
        c'.pending = (SendSide.accept fun _ => 0).pending ++ text) ∧
    (parsePmsg text = .ok (⟨.stat 200 (bytes "OK"), bytes "RTSP/1.0", okReply.fields⟩, []) ↔
      OneLine (bytes "RTSP/1.0") ∧ (32 : UInt8) ∉ bytes "RTSP/1.0") :=
  response_round_trip_iff okReply_formed (accept_ok _)

def twoWordReply : Resp := ⟨512, 0, some (bytes "RTSP/1.0 200"), 404, some (bytes "Not Found"), []⟩

theorem two_word_protocol_misread : twoWordReply.Formed (bytes "RTSP/1.0 200") (bytes "Not Found") ∧
    ∃ text, responseText twoWordReply (-1) = some text ∧ text.length < printBufSize ∧
      parsePmsg text = .ok (⟨.stat 200 (bytes "404 Not Found"), bytes "RTSP/1.0", []⟩, []) :=
  ⟨⟨rfl, rfl, by decide, by decide, by decide, by decide, by decide⟩,
    bytes "RTSP/1.0 200 404 Not Found\r\n\r\n", by decide +kernel, by decide, by decide +kernel⟩

end NuWicam.Rtsp
