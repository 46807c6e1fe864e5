import NuWicam.Rtsp.Response

/-!
# The lines that `parse_pmsg` takes

A `StartText` is a start line that the parser accepts and a `HeaderLine` is a header line that it records, each with the byte
at its end that is overwritten and the `LF` after that. Both are read whatever follows, and what is read has this form.
-/

namespace NuWicam.Rtsp

open Lib List

/-! ## Pieces -/

theorem dropWhile_pad {p : UInt8 → Bool} {b x : Str} (hb : ∀ c ∈ b, p c)
    (hx : ∀ c, x.head? = some c → p c = false) : (b ++ x).dropWhile p = x := by
  rw [dropWhile_append_of_pos hb]
  cases x with
  | nil => rfl
  | cons c x => exact dropWhile_cons_of_neg (by rw [hx c rfl]; exact Bool.false_ne_true)

theorem exists_pad (p : UInt8 → Bool) (d : Str) :
    ∃ b, (∀ c ∈ b, p c) ∧ d = b ++ d.dropWhile p ∧ ∀ c, (d.dropWhile p).head? = some c → p c = false := by
  refine ⟨d.takeWhile p, fun c hc => mem_takeWhile_imp hc, takeWhile_append_dropWhile.symm, fun c hc => ?_⟩
  have hstop := List.head?_dropWhile_not p d
  rw [hc] at hstop
  simpa using hstop

theorem delim_piece {t₁ t₂ : UInt8} {a y : Str} (ha : ∀ c ∈ a, stops t₁ t₂ c = false)
    (hy : ∀ c, y.head? = some c → stops t₁ t₂ c) : delim t₁ t₂ (a ++ y) = (a, y) := by
  cases y with
  | nil =>
    have hpass : ∀ c ∈ a, (!stops t₁ t₂ c) := fun c hc => by rw [ha c hc]; rfl
    rw [delim_eq, append_nil, takeWhile_eq_self_iff.mpr hpass, dropWhile_eq_nil_iff.mpr hpass]
  | cons c y => exact delim_append ha (hy c rfl) y

theorem exists_piece (t₁ t₂ : UInt8) (d : Str) :
    (∀ c ∈ (delim t₁ t₂ d).1, stops t₁ t₂ c = false) ∧ d = (delim t₁ t₂ d).1 ++ (delim t₁ t₂ d).2 ∧
      ∀ c, (delim t₁ t₂ d).2.head? = some c → stops t₁ t₂ c = true := by
  refine ⟨fun c hc => mem_delim hc, ?_, fun c hc => ?_⟩
  · rw [delim_eq]
    exact takeWhile_append_dropWhile.symm
  · rw [delim_eq] at hc
    have hstop := List.head?_dropWhile_not (fun c => !stops t₁ t₂ c) d
    rw [hc] at hstop
    simpa using hstop

variable {d r : Str} {x : UInt8} {proto : Str} {sl : StartLine}

theorem expect_eq_ok {c : UInt8} : expect c d = .ok r ↔ d = c :: r := by
  cases d with
  | nil =>
    constructor
    · intro h
      cases h
    · intro h
      cases h
  | cons x d =>
    by_cases hx : x = c
    · rw [expect, if_pos hx, hx]
      simp
    · rw [expect, if_neg hx]
      simp [hx]

theorem putNul_eq_ok : putNul d = .ok r ↔ ∃ x, d = x :: r := by
  cases d with
  | nil => simp [putNul]
  | cons x d => simp [putNul]

theorem bind_eq_error {ε α β : Type} {x : Except ε α} {f : α → Except ε β} {e : ε} :
    (x >>= f) = .error e ↔ x = .error e ∨ ∃ a, x = .ok a ∧ f a = .error e := by
  cases x with
  | error e' =>
    constructor
    · intro h
      cases h
      exact .inl rfl
    · rintro (h | ⟨a, h, _⟩)
      · cases h
        rfl
      · cases h
  | ok a =>
    constructor
    · intro h
      exact .inr ⟨a, rfl, h⟩
    · rintro (h | ⟨b, h, hb⟩)
      · cases h
      · cases h
        exact hb

/-- The `CR` that may stand in front of a line or of its `LF`. -/
def crText : Bool → Str
  | true => [13]
  | false => []

theorem skipCr_crText (cr : Bool) {x : Str} (hx : x.head? ≠ some 13) : skipCr (crText cr ++ x) = x := by
  cases cr with
  | true => rfl
  | false =>
    cases x with
    | nil => rfl
    | cons c x =>
      refine skipCr_cons (fun h => hx ?_) x
      rw [h]
      rfl

theorem exists_crText (d : Str) : ∃ cr, d = crText cr ++ skipCr d := by
  unfold skipCr
  split
  · exact ⟨true, rfl⟩
  · exact ⟨false, rfl⟩

/-! ## Header lines -/

structure HeaderLine where
  cr : Bool
  name : Str
  blanks : Str
  pad : Str
  value : Str
  /-- the byte that is overwritten -/
  stop : UInt8
  name_ok : ∀ c ∈ name, stops 32 58 c = false
  name_head : name.head? ≠ some 9
  blanks_ok : ∀ c ∈ blanks, (c == 32) = true
  blanks_name : name = [] → blanks = []
  pad_ok : ∀ c ∈ pad, (c == 32 || c == 9) = true
  value_ok : ∀ c ∈ value, stops 0 0 c = false
  value_head : ∀ c, value.head? = some c → (c == 32 || c == 9) = false
  stop_ok : stops 0 0 stop = true

namespace HeaderLine

def body (l : HeaderLine) : Str := l.name ++ (l.blanks ++ 58 :: (l.pad ++ (l.value ++ [l.stop, 10])))

def text (l : HeaderLine) : Str := crText l.cr ++ l.body

theorem body_append (l : HeaderLine) (rest : Str) :
    l.body ++ rest = l.name ++ (l.blanks ++ 58 :: (l.pad ++ (l.value ++ l.stop :: 10 :: rest))) := by
  simp [body]

end HeaderLine

def headerOf (d : Str) : Except ParseStop ((Str × Str) × Str) := do
  let (name, d) := delim 32 58 d
  let d := if d.head? = some 32 then skipBlanks d else d
  let d ← expect 58 d
  let (value, d) := delim 0 0 (d.dropWhile fun c => c == 32 || c == 9)
  let d ← putNul d
  let d ← expect 10 d
  pure ((cstr name, value), d)

def headStart (c : UInt8) : Bool := !(c == 10 || c == 9 || c == 32)

def StartsHeader (d : Str) : Prop := ∃ cr c r, d = crText cr ++ c :: r ∧ headStart c = true ∧ (c = 13 → cr = true)

section

variable {fuel : Nat} {fs : List (Str × Str)} {d d' rest : Str} {c : UInt8}

theorem headStart_iff : headStart c ↔ c ≠ 10 ∧ c ≠ 9 ∧ c ≠ 32 := by
  simp [headStart, and_assoc]

theorem parseHeaders_nil (h : skipCr d = []) : parseHeaders (fuel + 1) fs d = .ok (fs, []) := by
  rw [parseHeaders, h]

theorem parseHeaders_end (h : skipCr d = 10 :: d') : parseHeaders (fuel + 1) fs d = .ok (fs, d') := by
  rw [parseHeaders, h]
  rfl

theorem parseHeaders_continued (h : skipCr d = c :: d') (hc : c = 9 ∨ c = 32) :
    parseHeaders (fuel + 1) fs d = .error .refused := by
  have h10 : c ≠ 10 := by
    rcases hc with rfl | rfl <;> decide
  rw [parseHeaders, h]
  simp [h10, hc]

theorem parseHeaders_full (h : skipCr d = c :: d') (hc : headStart c) (hfs : maxFields ≤ fs.length) :
    parseHeaders (fuel + 1) fs d = .error .fault := by
  obtain ⟨h10, h9, h32⟩ := headStart_iff.mp hc
  rw [parseHeaders, h]
  simp [h10, if_neg (not_or.mpr ⟨h9, h32⟩), hfs]

theorem parseHeaders_header (h : skipCr d = c :: d') (hc : headStart c) (hfs : fs.length < maxFields) :
    parseHeaders (fuel + 1) fs d =
      headerOf (c :: d') >>= fun x => parseHeaders fuel (fs ++ [x.1]) x.2 := by
  obtain ⟨h10, h9, h32⟩ := headStart_iff.mp hc
  rw [parseHeaders, h]
  simp [h10, if_neg (not_or.mpr ⟨h9, h32⟩), if_neg (Nat.not_le.mpr hfs), headerOf]

end

theorem ite_skipBlanks (d : Str) : (if d.head? = some 32 then skipBlanks d else d) = skipBlanks d := by
  split
  · rfl
  · cases d with
    | nil => rfl
    | cons c d =>
      rename_i hc
      exact (dropWhile_cons_of_neg (by simpa using hc)).symm

theorem pad_of_stops (h : stops 0 0 x) : (x == 32 || x == 9) = false := by
  simp only [stops, Bool.or_eq_true, beq_iff_eq] at h
  rcases h with ((rfl | rfl) | rfl) | rfl <;> decide

theorem head_append {p : UInt8 → Bool} {a y : Str} (ha : ∀ c, a.head? = some c → p c = false)
    (hy : ∀ c, y.head? = some c → p c = false) : ∀ c, (a ++ y).head? = some c → p c = false := by
  cases a with
  | nil => exact hy
  | cons x a => exact ha

theorem headerOf_body (l : HeaderLine) (rest : Str) : headerOf (l.body ++ rest) = .ok ((cstr l.name, l.value), rest) := by
  have hstop : ∀ c, (l.stop :: 10 :: rest).head? = some c → stops 0 0 c := fun c hc => by
    cases hc
    exact l.stop_ok
  have hend : ∀ c, (l.blanks ++ 58 :: (l.pad ++ (l.value ++ l.stop :: 10 :: rest))).head? = some c →
      stops 32 58 c := by
    intro c hc
    cases hb : l.blanks with
    | nil =>
      rw [hb] at hc
      cases hc
      decide
    | cons b bs =>
      have hb32 : b = 32 := by simpa using l.blanks_ok b (by rw [hb]; simp)
      rw [hb, hb32] at hc
      cases hc
      decide
  have hcolon : skipBlanks (l.blanks ++ 58 :: (l.pad ++ (l.value ++ l.stop :: 10 :: rest))) =
      58 :: (l.pad ++ (l.value ++ l.stop :: 10 :: rest)) :=
    dropWhile_pad l.blanks_ok fun c hc => by cases hc; decide
  have hvalue : (l.pad ++ (l.value ++ l.stop :: 10 :: rest)).dropWhile (fun c => c == 32 || c == 9) =
      l.value ++ l.stop :: 10 :: rest :=
    dropWhile_pad l.pad_ok (head_append l.value_head fun c hc => by cases hc; exact pad_of_stops l.stop_ok)
  rw [headerOf, l.body_append, delim_piece l.name_ok hend]
  simp only [ite_skipBlanks]
  simp only [hcolon, expect_cons, hvalue, delim_piece l.value_ok hstop, putNul, bind, Except.bind]
  rfl

theorem headerOf_eq_ok {rest : Str} {f : Str × Str} (h : headerOf d = .ok (f, rest))
    (hstart : ∀ c, d.head? = some c → headStart c) (cr : Bool) : ∃ l : HeaderLine, l.cr = cr ∧ d = l.body ++ rest := by
  simp only [headerOf, bind_eq_ok, ite_skipBlanks, expect_eq_ok, putNul_eq_ok] at h
  obtain ⟨d₁, hcolon, d₂, ⟨x, hx⟩, d₃, rfl, hrest⟩ := h
  cases hrest
  obtain ⟨hname, hd, -⟩ := exists_piece 32 58 d
  obtain ⟨b, hb, hblanks, -⟩ := exists_pad (· == 32) (delim 32 58 d).2
  obtain ⟨pad, hpad, hpads, hhead⟩ := exists_pad (fun c => c == 32 || c == 9) d₁
  obtain ⟨hvalue, hv, hstop⟩ := exists_piece 0 0 (d₁.dropWhile fun c => c == 32 || c == 9)
  set name := (delim 32 58 d).1
  set value := (delim 0 0 (d₁.dropWhile fun c => c == 32 || c == 9)).1
  rw [hx] at hv hstop
  rw [hv] at hpads
  rw [show (delim 32 58 d).2.dropWhile (· == 32) = 58 :: d₁ from hcolon, hpads] at hblanks
  rw [hblanks] at hd
  refine ⟨⟨cr, name, b, pad, value, x, hname, ?_, hb, ?_, hpad, hvalue, ?_, hstop x rfl⟩, rfl, ?_⟩
  · intro h9
    have hc : d.head? = some 9 := by
      rw [hd, List.head?_append, h9]
      rfl
    exact absurd (hstart 9 hc) (by decide)
  · intro hnil
    cases hb' : b with
    | nil => rfl
    | cons y bs =>
      have hy : y = 32 := by simpa using hb y (by rw [hb']; simp)
      have hc : d.head? = some 32 := by
        rw [hd, hnil, hb', hy]
        rfl
      exact absurd (hstart 32 hc) (by decide)
  · intro c hc
    refine hhead c ?_
    rw [hv, List.head?_append, hc]
    rfl
  · rw [HeaderLine.body_append]
    exact hd

/-! ## Start lines -/

/-- The end of a start line: the byte that is overwritten, blanks, perhaps a `CR`, and the `LF`. -/
structure LineEnd where
  stop : UInt8
  blanks : Str
  cr : Bool
  stop_ok : stops 0 0 stop = true
  blanks_ok : ∀ c ∈ blanks, (c == 32) = true

def LineEnd.text (e : LineEnd) : Str := e.stop :: (e.blanks ++ (crText e.cr ++ [10]))

structure RequestText where
  method : Str
  blanks₁ : Str
  uri : Str
  blanks₂ : Str
  proto : Str
  eol : LineEnd
  method_ok : ∀ c ∈ method, stops 32 0 c = false
  no_slash : (47 : UInt8) ∉ method
  blanks₁_ok : ∀ c ∈ blanks₁, (c == 32) = true
  uri_ok : ∀ c ∈ uri, stops 32 0 c = false
  uri_ne : uri ≠ []
  blanks₂_ok : ∀ c ∈ blanks₂, (c == 32) = true
  proto_ok : ∀ c ∈ proto, stops 0 0 c = false
  proto_head : ∀ c, proto.head? = some c → (c == 32) = false

structure StatusText where
  proto : Str
  blanks₁ : Str
  a : UInt8
  b : UInt8
  c : UInt8
  blanks₂ : Str
  reason : Str
  eol : LineEnd
  proto_ok : ∀ c ∈ proto, stops 32 0 c = false
  slash : (47 : UInt8) ∈ proto
  blanks₁_ok : ∀ c ∈ blanks₁, (c == 32) = true
  digits : (isDigit a && isDigit b && isDigit c) = true
  blanks₂_ok : ∀ c ∈ blanks₂, (c == 32) = true
  reason_ok : ∀ c ∈ reason, stops 0 0 c = false
  reason_head : ∀ c, reason.head? = some c → (c == 32) = false

inductive StartText
  | req (r : RequestText)
  | stat (s : StatusText)

def RequestText.text (r : RequestText) : Str :=
  r.method ++ 32 :: (r.blanks₁ ++ (r.uri ++ 32 :: (r.blanks₂ ++ (r.proto ++ r.eol.text))))

def StatusText.text (s : StatusText) : Str :=
  s.proto ++ 32 :: (s.blanks₁ ++ s.a :: s.b :: s.c :: 32 :: (s.blanks₂ ++ (s.reason ++ s.eol.text)))

def StartText.text : StartText → Str
  | .req r => r.text
  | .stat s => s.text

def startOf (d : Str) : Except ParseStop (StartLine × Str × Str) :=
  if d.length < 4 then .error .refused
  else match d.find? fun c => c == 32 || c == 47 with
    | none => .error .refused
    | some c =>
      (if c = 47 then parseStatus d else parseRequestLine d) >>= fun x => parseEol x.2.2 >>= fun d => pure (x.1, x.2.1, d)

theorem parsePmsg_eq (d : Str) : parsePmsg d = startOf d >>= fun x => parseHeaders (x.2.2.length + 1) [] x.2.2 >>= fun y =>
      pure (⟨x.1, x.2.1, y.1⟩, y.2) := by
  unfold parsePmsg startOf
  by_cases hlen : d.length < 4
  · rw [if_pos hlen, if_pos hlen]
    rfl
  rw [if_neg hlen, if_neg hlen]
  rcases d.find? (fun c => c == 32 || c == 47) with _ | c
  · rfl
  · dsimp only
    split <;> simp

theorem parseEol_eq_ok {rest : Str} (h : parseEol d = .ok rest) (hx : stops 0 0 x) :
    ∃ e : LineEnd, x :: d = e.text ++ rest := by
  rw [parseEol, expect_eq_ok] at h
  obtain ⟨b, hb, hblanks, -⟩ := exists_pad (· == 32) d
  obtain ⟨cr, hcr⟩ := exists_crText (skipBlanks d)
  rw [h] at hcr
  rw [show d.dropWhile (· == 32) = _ from hcr] at hblanks
  refine ⟨⟨x, b, cr, hx, hb⟩, ?_⟩
  rw [hblanks]
  simp [LineEnd.text]

theorem parseEol_text (e : LineEnd) (rest : Str) : ∃ d, e.text ++ rest = e.stop :: d ∧ parseEol d = .ok rest := by
  refine ⟨e.blanks ++ (crText e.cr ++ 10 :: rest), by simp [LineEnd.text], ?_⟩
  have hblanks : skipBlanks (e.blanks ++ (crText e.cr ++ 10 :: rest)) = crText e.cr ++ 10 :: rest := by
    refine dropWhile_pad e.blanks_ok fun c hc => ?_
    cases hcr : e.cr with
    | true =>
      rw [hcr] at hc
      cases hc
      decide
    | false =>
      rw [hcr] at hc
      cases hc
      decide
  rw [parseEol, hblanks, skipCr_crText _ (by simp), expect_cons]

theorem blank_of_stops (h : stops 0 0 x) : (x == 32) = false := by
  have hpad := pad_of_stops h
  rw [Bool.or_eq_false_iff] at hpad
  exact hpad.1

theorem delim_eol {s : Str} (hs : ∀ c ∈ s, stops 0 0 c = false) (hhead : ∀ c, s.head? = some c → (c == 32) = false)
    {blanks : Str} (hb : ∀ c ∈ blanks, (c == 32)) (e : LineEnd) (rest : Str) :
    ∃ d, delim 0 0 (skipBlanks (blanks ++ (s ++ (e.text ++ rest)))) = (s, e.stop :: d) ∧ parseEol d = .ok rest := by
  obtain ⟨d, htext, heol⟩ := parseEol_text e rest
  refine ⟨d, ?_, heol⟩
  have hskip : skipBlanks (blanks ++ (s ++ (e.text ++ rest))) = s ++ (e.text ++ rest) := by
    refine dropWhile_pad hb (head_append hhead fun c hc => ?_)
    cases hc
    exact blank_of_stops e.stop_ok
  rw [hskip, htext]
  exact delim_append hs e.stop_ok d

theorem blank_of_digit (h : isDigit x) : (x == 32) = false := by
  have : x ≠ 32 := fun hx => by
    rw [hx] at h
    exact absurd h (by decide)
  simpa using this

theorem parseStatus_text (s : StatusText) (rest : Str) :
    ∃ d, parseStatus (s.text ++ rest) = .ok (.stat (digitsVal [s.a, s.b, s.c]) s.reason, s.proto, d) ∧
      parseEol d = .ok rest := by
  obtain ⟨d, hreason, heol⟩ := delim_eol s.reason_ok s.reason_head s.blanks₂_ok s.eol rest
  refine ⟨d, ?_, heol⟩
  have htext : s.text ++ rest = s.proto ++ 32 :: (s.blanks₁ ++ s.a :: s.b :: s.c :: 32 ::
      (s.blanks₂ ++ (s.reason ++ (s.eol.text ++ rest)))) := by
    simp [StatusText.text]
  have hdigits := s.digits
  have hcode : skipBlanks (s.blanks₁ ++ s.a :: s.b :: s.c :: 32 :: (s.blanks₂ ++ (s.reason ++ (s.eol.text ++ rest)))) =
      s.a :: s.b :: s.c :: 32 :: (s.blanks₂ ++ (s.reason ++ (s.eol.text ++ rest))) := by
    refine dropWhile_pad s.blanks₁_ok fun c hc => ?_
    cases hc
    simp only [Bool.and_eq_true] at hdigits
    exact blank_of_digit hdigits.1.1
  rw [htext, parseStatus, delim_append s.proto_ok (by decide)]
  simp only [bind, Except.bind, expect_cons, hcode, hdigits, if_true, hreason, putNul]
  rfl

theorem parseRequestLine_text (r : RequestText) (rest : Str) :
    ∃ d, parseRequestLine (r.text ++ rest) = .ok (.req r.method r.uri, r.proto, d) ∧ parseEol d = .ok rest := by
  obtain ⟨d, hproto, heol⟩ := delim_eol r.proto_ok r.proto_head r.blanks₂_ok r.eol rest
  refine ⟨d, ?_, heol⟩
  have htext : r.text ++ rest = r.method ++ 32 :: (r.blanks₁ ++ (r.uri ++ 32 ::
      (r.blanks₂ ++ (r.proto ++ (r.eol.text ++ rest))))) := by
    simp [RequestText.text]
  have huri : skipBlanks (r.blanks₁ ++ (r.uri ++ 32 :: (r.blanks₂ ++ (r.proto ++ (r.eol.text ++ rest))))) =
      r.uri ++ 32 :: (r.blanks₂ ++ (r.proto ++ (r.eol.text ++ rest))) := by
    refine dropWhile_pad r.blanks₁_ok fun c hc => ?_
    obtain ⟨u, us, hu⟩ := exists_cons_of_ne_nil r.uri_ne
    rw [hu] at hc
    have huc : u = c := Option.some.inj hc
    have hstop := r.uri_ok c (by rw [hu, huc]; simp)
    simp only [stops, Bool.or_eq_false_iff] at hstop
    exact hstop.1.1.1
  rw [htext, parseRequestLine, delim_append r.method_ok (by decide)]
  simp only [bind, Except.bind, expect_cons, huri, delim_append r.uri_ok (show stops 32 0 32 = true by decide), hproto,
    putNul]
  rfl

theorem find_of_slash {s : Str} (hs : ∀ c ∈ s, stops 32 0 c = false) (h : (47 : UInt8) ∈ s) (rest : Str) :
    (s ++ rest).find? (fun c => c == 32 || c == 47) = some 47 := by
  obtain ⟨x, hx⟩ := Option.isSome_iff_exists.mp (List.find?_isSome.mpr ⟨47, h, rfl⟩ :
    (s.find? fun c => c == 32 || c == 47).isSome)
  have hmem := hs x (List.mem_of_find?_eq_some hx)
  have hfound := List.find?_some hx
  simp only [stops, Bool.or_eq_false_iff] at hmem
  rw [hmem.1.1.1, Bool.false_or, beq_iff_eq] at hfound
  rw [List.find?_append, hx, hfound]
  rfl

theorem find_of_no_slash {s : Str} (hs : ∀ c ∈ s, stops 32 0 c = false) (h : (47 : UInt8) ∉ s) (rest : Str) :
    (s ++ 32 :: rest).find? (fun c => c == 32 || c == 47) = some 32 := by
  have hnone : s.find? (fun c => c == 32 || c == 47) = none := by
    refine List.find?_eq_none.mpr fun x hx => ?_
    have hmem := hs x hx
    simp only [stops, Bool.or_eq_false_iff] at hmem
    have h47 : (x == 47) = false := beq_false_of_ne fun heq => h (heq ▸ hx)
    rw [hmem.1.1.1, h47]
    exact Bool.false_ne_true
  rw [List.find?_append, hnone]
  rfl

theorem LineEnd.length_text (e : LineEnd) : 2 ≤ e.text.length := by
  simp only [LineEnd.text, length_cons, length_append, length_nil]
  omega

theorem startOf_request (r : RequestText) (rest : Str) :
    startOf (r.text ++ rest) = .ok (.req r.method r.uri, r.proto, rest) := by
  obtain ⟨d, hline, heol⟩ := parseRequestLine_text r rest
  have hlen : ¬ (r.text ++ rest).length < 4 := by
    have heol := r.eol.length_text
    simp only [RequestText.text, length_append, length_cons]
    omega
  have hfind : (r.text ++ rest).find? (fun c => c == 32 || c == 47) = some 32 := by
    rw [RequestText.text, append_assoc, cons_append, find_of_no_slash r.method_ok r.no_slash]
  rw [startOf, if_neg hlen, hfind]
  rw [hline]
  show (parseEol d >>= _) = _
  rw [heol]
  rfl

theorem startOf_text (t : StartText) (rest : Str) : ∃ sl proto, startOf (t.text ++ rest) = .ok (sl, proto, rest) := by
  cases t with
  | req r => exact ⟨_, _, startOf_request r rest⟩
  | stat s =>
    obtain ⟨d, hline, heol⟩ := parseStatus_text s rest
    refine ⟨.stat (digitsVal [s.a, s.b, s.c]) s.reason, s.proto, ?_⟩
    have hlen : ¬ (s.text ++ rest).length < 4 := by
      simp only [StatusText.text, length_append, length_cons]
      omega
    have hfind : (s.text ++ rest).find? (fun c => c == 32 || c == 47) = some 47 := by
      rw [StatusText.text, append_assoc, find_of_slash s.proto_ok s.slash]
    show startOf (s.text ++ rest) = _
    rw [startOf, if_neg hlen, hfind]
    rw [hline]
    show (parseEol d >>= _) = _
    rw [heol]
    rfl

theorem exists_last {rest : Str} (hput : putNul (delim 0 0 (skipBlanks d)).2 = .ok r) (heol : parseEol r = .ok rest) :
    ∃ (blanks s : Str) (e : LineEnd), (∀ c ∈ blanks, (c == 32)) ∧ (∀ c ∈ s, stops 0 0 c = false) ∧
      (∀ c, s.head? = some c → (c == 32) = false) ∧ d = blanks ++ (s ++ (e.text ++ rest)) := by
  obtain ⟨x, hx⟩ := putNul_eq_ok.mp hput
  obtain ⟨b, hb, hblanks, hhead⟩ := exists_pad (· == 32) d
  obtain ⟨hs, hsplit, hstop⟩ := exists_piece 0 0 (skipBlanks d)
  rw [hx] at hsplit hstop
  obtain ⟨e, he⟩ := parseEol_eq_ok heol (hstop x rfl)
  rw [he] at hsplit
  refine ⟨b, _, e, hb, hs, fun c hc => hhead c ?_, ?_⟩
  · rw [show d.dropWhile (· == 32) = _ from hsplit, List.head?_append, hc]
    rfl
  · rw [← hsplit]
    exact hblanks

theorem exists_requestText {rest : Str} (h : parseRequestLine d = .ok (sl, proto, r))
    (heol : parseEol r = .ok rest) (hfind : d.find? (fun c => c == 32 || c == 47) ≠ some 47) :
    ∃ t : RequestText, d = t.text ++ rest := by
  simp only [parseRequestLine, bind_eq_ok, expect_eq_ok] at h
  obtain ⟨d₁, h₁, d₂, h₂, d₃, h₃, hr⟩ := h
  cases hr
  obtain ⟨blanks₂, p, e, hb₂, hp, hphead, hlast⟩ := exists_last h₃ heol
  obtain ⟨hmethod, hd, -⟩ := exists_piece 32 0 d
  obtain ⟨b₁, hb₁, hblanks₁, hhead⟩ := exists_pad (· == 32) d₁
  obtain ⟨huri, hu, -⟩ := exists_piece 32 0 (skipBlanks d₁)
  set method := (delim 32 0 d).1
  set uri := (delim 32 0 (skipBlanks d₁)).1
  rw [h₂, hlast] at hu
  rw [show d₁.dropWhile (· == 32) = _ from hu] at hblanks₁ hhead
  rw [h₁, hblanks₁] at hd
  have hslash : (47 : UInt8) ∉ method := fun hslash => by
    rw [hd, find_of_slash hmethod hslash] at hfind
    exact hfind rfl
  have hne : uri ≠ [] := fun hnil => by
    rw [hnil] at hhead
    exact absurd (hhead 32 (by simp)) (by decide)
  refine ⟨⟨method, b₁, uri, blanks₂, p, e, hmethod, hslash, hb₁, huri, hne, hb₂, hp, hphead⟩, hd.trans ?_⟩
  simp [RequestText.text]

theorem exists_statusText {rest : Str} (h : parseStatus d = .ok (sl, proto, r))
    (heol : parseEol r = .ok rest) (hfind : d.find? (fun c => c == 32 || c == 47) = some 47) :
    ∃ t : StatusText, d = t.text ++ rest := by
  obtain ⟨hproto, hd, -⟩ := exists_piece 32 0 d
  unfold parseStatus at h
  rcases hrest : delim 32 0 d with ⟨p, r₀⟩
  rw [hrest] at h hproto hd
  cases r₀ with
  | nil => cases h
  | cons x r₁ =>
    dsimp only at h
    rw [bind_eq_ok] at h
    obtain ⟨d₁, h₁, h⟩ := h
    rw [expect_eq_ok] at h₁
    split at h
    · rename_i a b c r₂ hcode
      split at h
      · rename_i hdigits
        rw [bind_eq_ok] at h
        obtain ⟨d₂, h₂, h⟩ := h
        cases h
        obtain ⟨blanks₂, reason, e, hb₂, hreason, hhead, hlast⟩ := exists_last h₂ heol
        obtain ⟨b₁, hb₁, hblanks₁, -⟩ := exists_pad (· == 32) d₁
        rw [show d₁.dropWhile (· == 32) = _ from hcode, hlast] at hblanks₁
        rw [h₁, hblanks₁] at hd
        have hslash : (47 : UInt8) ∈ proto := by
          by_contra hslash
          rw [hd, find_of_no_slash hproto hslash] at hfind
          exact absurd hfind (by decide)
        refine ⟨⟨proto, b₁, a, b, c, blanks₂, reason, e, hproto, hslash, hb₁, hdigits, hb₂, hreason, hhead⟩,
          hd.trans ?_⟩
        simp [StatusText.text]
      · cases h
    · cases h

theorem startOf_eq_ok {rest : Str} (h : startOf d = .ok (sl, proto, rest)) : ∃ t : StartText, d = t.text ++ rest := by
  unfold startOf at h
  split at h
  · cases h
  split at h
  · cases h
  · rename_i c hfind
    rw [bind_eq_ok] at h
    obtain ⟨⟨sl', proto', r⟩, hline, h⟩ := h
    rw [bind_eq_ok] at h
    obtain ⟨rest', heol, h⟩ := h
    cases h
    by_cases hc : c = 47
    · rw [if_pos hc] at hline
      obtain ⟨t, ht⟩ := exists_statusText hline heol (by rw [hfind, hc])
      exact ⟨.stat t, ht⟩
    · rw [if_neg hc] at hline
      obtain ⟨t, ht⟩ := exists_requestText hline heol (by rw [hfind]; simpa using hc)
      exact ⟨.req t, ht⟩

end NuWicam.Rtsp
