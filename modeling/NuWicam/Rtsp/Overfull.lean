import NuWicam.Rtsp.Grammar
import NuWicam.Rtsp.Reader

/-!
# Buffers with a blank line

A line that the parser takes leaves the first blank line whole, or goes up to its middle (`Ahead.after`); so no piece runs to
the end of the buffer, and there is one way left to leave the memory: a header line after the 32 that `fields` has room for
(`parsePmsg_fault_iff`).
-/

namespace NuWicam.Rtsp

open Lib List

/-! ## Pieces end before the end of the buffer -/

theorem expect_ne_fault (c : UInt8) (d : Str) : expect c d ≠ .error .fault := by
  cases d with
  | nil =>
    intro h
    cases h
  | cons x d =>
    rw [expect]
    split
    · intro h
      cases h
    · intro h
      cases h

variable {d : Str} (l : HeaderLine)

theorem putNul_ne_fault (h : (13 : UInt8) ∈ d) : ∃ r, putNul (delim 0 0 d).2 = .ok r := by
  obtain ⟨hpiece, hsplit, -⟩ := exists_piece 0 0 d
  rcases hr : (delim 0 0 d).2 with _ | ⟨x, r⟩
  · rw [hr, append_nil] at hsplit
    rw [hsplit] at h
    exact absurd (hpiece 13 h) (by decide)
  · exact ⟨r, rfl⟩

theorem headerOf_ne_fault (h : (13 : UInt8) ∈ d) : headerOf d ≠ .error .fault := by
  intro hfault
  simp only [headerOf, bind_eq_error, ite_skipBlanks] at hfault
  obtain hcolon | ⟨d₁, hcolon, hfault⟩ := hfault
  · exact expect_ne_fault _ _ hcolon
  rw [expect_eq_ok] at hcolon
  -- the `CR` is behind the colon
  have hmem : (13 : UInt8) ∈ d₁.dropWhile fun c => c == 32 || c == 9 := by
    obtain ⟨hname, hd, -⟩ := exists_piece 32 58 d
    obtain ⟨b, hb, hblanks, -⟩ := exists_pad (· == 32) (delim 32 58 d).2
    obtain ⟨pad, hpad, hpads, -⟩ := exists_pad (fun c => c == 32 || c == 9) d₁
    rw [show (delim 32 58 d).2.dropWhile (· == 32) = 58 :: d₁ from hcolon, hpads] at hblanks
    rw [hblanks] at hd
    rw [hd, mem_append, mem_append, mem_cons, mem_append] at h
    rcases h with h | h | h | h | h
    · exact absurd (hname 13 h) (by decide)
    · exact absurd (hb 13 h) (by decide)
    · exact absurd h (by decide)
    · exact absurd (hpad 13 h) (by decide)
    · exact h
  obtain ⟨r, hr⟩ := putNul_ne_fault hmem
  rw [hr] at hfault
  obtain hput | ⟨d₂, -, hlf | ⟨d₃, -, hok⟩⟩ := hfault
  · cases hput
  · exact expect_ne_fault _ _ hlf
  · cases hok

theorem cr_mem_after {t₁ t₂ c : UInt8} {r : Str} (h : (13 : UInt8) ∈ d) (hc : c ≠ 13) (hr : (delim t₁ t₂ d).2 = c :: r) :
    (13 : UInt8) ∈ r := by
  obtain ⟨hpiece, hd, -⟩ := exists_piece t₁ t₂ d
  rw [hd, hr, mem_append, mem_cons] at h
  rcases h with h | h | h
  · have hstop := hpiece 13 h
    simp [stops] at hstop
  · exact absurd h.symm hc
  · exact h

theorem cr_mem_skipBlanks (h : (13 : UInt8) ∈ d) : (13 : UInt8) ∈ skipBlanks d := by
  obtain ⟨b, hb, hblanks, -⟩ := exists_pad (· == 32) d
  rw [hblanks, mem_append] at h
  rcases h with h | h
  · exact absurd (hb 13 h) (by decide)
  · exact h

theorem parseRequestLine_ne_fault (h : (13 : UInt8) ∈ d) : parseRequestLine d ≠ .error .fault := by
  intro hfault
  simp only [parseRequestLine, bind_eq_error, expect_eq_ok] at hfault
  obtain h₁ | ⟨d₁, h₁, h₂ | ⟨d₂, h₂, hfault⟩⟩ := hfault
  · exact expect_ne_fault _ _ h₁
  · exact expect_ne_fault _ _ h₂
  have hmem : (13 : UInt8) ∈ d₂ :=
    cr_mem_after (cr_mem_skipBlanks (cr_mem_after h (by decide) h₁)) (by decide) h₂
  obtain ⟨r, hr⟩ := putNul_ne_fault (cr_mem_skipBlanks hmem)
  rw [hr] at hfault
  obtain hput | ⟨d₃, -, hok⟩ := hfault
  · cases hput
  · cases hok

theorem parseStatus_ne_fault (h : (13 : UInt8) ∈ d) : parseStatus d ≠ .error .fault := by
  intro hfault
  have hafter : ∀ c r, c ≠ 13 → (delim 32 0 d).2 = c :: r → (13 : UInt8) ∈ r := fun c r => cr_mem_after h
  obtain ⟨hproto, hd, -⟩ := exists_piece 32 0 d
  unfold parseStatus at hfault
  rcases hrest : delim 32 0 d with ⟨p, r₀⟩
  rw [hrest] at hfault hproto hd hafter
  cases r₀ with
  | nil =>
    rw [append_nil] at hd
    rw [hd] at h
    exact absurd (hproto 13 h) (by decide)
  | cons x r₁ =>
    dsimp only at hfault
    rw [bind_eq_error] at hfault
    obtain h₁ | ⟨d₁, h₁, hfault⟩ := hfault
    · exact expect_ne_fault _ _ h₁
    rw [expect_eq_ok] at h₁
    have hmem : (13 : UInt8) ∈ skipBlanks d₁ := cr_mem_skipBlanks (hafter 32 d₁ (by decide) h₁)
    split at hfault
    · rename_i a b c r₂ hcode
      split at hfault
      · rename_i hdigits
        -- the `CR` is not one of the digits
        have hmem₂ : (13 : UInt8) ∈ r₂ := by
          rw [hcode] at hmem
          simp only [Bool.and_eq_true] at hdigits
          have hne : ∀ x : UInt8, isDigit x → (13 : UInt8) ≠ x := fun x hx heq => by
            rw [← heq] at hx
            exact absurd hx (by decide)
          simpa [hne a hdigits.1.1, hne b hdigits.1.2, hne c hdigits.2] using hmem
        obtain ⟨r, hr⟩ := putNul_ne_fault (cr_mem_skipBlanks hmem₂)
        rw [hr, bind_eq_error] at hfault
        obtain hput | ⟨d₃, -, hok⟩ := hfault
        · cases hput
        · cases hok
      · cases hfault
    · cases hfault

theorem startOf_ne_fault (h : (13 : UInt8) ∈ d) : startOf d ≠ .error .fault := by
  intro hfault
  unfold startOf at hfault
  split at hfault
  · cases hfault
  split at hfault
  · cases hfault
  · simp only [bind_eq_error] at hfault
    obtain hline | ⟨x, -, heol | ⟨r, -, hok⟩⟩ := hfault
    · split at hline
      · exact parseStatus_ne_fault h hline
      · exact parseRequestLine_ne_fault h hline
    · exact expect_ne_fault _ _ heol
    · cases hok

/-! ## The blank line ahead -/

def isEol (c : UInt8) : Bool := c == 13 || c == 10

def Ahead (d : Str) : Prop := crlfcrlf <:+: d ∨ [13, 10] <+: d

theorem Ahead.after {t rest : Str} (hlast : t.getLast? = some 10) (hfew : t.countP isEol ≤ 3)
    (h : crlfcrlf <:+: t ++ rest) : Ahead rest := by
  obtain ⟨a, b, hab⟩ := h
  rw [append_assoc, append_eq_append_iff] at hab
  obtain ⟨m, ht, hm⟩ | ⟨m, ha, hrest⟩ := hab
  · -- the text ends inside of the blank line
    match m, ht, hm with
    | [], _, hm => exact .inl ⟨[], b, hm⟩
    | [x], ht, hm =>
      cases hm
      rw [ht, List.getLast?_concat] at hlast
      exact absurd hlast (by decide)
    | [x, y], _, hm =>
      cases hm
      exact .inr ⟨b, rfl⟩
    | [x, y, z], ht, hm =>
      cases hm
      rw [ht, show a ++ [13, 10, 13] = (a ++ [13, 10]) ++ [13] by simp, List.getLast?_concat] at hlast
      exact absurd hlast (by decide)
    | x :: y :: z :: w :: m, ht, hm =>
      cases hm
      rw [ht, countP_append] at hfew
      have hfour : 4 ≤ List.countP isEol (13 :: 10 :: 13 :: 10 :: m) := by
        simp only [countP_cons, isEol]
        have : ∀ n, 4 ≤ n + 4 := fun n => by omega
        exact this _
      omega
  · exact .inl ⟨m, b, by rw [hrest, append_assoc]⟩

theorem countP_isEol_eq_zero {t₁ t₂ : UInt8} {s : Str} (h : ∀ c ∈ s, stops t₁ t₂ c = false) : s.countP isEol = 0 := by
  refine countP_eq_zero.mpr fun c hc => ?_
  have hstop := h c hc
  simp only [stops, Bool.or_eq_false_iff] at hstop
  simp [isEol, hstop.1.2, hstop.2]

theorem countP_isEol_pad {s : Str} (h : ∀ c ∈ s, (c == 32 || c == 9)) : s.countP isEol = 0 := by
  refine countP_eq_zero.mpr fun c hc => ?_
  have hpad := h c hc
  simp only [Bool.or_eq_true, beq_iff_eq] at hpad
  rcases hpad with rfl | rfl <;> decide

theorem countP_isEol_blanks {s : Str} (h : ∀ c ∈ s, (c == 32)) : s.countP isEol = 0 :=
  countP_isEol_pad fun c hc => by rw [h c hc, Bool.true_or]

theorem countP_isEol_crText (cr : Bool) : (crText cr).countP isEol ≤ 1 := by
  cases cr <;> decide

theorem countP_isEol_cons (x : UInt8) (s : Str) : (x :: s).countP isEol ≤ s.countP isEol + 1 := by
  rw [countP_cons]
  split <;> omega

theorem HeaderLine.text_few : l.text.countP isEol ≤ 3 := by
  have hcr := countP_isEol_crText l.cr
  have hstop := countP_isEol_cons l.stop [10]
  have hlf : List.countP isEol [10] = 1 := by decide
  simp only [HeaderLine.text, HeaderLine.body, countP_append, countP_isEol_eq_zero l.name_ok,
    countP_isEol_blanks l.blanks_ok, countP_isEol_pad l.pad_ok, countP_isEol_eq_zero l.value_ok,
    countP_cons_of_neg (show ¬ isEol 58 = true by decide)]
  omega

theorem HeaderLine.text_last : l.text.getLast? = some 10 := by
  have hsplit : l.text = (crText l.cr ++ (l.name ++ (l.blanks ++ 58 :: (l.pad ++ (l.value ++ [l.stop]))))) ++ [10] := by
    simp [HeaderLine.text, HeaderLine.body]
  rw [hsplit, List.getLast?_concat]

theorem LineEnd.text_few (e : LineEnd) : e.text.countP isEol ≤ 3 := by
  have hcr := countP_isEol_crText e.cr
  have hstop := countP_isEol_cons e.stop (e.blanks ++ (crText e.cr ++ [10]))
  have hlf : List.countP isEol [10] = 1 := by decide
  simp only [countP_append, countP_isEol_blanks e.blanks_ok] at hstop
  rw [LineEnd.text]
  omega

theorem StartText.text_few (t : StartText) : t.text.countP isEol ≤ 3 := by
  cases t with
  | req r =>
    simpa only [StartText.text, RequestText.text, countP_append, countP_isEol_eq_zero r.method_ok,
      countP_isEol_blanks r.blanks₁_ok, countP_isEol_eq_zero r.uri_ok, countP_isEol_blanks r.blanks₂_ok,
      countP_isEol_eq_zero r.proto_ok, countP_cons_of_neg (show ¬ isEol 32 = true by decide), Nat.zero_add]
      using r.eol.text_few
  | stat s =>
    have hdigit : ∀ {x : UInt8}, isDigit x → ¬ isEol x := fun {x} hx heol => by
      simp only [isEol, Bool.or_eq_true, beq_iff_eq] at heol
      rcases heol with rfl | rfl <;> exact absurd hx (by decide)
    have hdigits := s.digits
    simp only [Bool.and_eq_true] at hdigits
    simpa only [StartText.text, StatusText.text, countP_append, countP_isEol_eq_zero s.proto_ok,
      countP_isEol_blanks s.blanks₁_ok, countP_isEol_blanks s.blanks₂_ok, countP_isEol_eq_zero s.reason_ok,
      countP_cons_of_neg (show ¬ isEol 32 = true by decide), countP_cons_of_neg (hdigit hdigits.1.1),
      countP_cons_of_neg (hdigit hdigits.1.2), countP_cons_of_neg (hdigit hdigits.2), Nat.zero_add]
      using s.eol.text_few

theorem LineEnd.exists_text (e : LineEnd) : ∃ s, e.text = s ++ [10] :=
  ⟨e.stop :: (e.blanks ++ crText e.cr), by simp [LineEnd.text]⟩

theorem StartText.text_last (t : StartText) : t.text.getLast? = some 10 := by
  cases t with
  | req r =>
    obtain ⟨s, hs⟩ := r.eol.exists_text
    have hsplit : r.text = (r.method ++ 32 :: (r.blanks₁ ++ (r.uri ++ 32 :: (r.blanks₂ ++ (r.proto ++ s))))) ++ [10] := by
      simp [RequestText.text, hs]
    rw [StartText.text, hsplit, List.getLast?_concat]
  | stat t =>
    obtain ⟨s, hs⟩ := t.eol.exists_text
    have hsplit : t.text = (t.proto ++ 32 :: (t.blanks₁ ++ t.a :: t.b :: t.c :: 32 :: (t.blanks₂ ++ (t.reason ++ s)))) ++
        [10] := by
      simp [StatusText.text, hs]
    rw [StartText.text, hsplit, List.getLast?_concat]

/-! ## More headers than there is room for -/

theorem StartsHeader.skipCr (h : StartsHeader d) : ∃ c r, skipCr d = c :: r ∧ headStart c = true := by
  obtain ⟨cr, c, r, rfl, hc, h13⟩ := h
  refine ⟨c, r, ?_, hc⟩
  cases cr with
  | true => rfl
  | false => exact skipCr_cons (fun h => Bool.false_ne_true (h13 h)) r

theorem startsHeader_of_skipCr {r : Str} {c : UInt8} (h : skipCr d = c :: r) (hc : headStart c) : StartsHeader d := by
  unfold Rtsp.skipCr at h
  split at h
  · exact ⟨true, c, r, by rw [h]; rfl, hc, fun _ => rfl⟩
  · rename_i hcr
    refine ⟨false, c, r, h, hc, fun h13 => ?_⟩
    rw [h13] at h
    exact absurd h (hcr r)

def Overfull (d : Str) : Prop :=
  ∃ (t : StartText) (ls : List HeaderLine) (rest : Str),
    ls.length = maxFields ∧ d = t.text ++ (ls.flatMap HeaderLine.text ++ rest) ∧ StartsHeader rest

section

variable {fuel : Nat} {fs : List (Str × Str)} {d rest : Str}

theorem Ahead.cr_mem (h : Ahead d) {c : UInt8} {r : Str} (hskip : skipCr d = c :: r) (hc : headStart c) :
    crlfcrlf <:+: d ∧ (13 : UInt8) ∈ c :: r := by
  obtain hwhole | ⟨b, rfl⟩ := h
  · refine ⟨hwhole, ?_⟩
    obtain ⟨cr, hd⟩ := exists_crText d
    have hcount : 2 ≤ List.count 13 d := hwhole.sublist.count_le 13
    rw [hd, hskip, count_append] at hcount
    have hcr : List.count 13 (crText cr) ≤ 1 := by cases cr <;> decide
    exact count_pos_iff.mp (by omega)
  · cases hskip
    exact absurd hc (by decide)

theorem Ahead.header (h : Ahead d) {c : UInt8} {r : Str} (hskip : skipCr d = c :: r) (hc : headStart c)
    {f : Str × Str} (hok : headerOf (c :: r) = .ok (f, rest)) : ∃ l : HeaderLine, d = l.text ++ rest ∧ Ahead rest := by
  obtain ⟨cr, hd⟩ := exists_crText d
  obtain ⟨l, hcr, hbody⟩ := headerOf_eq_ok hok (fun x hx => by cases hx; exact hc) cr
  have htext : d = l.text ++ rest := by
    rw [HeaderLine.text, hcr, append_assoc, ← hbody, ← hskip]
    exact hd
  refine ⟨l, htext, ?_⟩
  have hblank := (h.cr_mem hskip hc).1
  rw [htext] at hblank
  exact Ahead.after l.text_last l.text_few hblank

theorem HeaderLine.skipCr_text (l : HeaderLine) (rest : Str) : skipCr (l.text ++ rest) = l.body ++ rest := by
  rw [HeaderLine.text, append_assoc]
  refine skipCr_crText l.cr fun h => ?_
  rw [l.body_append] at h
  cases hn : l.name with
  | nil =>
    rw [hn, l.blanks_name hn] at h
    cases h
  | cons x n =>
    rw [hn] at h
    have hx : x = 13 := Option.some.inj h
    have hstop := l.name_ok x (by rw [hn]; simp)
    rw [hx] at hstop
    exact absurd hstop (by decide)

theorem HeaderLine.exists_body (l : HeaderLine) (rest : Str) : ∃ c r, l.body ++ rest = c :: r ∧ headStart c = true := by
  rw [l.body_append]
  cases hn : l.name with
  | nil =>
    rw [l.blanks_name hn]
    exact ⟨58, _, rfl, by decide⟩
  | cons x n =>
    refine ⟨x, _, rfl, headStart_iff.mpr ?_⟩
    have hstop := l.name_ok x (by rw [hn]; simp)
    have h9 := l.name_head
    rw [hn] at h9
    refine ⟨?_, fun h => h9 (by rw [h]; rfl), ?_⟩
    · rintro rfl
      exact absurd hstop (by decide)
    · rintro rfl
      exact absurd hstop (by decide)

theorem parseHeaders_text (l : HeaderLine) (hfs : fs.length < maxFields) :
    parseHeaders (fuel + 1) fs (l.text ++ rest) = parseHeaders fuel (fs ++ [(cstr l.name, l.value)]) rest := by
  obtain ⟨c, r, hbody, hc⟩ := l.exists_body rest
  rw [parseHeaders_header ((l.skipCr_text rest).trans hbody) hc hfs, ← hbody, headerOf_body]
  rfl

theorem parseHeaders_overfull (hrest : StartsHeader rest) : ∀ (ls : List HeaderLine) (fuel : Nat) (fs : List (Str × Str)),
    ls.length + fs.length = maxFields → ls.length < fuel →
      parseHeaders fuel fs (ls.flatMap HeaderLine.text ++ rest) = .error .fault
  | [], fuel + 1, fs, hlen, _ => by
    obtain ⟨c, r, hskip, hc⟩ := hrest.skipCr
    rw [length_nil, Nat.zero_add] at hlen
    exact parseHeaders_full hskip hc (by omega)
  | l :: ls, fuel + 1, fs, hlen, hfuel => by
    rw [length_cons] at hlen hfuel
    have ih := parseHeaders_overfull hrest ls fuel (fs ++ [(cstr l.name, l.value)])
      (by rw [length_append, length_singleton]; omega) (by omega)
    rw [flatMap_cons, append_assoc, parseHeaders_text l (by omega)]
    exact ih

theorem overfull_of_parseHeaders : ∀ {fuel : Nat} {fs : List (Str × Str)} {d : Str}, Ahead d → fs.length ≤ maxFields →
    parseHeaders fuel fs d = .error .fault →
      ∃ (ls : List HeaderLine) (rest : Str), ls.length + fs.length = maxFields ∧
        d = ls.flatMap HeaderLine.text ++ rest ∧ StartsHeader rest
  | 0, _, _, _, _, h => by cases h
  | fuel + 1, fs, d, hahead, hlen, h => by
    cases hskip : skipCr d with
    | nil =>
      rw [parseHeaders_nil hskip] at h
      cases h
    | cons c r =>
      by_cases h10 : c = 10
      · rw [h10] at hskip
        rw [parseHeaders_end hskip] at h
        cases h
      by_cases hcont : c = 9 ∨ c = 32
      · rw [parseHeaders_continued hskip hcont] at h
        cases h
      have hc : headStart c := headStart_iff.mpr ⟨h10, not_or.mp hcont⟩
      by_cases hfs : maxFields ≤ fs.length
      · exact ⟨[], d, by rw [length_nil]; omega, rfl, startsHeader_of_skipCr hskip hc⟩
      rw [parseHeaders_header hskip hc (Nat.not_le.mp hfs), bind_eq_error] at h
      obtain hfault | ⟨⟨f, r'⟩, hok, h⟩ := h
      · exact absurd hfault (headerOf_ne_fault (hahead.cr_mem hskip hc).2)
      obtain ⟨l, htext, hahead'⟩ := hahead.header hskip hc hok
      obtain ⟨ls, rest, hls, hr, hstart⟩ := overfull_of_parseHeaders hahead'
        (by rw [length_append, length_singleton]; omega) h
      rw [length_append, length_singleton] at hls
      refine ⟨l :: ls, rest, by rw [length_cons]; omega, ?_, hstart⟩
      rw [htext, hr, flatMap_cons, append_assoc]

end

theorem HeaderLine.text_ne : l.text ≠ [] := fun h => by
  have hlast := l.text_last
  rw [h] at hlast
  cases hlast

theorem length_le_flatMap : ∀ ls : List HeaderLine, ls.length ≤ (ls.flatMap HeaderLine.text).length
  | [] => Nat.le_refl _
  | l :: ls => by
    have hpos := length_pos_iff.mpr l.text_ne
    have ih := length_le_flatMap ls
    rw [length_cons, flatMap_cons, length_append]
    omega

theorem parsePmsg_fault_iff (h : crlfcrlf <:+: d) : parsePmsg d = .error .fault ↔ Overfull d := by
  rw [parsePmsg_eq]
  constructor
  · intro hfault
    rw [bind_eq_error] at hfault
    obtain hfault | ⟨⟨sl, proto, r⟩, hstart, hfault⟩ := hfault
    · exact absurd hfault (startOf_ne_fault (h.subset (by decide)))
    obtain ⟨t, ht⟩ := startOf_eq_ok hstart
    rw [ht] at h
    rw [bind_eq_error] at hfault
    obtain hfault | ⟨y, -, hok⟩ := hfault
    · obtain ⟨ls, rest, hls, hr, hrest⟩ :=
        overfull_of_parseHeaders (Ahead.after t.text_last t.text_few h) (Nat.zero_le _) hfault
      exact ⟨t, ls, rest, hls, by rw [ht, hr], hrest⟩
    · cases hok
  · rintro ⟨t, ls, rest, hls, rfl, hrest⟩
    obtain ⟨sl, proto, hstart⟩ := startOf_text t (ls.flatMap HeaderLine.text ++ rest)
    have hheaders := parseHeaders_overfull hrest ls ((ls.flatMap HeaderLine.text ++ rest).length + 1) []
      hls (by have := length_le_flatMap ls; rw [length_append]; omega)
    rw [hstart]
    show (parseHeaders _ [] _ >>= _) = _
    rw [hheaders]
    rfl

end NuWicam.Rtsp
