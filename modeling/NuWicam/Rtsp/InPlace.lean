import NuWicam.Rtsp.Checked
import NuWicam.Rtsp.Grammar
import NuWicam.Rtsp.Reader
import Mathlib.Data.List.Forall2

/-!
# The parser over its memory and over the bytes ahead (`pmsg.c`), and what `handle_request` reads (`tcp.c`)

`parsePmsgChecked_alike`: in its memory the parser does what `parsePmsg` says of the bytes ahead. `handle_request` reads
`sl.req` of whatever was accepted (`requests_only_iff`).
-/

namespace NuWicam.Rtsp

open Lib List

/-! ## One step

Every step keeps `d.drop i` equal to the bytes that `parsePmsg` has ahead of it, and leaves the strings before `i` alone.
-/

/-- What `parsePmsg` makes of it. -/
def Halt.stop : Halt → ParseStop
  | .refused => .refused
  | .outside | .overfull | .endless => .fault

abbrev Follows {α β : Type} (R : α → β → Prop) (x : Except Halt α) (y : Except ParseStop β) : Prop := Alike Halt.stop R x y

/-- Where the bytes ahead are not left, the parser returns `-1` or goes on with them. -/
theorem refused_or_ok {α β : Type} {R : α → β → Prop} {x : Except Halt α} {y : Except ParseStop β} (h : Follows R x y)
    (hy : y ≠ .error .fault) : x = .error .refused ∨ ∃ a b, x = .ok a ∧ y = .ok b ∧ R a b := by
  cases hx : x with
  | error e =>
    rw [h.of_error hx] at hy
    cases e with
    | refused => exact .inl rfl
    | outside => exact absurd rfl hy
    | overfull => exact absurd rfl hy
    | endless => exact absurd rfl hy
  | ok a =>
    obtain ⟨b, hb, hab⟩ := h.of_ok hx
    exact .inr ⟨a, b, rfl, hb, hab⟩

/-- The strings cut so far are still there. -/
def Moves (d : Str) (i : Nat) (d' : Str) (i' : Nat) : Prop := ∀ q s, StrAt d i q s → StrAt d' i' q s

section

variable {d d' d'' rest : Str} {i i' i'' p : Nat} {t₁ t₂ c : UInt8}

theorem Moves.trans (h : Moves d i d' i') (h' : Moves d' i' d'' i'') : Moves d i d'' i'' := fun q s hs =>
  h' q s (h q s hs)

theorem moves_of_le (h : i ≤ i') : Moves d i d i' := fun _ _ hs => hs.mono h

theorem moves_set (h : i ≤ i') : Moves d i (d.set i' 0) (i' + 1) := fun _ _ hs =>
  (hs.set h 0).mono (by omega)

theorem drop_set_succ (d : Str) (i : Nat) (x : UInt8) : (d.set i x).drop (i + 1) = (d.drop i).tail := by
  rw [drop_set_of_lt (by omega), ← tail_drop]

theorem drop_skipAt (h : d.drop i = rest) (p : UInt8 → Bool) : d.drop (skipAt p d i) = rest.dropWhile p := by
  rw [skipAt, ← drop_drop, h]
  calc rest.drop (rest.takeWhile p).length
      = (rest.takeWhile p ++ rest.dropWhile p).drop (rest.takeWhile p).length := by rw [takeWhile_append_dropWhile]
    _ = rest.dropWhile p := drop_left

theorem le_skipAt (p : UInt8 → Bool) (d : Str) (i : Nat) : i ≤ skipAt p d i := Nat.le_add_right ..

theorem drop_skipCrAt (h : d.drop i = rest) : d.drop (skipCrAt d i) = skipCr rest := by
  rw [skipCrAt, ← List.head?_drop, h]
  cases rest with
  | nil => exact h
  | cons x rest =>
    by_cases hx : x = 13
    · subst hx
      rw [if_pos (by rfl), ← tail_drop, h]
      rfl
    · rw [if_neg (by simpa using hx), h, skipCr]
      rintro _ ⟨⟩
      exact hx rfl

theorem le_skipCrAt (d : Str) (i : Nat) : i ≤ skipCrAt d i := by
  unfold skipCrAt
  split
  · omega
  · omega

theorem drop_delimAt (t₁ t₂ : UInt8) (h : d.drop p = rest) : d.drop (delimAt t₁ t₂ d p) = (delim t₁ t₂ rest).2 ∧
    d.drop p = (delim t₁ t₂ rest).1 ++ (delim t₁ t₂ rest).2 ∧
      delimAt t₁ t₂ d p = p + (delim t₁ t₂ rest).1.length := by
  have hsplit : rest = (delim t₁ t₂ rest).1 ++ (delim t₁ t₂ rest).2 := by
    rw [delim_eq]
    exact takeWhile_append_dropWhile.symm
  have hat : delimAt t₁ t₂ d p = p + (delim t₁ t₂ rest).1.length := by rw [delimAt, h]
  refine ⟨?_, h.trans hsplit, hat⟩
  rw [hat, ← drop_drop, h.trans hsplit, drop_left]

theorem le_delimAt (t₁ t₂ : UInt8) (d : Str) (i : Nat) : i ≤ delimAt t₁ t₂ d i := Nat.le_add_right ..

theorem testIn_alike (h : d.drop i = rest) : Follows (fun _ r => d.drop i = c :: r) (testIn c d i) (expect c rest) := by
  rw [testIn_eq c h, h]
  cases rest with
  | nil => exact rfl
  | cons x rest =>
    by_cases hx : x = c
    · rw [if_pos (by rw [hx]; rfl), expect, if_pos hx, hx]
      exact rfl
    · rw [if_neg (by simpa using hx), expect, if_neg hx]
      exact rfl

theorem storeNext_of_drop (h : d.drop i = c :: rest) : storeNext d i = .ok (d.set i 0, i + 1) := by
  rw [storeNext, store, if_pos (lt_of_drop h)]
  rfl

theorem storeNext_alike (h : d.drop i = rest) :
    Follows (fun x r => x = (d.set i 0, i + 1) ∧ ∃ b, d.drop i = b :: r) (storeNext d i) (putNul rest) := by
  cases rest with
  | nil =>
    rw [storeNext, store, if_neg (Nat.not_lt.mpr (drop_eq_nil_iff.mp h))]
    exact rfl
  | cons b rest =>
    rw [storeNext_of_drop h]
    exact ⟨rfl, b, h⟩

theorem cutIn_alike (h : d.drop i = rest) :
    Follows (fun x r => x = (d.set i 0, i + 1) ∧ d.drop i = c :: r) (cutIn c d i) (expect c rest) := by
  have htest : Follows (fun _ r => d.drop i = c :: r) (testIn c d i) (expect c rest) := testIn_alike h
  rw [cutIn]
  cases ht : testIn c d i with
  | error e =>
    rw [htest.of_error ht]
    exact rfl
  | ok u =>
    obtain ⟨r, hr, hc⟩ := htest.of_ok ht
    rw [hr, ok_bind, storeNext_of_drop hc]
    exact ⟨rfl, hc⟩

/-- The string `s` at `p` has been cut off, and the bytes after its end are ahead. -/
structure Cut (d : Str) (p : Nat) (s : Str) (x : Str × Nat) (rest : Str) : Prop where
  ahead : x.1.drop x.2 = rest
  moves : Moves d p x.1 x.2
  piece : StrAt x.1 x.2 p (cstr s)
  length : x.1.length = d.length
  past : p < x.2

/-- Writing a `NUL` where `delim` stopped cuts a piece off. -/
theorem cut_delimAt (h : d.drop p = rest) {b : UInt8} {r : Str} (hb : d.drop (delimAt t₁ t₂ d p) = b :: r) :
    Cut d p (delim t₁ t₂ rest).1 (d.set (delimAt t₁ t₂ d p) 0, delimAt t₁ t₂ d p + 1) r := by
  obtain ⟨hahead, hpiece, hat⟩ := drop_delimAt t₁ t₂ h
  refine ⟨?_, moves_set (le_delimAt ..), ?_, length_set, Nat.lt_succ_of_le (le_delimAt ..)⟩
  · rw [drop_set_succ, hb, tail_cons]
  · rw [← hahead, hb] at hpiece
    rw [hat]
    exact strAt_cut hpiece

theorem cutIn_piece (h : d.drop p = rest) : Follows (Cut d p (delim t₁ t₂ rest).1) (cutIn c d (delimAt t₁ t₂ d p))
    (expect c (delim t₁ t₂ rest).2) := by
  refine (cutIn_alike (drop_delimAt t₁ t₂ h).1).mono ?_
  rintro x r ⟨rfl, hr⟩
  exact cut_delimAt h hr

theorem storeNext_piece (h : d.drop p = rest) : Follows (Cut d p (delim t₁ t₂ rest).1)
    (storeNext d (delimAt t₁ t₂ d p)) (putNul (delim t₁ t₂ rest).2) := by
  refine (storeNext_alike (drop_delimAt t₁ t₂ h).1).mono ?_
  rintro x r ⟨rfl, b, hb⟩
  exact cut_delimAt h hb

end

/-! ## The start line -/

theorem Cut.plain {d rest rest' : Str} {p : Nat} {t₁ t₂ : UInt8} {x : Str × Nat}
    (h : Cut d p (delim t₁ t₂ rest).1 x rest') (hstop : stops t₁ t₂ 0) : StrAt x.1 x.2 p (delim t₁ t₂ rest).1 := by
  have hpiece := h.piece
  rwa [cstr_eq fun h0 => ?_] at hpiece
  rw [mem_delim h0] at hstop
  cases hstop

/-- The code of a response is a number. -/
def StartLine.StandsAt (d : Str) (i : Nat) (w : Word × Word) : StartLine → Prop
  | .req method uri => ∃ p q, w = (.ptr p, .ptr q) ∧ StrAt d i p method ∧ StrAt d i q uri
  | .stat code reason => ∃ q, w = (.int code, .ptr q) ∧ StrAt d i q reason

theorem StartLine.StandsAt.moves {d d' : Str} {i i' : Nat} {w : Word × Word} {sl : StartLine} (h : sl.StandsAt d i w)
    (hm : Moves d i d' i') : sl.StandsAt d' i' w := by
  cases sl with
  | req method uri =>
    obtain ⟨p, q, hw, hp, hq⟩ := h
    exact ⟨p, q, hw, hm _ _ hp, hm _ _ hq⟩
  | stat code reason =>
    obtain ⟨q, hw, hq⟩ := h
    exact ⟨q, hw, hm _ _ hq⟩

structure LineAt (d : Str) (x : (Word × Word) × Nat × Str × Nat) (y : StartLine × Str × Str) : Prop where
  ahead : x.2.2.1.drop x.2.2.2 = y.2.2
  proto : StrAt x.2.2.1 x.2.2.2 x.2.1 y.2.1
  sl : y.1.StandsAt x.2.2.1 x.2.2.2 x.1
  length : x.2.2.1.length = d.length

/-- The request line. -/
theorem parseRequestLineChecked_alike (d : Str) : Follows (fun x y => LineAt d x y ∧ ∃ method uri, y.1 = .req method uri)
    (parseRequestLineChecked d) (parseRequestLine d) := by
  simp only [parseRequestLineChecked, delimFrom_eq, scanFrom_eq, ok_bind]
  refine (cutIn_piece rfl).bind ?_
  rintro ⟨d₁, i₁⟩ r₁ hmethod
  refine (cutIn_piece (drop_skipAt hmethod.ahead _)).bind ?_
  rintro ⟨d₂, i₂⟩ r₂ huri
  refine (storeNext_piece (drop_skipAt huri.ahead _)).bind ?_
  rintro ⟨d₃, i₃⟩ r₃ hproto
  -- each later cut leaves the earlier pieces where they are
  have hmove : Moves d₂ i₂ d₃ i₃ := (moves_of_le (le_skipAt ..)).trans hproto.moves
  have hmove' : Moves d₁ i₁ d₃ i₃ := ((moves_of_le (le_skipAt ..)).trans huri.moves).trans hmove
  refine ⟨⟨hproto.ahead, hproto.plain rfl, ⟨_, _, rfl, ?_, ?_⟩, ?_⟩, _, _, rfl⟩
  · exact hmove' _ _ (hmethod.plain rfl)
  · exact hmove _ _ (huri.plain rfl)
  · exact hproto.length.trans (huri.length.trans hmethod.length)

def statusTail (proto r : Str) : Except ParseStop (StartLine × Str × Str) :=
  match skipBlanks r with
  | a :: b :: c :: 32 :: r =>
    if isDigit a && isDigit b && isDigit c then
      putNul (delim 0 0 (skipBlanks r)).2 >>= fun r' =>
        pure (.stat (digitsVal [a, b, c]) (delim 0 0 (skipBlanks r)).1, proto, r')
    else .error .refused
  | _ => .error .refused

theorem statusTail_refused {proto r : Str}
    (h : ∀ a b c r', skipBlanks r = a :: b :: c :: 32 :: r' → ¬ (isDigit a ∧ isDigit b ∧ isDigit c)) :
    statusTail proto r = .error .refused := by
  unfold statusTail
  split
  · rename_i a b c r' heq
    refine if_neg fun hdig => h a b c r' heq ?_
    simpa [and_assoc] using hdig
  · rfl

/-- The byte after the version is read without a test. -/
theorem test_alike {d rest : Str} {i : Nat} (h : d.drop i = rest) (c : UInt8) :
    Follows (fun _ r => d.drop i = c :: r) (test c d i) (if rest = [] then .error .fault else expect c rest) := by
  cases rest with
  | nil =>
    rw [test, load, List.getElem?_eq_none (drop_eq_nil_iff.mp h)]
    exact rfl
  | cons b r =>
    have htest : testIn c d i = test c d i := if_neg (Nat.not_le.mpr (lt_of_drop h))
    rw [← htest]
    exact testIn_alike h

theorem parseStatusChecked_alike (d : Str) : Follows (fun x y => LineAt d x y ∧ ∃ code reason, y.1 = .stat code reason)
    (parseStatusChecked d) (parseStatus d) := by
  have hlist : parseStatus d = (if (delim 32 0 d).2 = [] then .error .fault else expect 32 (delim 32 0 d).2) >>=
      statusTail (delim 32 0 d).1 := by
    unfold parseStatus
    rcases delim 32 0 d with ⟨proto, _ | ⟨x, r⟩⟩ <;> rfl
  rw [hlist, parseStatusChecked, delimFrom_eq, ok_bind]
  refine (test_alike (drop_delimAt 32 0 rfl).1 32).bind ?_
  rintro ⟨⟩ r₁ hr₁
  have hproto := cut_delimAt rfl hr₁
  rw [storeNext_of_drop hr₁, ok_bind, scanFrom_eq, ok_bind]
  generalize d.set _ 0 = d₁ at hproto ⊢
  generalize delimAt 32 0 d 0 + 1 = i₁ at hproto ⊢
  have hcode : d₁.drop (skipAt (· == 32) d₁ i₁) = skipBlanks r₁ := drop_skipAt hproto.ahead _
  dsimp only
  by_cases hbad : ∀ a b c r, skipBlanks r₁ = a :: b :: c :: 32 :: r → ¬ (isDigit a ∧ isDigit b ∧ isDigit c)
  · rw [testCode_refused _ (by rwa [hcode]), statusTail_refused hbad]
    exact rfl
  push Not at hbad
  obtain ⟨a, b, c, r, heq, ha, hb, hc⟩ := hbad
  rw [heq] at hcode
  rw [testCode_ok _ hcode ha hb hc, scanFrom_eq, ok_bind, delimFrom_eq, ok_bind, statusTail, heq]
  simp only [ha, hb, hc, Bool.and_self, if_true]
  set code := skipAt (· == 32) d₁ i₁
  have hreason : d₁.drop (skipAt (· == 32) d₁ (code + 4)) = skipBlanks r := by
    refine drop_skipAt ?_ _
    rw [← drop_drop, hcode]
    rfl
  refine (storeNext_piece hreason).bind ?_
  rintro ⟨d₂, i₂⟩ r₂ hr₂
  have hmove : Moves d₁ i₁ d₂ i₂ := by
    refine (moves_of_le ?_).trans hr₂.moves
    exact (le_skipAt ..).trans ((Nat.le_add_right _ 4).trans (le_skipAt ..))
  refine ⟨⟨hr₂.ahead, hmove _ _ (hproto.plain rfl), ⟨_, ?_, hr₂.plain rfl⟩, hr₂.length.trans hproto.length⟩, _, _, rfl⟩
  rw [hcode, Nat.add_sub_cancel_left]
  rfl

/-! ## The header lines -/

def FieldAt (d : Str) (i : Nat) (x : Nat × Nat) (f : Str × Str) : Prop := StrAt d i x.1 f.1 ∧ StrAt d i x.2 f.2

theorem fields_move {d d' : Str} {i i' : Nat} (hm : Moves d i d' i') {xs : List (Nat × Nat)} {fs : List (Str × Str)}
    (h : List.Forall₂ (FieldAt d i) xs fs) : List.Forall₂ (FieldAt d' i') xs fs :=
  h.imp fun _ _ hf => ⟨hm _ _ hf.1, hm _ _ hf.2⟩

theorem nameChecked_alike {d rest : Str} {p : Nat} (h : d.drop p = rest) :
    Follows (Cut d p (delim 32 58 rest).1) (nameChecked d p)
      (expect 58 (if (delim 32 58 rest).2.head? = some 32 then skipBlanks (delim 32 58 rest).2
        else (delim 32 58 rest).2)) := by
  obtain ⟨hahead, -, -⟩ := drop_delimAt 32 58 h
  rw [nameChecked, delimFrom_eq, ok_bind]
  cases hr : (delim 32 58 rest).2 with
  | nil =>
    -- the source returns here; over the bytes ahead, there is no colon
    rw [hr] at hahead
    rw [if_pos (drop_eq_nil_iff.mp hahead)]
    exact rfl
  | cons b r =>
    have hb := hahead.trans hr
    rw [if_neg (Nat.not_le.mpr (lt_of_drop hb)), load_of_drop hb, ok_bind]
    by_cases hblank : b = 32
    · have hcut := cut_delimAt h hb
      have hskip : skipBlanks (b :: r) = skipBlanks r := by rw [hblank]; rfl
      rw [if_pos hblank, storeNext_of_drop hb, ok_bind, scanFrom_eq, ok_bind, if_pos (by rw [hblank]; rfl), hskip]
      refine (cutIn_alike (drop_skipAt hcut.ahead _)).mono ?_
      rintro x r' ⟨rfl, hr'⟩
      -- the `NUL` of the name is at its blank, the one at the colon comes later
      have hle := le_skipAt (· == 32) (d.set (delimAt 32 58 d p) 0) (delimAt 32 58 d p + 1)
      have hmove := moves_set (d := d.set (delimAt 32 58 d p) 0) hle
      refine ⟨?_, hcut.moves.trans hmove, hmove _ _ hcut.piece, length_set.trans length_set, ?_⟩
      · rw [drop_set_succ, hr', tail_cons]
      · exact Nat.lt_succ_of_le (hcut.past.le.trans hle)
    · rw [if_neg hblank, if_neg (by simpa using hblank), ← hr]
      exact cutIn_piece h

/-- The line from `p` has been taken: its name stands at `p`, and there is more of it before `i`. -/
structure HeaderAt (d : Str) (p : Nat) (x : Nat × Str × Nat) (y : (Str × Str) × Str) : Prop where
  ahead : x.2.1.drop x.2.2 = y.2
  moves : Moves d p x.2.1 x.2.2
  field : FieldAt x.2.1 x.2.2 (p, x.1) y.1
  length : x.2.1.length = d.length
  past : p < x.2.2
  inside : x.2.2 ≤ d.length

theorem headerChecked_alike {d rest : Str} {p : Nat} (h : d.drop p = rest) :
    Follows (HeaderAt d p) (headerChecked d p) (headerOf rest) := by
  refine (nameChecked_alike h).bind ?_
  rintro ⟨d₁, i₁⟩ r₁ hn
  simp only [valueChecked, scanFrom_eq, delimFrom_eq, ok_bind]
  refine (storeNext_piece (drop_skipAt hn.ahead _)).bind ?_
  rintro ⟨d₂, i₂⟩ r₂ hv
  refine (testIn_alike hv.ahead).bind ?_
  rintro ⟨⟩ r₃ hr₃
  -- what is kept from the start of the line, from the end of the name and from the end of the value
  have hmove₂ : Moves d₂ i₂ d₂ (i₂ + 1) := moves_of_le (Nat.le_succ _)
  have hle : i₁ ≤ skipAt (fun c => c == 32 || c == 9) d₁ i₁ := le_skipAt ..
  have hmove₁ : Moves d₁ i₁ d₂ (i₂ + 1) := ((moves_of_le hle).trans hv.moves).trans hmove₂
  have hlen : d₂.length = d.length := hv.length.trans hn.length
  have hin := lt_of_drop hr₃
  have hpast : p < i₂ := (hn.past.trans_le hle).trans hv.past
  refine ⟨drop_succ_of_drop hr₃, hn.moves.trans hmove₁, ⟨hmove₁ _ _ hn.piece, hmove₂ _ _ (hv.plain rfl)⟩, hlen, ?_, ?_⟩
  · exact Nat.lt_succ_of_lt hpast
  · rw [← hlen]
    exact hin

theorem skipCrAt_le {d : Str} {i : Nat} (h : i ≤ d.length) : skipCrAt d i ≤ d.length := by
  unfold skipCrAt
  split
  · rename_i hcr
    exact (List.getElem?_eq_some_iff.mp hcr).1
  · exact h

section

variable {fuel : Nat} {xs : List (Nat × Nat)} {d : Str} {i : Nat} {c : UInt8} {r : Str}

theorem parseHeadersChecked_end (h : skipCrAt d i = d.length) :
    parseHeadersChecked (fuel + 1) xs d i = .ok (xs, d, skipCrAt d i) := by
  rw [parseHeadersChecked, skipCrFrom_eq]
  exact if_pos h

theorem parseHeadersChecked_turn (h : d.drop (skipCrAt d i) = c :: r) : parseHeadersChecked (fuel + 1) xs d i =
      if c = 10 then .ok (xs, d, skipCrAt d i + 1)
      else if c = 9 ∨ c = 32 then .error .refused
      else if maxFields ≤ xs.length then .error .overfull
      else headerChecked d (skipCrAt d i) >>= fun x =>
        parseHeadersChecked fuel (xs ++ [(skipCrAt d i, x.1)]) x.2.1 x.2.2 := by
  rw [parseHeadersChecked, skipCrFrom_eq, ok_bind, if_neg (lt_of_drop h).ne, load_of_drop h]
  rfl

end

structure HeadersAt (d : Str) (i : Nat) (x : List (Nat × Nat) × Str × Nat) (y : List (Str × Str) × Str) : Prop where
  ahead : x.2.1.drop x.2.2 = y.2
  moves : Moves d i x.2.1 x.2.2
  fields : List.Forall₂ (FieldAt x.2.1 x.2.2) x.1 y.1
  length : x.2.1.length = d.length

/-- The loop over the header lines. Each line takes a byte at least, so the fuel lasts. -/
theorem parseHeadersChecked_alike : ∀ (fuel : Nat) {xs : List (Nat × Nat)} {fs : List (Str × Str)} {d rest : Str} {i : Nat},
    d.drop i = rest → i ≤ d.length → d.length - i < fuel → List.Forall₂ (FieldAt d i) xs fs →
    Follows (HeadersAt d i) (parseHeadersChecked fuel xs d i) (parseHeaders fuel fs rest)
  | fuel + 1, xs, fs, d, rest, i, h, hi, hfuel, hfs => by
    have hname : d.drop (skipCrAt d i) = skipCr rest := drop_skipCrAt h
    have hle := le_skipCrAt d i
    cases hskip : skipCr rest with
    | nil =>
      rw [hskip] at hname
      have hend := Nat.le_antisymm (skipCrAt_le hi) (drop_eq_nil_iff.mp hname)
      rw [parseHeadersChecked_end hend, parseHeaders_nil hskip]
      exact ⟨hname, moves_of_le hle, fields_move (moves_of_le hle) hfs, rfl⟩
    | cons c r =>
      rw [hskip] at hname
      rw [parseHeadersChecked_turn hname]
      split
      · rename_i h10
        rw [h10] at hskip
        rw [parseHeaders_end hskip]
        have hmove : Moves d i d (skipCrAt d i + 1) := moves_of_le (Nat.le_succ_of_le hle)
        exact ⟨drop_succ_of_drop hname, hmove, fields_move hmove hfs, rfl⟩
      split
      · rename_i hcont
        rw [parseHeaders_continued hskip hcont]
        exact rfl
      rename_i h10 hcont
      have hstart : headStart c := headStart_iff.mpr ⟨h10, not_or.mp hcont⟩
      rw [hfs.length_eq]
      split
      · rename_i hfull
        rw [parseHeaders_full hskip hstart hfull]
        exact rfl
      rename_i hfull
      rw [parseHeaders_header hskip hstart (Nat.not_le.mp hfull)]
      refine (headerChecked_alike hname).bind ?_
      rintro ⟨value, d₁, i₁⟩ ⟨f, rest₁⟩ hline
      have hlen : d₁.length = d.length := hline.length
      have hpast : skipCrAt d i < i₁ := hline.past
      have hin : i₁ ≤ d.length := hline.inside
      have hmove : Moves d i d₁ i₁ := (moves_of_le hle).trans hline.moves
      have hrest : d₁.drop i₁ = rest₁ := hline.ahead
      refine (parseHeadersChecked_alike fuel hrest (by omega) (by omega)
        (rel_append (fields_move hmove hfs) (.cons hline.field .nil))).mono ?_
      intro x y hxy
      exact ⟨hxy.ahead, hmove.trans hxy.moves, hxy.fields, hxy.length.trans hlen⟩

/-! ## The message -/

theorem find_eq_getElem (p : UInt8 → Bool) (d : Str) : d.find? p = d[skipAt (fun c => !p c) d 0]? := by
  rw [skipAt, Nat.zero_add, drop_zero]
  induction d with
  | nil => rfl
  | cons c d ih =>
    cases hc : p c with
    | true => simp [hc]
    | false =>
      rw [List.find?_cons, hc, takeWhile_cons_of_pos (by rw [hc]; rfl), length_cons, List.getElem?_cons_succ]
      exact ih

theorem skipAt_le (p : UInt8 → Bool) (d : Str) : skipAt p d 0 ≤ d.length := by
  have hlen := (List.takeWhile_prefix (l := d) p).length_le
  rw [skipAt, drop_zero]
  omega

theorem startChecked_eq (d : Str) : startChecked d =
    if d.length < 4 then .error .refused
    else match d.find? fun c => c == 32 || c == 47 with
      | none => .error .refused
      | some c =>
        (if c = 47 then parseStatusChecked d else parseRequestLineChecked d) >>= fun x =>
        parseEolChecked x.2.2.1 x.2.2.2 >>= fun i =>
        .ok ⟨c == 47, x.1, x.2.1, x.2.2.1, i⟩ := by
  rw [startChecked, scanFrom_eq, ok_bind, find_eq_getElem]
  set i := skipAt (fun c => !(c == 32 || c == 47)) d 0
  have hi : i ≤ d.length := skipAt_le _ d
  by_cases hend : i = d.length
  · rw [if_pos hend, List.getElem?_eq_none (by omega)]
  · rw [if_neg hend, load_of_lt (by omega), List.getElem?_eq_getElem (by omega)]
    rfl

structure Started.At (d : Str) (s : Started) (y : StartLine × Str × Str) : Prop where
  ahead : s.msg.drop s.i = y.2.2
  type : s.resp = false ↔ ∃ method uri, y.1 = .req method uri
  sl : y.1.StandsAt s.msg s.i s.sl
  proto : StrAt s.msg s.i s.protoId y.2.1
  length : s.msg.length = d.length
  inside : s.i ≤ s.msg.length

theorem LineAt.started {d : Str} {x : (Word × Word) × Nat × Str × Nat} {y : StartLine × Str × Str} (h : LineAt d x y)
    {resp : Bool} (htype : resp = false ↔ ∃ method uri, y.1 = .req method uri) : Follows (Started.At d)
      (parseEolChecked x.2.2.1 x.2.2.2 >>= fun i => .ok ⟨resp, x.1, x.2.1, x.2.2.1, i⟩)
      (parseEol y.2.2 >>= fun d => pure (y.1, y.2.1, d)) := by
  simp only [parseEolChecked, scanFrom_eq, skipCrFrom_eq, ok_bind, bind_assoc]
  refine (testIn_alike (drop_skipCrAt (drop_skipAt h.ahead _))).bind ?_
  rintro ⟨⟩ r hr
  have hmove : Moves x.2.2.1 x.2.2.2 x.2.2.1 (skipCrAt x.2.2.1 (skipAt (· == 32) x.2.2.1 x.2.2.2) + 1) :=
    moves_of_le (((le_skipAt ..).trans (le_skipCrAt ..)).trans (Nat.le_succ _))
  exact ⟨drop_succ_of_drop hr, htype, h.sl.moves hmove, hmove _ _ h.proto, h.length, lt_of_drop hr⟩

/-- The start line, up to its end. -/
theorem startChecked_alike (d : Str) : Follows (Started.At d) (startChecked d) (startOf d) := by
  rw [startChecked_eq, startOf]
  by_cases hlen : d.length < 4
  · rw [if_pos hlen, if_pos hlen]
    exact rfl
  rw [if_neg hlen, if_neg hlen]
  rcases d.find? (fun c => c == 32 || c == 47) with _ | c
  · exact rfl
  dsimp only
  by_cases hc : c = 47
  · rw [if_pos hc, if_pos hc]
    refine (parseStatusChecked_alike d).bind ?_
    rintro x y ⟨hline, code, reason, hy⟩
    refine hline.started ?_
    simp [hc, hy]
  · rw [if_neg hc, if_neg hc]
    refine (parseRequestLineChecked_alike d).bind ?_
    rintro x y ⟨hline, hy⟩
    refine hline.started ?_
    simpa [hc] using hy

/-- The pointers lead to the strings that `parsePmsg` gives, and `type` says which member of `sl` is set. -/
structure RawMsg.Reads (raw : RawMsg) (m : Pmsg) : Prop where
  type : raw.resp = false ↔ ∃ method uri, m.sl = .req method uri
  sl : m.sl.StandsAt raw.msg raw.msg.length raw.sl
  proto : StrAt raw.msg raw.msg.length raw.protoId m.protoId
  fields : List.Forall₂ (FieldAt raw.msg raw.msg.length) raw.fields m.fields

theorem moves_length (d : Str) (i : Nat) : Moves d i d d.length := by
  intro q s hs
  refine ⟨hs.plain, hs.text, ?_⟩
  have := congrArg List.length hs.text
  simp only [length_take, length_drop, length_append, length_singleton] at this
  omega

/-- In its memory the parser does what `parsePmsg` says of the bytes ahead. -/
theorem parsePmsgChecked_alike (d : Str) :
    Follows (fun x y => x.1.Reads y.1 ∧ x.1.msg.drop x.2 = y.2 ∧ x.1.msg.length = d.length) (parsePmsgChecked d) (parsePmsg d) := by
  rw [parsePmsg_eq, parsePmsgChecked]
  refine (startChecked_alike d).bind ?_
  intro s y hs
  have hlen : s.msg.length - s.i = y.2.2.length := by rw [← hs.ahead, length_drop]
  rw [← hlen]
  refine (parseHeadersChecked_alike _ hs.ahead hs.inside (Nat.lt_succ_self _) .nil).bind ?_
  intro x z hx
  have hend := moves_length x.2.1 x.2.2
  have hmove := hx.moves.trans hend
  exact ⟨⟨hs.type, hs.sl.moves hmove, hmove _ _ hs.proto, fields_move hend hx.fields⟩, hx.ahead, hx.length.trans hs.length⟩

/-! ## What `handle_request` reads -/

/-- The protocol whose handler it is, the message, and the words that are read as `sl.req.method` and `sl.req.uri`. -/
structure Call where
  proto : ConnProto
  msg : RawMsg
  method : Word
  uri : Word
deriving DecidableEq, Repr

/-- It does not look at `type`. -/
def requestCall (proto : ConnProto) (buf : Str) : Except Halt Call :=
  if buf.head? = some 0 then .error .refused
  else (parsePmsgChecked buf).map fun x => ⟨proto, x.1, x.1.sl.1, x.1.sl.2⟩

/-- A request is handled: `type` says so, and its method and URI are strings inside the message. -/
structure Call.Proper (call : Call) : Prop where
  type : call.msg.resp = false
  strings : ∃ p q method uri, call.method = .ptr p ∧ call.uri = .ptr q ∧
    StrAt call.msg.msg call.msg.msg.length p method ∧ StrAt call.msg.msg call.msg.msg.length q uri

section

variable {buf : Str} {x : RawMsg × Nat}

theorem resp_of_parse (h : parsePmsgChecked buf = .ok x) :
    ∃ c, (buf.find? fun c => c == 32 || c == 47) = some c ∧ x.1.resp = (c == 47) := by
  rw [parsePmsgChecked, startChecked_eq] at h
  simp only [bind_eq_ok] at h
  obtain ⟨s, hs, y, -, hx⟩ := h
  cases hx
  split at hs
  · cases hs
  split at hs
  · cases hs
  · rename_i c hc
    simp only [bind_eq_ok] at hs
    obtain ⟨_, _, _, _, hs⟩ := hs
    cases hs
    exact ⟨c, hc, rfl⟩

theorem head_ne_nul_of_parse (h : parsePmsgChecked buf = .ok x) : buf.head? ≠ some 0 := by
  intro h0
  obtain ⟨y, hy, _⟩ := (parsePmsgChecked_alike buf).of_ok h
  obtain ⟨t, rfl⟩ : ∃ t, buf = 0 :: t := by
    cases buf with
    | nil => cases h0
    | cons b t =>
      cases h0
      exact ⟨t, rfl⟩
  unfold parsePmsg at hy
  split at hy
  · cases hy
  split at hy
  · cases hy
  split at hy
  · cases hy
  · cases hy

theorem proper_of_request (h : parsePmsgChecked buf = .ok x) (hreq : x.1.resp = false) (proto : ConnProto) :
    Call.Proper ⟨proto, x.1, x.1.sl.1, x.1.sl.2⟩ := by
  obtain ⟨⟨m, rest⟩, _, hreads, _⟩ := (parsePmsgChecked_alike buf).of_ok h
  obtain ⟨method, uri, hm⟩ := hreads.type.mp hreq
  have hsl := hreads.sl
  rw [hm] at hsl
  obtain ⟨p, q, hw, hp, hq⟩ := hsl
  exact ⟨hreq, p, q, method, uri, congrArg Prod.fst hw, congrArg Prod.snd hw, hp, hq⟩

end

/-- **Only requests are handled** exactly if the first blank comes before the first slash. -/
theorem requests_only_iff (proto : ConnProto) {buf : Str} {x : RawMsg × Nat} (h : parsePmsgChecked buf = .ok x) :
    (∀ call, requestCall proto buf = .ok call → call.Proper) ↔ (buf.find? fun c => c == 32 || c == 47) = some 32 := by
  have hcall : requestCall proto buf = .ok ⟨proto, x.1, x.1.sl.1, x.1.sl.2⟩ := by
    rw [requestCall, if_neg (head_ne_nul_of_parse h), h]
    rfl
  obtain ⟨c, hc, hresp⟩ := resp_of_parse h
  have hor : c = 32 ∨ c = 47 := by simpa using List.find?_some hc
  rw [hc]
  constructor
  · intro hall
    have hreq := (hall _ hcall).type
    rcases hor with rfl | rfl
    · rfl
    · rw [hresp] at hreq
      cases hreq
  · rintro ⟨⟩ call hcall'
    rw [hcall] at hcall'
    cases hcall'
    exact proper_of_request h hresp proto

theorem requests_only_iff_options : (requestCall .rtsp (bytes "OPTIONS * RTSP/1.0\r\n\r\n")).isOk ∧
    ∀ call, requestCall .rtsp (bytes "OPTIONS * RTSP/1.0\r\n\r\n") = .ok call → call.Proper :=
  ⟨by decide +kernel, (requests_only_iff .rtsp
    (x := (⟨bytes "OPTIONS\x00*\x00RTSP/1.0\x00\n\r\n", false, 10, (.ptr 0, .ptr 8), []⟩, 22))
    (by decide +kernel)).mpr (by decide)⟩

def responseRequest : Str := bytes "RTSP/1.0 200 RTSP/1.0\r\n\r\n"

theorem response_handled : (∃ x, parsePmsgChecked responseRequest = .ok x) ∧
    (∃ call, requestCall .rtsp responseRequest = .ok call ∧ call.msg.resp = true ∧ call.method = .int 200 ∧
      ¬ call.Proper) ∧ (readStep (fun _ => false) .accept responseRequest).map (·.1) = some .crashed := by
  have hcall : requestCall .rtsp responseRequest = .ok ⟨.rtsp, ⟨bytes "RTSP/1.0\x00200 RTSP/1.0\x00\n\r\n", true, 0,
      (.int 200, .ptr 13), []⟩, .int 200, .ptr 13⟩ := by decide +kernel
  refine ⟨⟨_, show parsePmsgChecked responseRequest = .ok (⟨bytes "RTSP/1.0\x00200 RTSP/1.0\x00\n\r\n", true, 0,
    (.int 200, .ptr 13), []⟩, 25) by decide +kernel⟩, ⟨_, hcall, rfl, rfl, fun h => ?_⟩, by decide +kernel⟩
  have htype := h.type
  cases htype

end NuWicam.Rtsp
