import NuWicam.Lib.CString
import Mathlib.Data.List.TakeDrop

/-!
# Messages and their parser (`pmsg.h`, `pmsg.c`)

The model walks along the bytes that are still ahead of the index `i`: since every `NUL` is written behind `i`, these are those
of the message. Reading or writing at `d[len]`, which the source does in some branches without a test, is the outcome `fault`;
so is writing past the 32 entries of `fields`.
-/

namespace NuWicam.Rtsp

open Lib

def maxFields : Nat := 32

inductive StartLine
  /-- `PMSG_REQ` -/
  | req (method uri : Str)
  /-- `PMSG_RESP` -/
  | stat (code : Nat) (reason : Str)
deriving DecidableEq, Repr

/-- What `parse_pmsg` records of a message. -/
structure Pmsg where
  sl : StartLine
  protoId : Str
  /-- the first `header_count` entries of `fields`, as (name, value) -/
  fields : List (Str × Str)
deriving DecidableEq, Repr

inductive ParseStop
  | refused
  | fault
deriving DecidableEq, Repr

/-- The bytes before the first `term1`, `term2`, `CR` or `LF`, and the rest. -/
def delim (term1 term2 : UInt8) (d : Str) : Str × Str :=
  d.span fun c => !(c == term1 || c == term2 || c == 13 || c == 10)

/-- `while (i < len && d[i] == ' ') ++i;` -/
def skipBlanks (d : Str) : Str := d.dropWhile (· == 32)

/-- `if (i < len && d[i] == '\r') ++i;` -/
def skipCr : Str → Str
  | 13 :: d => d
  | d => d

/-- `if (i >= len || d[i] != c) return -1;`, with `i` moved past the byte. -/
def expect (c : UInt8) : Str → Except ParseStop Str
  | x :: d => if x = c then .ok d else .error .refused
  | [] => .error .refused

/-- `d[i++] = 0;` without a test of `i` -/
def putNul : Str → Except ParseStop Str
  | _ :: d => .ok d
  | [] => .error .fault

/-- The fields recorded and the bytes after the blank line. Each line takes at least one byte, so the number of bytes is enough
fuel. -/
def parseHeaders : Nat → List (Str × Str) → Str → Except ParseStop (List (Str × Str) × Str)
  | 0, _, _ => .error .refused
  | fuel + 1, fields, d =>
    match skipCr d with
    -- no more data
    | [] => .ok (fields, [])
    | c :: d' =>
      if c = 10 then .ok (fields, d')
      -- a continuation line
      else if c = 9 ∨ c = 32 then .error .refused
      else if maxFields ≤ fields.length then .error .fault
      else do
        let (name, d) := delim 32 58 (c :: d')
        let d := if d.head? = some 32 then skipBlanks d else d
        let d ← expect 58 d
        let (value, d) := delim 0 0 (d.dropWhile fun c => c == 32 || c == 9)
        let d ← putNul d
        let d ← expect 10 d
        parseHeaders fuel (fields ++ [(cstr name, value)]) d

def parseEol (d : Str) : Except ParseStop Str := expect 10 (skipCr (skipBlanks d))

def parseStatus (d : Str) : Except ParseStop (StartLine × Str × Str) := do
  let (proto, d) := delim 32 0 d
  let d ← match d with
    -- the byte after the version is read without a test
    | [] => .error .fault
    | _ => expect 32 d
  match skipBlanks d with
  | a :: b :: c :: 32 :: d =>
    if isDigit a && isDigit b && isDigit c then
      let (reason, d) := delim 0 0 (skipBlanks d)
      let d ← putNul d
      pure (.stat (digitsVal [a, b, c]) reason, proto, d)
    else .error .refused
  | _ => .error .refused

def parseRequestLine (d : Str) : Except ParseStop (StartLine × Str × Str) := do
  let (method, d) := delim 32 0 d
  let d ← expect 32 d
  let (uri, d) := delim 32 0 (skipBlanks d)
  let d ← expect 32 d
  let (proto, d) := delim 0 0 (skipBlanks d)
  let d ← putNul d
  pure (.req method uri, proto, d)

/-- The message and the bytes after its blank line. -/
def parsePmsg (d : Str) : Except ParseStop (Pmsg × Str) :=
  if d.length < 4 then .error .refused
  else match d.find? fun c => c == 32 || c == 47 with
    | none => .error .refused
    | some c => do
      -- responses begin with `PROTO/`
      let (sl, proto, d) ← if c = 47 then parseStatus d else parseRequestLine d
      let d ← parseEol d
      let (fields, d) ← parseHeaders (d.length + 1) [] d
      pure (⟨sl, proto, fields⟩, d)

/-! ## Pieces -/

def stops (term1 term2 : UInt8) (c : UInt8) : Bool := c == term1 || c == term2 || c == 13 || c == 10

theorem delim_eq (t₁ t₂ : UInt8) (d : Str) :
    delim t₁ t₂ d = (d.takeWhile fun c => !stops t₁ t₂ c, d.dropWhile fun c => !stops t₁ t₂ c) :=
  List.span_eq_takeWhile_dropWhile _ d

theorem mem_delim {t₁ t₂ : UInt8} {d : Str} {c : UInt8} (h : c ∈ (delim t₁ t₂ d).1) : stops t₁ t₂ c = false := by
  rw [delim_eq] at h
  simpa using List.mem_takeWhile_imp h

theorem delim_append {t₁ t₂ : UInt8} {a : Str} (ha : ∀ c ∈ a, stops t₁ t₂ c = false) {x : UInt8}
    (hx : stops t₁ t₂ x) (rest : Str) : delim t₁ t₂ (a ++ x :: rest) = (a, x :: rest) := by
  have hpass : ∀ c ∈ a, (!stops t₁ t₂ c) := fun c hc => by rw [ha c hc]; rfl
  rw [delim_eq, List.takeWhile_append_of_pos hpass, List.dropWhile_append_of_pos hpass]
  simp [hx]

/-! ## What is accepted -/

theorem bind_eq_ok {ε α β : Type} {x : Except ε α} {f : α → Except ε β} {r : β} :
    (x >>= f) = .ok r ↔ ∃ a, x = .ok a ∧ f a = .ok r := by
  cases x with
  | error e =>
    constructor
    · intro h
      cases h
    · rintro ⟨a, h, _⟩
      cases h
  | ok a =>
    constructor
    · intro h
      exact ⟨a, rfl, h⟩
    · rintro ⟨b, h, hb⟩
      cases h
      exact hb

/-- The name is a piece cut at its first `NUL`, the value is the rest of a line without the blanks in front. -/
structure IsField (f : Str × Str) : Prop where
  name : ∀ c ∈ f.1, stops 32 58 c = false ∧ c ≠ 0
  value : ∀ c ∈ f.2, stops 0 0 c = false
  lead : ∀ c, f.2.head? = some c → c ≠ 32 ∧ c ≠ 9

theorem head_value {d : Str} {c : UInt8} (h : (delim 0 0 (d.dropWhile fun c => c == 32 || c == 9)).1.head? = some c) :
    c ≠ 32 ∧ c ≠ 9 := by
  rw [delim_eq, List.head?_takeWhile] at h
  have hc : (d.dropWhile fun c => c == 32 || c == 9).head? = some c := (Option.filter_eq_some_iff.mp h).1
  have := List.head?_dropWhile_not (fun c : UInt8 => c == 32 || c == 9) d
  rw [hc] at this
  simpa using this

theorem mem_cstr {s : Str} {c : UInt8} (h : c ∈ cstr s) : c ∈ s ∧ c ≠ 0 := by
  refine ⟨(List.takeWhile_prefix _).subset h, ?_⟩
  simpa using List.mem_takeWhile_imp h

theorem parseHeaders_fields_of_ok : ∀ {fuel : Nat} {fs fs' : List (Str × Str)} {d rest : Str},
    parseHeaders fuel fs d = .ok (fs', rest) → (∀ f ∈ fs, IsField f) → ∀ f ∈ fs', IsField f
  | 0, _, _, _, _, h, _ => by cases h
  | fuel + 1, fs, fs', d, rest, h, hfs => by
    rw [parseHeaders] at h
    split at h
    · cases h
      exact hfs
    · rename_i c d' _
      split at h
      · cases h
        exact hfs
      split at h
      · cases h
      split at h
      · cases h
      -- one more line: its name and its value are recorded, and the rest of the buffer follows
      simp only [bind_eq_ok] at h
      obtain ⟨d₁, _, d₂, _, d₃, _, hrest⟩ := h
      refine parseHeaders_fields_of_ok hrest fun f hf => ?_
      rcases List.mem_append.mp hf with hf | hf
      · exact hfs f hf
      · rw [List.mem_singleton.mp hf]
        exact ⟨fun x hx => ⟨mem_delim (mem_cstr hx).1, (mem_cstr hx).2⟩, fun x hx => mem_delim hx, fun x hx => head_value hx⟩

def StartLine.Pieces (proto : Str) : StartLine → Prop
  | .req method uri => (∀ c ∈ method, stops 32 0 c = false) ∧ (∀ c ∈ uri, stops 32 0 c = false) ∧
      ∀ c ∈ proto, stops 0 0 c = false
  | .stat _ reason => (∀ c ∈ proto, stops 32 0 c = false) ∧ ∀ c ∈ reason, stops 0 0 c = false

theorem parseRequestLine_pieces {d proto d' : Str} {sl : StartLine} (h : parseRequestLine d = .ok (sl, proto, d')) :
    sl.Pieces proto := by
  simp only [parseRequestLine, bind_eq_ok] at h
  obtain ⟨d₁, _, d₂, _, d₃, _, hr⟩ := h
  cases hr
  exact ⟨fun c hc => mem_delim hc, fun c hc => mem_delim hc, fun c hc => mem_delim hc⟩

theorem parseStatus_pieces {d proto d' : Str} {sl : StartLine} (h : parseStatus d = .ok (sl, proto, d')) : sl.Pieces proto := by
  simp only [parseStatus] at h
  split at h
  · cases h
  obtain ⟨d₁, _, hr⟩ := bind_eq_ok.mp h
  split at hr
  · split at hr
    · obtain ⟨d₂, _, hr⟩ := bind_eq_ok.mp hr
      cases hr
      exact ⟨fun c hc => mem_delim hc, fun c hc => mem_delim hc⟩
    · cases hr
  · cases hr

theorem parsePmsg_pieces {d rest : Str} {m : Pmsg} (h : parsePmsg d = .ok (m, rest)) :
    m.sl.Pieces m.protoId ∧ ∀ f ∈ m.fields, IsField f := by
  unfold parsePmsg at h
  split at h
  · cases h
  split at h
  · cases h
  · split at h
    all_goals
      simp only [bind_eq_ok] at h
      obtain ⟨⟨sl, proto, d₁⟩, hstart, d₂, _, ⟨fields, d₃⟩, hheaders, hr⟩ := h
      cases hr
      refine ⟨?_, parseHeaders_fields_of_ok hheaders fun f hf => by cases hf⟩
    · exact parseStatus_pieces hstart
    · exact parseRequestLine_pieces hstart

def getHeader (m : Pmsg) (name : Str) : Option Str := (m.fields.find? fun f => caseEq f.1 name).map (·.2)

end NuWicam.Rtsp
