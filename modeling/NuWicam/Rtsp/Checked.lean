import NuWicam.Lib.Cut
import NuWicam.Rtsp.Pmsg

/-!
# `parse_pmsg` in its memory, with every access checked (`pmsg.c`)

`parse_pmsg` works on `msg->msg` itself: it writes a `NUL` behind every piece and stores where the piece starts, for the
start line in a union. Every byte is read and written through `load` and `store`, and the table of fields and the end of the
loops are checked as well.
-/

namespace NuWicam.Rtsp

open Lib List

/-! ## The source -/

inductive Word
  | int (n : Nat)
  | ptr (p : Nat)
deriving DecidableEq, Repr

/-- Pointers are offsets into the memory. -/
structure RawMsg where
  msg : Str
  /-- `type == PMSG_RESP` -/
  resp : Bool
  protoId : Nat
  /-- `sl.req.method` or `sl.stat.code`, and `sl.req.uri` or `sl.stat.reason` -/
  sl : Word × Word
  fields : List (Nat × Nat)
deriving DecidableEq, Repr

inductive Halt
  | refused
  | outside
  | overfull
  | endless
deriving DecidableEq, Repr

/-- `d[i]` -/
def load (d : Str) (i : Nat) : Except Halt UInt8 :=
  match d[i]? with
  | some c => .ok c
  | none => .error .outside

/-- `d[i] = 0;` -/
def store (d : Str) (i : Nat) : Except Halt Str := if i < d.length then .ok (d.set i 0) else .error .outside

/-- `while (i < len && p(d[i])) ++i;` -/
def scan (p : UInt8 → Bool) (d : Str) : Nat → Nat → Except Halt Nat
  | 0, _ => .error .endless
  | fuel + 1, i =>
    if i < d.length then load d i >>= fun c => if p c then scan p d fuel (i + 1) else .ok i
    else .ok i

def scanFrom (p : UInt8 → Bool) (d : Str) (i : Nat) : Except Halt Nat := scan p d (d.length - i + 1) i

/-- `i += delim(d + i, len - i, term1, term2);` -/
def delimFrom (term1 term2 : UInt8) (d : Str) (i : Nat) : Except Halt Nat :=
  scanFrom (fun c => !stops term1 term2 c) d i

/-- It does not know `len`. -/
def atoiEnd (d : Str) : Nat → Nat → Except Halt Nat
  | 0, _ => .error .endless
  | fuel + 1, i => load d i >>= fun c => if isDigit c then atoiEnd d fuel (i + 1) else .ok i

/-- `d[i++] = 0;` -/
def storeNext (d : Str) (i : Nat) : Except Halt (Str × Nat) := store d i >>= fun d => .ok (d, i + 1)

/-- `if (d[i] != c) return -1;` -/
def test (c : UInt8) (d : Str) (i : Nat) : Except Halt Unit :=
  load d i >>= fun x => if x ≠ c then .error .refused else .ok ()

/-- `if (i >= len || d[i] != c) return -1;` -/
def testIn (c : UInt8) (d : Str) (i : Nat) : Except Halt Unit := if d.length ≤ i then .error .refused else test c d i

/-- `if (i >= len || d[i] != c) return -1; d[i++] = 0;` -/
def cutIn (c : UInt8) (d : Str) (i : Nat) : Except Halt (Str × Nat) := testIn c d i >>= fun _ => storeNext d i

/-- `if (! isdigit(d[i])) return -1;` -/
def testDigit (d : Str) (i : Nat) : Except Halt Unit :=
  load d i >>= fun x => if isDigit x then .ok () else .error .refused

/-- `if (i < len && d[i] == '\r') ++i;` -/
def skipCrFrom (d : Str) (i : Nat) : Except Halt Nat :=
  if i < d.length then load d i >>= fun c => .ok (if c = 13 then i + 1 else i) else .ok i

/-- `sl`, `proto_id`, the memory, and `i`. -/
def parseStatusChecked (d : Str) : Except Halt ((Word × Word) × Nat × Str × Nat) :=
  delimFrom 32 0 d 0 >>= fun i =>
  test 32 d i >>= fun _ =>
  storeNext d i >>= fun x =>
  scanFrom (· == 32) x.1 x.2 >>= fun code =>
  if x.1.length < code + 4 then .error .refused
  else
    testDigit x.1 code >>= fun _ =>
    testDigit x.1 (code + 1) >>= fun _ =>
    testDigit x.1 (code + 2) >>= fun _ =>
    test 32 x.1 (code + 3) >>= fun _ =>
    atoiEnd x.1 (x.1.length - code + 1) code >>= fun e =>
    scanFrom (· == 32) x.1 (code + 4) >>= fun reason =>
    delimFrom 0 0 x.1 reason >>= fun i =>
    storeNext x.1 i >>= fun y =>
    .ok ((.int (digitsVal ((x.1.drop code).take (e - code))), .ptr reason), 0, y.1, y.2)

def parseRequestLineChecked (d : Str) : Except Halt ((Word × Word) × Nat × Str × Nat) :=
  delimFrom 32 0 d 0 >>= fun i =>
  cutIn 32 d i >>= fun x =>
  scanFrom (· == 32) x.1 x.2 >>= fun uri =>
  delimFrom 32 0 x.1 uri >>= fun i =>
  cutIn 32 x.1 i >>= fun y =>
  scanFrom (· == 32) y.1 y.2 >>= fun proto =>
  delimFrom 0 0 y.1 proto >>= fun i =>
  storeNext y.1 i >>= fun z =>
  .ok ((.ptr 0, .ptr uri), proto, z.1, z.2)

def parseEolChecked (d : Str) (i : Nat) : Except Halt Nat :=
  scanFrom (· == 32) d i >>= fun i =>
  skipCrFrom d i >>= fun i =>
  testIn 10 d i >>= fun _ =>
  .ok (i + 1)

/-- The name of a header line, the blanks after it and the colon. -/
def nameChecked (d : Str) (name : Nat) : Except Halt (Str × Nat) :=
  delimFrom 32 58 d name >>= fun i =>
  if d.length ≤ i then .error .refused
  else
    load d i >>= fun c =>
    if c = 32 then storeNext d i >>= fun x => scanFrom (· == 32) x.1 x.2 >>= fun i => cutIn 58 x.1 i
    else cutIn 58 d i

/-- Where the value starts, the memory, and `i`. -/
def valueChecked (d : Str) (i : Nat) : Except Halt (Nat × Str × Nat) :=
  scanFrom (fun c => c == 32 || c == 9) d i >>= fun value =>
  delimFrom 0 0 d value >>= fun i =>
  storeNext d i >>= fun y =>
  testIn 10 y.1 y.2 >>= fun _ =>
  .ok (value, y.1, y.2 + 1)

def headerChecked (d : Str) (name : Nat) : Except Halt (Nat × Str × Nat) :=
  nameChecked d name >>= fun x => valueChecked x.1 x.2

/-- The pointers to the names and values, the memory, and `i`. -/
def parseHeadersChecked : Nat → List (Nat × Nat) → Str → Nat → Except Halt (List (Nat × Nat) × Str × Nat)
  | 0, _, _, _ => .error .endless
  | fuel + 1, fields, d, i =>
    skipCrFrom d i >>= fun name =>
    if name = d.length then .ok (fields, d, name)
    else
      load d name >>= fun c =>
      if c = 10 then .ok (fields, d, name + 1)
      else if c = 9 ∨ c = 32 then .error .refused
      else if maxFields ≤ fields.length then .error .overfull
      else headerChecked d name >>= fun x => parseHeadersChecked fuel (fields ++ [(name, x.1)]) x.2.1 x.2.2

/-- After the start line: `type`, `sl` and `proto_id`, the memory, and `i`. -/
structure Started where
  resp : Bool
  sl : Word × Word
  protoId : Nat
  msg : Str
  i : Nat

def startChecked (d : Str) : Except Halt Started :=
  if d.length < 4 then .error .refused
  else
    scanFrom (fun c => !(c == 32 || c == 47)) d 0 >>= fun i =>
    if i = d.length then .error .refused
    else
      load d i >>= fun c =>
      (if c = 47 then parseStatusChecked d else parseRequestLineChecked d) >>= fun x =>
      parseEolChecked x.2.2.1 x.2.2.2 >>= fun i =>
      .ok ⟨c == 47, x.1, x.2.1, x.2.2.1, i⟩

/-- `parse_pmsg` -/
def parsePmsgChecked (d : Str) : Except Halt (RawMsg × Nat) :=
  startChecked d >>= fun s =>
  parseHeadersChecked (s.msg.length - s.i + 1) [] s.msg s.i >>= fun y =>
  .ok (⟨y.2.1, s.resp, s.protoId, s.sl, y.1⟩, y.2.2)

/-! ## The loops end where the bytes ahead say -/

def skipAt (p : UInt8 → Bool) (d : Str) (i : Nat) : Nat := i + ((d.drop i).takeWhile p).length

def delimAt (term1 term2 : UInt8) (d : Str) (i : Nat) : Nat := i + (delim term1 term2 (d.drop i)).1.length

def skipCrAt (d : Str) (i : Nat) : Nat := if d[i]? = some 13 then i + 1 else i

section

variable {d r rest : Str} {i : Nat} {c : UInt8} {p : UInt8 → Bool}

theorem lt_of_drop (h : d.drop i = c :: r) : i < d.length := by
  by_contra hi
  rw [drop_eq_nil_of_le (Nat.not_lt.mp hi)] at h
  cases h

theorem drop_succ_of_drop (h : d.drop i = c :: r) : d.drop (i + 1) = r := by
  rw [← tail_drop, h, tail_cons]

theorem load_of_drop (h : d.drop i = c :: r) : load d i = .ok c := by
  rw [load, ← List.head?_drop, h]
  rfl

theorem load_of_lt (h : i < d.length) : load d i = .ok d[i] := load_of_drop (drop_eq_getElem_cons h)

theorem skipAt_succ (h : d.drop i = c :: r) (hp : p c) : skipAt p d i = skipAt p d (i + 1) := by
  rw [skipAt, h, takeWhile_cons_of_pos hp, length_cons, skipAt, drop_succ_of_drop h]
  omega

theorem skipAt_of_neg (h : d.drop i = c :: r) (hp : ¬ p c) : skipAt p d i = i := by
  rw [skipAt, h, takeWhile_cons_of_neg hp]
  rfl

theorem scan_eq (p : UInt8 → Bool) (d : Str) : ∀ (fuel i : Nat), d.length - i < fuel → scan p d fuel i = .ok (skipAt p d i)
  | fuel + 1, i, h => by
    rw [scan]
    cases hrest : d.drop i with
    | nil =>
      rw [if_neg (Nat.not_lt.mpr (drop_eq_nil_iff.mp hrest)), skipAt, hrest]
      rfl
    | cons c r =>
      have hlt := lt_of_drop hrest
      rw [if_pos hlt, load_of_drop hrest, ok_bind]
      by_cases hp : p c
      · rw [if_pos hp, scan_eq p d fuel (i + 1) (by omega), skipAt_succ hrest hp]
      · rw [if_neg hp, skipAt_of_neg hrest hp]

theorem scanFrom_eq (p : UInt8 → Bool) (d : Str) (i : Nat) : scanFrom p d i = .ok (skipAt p d i) :=
  scan_eq p d _ i (by omega)

theorem delimFrom_eq (t₁ t₂ : UInt8) (d : Str) (i : Nat) : delimFrom t₁ t₂ d i = .ok (delimAt t₁ t₂ d i) := by
  rw [delimFrom, scanFrom_eq, skipAt, delimAt, delim_eq]

theorem skipCrFrom_eq (d : Str) (i : Nat) : skipCrFrom d i = .ok (skipCrAt d i) := by
  unfold skipCrFrom skipCrAt
  by_cases hi : i < d.length
  · rw [if_pos hi, load_of_lt hi, List.getElem?_eq_getElem hi, ok_bind]
    simp
  · rw [if_neg hi, List.getElem?_eq_none (Nat.not_lt.mp hi), if_neg (by simp)]

theorem atoiEnd_eq (d : Str) : ∀ (fuel i : Nat), skipAt isDigit d i < d.length → d.length - i < fuel →
    atoiEnd d fuel i = .ok (skipAt isDigit d i)
  | fuel + 1, i, hend, h => by
    have hi : i < d.length := Nat.lt_of_le_of_lt (Nat.le_add_right ..) hend
    have hrest := drop_eq_getElem_cons hi
    rw [atoiEnd, load_of_lt hi, ok_bind]
    by_cases hp : isDigit d[i]
    · rw [skipAt_succ hrest hp] at hend ⊢
      rw [if_pos hp]
      exact atoiEnd_eq d fuel (i + 1) hend (by omega)
    · rw [if_neg hp, skipAt_of_neg hrest hp]

/-! ## The tests -/

theorem test_of_drop (h : d.drop i = c :: r) (x : UInt8) : test x d i = if c = x then .ok () else .error .refused := by
  rw [test, load_of_drop h, ok_bind]
  simp

theorem testIn_eq (x : UInt8) (h : d.drop i = rest) :
    testIn x d i = if rest.head? = some x then .ok () else .error .refused := by
  unfold testIn
  cases rest with
  | nil =>
    rw [if_pos (drop_eq_nil_iff.mp h)]
    rfl
  | cons c r =>
    rw [if_neg (Nat.not_le.mpr (lt_of_drop h)), test_of_drop h]
    simp

theorem testDigit_of_drop (h : d.drop i = c :: r) : testDigit d i = if isDigit c then .ok () else .error .refused := by
  rw [testDigit, load_of_drop h]
  rfl

variable {β : Type} (f : Nat → Except Halt β)

/-- The code of a response: three digits and a blank, and `atoi` of them. -/
theorem testCode_ok {a b c : UInt8} (h : d.drop i = a :: b :: c :: 32 :: r) (ha : isDigit a) (hb : isDigit b)
    (hc : isDigit c) : (if d.length < i + 4 then .error .refused
      else testDigit d i >>= fun _ => testDigit d (i + 1) >>= fun _ => testDigit d (i + 2) >>= fun _ =>
        test 32 d (i + 3) >>= fun _ => atoiEnd d (d.length - i + 1) i >>= f) = f (i + 3) := by
  have h₁ := drop_succ_of_drop h
  have h₂ := drop_succ_of_drop h₁
  have h₃ := drop_succ_of_drop h₂
  have hlt := lt_of_drop h₃
  have hend : skipAt isDigit d i = i + 3 := by
    rw [skipAt, h]
    simp [ha, hb, hc, show isDigit 32 = false from rfl]
  rw [if_neg (by omega), testDigit_of_drop h, testDigit_of_drop h₁, testDigit_of_drop h₂, test_of_drop h₃, if_pos ha, if_pos hb,
    if_pos hc, if_pos rfl, atoiEnd_eq d _ i (by omega) (by omega), hend]
  rfl

theorem testCode_refused (h : ∀ a b c r, d.drop i = a :: b :: c :: 32 :: r → ¬ (isDigit a ∧ isDigit b ∧ isDigit c)) :
    (if d.length < i + 4 then .error .refused
      else testDigit d i >>= fun _ => testDigit d (i + 1) >>= fun _ => testDigit d (i + 2) >>= fun _ =>
        test 32 d (i + 3) >>= fun _ => atoiEnd d (d.length - i + 1) i >>= f) = .error .refused := by
  by_cases hlen : d.length < i + 4
  · rw [if_pos hlen]
  have h₀ : d.drop i = d[i] :: d[i + 1] :: d[i + 2] :: d[i + 3] :: d.drop (i + 4) := by
    rw [drop_eq_getElem_cons (by omega), drop_eq_getElem_cons (by omega), drop_eq_getElem_cons (by omega),
      drop_eq_getElem_cons (by omega)]
  have h₁ := drop_succ_of_drop h₀
  have h₂ := drop_succ_of_drop h₁
  have h₃ := drop_succ_of_drop h₂
  rw [if_neg hlen, testDigit_of_drop h₀, testDigit_of_drop h₁, testDigit_of_drop h₂, test_of_drop h₃]
  split_ifs with ha hb hc h32
  · rw [h32] at h₀
    exact absurd ⟨ha, hb, hc⟩ (h _ _ _ _ h₀)
  all_goals rfl

end

end NuWicam.Rtsp
