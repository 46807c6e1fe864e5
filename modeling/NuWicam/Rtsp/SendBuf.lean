import NuWicam.Lib.CircBuf
import NuWicam.Lib.Run

/-!
# The send buffer of a connection (`tcp.c`, `rtsp.c`)

`send_data` appends to a circular buffer of 65536 bytes; `conn_write` and `tcp_conn_flush` hand stretches of it to `write()`,
whose results are an input of the two loops. A loop that has used up its results is one that is still going on.
-/

namespace NuWicam.Rtsp

open Lib List Option

/-! ## The functions of the source -/

/-- `sizeof(c->send_buf)` -/
def sendBufSize : Nat := 65536

structure SendSide where
  /-- `send_buf`, `send_buf_r` and `send_buf_w` -/
  buf : CircBuf UInt8
  /-- whether `write_event` is enabled -/
  writeEvent : Bool
  /-- `drop_after` -/
  dropAfter : Bool

/-- The buffer holds what `malloc` left there. -/
def SendSide.accept (mem : Nat → UInt8) : SendSide := ⟨⟨mem, 0, 0⟩, false, false⟩

def availSendBuf (c : SendSide) : Nat :=
  if c.buf.r > c.buf.w then c.buf.r - c.buf.w - 1 else sendBufSize - c.buf.w + c.buf.r - 1

/-- The returned value (`1`: no room) and the connection after it. -/
def sendData (c : SendSide) (d : List UInt8) : Nat × SendSide :=
  if availSendBuf c < d.length then (1, c)
  else (0, { c with buf := d.foldl (CircBuf.push sendBufSize) c.buf, writeEvent := true })

inductive WriteResult
  /-- a positive count -/
  | wrote (n : Nat)
  /-- `-1` with `errno == EAGAIN` -/
  | again
  /-- `0`, or `-1` with another `errno` -/
  | fail
deriving DecidableEq, Repr

inductive LoopEnd
  | drained
  | failed
  | waiting
deriving DecidableEq, Repr

/-- The buffer after the loop, the bytes `write()` took, and how it ended. `write()` is offered `CircBuf.stretch` bytes, and
a count outside `1 .. length` is no result of it. -/
def writeLoop (q : CircBuf UInt8) : List WriteResult → Option (CircBuf UInt8 × List UInt8 × LoopEnd)
  | [] => some (q, [], if q.r = q.w then .drained else .waiting)
  | res :: rest =>
    if q.r = q.w then some (q, [], .drained)
    else match res with
      | .again => writeLoop q rest
      | .fail => some (q, [], .failed)
      | .wrote n =>
        if 0 < n ∧ n ≤ q.stretch sendBufSize then
          (writeLoop (q.advance sendBufSize n) rest).map fun x => (x.1, q.front n ++ x.2.1, x.2.2)
        else none

/-- The connection after it (`none`: it called `drop_conn`) and the bytes `write()` took. -/
def connWrite (c : SendSide) (rs : List WriteResult) : Option (Option SendSide × List UInt8) :=
  (writeLoop c.buf rs).map fun x =>
    match x.2.2 with
    | .failed => (none, x.2.1)
    | .drained => (if c.dropAfter then none else some { c with buf := x.1, writeEvent := false }, x.2.1)
    | .waiting => (some { c with buf := x.1 }, x.2.1)

/-- It returns on an error and leaves the write event alone. -/
def tcpConnFlush (c : SendSide) (rs : List WriteResult) : Option (SendSide × List UInt8) :=
  (writeLoop c.buf rs).map fun x => ({ c with buf := x.1 }, x.2.1)

/-! ## Runs of one connection -/

inductive SendOp
  | send (d : List UInt8)
  | write (rs : List WriteResult)
  | flush (rs : List WriteResult)

/-- A connection (`none` after `drop_conn`), the data accepted so far and the bytes handed to `write()`. -/
structure SendRun where
  conn : Option SendSide
  accepted : List UInt8
  written : List UInt8

def sendStep (s : SendRun) : SendOp → Option SendRun
  | .send d => s.conn.map fun c =>
      { s with conn := some (sendData c d).2, accepted := s.accepted ++ if (sendData c d).1 = 0 then d else [] }
  | .write rs => s.conn.bind fun c => (connWrite c rs).map fun x =>
      { s with conn := x.1, written := s.written ++ x.2 }
  | .flush rs => s.conn.bind fun c => (tcpConnFlush c rs).map fun x =>
      { s with conn := some x.1, written := s.written ++ x.2 }

def SendSide.pending (c : SendSide) : List UInt8 := c.buf.contents sendBufSize

/-! ## What the functions keep -/

section

variable {c : SendSide}

theorem availSendBuf_add_pending (h : c.buf.Ok sendBufSize) : availSendBuf c + c.pending.length = 65535 := by
  have hr := h.r_lt
  have hw := h.w_lt
  rw [SendSide.pending, CircBuf.length_contents]
  unfold availSendBuf CircBuf.count
  unfold sendBufSize at *
  split <;> split <;> omega

theorem sendData_spec (h : c.buf.Ok sendBufSize) (d : List UInt8) : sendData c d = (1, c) ∨
      ((sendData c d).1 = 0 ∧ (sendData c d).2.buf.Ok sendBufSize ∧ (sendData c d).2.pending = c.pending ++ d) := by
  by_cases hfit : availSendBuf c < d.length
  · exact Or.inl (by rw [sendData, if_pos hfit])
  · have hroom : c.buf.count sendBufSize + d.length < sendBufSize := by
      have := availSendBuf_add_pending h
      rw [SendSide.pending, CircBuf.length_contents] at this
      unfold sendBufSize at *
      omega
    obtain ⟨hok, hcont⟩ := CircBuf.Ok.contents_pushAll d h hroom
    refine Or.inr ?_
    rw [sendData, if_neg hfit]
    exact ⟨rfl, hok, hcont⟩

end

/-- **The write loop** takes bytes from the front. -/
theorem writeLoop_spec : ∀ (rs : List WriteResult) {q : CircBuf UInt8}, q.Ok sendBufSize →
    ∀ {x : CircBuf UInt8 × List UInt8 × LoopEnd}, writeLoop q rs = some x →
      x.1.Ok sendBufSize ∧ x.2.1 ++ x.1.contents sendBufSize = q.contents sendBufSize
  | [], q, h, x, hx => by
    cases hx
    exact ⟨h, rfl⟩
  | res :: rest, q, h, x, hx => by
    unfold writeLoop at hx
    split at hx
    · cases hx
      exact ⟨h, rfl⟩
    · cases res with
      | again => exact writeLoop_spec rest h hx
      | fail =>
        cases hx
        exact ⟨h, rfl⟩
      | wrote n =>
        simp only at hx
        split at hx
        · rename_i hn
          obtain ⟨y, hy, rfl⟩ := map_eq_some_iff.mp hx
          obtain ⟨hok, hcont⟩ := writeLoop_spec rest (h.advance hn.2) hy
          refine ⟨hok, ?_⟩
          rw [append_assoc, hcont, h.front_append_contents hn.2]
        · cases hx

section

variable {c : SendSide} {rs : List WriteResult}

theorem tcpConnFlush_spec (h : c.buf.Ok sendBufSize) {x : SendSide × List UInt8} (hx : tcpConnFlush c rs = some x) :
    x.1.buf.Ok sendBufSize ∧ x.2 ++ x.1.pending = c.pending := by
  obtain ⟨y, hy, rfl⟩ := map_eq_some_iff.mp hx
  exact writeLoop_spec rs h hy

theorem connWrite_spec (h : c.buf.Ok sendBufSize) {x : Option SendSide × List UInt8} (hx : connWrite c rs = some x)
    {c' : SendSide} (hc : x.1 = some c') : c'.buf.Ok sendBufSize ∧ x.2 ++ c'.pending = c.pending := by
  obtain ⟨⟨q, taken, last⟩, hy, rfl⟩ := map_eq_some_iff.mp hx
  have hspec := writeLoop_spec rs h hy
  cases last with
  | failed => cases hc
  | waiting =>
    cases hc
    exact hspec
  | drained =>
    dsimp only at hc
    split at hc
    · cases hc
    · cases hc
      exact hspec

end

/-- While the connection is there, its indices are inside the buffer and nothing accepted is lost, reordered or duplicated.
-/
def SendRun.Fifo (s : SendRun) : Prop :=
  ∀ c, s.conn = some c → c.buf.Ok sendBufSize ∧ s.written ++ c.pending = s.accepted

/-- **One call keeps the FIFO.** -/
theorem sendStep_fifo {s s' : SendRun} {op : SendOp} (h : s.Fifo) (hs : sendStep s op = some s') : s'.Fifo := by
  obtain ⟨conn, accepted, written⟩ := s
  cases op with
  | send d =>
    obtain ⟨c, hc, rfl⟩ := map_eq_some_iff.mp hs
    obtain ⟨hok, hfifo⟩ := h c hc
    intro c' hc'
    cases hc'
    rcases sendData_spec hok d with href | ⟨hret, hok', hpend⟩
    · rw [href]
      exact ⟨hok, by simpa using hfifo⟩
    · refine ⟨hok', ?_⟩
      rw [hpend, if_pos hret, ← append_assoc, hfifo]
  | write rs =>
    obtain ⟨c, hc, hs⟩ := bind_eq_some_iff.mp hs
    obtain ⟨x, hx, rfl⟩ := map_eq_some_iff.mp hs
    obtain ⟨hok, hfifo⟩ := h c hc
    intro c' hc'
    obtain ⟨hok', hcont⟩ := connWrite_spec hok hx hc'
    refine ⟨hok', ?_⟩
    rw [append_assoc, hcont]
    exact hfifo
  | flush rs =>
    obtain ⟨c, hc, hs⟩ := bind_eq_some_iff.mp hs
    obtain ⟨x, hx, rfl⟩ := map_eq_some_iff.mp hs
    obtain ⟨hok, hfifo⟩ := h c hc
    obtain ⟨hok', hcont⟩ := tcpConnFlush_spec hok hx
    intro c' hc'
    cases hc'
    refine ⟨hok', ?_⟩
    rw [append_assoc, hcont]
    exact hfifo

def SendRun.start (mem : Nat → UInt8) : SendRun := ⟨some (SendSide.accept mem), [], []⟩

theorem start_fifo (mem : Nat → UInt8) : (SendRun.start mem).Fifo := by
  intro c hc
  cases hc
  have hpos : 0 < sendBufSize := by decide
  exact ⟨⟨hpos, hpos⟩, rfl⟩

/-- **The send buffer is a FIFO**, whatever `write()` does. -/
theorem send_buf_fifo (mem : Nat → UInt8) (ops : List SendOp) : Always sendStep (fun s => ∀ c, s.conn = some c →
      c.buf.r < 65536 ∧ c.buf.w < 65536 ∧ availSendBuf c + c.pending.length = 65535 ∧
      (∀ d, (sendData c d).1 = 1 → (sendData c d).2 = c) ∧
      s.written ++ c.pending = s.accepted) (SendRun.start mem) ops := by
  have hfifo : Always sendStep SendRun.Fifo (SendRun.start mem) ops :=
    always_of_step (fun _ _ _ => sendStep_fifo) (start_fifo mem)
  refine hfifo.mono fun s hs c hc => ?_
  obtain ⟨hok, hbytes⟩ := hs c hc
  refine ⟨hok.r_lt, hok.w_lt, availSendBuf_add_pending hok, fun d hd => ?_, hbytes⟩
  rcases sendData_spec hok d with href | ⟨hret, _⟩
  · rw [href]
  · rw [hret] at hd
    cases hd

/-! ## How long a write loop goes on -/

section Bound

variable {q : CircBuf UInt8} {rs : List WriteResult} {x : CircBuf UInt8 × List UInt8 × LoopEnd}

theorem writeLoop_waiting (h : q.Ok sendBufSize) (hx : writeLoop q rs = some x) (hwait : x.2.2 = .waiting) :
    rs.countP (· ≠ .again) < q.count sendBufSize := by
  induction rs generalizing q x with
  | nil =>
    cases hx
    split at hwait
    · cases hwait
    · rename_i hne
      have hcount := h.count_eq_zero
      rw [countP_nil]
      omega
  | cons res rest ih =>
    unfold writeLoop at hx
    split at hx
    · cases hx
      cases hwait
    · cases res with
      | again =>
        rw [countP_cons_of_neg (by simp)]
        exact ih h hx hwait
      | fail =>
        cases hx
        cases hwait
      | wrote n =>
        dsimp only at hx
        split at hx
        · rename_i hn
          obtain ⟨y, hy, rfl⟩ := map_eq_some_iff.mp hx
          have hrest := ih (h.advance hn.2) hy hwait
          rw [h.count_advance hn.2] at hrest
          rw [countP_cons_of_pos (by simp)]
          omega
        · cases hx

theorem writeLoop_singles (h : q.Ok sendBufSize) (hrs : ∀ r ∈ rs, r = .again ∨ r = .wrote 1) :
    ∃ x, writeLoop q rs = some x ∧ (rs.countP (· ≠ .again) < q.count sendBufSize → x.2.2 = .waiting) := by
  induction rs generalizing q with
  | nil =>
    refine ⟨_, rfl, fun hlt => ?_⟩
    have hcount := h.count_eq_zero
    rw [countP_nil] at hlt
    exact if_neg (by omega)
  | cons res rest ih =>
    rw [forall_mem_cons] at hrs
    unfold writeLoop
    by_cases hne : q.r = q.w
    · refine ⟨_, if_pos hne, fun hlt => ?_⟩
      rw [h.count_eq_zero.mpr hne] at hlt
      exact absurd hlt (by omega)
    · rw [if_neg hne]
      rcases hrs.1 with rfl | rfl
      · obtain ⟨x, hx, hwait⟩ := ih h hrs.2
        refine ⟨x, hx, fun hlt => hwait ?_⟩
        rwa [countP_cons_of_neg (by simp)] at hlt
      · have hone : 0 < 1 ∧ 1 ≤ q.stretch sendBufSize := ⟨by omega, h.stretch_pos hne⟩
        obtain ⟨x, hx, hwait⟩ := ih (h.advance hone.2) hrs.2
        dsimp only
        rw [if_pos hone, hx]
        refine ⟨_, rfl, fun hlt => hwait ?_⟩
        rw [countP_cons_of_pos (by simp)] at hlt
        rw [h.count_advance hone.2]
        omega

end Bound

def firstResults (w : Nat → WriteResult) (n : Nat) : List WriteResult := (List.range n).map w

/-- The call has returned when `write()` was called `n` times. -/
def ReturnsWithin (c : SendSide) (w : Nat → WriteResult) (n : Nat) : Prop :=
  ∃ x, writeLoop c.buf (firstResults w n) = some x ∧ x.2.2 ≠ .waiting

/-- `write()` never takes more than it is given. -/
def PossibleResults (c : SendSide) (w : Nat → WriteResult) : Prop := ∀ n, writeLoop c.buf (firstResults w n) ≠ none

theorem countP_firstResults {w : Nat → WriteResult} {again : Nat → Bool} (hw : ∀ i, w i = .again ↔ again i)
    (n : Nat) : (firstResults w n).countP (· ≠ .again) + (List.range n).countP again = n := by
  have hlen := length_eq_countP_add_countP again (l := List.range n)
  rw [length_range] at hlen
  have hcount : (firstResults w n).countP (· ≠ .again) = (List.range n).countP fun i => ¬ again i := by
    rw [firstResults, countP_map]
    refine countP_congr fun i _ => ?_
    simp [hw i]
  rw [hcount]
  omega

/-- **The write loops are bounded** exactly if `EAGAIN` is reported at most `k` times. -/
theorem write_calls_bounded_iff (c : SendSide) (h : c.buf.Ok sendBufSize) (again : Nat → Bool) (k : Nat) :
    (∀ w, (∀ i, w i = .again ↔ again i = true) → PossibleResults c w → ReturnsWithin c w (c.pending.length + k)) ↔
      (List.range (c.pending.length + k)).countP again ≤ k := by
  have hpend : c.pending.length = c.buf.count sendBufSize := CircBuf.length_contents
  constructor
  · intro hall
    by_contra hmany
    let w : Nat → WriteResult := fun i => if again i then .again else .wrote 1
    have hw : ∀ i, w i = .again ↔ again i := by
      intro i
      simp only [w]
      split <;> simp_all
    have hsingles : ∀ n, ∀ r ∈ firstResults w n, r = .again ∨ r = .wrote 1 := by
      intro n r hr
      obtain ⟨i, -, rfl⟩ := List.mem_map.mp hr
      simp only [w]
      split
      · exact .inl rfl
      · exact .inr rfl
    have hposs : PossibleResults c w := by
      intro n hnone
      obtain ⟨x, hx, -⟩ := writeLoop_singles h (hsingles n)
      rw [hnone] at hx
      cases hx
    obtain ⟨x, hx, hret⟩ := hall w hw hposs
    obtain ⟨y, hy, hwait⟩ := writeLoop_singles h (hsingles (c.pending.length + k))
    cases hx.symm.trans hy
    refine hret (hwait ?_)
    have hcount := countP_firstResults hw (c.pending.length + k)
    omega
  · intro hfew w hw hposs
    cases hx : writeLoop c.buf (firstResults w (c.pending.length + k)) with
    | none => exact absurd hx (hposs _)
    | some x =>
      refine ⟨x, hx, fun hwait => ?_⟩
      have hlt := writeLoop_waiting h hx hwait
      have hcount := countP_firstResults hw (c.pending.length + k)
      omega

def threeBytesSent : SendSide := (sendData (SendSide.accept fun _ => 0) [0, 1, 2]).2

theorem write_calls_bounded_threeBytesSent : threeBytesSent.pending.length = 3 ∧
      ∀ w, (∀ i, w i = .again ↔ (i % 2 == 0) = true) → PossibleResults threeBytesSent w →
        ReturnsWithin threeBytesSent w (3 + 3) :=
  ⟨by decide, (write_calls_bounded_iff threeBytesSent ⟨by decide, by decide⟩ (· % 2 == 0) 3).mpr (by decide)⟩

theorem writeLoop_stalled {q : CircBuf UInt8} (hne : q.r ≠ q.w) (n : Nat) :
    writeLoop q (firstResults (fun _ => .again) n) = some (q, [], .waiting) := by
  rw [firstResults, map_const', length_range]
  induction n with
  | zero =>
    rw [replicate_zero]
    unfold writeLoop
    rw [if_neg hne]
  | succ n ih =>
    rw [replicate_succ]
    unfold writeLoop
    rw [if_neg hne]
    exact ih

def oneByteSent : SendSide := (sendData (SendSide.accept fun _ => 0) [0]).2

theorem write_calls_unbounded_when_stalled : oneByteSent.pending.length = 1 ∧ PossibleResults oneByteSent (fun _ => .again) ∧
      ∀ n, ¬ ReturnsWithin oneByteSent (fun _ => .again) n := by
  have hne : oneByteSent.buf.r ≠ oneByteSent.buf.w := by decide
  refine ⟨by decide, fun n hn => ?_, fun n hn => ?_⟩
  · rw [writeLoop_stalled hne n] at hn
    cases hn
  · obtain ⟨x, hx, hret⟩ := hn
    rw [writeLoop_stalled hne n] at hx
    cases hx
    exact hret rfl

end NuWicam.Rtsp
