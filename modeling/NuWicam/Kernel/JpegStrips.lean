import Mathlib.Algebra.Ring.Nat
import NuWicam.Kernel.Locks
import NuWicam.Lib.Intervals
import NuWicam.Lib.Turns

/-!
# Decoding a picture strip by strip (`jpegcodec.c`)

With `decopw_en` the JPEG engine decodes a picture in windows of whole rows of MCUs that have to find room in the destination
buffer. `jpegirq_handler` makes the plan in the first header interrupt (`header_spec`), and every decode-complete interrupt
copies a window out and programs the next one (`turn_inner`, `turn_last`, `run_spec`).
-/

namespace NuWicam.Kernel.Strips

open Lib Option

/-! ## The source -/

def u32 (n : Nat) : Nat := n % 4294967296

def usub (a b : Nat) : Nat := u32 (a + 4294967296 - b)

def udiv (a b : Nat) : Option Nat := if b = 0 then none else some (a / b)

inductive YuvFormat
  | yuv420
  | yuv422
  | yuv444
  | yuv411
  | gray
  | yuv422T
  deriving DecidableEq

inductive OutputFormat
  | planarYuv
  | packetYuv422
  | packetRgb555
  | packetRgb565
  | packetRgb888
  deriving DecidableEq

def OutputFormat.bytes : OutputFormat → Nat
  | .packetRgb888 => 4
  | _ => 2

/-- What the engine has read from the header, with the sizes as `w55fa93_Jpeg_GetDecodedDimension` delivers them -/
structure Picture where
  yuvformat : YuvFormat
  height : Nat
  width : Nat

def pack (high low : Nat) : Nat := u32 (high <<< 16 ||| low)

/-- `w55fa93_Jpeg_SetDimension`: what is written to `REG_JPRIWH` -/
def setDimension (u16Height u16Width : Nat) : Nat := pack (u16Height % 4096) (u16Width % 4096)

/-- `w55fa93_Jpeg_GetDimension`: the height and the width -/
def getDimension (jpriwh : Nat) : Nat × Nat := (jpriwh / 65536, jpriwh % 4096)

/-- The fields of `jpeg_priv_t` for a decode with `decopw_en`, for which `JPEG_S_PARAM` has set `dec_stride` to 0, and the
registers `REG_JPRIWH`, `REG_JWINDEC0` and `REG_JWINDEC1` -/
structure Priv where
  state : JpegState
  yuvformat : YuvFormat
  outputFormat : OutputFormat
  height : Nat
  width : Nat
  dstBufsize : Nat
  tnum : Nat
  tsize : Nat
  tcount : Nat
  mcux : Nat
  mcuy : Nat
  tmcuynum : Nat
  decopwEnd : Nat
  jpegAlignWidth : Nat
  jpegWidth : Nat
  jpriwh : Nat
  jwindec0 : Nat
  jwindec1 : Nat

/-- A store through `(__u16 *)`, which leaves the upper half of the field alone -/
def lowHalf (old v : Nat) : Nat := old / 65536 * 65536 + v

def align (unit x : Nat) : Nat := if x % unit ≠ 0 then u32 (x / unit * unit + unit) else x

def alignedWidth (yuvformat : YuvFormat) (width : Nat) : Nat :=
  match yuvformat with
  | .yuv411 => align 32 width
  | .yuv444 | .yuv422T => align 8 width
  | _ => align 16 width

def alignedHeight (outputFormat : OutputFormat) (yuvformat : YuvFormat) (height : Nat) : Nat :=
  if outputFormat = .planarYuv then
    match yuvformat with
    | .yuv420 | .yuv422T => align 16 height
    | _ => align 8 height
  else height

/-- The header interrupt up to `w55fa93_Jpeg_SetDimension` -/
def prepare (pic : Picture) (p : Priv) : Priv :=
  let height := alignedHeight p.outputFormat pic.yuvformat (lowHalf p.height pic.height)
  let width := alignedWidth pic.yuvformat (lowHalf p.width pic.width)
  { p with
    yuvformat := pic.yuvformat
    height
    width
    jpegAlignWidth := width
    jpegWidth := if p.jpegWidth > width then width else p.jpegWidth
    jpriwh := setDimension height width }

structure StripEnd where
  mcuYend : Nat
  tsize : Nat
  decopwEnd : Nat

def clampEnd (p : Priv) (mcuYstart : Nat) (e : StripEnd) : StripEnd :=
  if e.mcuYend > p.mcuy then
    let u32Diff := u32 (usub p.mcuy mcuYstart + 1)
    let u32Diff := if p.height % 16 ≠ 0 ∧ p.yuvformat ≠ .yuv420 then usub u32Diff 1 else u32Diff
    { mcuYend := p.mcuy, decopwEnd := 1, tsize := u32 (p.width * u32Diff * 16 * p.outputFormat.bytes) }
  else e

/-- Formats with MCUs of eight rows do without the last row of MCUs if no more than eight lines are left. -/
def cutEnd (p : Priv) (mcuYstart : Nat) (e : StripEnd) : StripEnd :=
  if e.mcuYend = p.mcuy ∧ (p.height % 16 ≠ 0 ∧ p.height % 16 < 9) ∧ p.yuvformat ≠ .yuv420 then
    { mcuYend := usub p.mcuy 1, decopwEnd := 1,
      tsize := u32 (p.width * (usub (usub p.mcuy 1) mcuYstart + 1) * 16 * p.outputFormat.bytes) }
  else e

def outputSize (p : Priv) (mcuYstart : Nat) (e : StripEnd) : StripEnd :=
  if e.mcuYend = p.mcuy ∨ e.decopwEnd = 1 then
    let u32Diff :=
      if e.mcuYend ≠ p.mcuy then u32 (16 * (usub e.mcuYend mcuYstart + 1)) else usub p.height (u32 (16 * mcuYstart))
    { e with tsize := u32 (p.width * u32Diff * p.outputFormat.bytes) }
  else e

/-- The end of the window that begins at `mcuYstart` -/
def stripEnd (p : Priv) (mcuYstart : Nat) : StripEnd :=
  outputSize p mcuYstart (cutEnd p mcuYstart (clampEnd p mcuYstart
    { mcuYend := usub (u32 ((p.tcount + 1) * p.tmcuynum)) 1, tsize := p.tsize, decopwEnd := p.decopwEnd }))

def program (p : Priv) (mcuYstart : Nat) (e : StripEnd) : Priv :=
  let p := { p with jwindec0 := pack mcuYstart 0, tsize := e.tsize, decopwEnd := e.decopwEnd }
  if e.mcuYend < mcuYstart then { p with state := .decodedImage }
  else { p with jwindec1 := pack e.mcuYend p.mcux }

/-- `decopw_mcuy` -/
def lastMcuRow (height : Nat) : Nat := if height % 16 ≠ 0 then u32 (usub (height / 16) 1 + 1) else usub (height / 16) 1

/-- The plan in the header interrupt with `decopw_tcount == 0`, and `u32BufferSize` -/
def plan (p : Priv) (u16Width : Nat) : Option (Priv × Nat) := do
  let mcuy := lastMcuRow p.height
  let height := align 16 p.height
  let lines ← udiv p.dstBufsize u16Width
  let u32BufferSize := lines / p.outputFormat.bytes
  let tmcuynum := if u32BufferSize / 16 > mcuy then mcuy else u32BufferSize / 16
  let tsize := u32 (u16Width * tmcuynum * 16 * p.outputFormat.bytes)
  let totalBufferSize := u32 (height * u16Width * p.outputFormat.bytes)
  let tnum ← udiv totalBufferSize tsize
  let tnum := if totalBufferSize % tsize ≠ 0 then u32 (tnum + 1) else tnum
  return ({ p with mcuy, mcux := usub (u16Width / 16) 1, tmcuynum, tsize, tnum }, u32BufferSize)

def firstStrip (p : Priv) (u32BufferSize : Nat) : Priv :=
  if u32BufferSize < 1 then { p with state := .memShortage, tcount := 0, decopwEnd := 0 }
  else
    let p := { p with state := .decodedHeader }
    let mcuYstart := u32 (p.tcount * p.tmcuynum)
    program p mcuYstart (stripEnd p mcuYstart)

/-- `jpegirq_handler` for `DHE_INTS` -/
def headerInterrupt (pic : Picture) (p : Priv) : Option Priv := do
  let p := prepare pic p
  if p.tcount ≠ 0 then return { p with state := .decodedHeader }
  let (p, u32BufferSize) ← plan p (p.width % 65536)
  return firstStrip p u32BufferSize

/-- In the decode-complete interrupt a window that ends with the picture also sets `decopw_end`. -/
def markEnd (p : Priv) (e : StripEnd) : StripEnd :=
  if e.mcuYend = p.mcuy ∨ e.decopwEnd = 1 then { e with decopwEnd := 1 } else e

/-- `jpegirq_handler` for `DEC_INTS`, with the number of rows that it has copied -/
def decodeComplete (p : Priv) : Option (Priv × Nat) := do
  let p := { p with
    height := lowHalf p.height (getDimension p.jpriwh).1
    width := lowHalf p.width (getDimension p.jpriwh).2 }
  let row ← udiv p.tsize p.jpegAlignWidth
  let row := row / p.outputFormat.bytes
  if usub p.tnum 1 = p.tcount then return ({ p with width := p.jpegWidth, state := .decodedImage }, row)
  let p := { p with tcount := u32 (p.tcount + 1) }
  let mcuYstart := u32 (p.tcount * p.tmcuynum)
  return (program p mcuYstart (markEnd p (stripEnd p mcuYstart)), row)

/-! ## The engine -/

structure Strip where
  first : Nat
  last : Nat
  rows : Nat

structure Decoder where
  priv : Priv
  strips : List Strip

/-- The engine completes its window and starts over with the header of the same picture for the next one. `none` if the
driver divides by zero. -/
def turn (pic : Picture) (d : Decoder) : Decoder ⊕ Option (List Strip) :=
  match decodeComplete d.priv with
  | none => .inr none
  | some (p, row) =>
    let strips := d.strips ++ [⟨d.priv.jwindec0 / 65536, d.priv.jwindec1 / 65536, row⟩]
    if p.state = .decodedImage then .inr (some strips)
    else match headerInterrupt pic p with
      | none => .inr none
      | some p => .inl ⟨p, strips⟩

/-! ## Words -/

section

variable {a b : Nat}

theorem u32_of_lt (h : a < 4294967296) : u32 a = a := Nat.mod_eq_of_lt h

theorem usub_of_le (hb : b ≤ a) (ha : a < 4294967296) : usub a b = a - b := by
  unfold usub u32
  omega

theorem pack_eq (ha : a < 65536) (hb : b < 65536) : pack a b = a * 65536 + b := by
  have hor : a <<< 16 ||| b = a * 65536 + b := by
    rw [← Nat.shiftLeft_add_eq_or_of_lt hb, Nat.shiftLeft_eq]
  rw [pack, hor, u32_of_lt (by omega)]

theorem lowHalf_of_lt (ha : a < 65536) (v : Nat) : lowHalf a v = v := by
  rw [lowHalf, Nat.div_eq_of_lt ha]
  omega

theorem align_of_lt (ha : a < 65536) : align 16 a = (a + 15) / 16 * 16 := by
  unfold align u32
  split <;> omega

theorem lastMcuRow_eq (hpos : 1 ≤ a) (ha : a < 65536) : lastMcuRow a = (a + 15) / 16 - 1 := by
  unfold lastMcuRow usub u32
  split <;> omega

end

/-! ## The header interrupt -/

def Picture.alignedWidth (pic : Picture) : Nat := (pic.width + 15) / 16 * 16

def Picture.mcuRows (pic : Picture) : Nat := (pic.height + 15) / 16

structure Picture.InRange (pic : Picture) : Prop where
  yuv420 : pic.yuvformat = .yuv420
  height_pos : 1 ≤ pic.height
  height_le : pic.height ≤ 4095
  width_ge : 16 ≤ pic.alignedWidth
  width_le : pic.alignedWidth ≤ 4080

/-- `priv->height` of such a picture in the header interrupt -/
def Picture.lines (pic : Picture) (o : OutputFormat) : Nat := if o = .planarYuv then pic.mcuRows * 16 else pic.height

/-- The upper halves are clear. Nothing resets them: a scaled decode to 65536 or more columns or rows leaves them set. -/
structure Plain (p : Priv) : Prop where
  height_lt : p.height < 65536
  width_lt : p.width < 65536

theorem bytes_cases (o : OutputFormat) : o.bytes = 2 ∨ o.bytes = 4 := by
  cases o <;> decide

section

variable {pic : Picture} {p : Priv} (hpic : pic.InRange)

include hpic

theorem lines_bounds (o : OutputFormat) :
    1 ≤ pic.lines o ∧ pic.lines o ≤ 4096 ∧ (pic.lines o + 15) / 16 = pic.mcuRows ∧ pic.mcuRows ≤ 256 := by
  have h₁ := hpic.height_pos
  have h₂ := hpic.height_le
  unfold Picture.lines Picture.mcuRows
  split <;> omega

theorem prepare_eq (hp : Plain p) : prepare pic p = { p with
    yuvformat := .yuv420
    height := pic.lines p.outputFormat
    width := pic.alignedWidth
    jpegAlignWidth := pic.alignedWidth
    jpegWidth := if p.jpegWidth > pic.alignedWidth then pic.alignedWidth else p.jpegWidth
    jpriwh := setDimension (pic.lines p.outputFormat) pic.alignedWidth } := by
  have hh := hpic.height_le
  have hw := hpic.width_le
  have hwidth : alignedWidth .yuv420 pic.width = pic.alignedWidth :=
    align_of_lt (by unfold Picture.alignedWidth at hw; omega)
  have hheight : alignedHeight p.outputFormat .yuv420 pic.height = pic.lines p.outputFormat := by
    unfold alignedHeight Picture.lines
    split
    · exact align_of_lt (by omega)
    · rfl
  unfold prepare
  rw [lowHalf_of_lt hp.height_lt, lowHalf_of_lt hp.width_lt, hpic.yuv420, hwidth, hheight]

theorem getDimension_eq (o : OutputFormat) :
    getDimension (setDimension (pic.lines o) pic.alignedWidth) = (pic.lines o % 4096, pic.alignedWidth) := by
  have hw := hpic.width_le
  rw [setDimension, pack_eq (by omega) (by omega), getDimension]
  congr 1 <;> omega

theorem u32_area (o : OutputFormat) {r : Nat} (hr : r ≤ 4096) :
    u32 (pic.alignedWidth * r * o.bytes) = pic.alignedWidth * r * o.bytes := by
  have hb : o.bytes ≤ 4 := by
    rcases bytes_cases o with h | h <;> omega
  have hall : pic.alignedWidth * r * o.bytes ≤ 4080 * 4096 * 4 := Nat.mul_le_mul (Nat.mul_le_mul hpic.width_le hr) hb
  exact u32_of_lt (by omega)

end

/-! ## One window -/

section

variable {p : Priv} {s : Nat}

theorem stripEnd_inner (hend : p.decopwEnd = 0) (hlt : usub (u32 ((p.tcount + 1) * p.tmcuynum)) 1 < p.mcuy) :
    stripEnd p s = ⟨usub (u32 ((p.tcount + 1) * p.tmcuynum)) 1, p.tsize, 0⟩ := by
  simp [stripEnd, clampEnd, cutEnd, outputSize, hend, Nat.not_lt_of_lt hlt, Nat.ne_of_lt hlt]

theorem stripEnd_last (hyuv : p.yuvformat = .yuv420) (hle : p.mcuy ≤ usub (u32 ((p.tcount + 1) * p.tmcuynum)) 1) :
    (stripEnd p s).mcuYend = p.mcuy ∧
      (stripEnd p s).tsize = u32 (p.width * usub p.height (u32 (16 * s)) * p.outputFormat.bytes) := by
  simp only [stripEnd, clampEnd, cutEnd, outputSize, hyuv, ne_eq, not_true_eq_false, and_false, if_false]
  rcases Nat.lt_or_eq_of_le hle with hlt | heq
  · simp [hlt]
  · simp [← heq]

theorem markEnd_eq (p : Priv) (e : StripEnd) : (markEnd p e).mcuYend = e.mcuYend ∧ (markEnd p e).tsize = e.tsize ∧
    (e.mcuYend ≠ p.mcuy → e.decopwEnd = 0 → (markEnd p e).decopwEnd = 0) := by
  unfold markEnd
  split
  · next h =>
    refine ⟨rfl, rfl, fun hne hend => ?_⟩
    rw [hend] at h
    exact absurd h (by simp [hne])
  · exact ⟨rfl, rfl, fun _ h => h⟩

end

/-- `rows` rows of MCUs are cut into `N` strips of `T` rows, of which the last one may be shorter. -/
structure Cut (rows T N : Nat) : Prop where
  pos : 0 < T
  lt : T < rows
  rows_le : rows ≤ 256
  last_lt : (N - 1) * T < rows
  le : rows ≤ N * T

theorem Cut.last_iff {rows T N j : Nat} (hc : Cut rows T N) (hj : j * T < rows) : N - 1 = j ↔ ¬ (j + 1) * T < rows := by
  have hle := hc.le
  constructor
  · rintro rfl
    have hmul : N * T ≤ (N - 1 + 1) * T := Nat.mul_le_mul_right T (by omega)
    omega
  · intro hge
    -- both `j` and `N - 1` begin in the picture
    have h₁ : j < N := Nat.lt_of_mul_lt_mul_right (Nat.lt_of_lt_of_le hj hle)
    have h₂ : N - 1 < j + 1 := Nat.lt_of_mul_lt_mul_right (Nat.lt_of_lt_of_le hc.last_lt (Nat.le_of_not_lt hge))
    omega

/-- `decopw_tnum` -/
def stripCount (rows T : Nat) : Nat := if rows % T ≠ 0 then rows / T + 1 else rows / T

theorem cut_stripCount {rows T : Nat} (hpos : 0 < T) (hlt : T < rows) (hrows : rows ≤ 256) :
    Cut rows T (stripCount rows T) := by
  have hdm := Nat.div_add_mod rows T
  have hmod := Nat.mod_lt rows hpos
  have hq : 0 < rows / T := Nat.div_pos (Nat.le_of_lt hlt) hpos
  rw [Nat.mul_comm] at hdm
  refine ⟨hpos, hlt, hrows, ?_, ?_⟩ <;> unfold stripCount <;> split
  · rw [Nat.add_sub_cancel]
    omega
  · have hle : (rows / T - 1) * T < rows / T * T := Nat.mul_lt_mul_of_pos_right (by omega) hpos
    omega
  · rw [Nat.add_one_mul]
    omega
  · omega

structure Planned (pic : Picture) (o : OutputFormat) (T N j : Nat) (p : Priv) : Prop extends Plain p where
  yuv420 : p.yuvformat = .yuv420
  output : p.outputFormat = o
  alignWidth : p.jpegAlignWidth = pic.alignedWidth
  jpriwh : p.jpriwh = setDimension (pic.lines o) pic.alignedWidth
  mcux : p.mcux < 65536
  mcuy : p.mcuy + 1 = pic.mcuRows
  tmcuynum : p.tmcuynum = T
  tnum : p.tnum = N
  tcount : p.tcount = j

/-- The lines of the strip `j`, as the driver computes them -/
def Picture.linesAt (pic : Picture) (o : OutputFormat) (T j : Nat) : Nat :=
  if (j + 1) * T < pic.mcuRows then T * 16 else usub (pic.lines o % 4096) (u32 (16 * (j * T)))

/-- The engine has the window of the strip `j`. -/
structure AtStrip (pic : Picture) (o : OutputFormat) (T N j : Nat) (p : Priv) : Prop extends Planned pic o T N j p where
  state : p.state = .decodedHeader
  first : p.jwindec0 / 65536 = j * T
  last : p.jwindec1 / 65536 + 1 = min ((j + 1) * T) pic.mcuRows
  tsize : p.tsize = u32 (pic.alignedWidth * pic.linesAt o T j * o.bytes)
  inner : (j + 1) * T < pic.mcuRows → p.decopwEnd = 0

section

variable {pic : Picture} {o : OutputFormat} {T N j : Nat} {p : Priv} (hpic : pic.InRange) (hc : Cut pic.mcuRows T N)

include hc

theorem atStrip_program (h : Planned pic o T N j p) (hj : j * T < pic.mcuRows) (hstate : p.state = .decodedHeader)
    (hend : p.decopwEnd = 0) (hsize : p.tsize = u32 (pic.alignedWidth * (T * 16) * o.bytes))
    (hwidth : p.width = pic.alignedWidth) (hheight : pic.mcuRows ≤ (j + 1) * T → p.height = pic.lines o % 4096)
    {e : StripEnd} {s : Nat} (hs : s = u32 (p.tcount * p.tmcuynum)) (hyend : e.mcuYend = (stripEnd p s).mcuYend)
    (htsize : e.tsize = (stripEnd p s).tsize)
    (hkeep : (stripEnd p s).mcuYend ≠ p.mcuy → (stripEnd p s).decopwEnd = 0 → e.decopwEnd = 0) :
    AtStrip pic o T N j (program p s e) := by
  have hrows := hc.rows_le
  have hpos := hc.pos
  have hmcuy := h.mcuy
  have hmul := Nat.add_one_mul j T
  have hlt := hc.lt
  have hstart : s = j * T := by
    rw [hs, h.tcount, h.tmcuynum, u32_of_lt (by omega)]
  have hx : usub (u32 ((p.tcount + 1) * p.tmcuynum)) 1 = (j + 1) * T - 1 := by
    rw [h.tcount, h.tmcuynum, u32_of_lt (by omega), usub_of_le (by omega) (by omega)]
  -- the end of the window, and what the computation leaves in the fields
  have key : e.mcuYend + 1 = min ((j + 1) * T) pic.mcuRows ∧
      e.tsize = u32 (pic.alignedWidth * pic.linesAt o T j * o.bytes) ∧ ((j + 1) * T < pic.mcuRows → e.decopwEnd = 0) := by
    unfold Picture.linesAt
    by_cases hin : (j + 1) * T < pic.mcuRows
    · have hlt : usub (u32 ((p.tcount + 1) * p.tmcuynum)) 1 < p.mcuy := by omega
      rw [stripEnd_inner hend hlt] at hyend htsize hkeep
      rw [if_pos hin, hyend, htsize]
      exact ⟨by dsimp only; omega, hsize, fun _ => hkeep (Nat.ne_of_lt hlt) rfl⟩
    · have hlast := stripEnd_last (s := s) h.yuv420 (by omega)
      rw [if_neg hin, hyend, htsize, hlast.1, hlast.2, hwidth, hheight (by omega), h.output, hstart]
      exact ⟨by omega, rfl, fun h => absurd h hin⟩
  obtain ⟨hlast, hsize', hinner⟩ := key
  have hwindow : pack s 0 / 65536 = j * T ∧ pack e.mcuYend p.mcux / 65536 = e.mcuYend := by
    have hmcux := h.mcux
    rw [pack_eq (by omega) (by omega), pack_eq (by omega) hmcux]
    omega
  unfold program
  rw [if_neg (by omega)]
  exact ⟨⟨⟨h.height_lt, h.width_lt⟩, h.yuv420, h.output, h.alignWidth, h.jpriwh, h.mcux, h.mcuy, h.tmcuynum, h.tnum, h.tcount⟩,
    hstate, hwindow.1, hwindow.2.symm ▸ hlast, hsize', hinner⟩

/-! ## One strip -/

omit hc in
theorem rows_eq (hpic : pic.InRange) (o : OutputFormat) {r : Nat} (hr : r ≤ 4096) :
    u32 (pic.alignedWidth * r * o.bytes) / pic.alignedWidth / o.bytes = r := by
  have hw := hpic.width_ge
  have hb : 0 < o.bytes := by
    rcases bytes_cases o with h | h <;> omega
  rw [u32_area hpic o hr, Nat.mul_assoc, Nat.mul_div_cancel_left _ (by omega), Nat.mul_div_cancel _ hb]

def Picture.next (pic : Picture) (o : OutputFormat) (p : Priv) : Priv :=
  { p with height := pic.lines o % 4096, width := pic.alignedWidth, tcount := u32 (p.tcount + 1) }

def Picture.nextWindow (pic : Picture) (o : OutputFormat) (p : Priv) : Priv :=
  let q := pic.next o p
  let s := u32 (q.tcount * q.tmcuynum)
  program q s (markEnd q (stripEnd q s))

omit hc in
theorem decodeComplete_eq (hpic : pic.InRange) (h : AtStrip pic o T N j p) {row : Nat}
    (hrow : row = u32 (pic.alignedWidth * pic.linesAt o T j * o.bytes) / pic.alignedWidth / o.bytes) :
    (usub p.tnum 1 = p.tcount → ∃ q, decodeComplete p = some (q, row) ∧ q.state = .decodedImage) ∧
    (usub p.tnum 1 ≠ p.tcount → decodeComplete p = some (pic.nextWindow o p, row)) := by
  have hne : pic.alignedWidth ≠ 0 := by
    have := hpic.width_ge
    omega
  unfold decodeComplete
  rw [lowHalf_of_lt h.height_lt, lowHalf_of_lt h.width_lt, h.jpriwh, getDimension_eq hpic, hrow]
  constructor
  · intro hlast
    simp only [udiv, h.alignWidth, h.tsize, h.output, if_neg hne, if_pos hlast, bind_eq_bind, bind_some,
      pure_def]
    exact ⟨_, rfl, rfl⟩
  · intro hnext
    simp only [udiv, h.alignWidth, h.tsize, h.output, h.jpriwh, if_neg hne, if_neg hnext, bind_eq_bind,
      bind_some, pure_def, Picture.nextWindow, Picture.next]

omit hc in
theorem header_again (hpic : pic.InRange) (h : AtStrip pic o T N j p) (hj : 0 < j) :
    ∃ q, headerInterrupt pic p = some q ∧ AtStrip pic o T N j q := by
  have hlines := (lines_bounds hpic o).2.1
  have hcols := hpic.width_le
  have hne : p.tcount ≠ 0 := by
    rw [h.tcount]
    omega
  unfold headerInterrupt
  rw [prepare_eq hpic h.toPlain, h.output]
  simp only [if_pos hne]
  refine ⟨_, rfl, ⟨⟨⟨?_, ?_⟩, rfl, rfl, rfl, rfl, h.mcux, h.mcuy, h.tmcuynum, h.tnum, h.tcount⟩, rfl, h.first, h.last, h.tsize,
    h.inner⟩⟩ <;> dsimp only <;> omega

theorem pred_eq_iff (h : Planned pic o T N j p) (hj : j * T < pic.mcuRows) :
    usub p.tnum 1 = p.tcount ↔ ¬ (j + 1) * T < pic.mcuRows := by
  have hpos := hc.pos
  have hle := hc.le
  have hrows := hc.rows_le
  have hlast := hc.last_lt
  have hN : N - 1 ≤ (N - 1) * T := Nat.le_mul_of_pos_right _ hpos
  have hone : 1 ≤ N := by
    rcases Nat.eq_zero_or_pos N with rfl | hN
    · omega
    · exact hN
  rw [h.tnum, h.tcount, usub_of_le hone (by omega)]
  exact hc.last_iff hj

/-- **A strip before the last one**: the engine goes on with the next window. -/
theorem turn_inner (hpic : pic.InRange) (h : AtStrip pic o T N j p) (hin : (j + 1) * T < pic.mcuRows) (strips : List Strip) :
    ∃ q, turn pic ⟨p, strips⟩ = .inl ⟨q, strips ++ [⟨j * T, (j + 1) * T - 1, T * 16⟩]⟩ ∧ AtStrip pic o T N (j + 1) q := by
  have hj : j * T < pic.mcuRows := Nat.lt_of_le_of_lt (Nat.mul_le_mul_right T (Nat.le_succ j)) hin
  have hrows := hc.rows_le
  have hlt := hc.lt
  have hcols := hpic.width_le
  have hjT : j ≤ j * T := Nat.le_mul_of_pos_right j hc.pos
  have hlast := h.last
  have hlines : pic.linesAt o T j = T * 16 := if_pos hin
  have hplan : Planned pic o T N (j + 1) (pic.next o p) := by
    refine ⟨⟨?_, ?_⟩, h.yuv420, h.output, h.alignWidth, h.jpriwh, h.mcux, h.mcuy, h.tmcuynum, h.tnum, ?_⟩ <;>
      dsimp only [Picture.next]
    · omega
    · omega
    · rw [h.tcount, u32_of_lt (by omega)]
  have hmark := markEnd_eq (pic.next o p) (stripEnd (pic.next o p) (u32 ((pic.next o p).tcount * (pic.next o p).tmcuynum)))
  have hat : AtStrip pic o T N (j + 1) (pic.nextWindow o p) :=
    atStrip_program hc hplan hin h.state (h.inner hin) (hlines ▸ h.tsize) rfl (fun _ => rfl) rfl hmark.1 hmark.2.1 hmark.2.2
  obtain ⟨q, hq, hqat⟩ := header_again hpic hat (by omega)
  have hrow := rows_eq hpic o (r := T * 16) (by omega)
  rw [← hlines] at hrow
  have hdone := (decodeComplete_eq hpic h hrow.symm).2 (mt (pred_eq_iff hc h.toPlanned hj).mp (not_not.mpr hin))
  have hyend : p.jwindec1 / 65536 = (j + 1) * T - 1 := by omega
  refine ⟨q, ?_, hqat⟩
  unfold turn
  simp [hdone, hat.state, hq, h.first, hyend, hlines]

/-- **The last strip.** -/
theorem turn_last (hpic : pic.InRange) (h : AtStrip pic o T N j p) (hj : j * T < pic.mcuRows)
    (hout : ¬ (j + 1) * T < pic.mcuRows) (strips : List Strip) :
    turn pic ⟨p, strips⟩ = .inr (some (strips ++ [⟨j * T, pic.mcuRows - 1,
      u32 (pic.alignedWidth * pic.linesAt o T j * o.bytes) / pic.alignedWidth / o.bytes⟩])) := by
  have hlast := h.last
  have hyend : p.jwindec1 / 65536 = pic.mcuRows - 1 := by omega
  obtain ⟨q, hdone, hstate⟩ := (decodeComplete_eq hpic h rfl).1 ((pred_eq_iff hc h.toPlanned hj).mpr hout)
  unfold turn
  simp [hdone, hstate, h.first, hyend]

/-! ## The whole picture -/

def innerStrips (T n : Nat) : List Strip := (List.range n).map fun j => ⟨j * T, (j + 1) * T - 1, T * 16⟩

omit hc in
theorem innerStrips_succ (T n : Nat) : innerStrips T (n + 1) = innerStrips T n ++ [⟨n * T, (n + 1) * T - 1, T * 16⟩] := by
  simp [innerStrips, List.range_succ]

def Picture.lastRows (pic : Picture) (o : OutputFormat) (T N : Nat) : Nat :=
  u32 (pic.alignedWidth * pic.linesAt o T (N - 1) * o.bytes) / pic.alignedWidth / o.bytes

def Picture.strips (pic : Picture) (o : OutputFormat) (T N : Nat) : List Strip :=
  innerStrips T (N - 1) ++ [⟨(N - 1) * T, pic.mcuRows - 1, pic.lastRows o T N⟩]

/-- **All strips**, from any one on. -/
theorem run_spec (hpic : pic.InRange) (h : AtStrip pic o T N j p) (hj : j * T < pic.mcuRows) :
    Returns (turn pic) ⟨p, innerStrips T j⟩ (some (pic.strips o T N)) := by
  induction hk : N - j generalizing j p with
  | zero =>
    have hle := Nat.mul_le_mul_right T (Nat.sub_eq_zero_iff_le.mp hk)
    have := hc.le
    omega
  | succ k ih =>
    by_cases hin : (j + 1) * T < pic.mcuRows
    · obtain ⟨q, hturn, hq⟩ := turn_inner hc hpic h hin (innerStrips T j)
      rw [← innerStrips_succ] at hturn
      obtain ⟨n, hn⟩ := ih hq hin (by omega)
      exact ⟨n + 1, (turns_succ_of_inl hturn n).trans hn⟩
    · obtain rfl := (hc.last_iff hj).mpr hin
      exact ⟨1, turns_succ_of_inr (turn_last hc hpic h hj hin _) 0⟩

end

/-! ## The plan -/

/-- Before the first header interrupt of a decode with `decopw_en`, as `Plain` allows it -/
structure Ready (p : Priv) : Prop extends Plain p where
  tcount : p.tcount = 0
  decopwEnd : p.decopwEnd = 0

/-- `decopw_tmcuynum`: the rows of MCUs that have room in the buffer, but never all of them -/
def Picture.stripRows (pic : Picture) (o : OutputFormat) (dst : Nat) : Nat :=
  min (dst / pic.alignedWidth / o.bytes / 16) (pic.mcuRows - 1)

section

variable {pic : Picture} {p : Priv} {o : OutputFormat} {T N : Nat} (hpic : pic.InRange)

include hpic

theorem tnum_eq (o : OutputFormat) (hpos : 0 < T) (hlt : T < pic.mcuRows) : u32 (pic.alignedWidth * T * 16 * o.bytes) ≠ 0 ∧
    (if u32 (pic.mcuRows * 16 * pic.alignedWidth * o.bytes) % u32 (pic.alignedWidth * T * 16 * o.bytes) ≠ 0
      then u32 (u32 (pic.mcuRows * 16 * pic.alignedWidth * o.bytes) / u32 (pic.alignedWidth * T * 16 * o.bytes) + 1)
      else u32 (pic.mcuRows * 16 * pic.alignedWidth * o.bytes) / u32 (pic.alignedWidth * T * 16 * o.bytes)) =
        stripCount pic.mcuRows T := by
  have hrows := (lines_bounds hpic o).2.2.2
  have hw := hpic.width_ge
  have hunit : 0 < pic.alignedWidth * 16 * o.bytes := by
    rcases bytes_cases o with h | h <;> rw [h] <;> omega
  have hsize : u32 (pic.alignedWidth * T * 16 * o.bytes) = pic.alignedWidth * 16 * o.bytes * T := by
    rw [Nat.mul_assoc pic.alignedWidth, u32_area hpic o (by omega)]
    ac_rfl
  have htotal : u32 (pic.mcuRows * 16 * pic.alignedWidth * o.bytes) = pic.alignedWidth * 16 * o.bytes * pic.mcuRows := by
    rw [Nat.mul_comm (pic.mcuRows * 16), u32_area hpic o (by omega)]
    ac_rfl
  have hmod : pic.alignedWidth * 16 * o.bytes * (pic.mcuRows % T) ≠ 0 ↔ pic.mcuRows % T ≠ 0 :=
    not_congr (Nat.mul_eq_zero.trans (or_iff_right (by omega)))
  have hle := Nat.div_le_self pic.mcuRows T
  rw [hsize, htotal, Nat.mul_div_mul_left _ _ hunit, Nat.mul_mod_mul_left, u32_of_lt (by omega), stripCount]
  refine ⟨Nat.mul_ne_zero (by omega) (by omega), ?_⟩
  simp only [hmod]

theorem header_spec (hp : Ready p) (ho : p.outputFormat = o) (hT : pic.stripRows o p.dstBufsize = T) :
    (T = 0 → headerInterrupt pic p = none) ∧
      (0 < T → ∃ q, headerInterrupt pic p = some q ∧ AtStrip pic o T (stripCount pic.mcuRows T) 0 q) := by
  obtain ⟨hpos, hle, hrows, hrows'⟩ := lines_bounds hpic o
  have hw := hpic.width_ge
  have hw' := hpic.width_le
  have hm : lastMcuRow (pic.lines o) = pic.mcuRows - 1 := by
    rw [lastMcuRow_eq hpos (by omega), hrows]
  have halign : align 16 (pic.lines o) = pic.mcuRows * 16 := by
    rw [align_of_lt (by omega), hrows]
  have ht : (if p.dstBufsize / pic.alignedWidth / o.bytes / 16 > pic.mcuRows - 1 then pic.mcuRows - 1
      else p.dstBufsize / pic.alignedWidth / o.bytes / 16) = T := by
    rw [← hT, Picture.stripRows]
    split <;> omega
  unfold headerInterrupt plan
  rw [prepare_eq hpic hp.toPlain, ho, hp.tcount]
  simp only [ne_eq, not_true_eq_false, if_false, Nat.mod_eq_of_lt (show pic.alignedWidth < 65536 by omega), hm, halign,
    show udiv p.dstBufsize pic.alignedWidth = some _ from if_neg (by omega), bind_eq_bind, bind_some, ht]
  constructor
  · rintro rfl
    simp [udiv, u32]
  · intro hTpos
    have hroom : 0 < p.dstBufsize / pic.alignedWidth / o.bytes / 16 ∧ T < pic.mcuRows := by
      rw [← hT, Picture.stripRows] at *
      omega
    have hcut := cut_stripCount hTpos hroom.2 hrows'
    obtain ⟨hne, htnum⟩ := tnum_eq hpic o hTpos hroom.2
    rw [show udiv _ (u32 (pic.alignedWidth * T * 16 * o.bytes)) = some _ from if_neg hne]
    refine ⟨_, rfl, ?_⟩
    simp only [firstStrip, if_neg (show ¬ p.dstBufsize / pic.alignedWidth / o.bytes < 1 by omega)]
    apply atStrip_program hcut
    · refine ⟨⟨?_, ?_⟩, rfl, rfl, rfl, rfl, ?_, ?_, rfl, htnum, rfl⟩ <;> dsimp only
      · omega
      · omega
      · rw [usub_of_le (by omega) (by omega)]
        omega
      · omega
    · omega
    · rfl
    · exact hp.decopwEnd
    · exact congrArg (fun n => u32 (n * o.bytes)) (Nat.mul_assoc pic.alignedWidth T 16)
    · rfl
    -- the first strip is not the last one
    · intro hge
      omega
    · rfl
    · rfl
    · rfl
    · exact fun _ h => h

end

/-! ## The strips cover the picture -/

def Strip.mcus (s : Strip) : Set Nat := Set.Icc s.first s.last

/-- No strip is empty, each begins behind the one before it, no two share a row, and together they have all rows. -/
structure Covers (rows : Nat) (strips : List Strip) : Prop where
  nonempty : ∀ s ∈ strips, s.first ≤ s.last
  consecutive : strips.IsChain fun s t => t.first = s.last + 1
  disjoint : strips.Pairwise fun s t => Disjoint s.mcus t.mcus
  cover : ∀ r, (∃ s ∈ strips, r ∈ s.mcus) ↔ r < rows

def Strip.output (s : Strip) (pic : Picture) (o : OutputFormat) : Nat :=
  pic.alignedWidth * o.bytes * 16 * (s.last + 1 - s.first)

structure Decoded (pic : Picture) (p : Priv) (strips : List Strip) : Prop where
  covers : Covers pic.mcuRows strips
  fits : ∀ s ∈ strips, s.output pic p.outputFormat ≤ p.dstBufsize
  rows : (strips.map Strip.rows).sum = pic.height

/-- **The header interrupt reports `JPEG_MEM_SHORTAGE`, or the strips are right**, and nothing is divided by zero. -/
def DecodesInStrips (pic : Picture) (p : Priv) : Prop :=
  ∃ q, headerInterrupt pic p = some q ∧ (q.state = .memShortage ∨
    q.state = .decodedHeader ∧ ∃ strips, Returns (turn pic) ⟨q, []⟩ (some strips) ∧ Decoded pic p strips)

section

variable {pic : Picture} {o : OutputFormat} {T N : Nat}

theorem endToEnd_inner (hT : 0 < T) (n : Nat) : EndToEnd Strip.first Strip.last 0 (innerStrips T n) (n * T) := by
  induction n with
  | zero => exact (Nat.zero_mul T).symm
  | succ n ih =>
    have hmul := Nat.add_one_mul n T
    have hsnoc := ih.snoc (x := ⟨n * T, (n + 1) * T - 1, T * 16⟩) rfl (by dsimp only; omega)
    rw [Nat.sub_add_cancel (by omega)] at hsnoc
    rw [innerStrips_succ]
    exact hsnoc

theorem sum_inner (T n : Nat) : ((innerStrips T n).map Strip.rows).sum = 16 * (n * T) := by
  induction n with
  | zero => simp [innerStrips]
  | succ n ih =>
    have hmul := Nat.add_one_mul n T
    rw [innerStrips_succ, List.map_append, List.sum_append, ih, List.map_singleton, List.sum_singleton]
    dsimp only
    omega

variable (hc : Cut pic.mcuRows T N)

include hc

theorem covers_strips (o : OutputFormat) : Covers pic.mcuRows (pic.strips o T N) := by
  have hlast := hc.last_lt
  have h := (endToEnd_inner hc.pos (N - 1)).snoc (x := ⟨(N - 1) * T, pic.mcuRows - 1, pic.lastRows o T N⟩) rfl
    (by dsimp only; omega)
  rw [Nat.sub_add_cancel (by omega)] at h
  refine ⟨h.lo_le_hi, h.isChain, h.pairwise_disjoint, fun r => (h.exists_mem_iff r).trans ?_⟩
  exact and_iff_right (by omega)

theorem output_le {dst : Nat} (hT : pic.stripRows o dst = T) : ∀ s ∈ pic.strips o T N, s.output pic o ≤ dst := by
  intro s hs
  have hrows : s.last + 1 - s.first ≤ T := by
    have hpos := hc.pos
    have hle := hc.le
    rcases List.mem_append.mp hs with hs | hs
    · obtain ⟨j, -, rfl⟩ := List.mem_map.mp hs
      have hmul := Nat.add_one_mul j T
      dsimp only
      omega
    · obtain rfl := List.mem_singleton.mp hs
      have hmul : N * T ≤ (N - 1 + 1) * T := Nat.mul_le_mul_right T (by omega)
      rw [Nat.add_one_mul] at hmul
      dsimp only
      omega
  have hroom : T ≤ dst / (pic.alignedWidth * o.bytes * 16) := by
    rw [← hT, Picture.stripRows, Nat.div_div_eq_div_mul, Nat.div_div_eq_div_mul, ← Nat.mul_assoc]
    omega
  calc s.output pic o ≤ pic.alignedWidth * o.bytes * 16 * (dst / (pic.alignedWidth * o.bytes * 16)) :=
      Nat.mul_le_mul_left _ (by omega)
    _ ≤ dst := Nat.mul_div_le _ _

variable (hpic : pic.InRange)

include hpic

theorem last_rows (o : OutputFormat) : (pic.lines o ≤ 4095 → 16 * ((N - 1) * T) + pic.lastRows o T N = pic.lines o) ∧
    (pic.lines o = 4096 → 4096 ≤ pic.lastRows o T N) := by
  obtain ⟨-, hle, hrows, -⟩ := lines_bounds hpic o
  have hlast := hc.last_lt
  have hout := (hc.last_iff hlast).mp rfl
  have hmul := Nat.add_one_mul (N - 1) T
  have hlt := hc.lt
  unfold Picture.lastRows Picture.linesAt
  rw [if_neg hout, u32_of_lt (a := 16 * ((N - 1) * T)) (by omega)]
  constructor
  · intro h
    rw [Nat.mod_eq_of_lt (by omega), usub_of_le (by omega) (by omega), rows_eq hpic o (by omega)]
    omega
  · intro h
    have hb : 0 < o.bytes ∧ o.bytes ≤ 4 := by
      rcases bytes_cases o with h | h <;> omega
    have hw := hpic.width_ge
    rw [h, Nat.le_div_iff_mul_le hb.1, Nat.le_div_iff_mul_le (by omega)]
    have hlow : 0 < pic.alignedWidth * (16 * ((N - 1) * T)) * o.bytes := Nat.mul_pos (Nat.mul_pos (by omega) (by omega)) hb.1
    have hhigh : pic.alignedWidth * (16 * ((N - 1) * T)) * o.bytes ≤ 4080 * 4096 * 4 :=
      Nat.mul_le_mul (Nat.mul_le_mul hpic.width_le (by omega)) hb.2
    have hwb : 4096 * o.bytes * pic.alignedWidth ≤ 4096 * 4 * 4080 :=
      Nat.mul_le_mul (by omega) hpic.width_le
    -- the lines are `2 ^ 32` less those before the strip
    have hsub : usub (4096 % 4096) (16 * ((N - 1) * T)) = 4294967296 - 16 * ((N - 1) * T) := by
      unfold usub u32
      omega
    have hsum : pic.alignedWidth * (4294967296 - 16 * ((N - 1) * T)) * o.bytes +
        pic.alignedWidth * (16 * ((N - 1) * T)) * o.bytes = pic.alignedWidth * o.bytes * 4294967296 := by
      rw [← Nat.add_mul, ← Nat.mul_add, Nat.sub_add_cancel (by omega), Nat.mul_right_comm]
    rw [hsub, u32]
    omega

theorem sum_rows_iff (o : OutputFormat) :
    ((pic.strips o T N).map Strip.rows).sum = pic.height ↔ (o = .planarYuv → pic.height % 16 = 0) := by
  obtain ⟨hlast, hover⟩ := last_rows hc hpic o
  have hheight := hpic.height_le
  rw [Picture.strips, List.map_append, List.sum_append, sum_inner, List.map_singleton, List.sum_singleton]
  unfold Picture.lines Picture.mcuRows at *
  by_cases ho : o = .planarYuv
  · simp only [ho, forall_const, if_true] at *
    omega
  · simp only [ho, false_imp_iff, iff_true, if_false] at *
    omega

omit hc in
theorem stripRows_pos_iff (o : OutputFormat) (dst : Nat) :
    0 < pic.stripRows o dst ↔ 16 < pic.height ∧ pic.alignedWidth * o.bytes * 16 ≤ dst := by
  have hw := hpic.width_ge
  have hunit : 0 < pic.alignedWidth * o.bytes * 16 := by
    rcases bytes_cases o with h | h <;> rw [h] <;> omega
  unfold Picture.stripRows Picture.mcuRows
  rw [Nat.div_div_eq_div_mul, Nat.div_div_eq_div_mul, ← Nat.mul_assoc, Nat.lt_min, Nat.div_pos_iff]
  omega

end

/-- **Strips are right** exactly with several rows of MCUs, room for one and, for planar output, a height in 16s. -/
theorem decodesInStrips_iff {pic : Picture} {p : Priv} (hp : Ready p) (hpic : pic.InRange) :
    DecodesInStrips pic p ↔ 16 < pic.height ∧ pic.alignedWidth * p.outputFormat.bytes * 16 ≤ p.dstBufsize ∧
      (p.outputFormat = .planarYuv → pic.height % 16 = 0) := by
  obtain ⟨hzero, hplan⟩ := header_spec hpic hp rfl rfl
  rw [← and_assoc, ← stripRows_pos_iff hpic]
  rcases Nat.eq_zero_or_pos (pic.stripRows p.outputFormat p.dstBufsize) with hT | hT
  · refine iff_of_false ?_ fun h => Nat.lt_irrefl 0 (hT ▸ h.1)
    rintro ⟨q, hq, -⟩
    rw [hzero hT] at hq
    cases hq
  · obtain ⟨q, hq, hat⟩ := hplan hT
    have hlt : pic.stripRows p.outputFormat p.dstBufsize < pic.mcuRows := by
      unfold Picture.stripRows at hT ⊢
      omega
    have hc := cut_stripCount hT hlt (lines_bounds hpic p.outputFormat).2.2.2
    have hrun := run_spec hc hpic hat (by omega)
    rw [← sum_rows_iff hc hpic]
    constructor
    · rintro ⟨q', hq', hq''⟩
      obtain rfl := some.inj (hq.symm.trans hq')
      rw [hat.state] at hq''
      obtain ⟨-, strips, hreturns, hdecoded⟩ := hq''.resolve_left (by decide)
      obtain rfl := some.inj (hreturns.unique hrun)
      exact ⟨hT, hdecoded.rows⟩
    · rintro ⟨-, hsum⟩
      exact ⟨q, hq, .inr ⟨hat.state, _, hrun, covers_strips hc _, output_le hc rfl, hsum⟩⟩

def start : Priv :=
  ⟨.decoding, .yuv420, .packetRgb565, 0, 0, 131072, 0, 0, 0, 0, 0, 0, 0, 0, 320, 0, 0, 0⟩

theorem decodesInStrips_qvga : DecodesInStrips ⟨.yuv420, 240, 320⟩ start :=
  (decodesInStrips_iff ⟨⟨by decide, by decide⟩, rfl, rfl⟩ ⟨rfl, by decide, by decide, by decide, by decide⟩).mpr
    ⟨by decide, by decide, nofun⟩

theorem plan_divides_by_zero : Picture.InRange ⟨.yuv420, 16, 320⟩ ∧
    headerInterrupt ⟨.yuv420, 16, 320⟩ start = none ∧ ¬ DecodesInStrips ⟨.yuv420, 16, 320⟩ start := by
  have hpic : Picture.InRange ⟨.yuv420, 16, 320⟩ := ⟨rfl, by decide, by decide, by decide, by decide⟩
  have hnone : headerInterrupt ⟨.yuv420, 16, 320⟩ start = none :=
    (header_spec hpic ⟨⟨by decide, by decide⟩, rfl, rfl⟩ rfl rfl).1 (by decide)
  refine ⟨hpic, hnone, ?_⟩
  rintro ⟨q, hq, -⟩
  cases hq

end NuWicam.Kernel.Strips
