import Mathlib.Data.List.Range
import NuWicam.Lib.Memory

/-!
# Text over a video frame (`TextOverlap.c`, `OverlapText` of `encoder-jpeg.c`)

A line of text is packed into one temporary image (`packTextImg`), converted to the colour format of the background
(`colorTrans`), and copied where its luma is not the colour key (`overlapBlocks`). Images are functions from byte offsets to
bytes. Offsets into the background are modulo `2^32`; the temporary images have room for all texts.
-/

namespace NuWicam.Media

open Lib

/-! ## Images -/

abbrev Image := Nat → UInt8

/-- A value as `uint32_t` -/
def u32 (n : Nat) : Nat := n % 2 ^ 32

inductive ColorFormat
  | rgb888
  | rgb555
  | rgb565
  | yuv422
  | yuv422P
  | yuv420
  | yuv420P
  | yuv420PMb
  deriving DecidableEq

/-- The handle `S_TEXT_OVERLAP` without the two temporary images, whose size is a `uint32_t` and exact. -/
structure TextOverlap where
  fontWidth : Nat
  fontHeight : Nat
  maxTexts : Nat
  colorKeyY : UInt32
  fits : fontWidth * fontHeight * maxTexts * 2 < 2 ^ 32

structure TextImages where
  textImg : Image
  textBGImg : Image

/-- `TextOverlap_Init` with the memory it asks for. Its caller sees to a size that does not wrap. -/
def textOverlapInit (fontWidth fontHeight : Nat) (bgColor : ColorFormat) (maxTexts : Nat) (colorKeyY : UInt32)
    (fits : fontWidth * fontHeight * maxTexts * 2 < 2 ^ 32) : Option TextOverlap :=
  let handle := ⟨fontWidth, fontHeight, maxTexts, colorKeyY, fits⟩
  match bgColor with
  | .yuv422 | .yuv422P | .yuv420 | .yuv420P => some handle
  | .yuv420PMb => if fontWidth % 8 = 0 ∧ fontHeight % 16 = 0 then some handle else none
  | _ => none

namespace TextOverlap

/-- `u32TextImgWidth` -/
def textWidth (h : TextOverlap) (num : Nat) : Nat := h.fontWidth * num

/-- `u8ColorKeyY` -/
def key (h : TextOverlap) : UInt8 := h.colorKeyY.toUInt8

end TextOverlap

/-! ## Packing and conversion -/

/-- A `memcpy` for each row of each glyph -/
def packWrites (h : TextOverlap) (glyph : Nat → Image) (num : Nat) : List (Nat × UInt8) :=
  (List.range num).flatMap fun i => (List.range h.fontHeight).flatMap fun y => (List.range (h.fontWidth * 2)).map fun k =>
    ((y * h.textWidth num + i * h.fontWidth) * 2 + k, glyph i (y * (h.fontWidth * 2) + k))

def packTextImg (h : TextOverlap) (glyph : Nat → Image) (num : Nat) (textImg : Image) : Image :=
  storeAll textImg (packWrites h glyph num)

/-- The low byte of `pu16SrcImg[p]` -/
def Image.luma (src : Image) (p : Nat) : UInt8 := src (2 * p)

/-- The high byte of `pu16SrcImg[p]` -/
def Image.chroma (src : Image) (p : Nat) : UInt8 := src (2 * p + 1)

/-- `(a + b) >> 1` -/
def average (a b : UInt8) : UInt8 := UInt8.ofNat ((a.toNat + b.toNat) / 2)

/-- A turn of the inner loop of `YUV422ToYUV420Planar_SW`, for `y = 2 * j` and `x = 2 * i` -/
def planarTurn (src : Image) (w h j i : Nat) : List (Nat × UInt8) :=
  let p := 2 * j * w + 2 * i
  let q := (2 * j + 1) * w + 2 * i
  let n := j * ((w + 1) / 2) + i
  [(p, src.luma p), (p + 1, src.luma (p + 1)), (q, src.luma q), (q + 1, src.luma (q + 1)),
    (w * h + n, average (src.chroma p) (src.chroma q)),
    (w * h + w * h / 4 + n, average (src.chroma (p + 1)) (src.chroma (q + 1)))]

def planarWrites (src : Image) (w h : Nat) : List (Nat × UInt8) :=
  (List.range ((h + 1) / 2)).flatMap fun j => (List.range ((w + 1) / 2)).flatMap fun i => planarTurn src w h j i

/-- Sizes and counters are `uint16_t`, and counters go by 2, so that a loop up to 65535 never ends. -/
def yuv422ToYuv420Planar (src dst : Image) (width height : Nat) : Option Image :=
  let w := width % 65536
  let h := height % 65536
  if h = 65535 ∨ (w = 65535 ∧ h ≠ 0) then none else some (storeAll dst (planarWrites src w h))

/-- `ImgProc_CST` from YUV422 has only one conversion, and otherwise does nothing. -/
def imgProcCst (dest : ColorFormat) (src dst : Image) (width height : Nat) : Option Image :=
  if dest = .yuv420P then yuv422ToYuv420Planar src dst width height else some dst

def colorTrans (bgColor : ColorFormat) (width height : Nat) (textImg textBGImg : Image) : Option Image :=
  if bgColor = .yuv422 then some fun a => if a < width * height * 2 then textImg a else textBGImg a
  else imgProcCst bgColor textImg textBGImg width height

/-! ## Blending -/

/-- Luma samples and their chroma samples, each as the offset in the background and the one in the text: each luma sample
that is not the colour key is copied, and the chroma samples with it -/
structure TextBlock where
  luma : List (Nat × Nat)
  chroma : List (Nat × Nat)

def TextBlock.writes (key : UInt8) (text : Image) (b : TextBlock) : List (Nat × UInt8) :=
  b.luma.flatMap fun l => if text l.2 ≠ key then (l :: b.chroma).map fun c => (c.1, text c.2) else []

def grid (rows cols : Nat) (f : Nat → Nat → TextBlock) : List TextBlock :=
  (List.range rows).flatMap fun j => (List.range cols).map (f j)

/-- For a text of `tw` and `th` on a background of width `w` -/
def overlapYuv422 (tw th w posX posY : Nat) : List TextBlock :=
  grid th ((tw + 1) / 2) fun y i =>
    let bg := (posY * w + posX) * 2 + y * (w * 2) + 4 * i
    let o := y * (tw * 2) + 4 * i
    ⟨[(u32 bg, o), (u32 (bg + 2), o + 2)], [(u32 (bg + 1), o + 1), (u32 (bg + 3), o + 3)]⟩

def overlapYuv420 (tw th w posX posY : Nat) : List TextBlock :=
  grid ((th + 1) / 2) ((tw + 1) / 2) fun j i =>
    let bg := u32 (posY * w + posX) / 2 * 3 + j * (w * 3) + 3 * i
    let bgNext := bg + w / 2 * 3
    let o := j * (tw * 3) + 3 * i
    let oNext := o + tw / 2 * 3
    ⟨[(u32 bg, o), (u32 (bg + 1), o + 1), (u32 bgNext, oNext), (u32 (bgNext + 1), oNext + 1)],
      [(u32 (bg + 2), o + 2), (u32 (bgNext + 2), oNext + 2)]⟩

def overlapYuv422P (tw th w h posX posY : Nat) : List TextBlock :=
  grid th ((tw + 1) / 2) fun y i =>
    let bgY := posY * w + posX + y * w + 2 * i
    let bgU := w * h + u32 (posY * w + posX) / 2 + y * (w / 2) + i
    let bgV := bgU + u32 (w * h) / 2
    let oY := y * tw + 2 * i
    let oU := tw * th + y * (tw / 2) + i
    let oV := oU + tw * th / 2
    ⟨[(u32 bgY, oY), (u32 (bgY + 1), oY + 1)], [(u32 bgU, oU), (u32 bgV, oV)]⟩

def overlapYuv420P (tw th w h posX posY : Nat) : List TextBlock :=
  grid ((th + 1) / 2) ((tw + 1) / 2) fun j i =>
    let bgY := posY * w + posX + j * (w * 2) + 2 * i
    let bgNext := bgY + w
    let bgU := w * h + (posY / 2 * (w / 2) + posX / 2) + j * (w / 2) + i
    let bgV := bgU + u32 (w * h) / 4
    let oY := j * (tw * 2) + 2 * i
    let oNext := oY + tw
    let oU := tw * th + j * (tw / 2) + i
    let oV := oU + tw * th / 4
    ⟨[(u32 bgY, oY), (u32 (bgY + 1), oY + 1), (u32 bgNext, oNext), (u32 (bgNext + 1), oNext + 1)],
      [(u32 bgU, oU), (u32 bgV, oV)]⟩

/-- Luma is in blocks of 16 times 16 bytes, and chroma in blocks of 16 rows, eight bytes of each. -/
def overlapYuv420MB (tw th w h posX posY : Nat) : List TextBlock :=
  (List.range (th / 16)).flatMap fun mbY => (List.range (tw / 16)).flatMap fun mbX => grid 8 8 fun j i =>
    let y := u32 (posY + 16 * mbY)
    let yPos := (y / 16 * (u32 (w + 15) / 16) + posX / 16) * 256 + (y % 16 * 16 + posX % 16)
    let uvPos := (y / 16 * ((w / 2 + 7) / 8) + posX / 2 / 8) * 128 + (y % 16 * 8 + posX / 2 % 8)
    let bgY := yPos + 256 * mbX + 32 * j + 2 * i
    let bgU := w * h + uvPos + 128 * mbX + 16 * j + i
    let mb := mbY * (tw / 16) + mbX
    let oY := 256 * mb + 32 * j + 2 * i
    let oU := tw * th + 128 * mb + 16 * j + i
    ⟨[(u32 bgY, oY), (u32 (bgY + 1), oY + 1), (u32 (bgY + 16), oY + 16), (u32 (bgY + 17), oY + 17)],
      [(u32 bgU, oU), (u32 (bgU + 8), oU + 8)]⟩

def overlapBlocks (bgColor : ColorFormat) (tw th w h posX posY : Nat) : List TextBlock :=
  match bgColor with
  | .yuv420PMb => overlapYuv420MB tw th w h posX posY
  | .yuv422 => overlapYuv422 tw th w posX posY
  | .yuv422P => overlapYuv422P tw th w h posX posY
  | .yuv420 => overlapYuv420 tw th w posX posY
  | .yuv420P => overlapYuv420P tw th w h posX posY
  | _ => []

/-! ## `TextOverlap_Overlap` -/

inductive OverlapError
  | invalidHandle
  | size
  | mbBoundary
  deriving DecidableEq

/-- `if (u32PosX & 0x01) u32PosX --` -/
def roundX (posX : Nat) : Nat := if posX % 2 = 1 then posX - 1 else posX

/-- The same for `u32PosY`, but only for the formats that share chroma between rows -/
def roundY (bgColor : ColorFormat) (posY : Nat) : Nat :=
  if (bgColor = .yuv420 ∨ bgColor = .yuv420P) ∧ posY % 2 = 1 then posY - 1 else posY

/-- The checks of `TextOverlap_Overlap` -/
def overlapError (o : TextOverlap) (num : Nat) (bgColor : ColorFormat) (h posX posY : Nat) : Option OverlapError :=
  if num > o.maxTexts then some .size
  else if u32 (posY + o.fontHeight) > h then some .size
  else if bgColor = .yuv420PMb ∧
      (u32 (o.textWidth num) % 16 ≠ 0 ∨ roundX posX % 16 ≠ 0 ∨ roundY bgColor posY % 16 ≠ 0) then some .mbBoundary
  else none

/-- What `TextOverlap_Overlap` does after its checks -/
def drawText (o : TextOverlap) (glyph : Nat → Image) (num : Nat) (bg : Image) (bgColor : ColorFormat)
    (w h posX posY : Nat) (temp : TextImages) : Option (Image × TextImages) :=
  let tw := o.textWidth num
  let th := o.fontHeight
  let textImg := packTextImg o glyph num temp.textImg
  (colorTrans bgColor tw th textImg temp.textBGImg).map fun textBGImg =>
    (storeAll bg ((overlapBlocks bgColor tw th w h (roundX posX) (roundY bgColor posY)).flatMap
      (TextBlock.writes o.key textBGImg)), ⟨textImg, textBGImg⟩)

/-- An error, or the new contents of the background and of the temporary images -/
def textOverlapOverlap (handle : Option TextOverlap) (glyph : Nat → Image) (num : Nat) (bg : Image) (bgColor : ColorFormat)
    (w h posX posY : Nat) (temp : TextImages) : Option (Except OverlapError (Image × TextImages)) :=
  match handle with
  | none => some (.error .invalidHandle)
  | some o => match overlapError o num bgColor h posX posY with
    | some e => some (.error e)
    | none => (drawText o glyph num bg bgColor w h posX posY temp).map .ok

/-! ## `OverlapText` -/

/-- `DEF_MAX_OVERLAP_TEXT` -/
def maxOverlapText : Nat := 32

/-- The handle that the JPEG encoder opens for its digits -/
def hTextOverlap : TextOverlap := ⟨8, 16, maxOverlapText, 0xFF, by decide⟩

inductive NmColorType
  | yuv420
  | yuv422
  | yuv420P
  | yuv422P
  | yuv420PMb
  | rgb565
  deriving DecidableEq

inductive DigitPic
  | digit (n : Nat)
  | colon
  | slash
  | blank

/-- The code book of `OverlapText` -/
def codeBook : Char → DigitPic
  | '0' => .digit 0
  | '1' => .digit 1
  | '2' => .digit 2
  | '3' => .digit 3
  | '4' => .digit 4
  | '5' => .digit 5
  | '6' => .digit 6
  | '7' => .digit 7
  | '8' => .digit 8
  | '9' => .digit 9
  | ':' => .colon
  | '/' => .slash
  | _ => .blank

/-- It does nothing for the others. -/
def overlapFormat : NmColorType → Option ColorFormat
  | .yuv420P => some .yuv420P
  | .yuv422 => some .yuv422
  | _ => none

def overlapPosX (width len : Nat) : Nat := u32 (width + (2 ^ 32 - u32 (len * 8))) / 2

/-- With the result of `TextOverlap_Overlap` if it is called -/
def overlapText (pic : DigitPic → Image) (handle : Option TextOverlap) (color : NmColorType) (width height : Nat) (bg : Image)
    (str : List Char) (temp : TextImages) : Option (Option (Except OverlapError (Image × TextImages))) :=
  (overlapFormat color).map fun bgColor =>
    textOverlapOverlap handle (fun i => pic (codeBook (str.getD i ' '))) str.length bg bgColor width height
      (overlapPosX width str.length) (2 * 16) temp

end NuWicam.Media
