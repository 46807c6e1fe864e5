import Mathlib.Data.List.Forall2
import NuWicam.Lib.CString
import NuWicam.Lib.Lines

/-!
# Configuration files (`common.c`, `param.c`)

A configuration file has one parameter a line. A function is `none` where the source writes past the end of a buffer:
`ReadLine` stores the terminating `NUL` behind a full buffer, and `sscanf` knows nothing of the size of the value's. The main
results are `writeParamStr_isolated_iff` and `writeParamStr_round_trip`.
-/

namespace NuWicam.Cgi

open Lib List

/-! ## The source -/

/-- A carriage return ends a line too. -/
def eol (c : UInt8) : UInt8 := if c = 13 then 10 else c

/-- The loop of `ReadLine`: the bytes it stores, at most `n`, and what is left of the stream. -/
def takeLine : Nat → Str → Str × Str
  | 0, stream => ([], stream)
  | _ + 1, [] => ([], [])
  | n + 1, c :: stream =>
    if eol c = 10 then ([eol c], stream)
    else
      let (buf, rest) := takeLine n stream
      (eol c :: buf, rest)

/-- `ReadLine`: the string and what is left of the stream, `none` inside at its end. -/
def readLine (iBufByteSize : Nat) (stream : Str) : Option (Option (Str × Str)) :=
  let (buf, rest) := takeLine iBufByteSize stream
  if buf = [] then some none
  -- `pBuf[iReadBytes] = 0`
  else if buf.length = iBufByteSize then none
  else some (some (cstr buf, rest))

/-- `sizeof(pReadBuf)` -/
def readBufSize : Nat := 256

/-- `strstr(pReadBuf, strParamName) == pReadBuf` -/
def startsWith (name buf : Str) : Bool := strstr name buf == some buf

/-- `strstr(strParamName, "SSID") != NULL` -/
def quoted (name : Str) : Bool := (strstr (bytes "SSID") name).isSome

def paramLine (name value : Str) : Str :=
  if quoted name then name ++ bytes " \"" ++ value ++ bytes "\"\n" else name ++ bytes " " ++ value ++ bytes "\n"

/-- What is printed for the string in `pReadBuf`. -/
def rewriteLine (name value buf : Str) : Str := if startsWith name buf then paramLine name value else buf

/-- The loop of `WriteParamStr`: the texts that it prints. -/
def rewriteLoop (name value : Str) : Nat → Str → Option (List Str)
  | 0, _ => none
  | fuel + 1, stream =>
    match readLine readBufSize stream with
    | none => none
    | some none => some []
    | some (some (buf, rest)) =>
      (rewriteLoop name value fuel rest).map (rewriteLine name value buf :: ·)

def rewriteLines (name value file : Str) : Option (List Str) := rewriteLoop name value (file.length + 1) file

/-- `WriteParamStr`, where nothing fails. -/
def writeParamStr (name value file : Str) : Option Str := (rewriteLines name value file).map List.flatten

/-- `sscanf(pTmpPtr, " %s", strParamValue)` -/
def scanWord (s : Str) : Str := (s.dropWhile isSpace).takeWhile fun c => !isSpace c

/-- `sscanf(pTmpPtr, " \"%[^\"]s", strParamValue)` -/
def scanQuoted (s : Str) : Str :=
  match s.dropWhile isSpace with
  | 34 :: r => r.takeWhile (· != 34)
  | _ => []

def scanValue (name buf : Str) : Str :=
  let ptr := buf.drop name.length
  if quoted name then scanQuoted ptr else scanWord ptr

/-- `sscanf` of a line into `strParamValue`; nothing is stored where nothing is scanned. -/
def storeValue (name : Str) (iParamByteSize : Nat) (buf : Str) : Option Str :=
  if scanValue name buf ≠ [] ∧ iParamByteSize ≤ (scanValue name buf).length then none else some (scanValue name buf)

/-- The loop of `ReadParamStr`. -/
def readLoop (name : Str) (iParamByteSize : Nat) : Nat → Str → Option Str
  | 0, _ => none
  | fuel + 1, stream =>
    match readLine readBufSize stream with
    | none => none
    | some none => some []
    | some (some (buf, rest)) =>
      if startsWith name buf then storeValue name iParamByteSize buf else readLoop name iParamByteSize fuel rest

/-- `ReadParamStr`: its error, or the string in `strParamValue`. -/
def readParamStr (file : Option Str) (name : Str) (iParamByteSize : Nat) : Option (Except Int Str) :=
  if iParamByteSize = 0 then some (.error (-1))
  else match file with
    | none => some (.error (-3))
    | some file => (readLoop name iParamByteSize (file.length + 1) file).map .ok

/-! ## Reading lines -/

/-- The lines as `ReadLine` sees them. -/
def fileLines (file : Str) : List Str := lines 10 (file.map eol)

theorem eol_ne_cr (c : UInt8) : eol c ≠ 13 := by
  unfold eol
  split
  · decide
  · assumption

theorem takeLine_eq : ∀ (n : Nat) {stream l : Str} {ls : List Str}, fileLines stream = l :: ls →
    takeLine n stream = (l.take n, stream.drop (min n l.length))
  | _, [], _, _, h => by cases h
  | 0, c :: stream, l, ls, _ => by simp [takeLine]
  | n + 1, c :: stream, l, ls, h => by
    have hcases := lines_cons_cases 10 (eol c) (stream.map eol)
    rcases hcases with ⟨hc, h'⟩ | ⟨hc, hnil, h'⟩ | ⟨hc, l', ls', hls, h'⟩
    · cases h.symm.trans h'
      simp [takeLine, hc]
    · cases h.symm.trans h'
      cases map_eq_nil_iff.mp hnil
      cases n <;> simp [takeLine, hc]
    · cases h.symm.trans h'
      have ih := takeLine_eq n hls
      simp [takeLine, hc, ih, Nat.succ_min_succ]

variable {l : Str} {ls : List Str} (value : Str) {name file : Str}

theorem readLine_eq {size : Nat} (hsize : 0 < size) {stream : Str} (h : fileLines stream = l :: ls) :
    readLine size stream = if l.length < size then some (some (cstr l, stream.drop l.length)) else none := by
  have hne : l ≠ [] := ne_nil_of_lines h
  have htake : l.take size ≠ [] := by
    rw [Ne, take_eq_nil_iff, not_or]
    exact ⟨by omega, hne⟩
  simp only [readLine, takeLine_eq size h, if_neg htake, length_take]
  by_cases hlen : l.length < size
  · rw [if_neg (by omega), if_pos hlen, take_of_length_le (by omega), Nat.min_eq_right (by omega)]
  · rw [if_pos (by omega), if_neg hlen]

theorem fileLines_drop {stream : Str} (h : fileLines stream = l :: ls) :
    fileLines (stream.drop l.length) = ls ∧ stream.length = l.length + (stream.drop l.length).length := by
  have hflat : l ++ ls.flatten = stream.map eol := by
    rw [← flatten_cons, ← show lines 10 (stream.map eol) = l :: ls from h, flatten_lines]
  have hlen : l.length ≤ stream.length := by
    have := congrArg List.length hflat
    rw [length_append, length_map] at this
    omega
  refine ⟨?_, by rw [length_drop]; omega⟩
  rw [fileLines, map_drop, ← hflat, drop_left]
  exact lines_eq_cons h

/-- Every line fits into the buffer of `ReadLine`, with its `NUL`. -/
def LinesFit (ls : List Str) : Prop := ∀ l ∈ ls, l.length < readBufSize

instance (ls : List Str) : Decidable (LinesFit ls) := List.decidableBAll _ ls

theorem linesFit_cons : LinesFit (l :: ls) ↔ l.length < readBufSize ∧ LinesFit ls :=
  forall_mem_cons

theorem rewriteLoop_eq (name value : Str) : ∀ (fuel : Nat) {stream : Str}, stream.length < fuel →
    rewriteLoop name value fuel stream = if LinesFit (fileLines stream) then
      some ((fileLines stream).map fun l => rewriteLine name value (cstr l)) else none
  | 0, _, h => by omega
  | fuel + 1, stream, hfuel => by
    rw [rewriteLoop]
    cases h : fileLines stream with
    | nil =>
      cases List.map_eq_nil_iff.mp (lines_eq_nil.mp h)
      rfl
    | cons l ls =>
      obtain ⟨hrest, hlen⟩ := fileLines_drop h
      have hpos : 0 < l.length := length_pos_iff.mpr (ne_nil_of_lines h)
      have hlt : (stream.drop l.length).length < fuel := by omega
      have ih := rewriteLoop_eq name value fuel hlt
      rw [hrest] at ih
      rw [readLine_eq (by decide) h]
      by_cases hl : l.length < readBufSize
      · rw [if_pos hl]
        dsimp only
        rw [ih]
        by_cases hfit : LinesFit ls
        · rw [if_pos hfit, if_pos (linesFit_cons.mpr ⟨hl, hfit⟩)]
          rfl
        · rw [if_neg hfit, if_neg fun h => hfit (linesFit_cons.mp h).2]
          rfl
      · rw [if_neg hl, if_neg fun h => hl (linesFit_cons.mp h).1]

theorem rewriteLines_eq (name value file : Str) : rewriteLines name value file = if LinesFit (fileLines file) then
      some ((fileLines file).map fun l => rewriteLine name value (cstr l)) else none :=
  rewriteLoop_eq name value _ (by omega)

/-- The lines up to the first that starts with the name. -/
def linesUpTo (name : Str) : List Str → List Str
  | [] => []
  | l :: ls => if startsWith name (cstr l) then [l] else l :: linesUpTo name ls

theorem LinesFit.linesUpTo : ∀ {ls : List Str}, LinesFit ls → LinesFit (linesUpTo name ls)
  | [], h => h
  | l :: ls, h => by
    rw [linesFit_cons] at h
    rw [Cgi.linesUpTo]
    split
    · exact linesFit_cons.mpr ⟨h.1, nofun⟩
    · exact linesFit_cons.mpr ⟨h.1, h.2.linesUpTo⟩

theorem readLoop_lines (name : Str) (size : Nat) : ∀ (fuel : Nat) {stream : Str}, stream.length < fuel →
    readLoop name size fuel stream = if LinesFit (linesUpTo name (fileLines stream)) then
      (((fileLines stream).map cstr).find? (startsWith name)).elim (some []) (storeValue name size) else none
  | 0, _, h => by omega
  | fuel + 1, stream, hfuel => by
    rw [readLoop]
    cases h : fileLines stream with
    | nil =>
      cases List.map_eq_nil_iff.mp (lines_eq_nil.mp h)
      rfl
    | cons l ls =>
      obtain ⟨hrest, hlen⟩ := fileLines_drop h
      have hpos : 0 < l.length := length_pos_iff.mpr (ne_nil_of_lines h)
      have hlt : (stream.drop l.length).length < fuel := by omega
      have ih := readLoop_lines name size fuel hlt
      rw [hrest] at ih
      rw [readLine_eq (by decide) h, linesUpTo, map_cons, List.find?_cons]
      by_cases hl : l.length < readBufSize
      · rw [if_pos hl]
        dsimp only
        cases startsWith name (cstr l) with
        | true => simp [LinesFit, hl]
        | false => simp [ih, linesFit_cons, hl]
      · rw [if_neg hl, if_neg]
        split
        · exact fun h => hl (linesFit_cons.mp h).1
        · exact fun h => hl (linesFit_cons.mp h).1

/-! ## Isolation -/

theorem startsWith_iff {buf : Str} : startsWith name buf ↔ name <+: buf := by
  rw [startsWith, beq_iff_eq]
  exact ⟨strstr_starts, strstr_start⟩

theorem rewriteLine_match {buf : Str} (h : name <+: buf) :
    rewriteLine name value buf = paramLine name value := if_pos (startsWith_iff.mpr h)

theorem rewriteLine_other {buf : Str} (h : ¬ name <+: buf) : rewriteLine name value buf = buf :=
  if_neg fun hs => h (startsWith_iff.mp hs)

def key (l : Str) : Str := l.takeWhile fun c => c != 32 && c != 10

/-- `WriteParamStr` replaces only lines with the key `name`, and copies the others in their order. -/
def WritesOnly (name value file : Str) : Prop :=
  ∃ outs, rewriteLines name value file = some outs ∧
    List.Forall₂ (fun l out => out = l ∨ key l = name ∧ out = paramLine name value) (lines 10 file) outs

theorem fileLines_eq (hcr : (13 : UInt8) ∉ file) : fileLines file = lines 10 file := by
  have hmap : file.map eol = file := by
    conv_rhs => rw [← List.map_id file]
    refine map_congr_left fun c hc => if_neg ?_
    rintro rfl
    exact hcr hc
  rw [fileLines, hmap]

theorem mem_of_mem_lines (hl : l ∈ lines 10 file) {c : UInt8} (hc : c ∈ l) : c ∈ file := by
  rw [← flatten_lines 10 file]
  exact mem_flatten.mpr ⟨l, hl, hc⟩

/-- **`WriteParamStr` writes no other parameter** exactly if the lines fit and the name is no proper prefix of a key. -/
theorem writeParamStr_isolated_iff (name value file : Str) (hcr : (13 : UInt8) ∉ file) (hnul : (0 : UInt8) ∉ file) :
    WritesOnly name value file ↔ LinesFit (lines 10 file) ∧
      ∀ l ∈ lines 10 file, name <+: l → key l = name ∨ l = paramLine name value := by
  have hcstr : ∀ l ∈ lines 10 file, cstr l = l := fun l hl => cstr_eq fun h0 => hnul (mem_of_mem_lines hl h0)
  have houts : (lines 10 file).map (fun l => rewriteLine name value (cstr l)) =
      (lines 10 file).map (rewriteLine name value) :=
    map_congr_left fun l hl => congrArg _ (hcstr l hl)
  unfold WritesOnly
  rw [rewriteLines_eq, fileLines_eq hcr, houts]
  constructor
  · rintro ⟨outs, hrun, hall⟩
    split at hrun
    · rename_i hfit
      cases hrun
      rw [forall₂_map_right_iff, forall₂_same] at hall
      refine ⟨hfit, fun l hl hpre => ?_⟩
      rcases hall l hl with heq | ⟨hkey, -⟩
      · rw [rewriteLine_match value hpre] at heq
        exact .inr heq.symm
      · exact .inl hkey
    · cases hrun
  · rintro ⟨hfit, hkey⟩
    refine ⟨_, if_pos hfit, ?_⟩
    rw [forall₂_map_right_iff, forall₂_same]
    intro l hl
    by_cases hpre : name <+: l
    · rw [rewriteLine_match value hpre]
      exact (hkey l hl hpre).symm.imp Eq.symm fun hk => ⟨hk, rfl⟩
    · exact .inl (rewriteLine_other value hpre)

theorem writeParamStr_keeps_address : LinesFit (lines 10 (bytes "IPADDR 10.0.0.1\nSSID \"old\"\n")) ∧
    WritesOnly (bytes "SSID") (bytes "new") (bytes "IPADDR 10.0.0.1\nSSID \"old\"\n") ∧
    writeParamStr (bytes "SSID") (bytes "new") (bytes "IPADDR 10.0.0.1\nSSID \"old\"\n") =
      some (bytes "IPADDR 10.0.0.1\nSSID \"new\"\n") :=
  ⟨by decide, (writeParamStr_isolated_iff _ _ _ (by decide) (by decide)).mpr ⟨by decide, by decide⟩, by decide⟩

theorem writeParamStr_prefix_key : ¬ WritesOnly (bytes "SSID") (bytes "new") (bytes "SSID_5G \"old\"\n") := by
  rintro ⟨outs, hrun, hall⟩
  have heval : rewriteLines (bytes "SSID") (bytes "new") (bytes "SSID_5G \"old\"\n") =
      some [bytes "SSID \"new\"\n"] := by decide
  have hlines : lines 10 (bytes "SSID_5G \"old\"\n") = [bytes "SSID_5G \"old\"\n"] := by decide
  cases hrun.symm.trans heval
  rw [hlines, forall₂_cons] at hall
  exact absurd hall.1 (by decide)

/-! ## Round trip -/

theorem key_starts (l : Str) : key l <+: l := List.takeWhile_prefix _

theorem mem_key {c : UInt8} (h : c ∈ key l) : c ≠ 32 ∧ c ≠ 10 := by
  simpa using mem_takeWhile_imp h

def Plain (v : Str) : Prop := ∀ c ∈ v, isSpace c = false ∧ c ≠ 34 ∧ c ≠ 0

instance (v : Str) : Decidable (Plain v) := List.decidableBAll _ v

theorem prefix_paramLine (name value : Str) : name <+: paramLine name value := by
  unfold paramLine
  split <;> simp only [append_assoc] <;> exact prefix_append _ _

theorem mem_paramLine {value : Str} {c : UInt8} (h : c ∈ paramLine name value) :
    c ∈ name ∨ c ∈ value ∨ c = 32 ∨ c = 34 ∨ c = 10 := by
  have hopen : bytes " \"" = [32, 34] := by decide
  have hclose : bytes "\"\n" = [34, 10] := by decide
  have hblank : bytes " " = [32] := by decide
  have hend : bytes "\n" = [10] := by decide
  unfold paramLine at h
  split at h
  · simp only [hopen, hclose, mem_append, mem_cons, not_mem_nil, or_false] at h
    tauto
  · simp only [hblank, hend, mem_append, mem_cons, not_mem_nil, or_false] at h
    tauto

theorem isLine_paramLine {value : Str} (hname : (10 : UInt8) ∉ name) (hvalue : (10 : UInt8) ∉ value) :
    IsLine 10 (paramLine name value) := by
  unfold paramLine
  split
  · refine ⟨name ++ bytes " \"" ++ value ++ bytes "\"", ?_, by simp [bytes]⟩
    simp only [mem_append, not_or]
    exact ⟨⟨⟨hname, by decide⟩, hvalue⟩, by decide⟩
  · refine ⟨name ++ bytes " " ++ value, ?_, by simp [bytes]⟩
    simp only [mem_append, not_or]
    exact ⟨⟨hname, by decide⟩, hvalue⟩

theorem scanValue_paramLine {value : Str} (name : Str) (hv : Plain value) (hne : value ≠ []) :
    scanValue name (paramLine name value) = value := by
  have hspace : isSpace 32 := by decide
  have hquote : isSpace 34 = false := by decide
  have hopen : bytes " \"" = [32, 34] := by decide
  have hclose : bytes "\"\n" = [34, 10] := by decide
  have hblank : bytes " " = [32] := by decide
  have hend : bytes "\n" = [10] := by decide
  unfold scanValue paramLine
  split
  · rw [append_assoc, append_assoc, drop_left, scanQuoted, hopen, hclose]
    simp only [cons_append, nil_append, dropWhile_cons, hspace, hquote, if_pos, Bool.false_eq_true,
      if_false]
    rw [takeWhile_append_of_pos fun c hc => by simpa using (hv c hc).2.1]
    simp
  · obtain ⟨d, v, rfl⟩ := exists_cons_of_ne_nil hne
    have hd := (hv d mem_cons_self).1
    rw [append_assoc, append_assoc, drop_left, scanWord, hblank, hend]
    simp only [cons_append, nil_append, dropWhile_cons, hspace, hd, if_pos, Bool.false_eq_true, if_false]
    rw [← cons_append, takeWhile_append_of_pos fun c hc => by simp [(hv c hc).1]]
    simp [isSpace]

theorem rewriteLine_idem (name value buf : Str) :
    rewriteLine name value (rewriteLine name value buf) = rewriteLine name value buf := by
  by_cases h : name <+: buf
  · rw [rewriteLine_match value h, rewriteLine_match value (prefix_paramLine name value)]
  · rw [rewriteLine_other value h, rewriteLine_other value h]

theorem fileLines_rewritten {value : Str} (hls : AreLines 10 ls)
    (hcr : ∀ l ∈ ls, (13 : UInt8) ∉ l) (hname : (10 : UInt8) ∉ name ∧ (13 : UInt8) ∉ name) (hv : Plain value) :
    fileLines (ls.map (rewriteLine name value)).flatten = ls.map (rewriteLine name value) := by
  have hv10 : (10 : UInt8) ∉ value := fun h => absurd (hv 10 h).1 (by decide)
  have hv13 : (13 : UInt8) ∉ value := fun h => absurd (hv 13 h).1 (by decide)
  have hline : ∀ l ∈ ls, rewriteLine name value l = l ∨ IsLine 10 (rewriteLine name value l) := by
    intro l _
    by_cases h : name <+: l
    · rw [rewriteLine_match value h]
      exact .inr (isLine_paramLine hname.1 hv10)
    · exact .inl (rewriteLine_other value h)
  rw [fileLines_eq, (hls.map hline).lines_flatten]
  intro hmem
  obtain ⟨out, hout, hc⟩ := mem_flatten.mp hmem
  obtain ⟨l, hl, rfl⟩ := List.mem_map.mp hout
  by_cases h : name <+: l
  · rw [rewriteLine_match value h] at hc
    rcases mem_paramLine hc with hc | hc | hc | hc | hc
    · exact hname.2 hc
    · exact hv13 hc
    all_goals exact absurd hc (by decide)
  · rw [rewriteLine_other value h] at hc
    exact hcr l hl hc

def StringsFit (ls : List Str) : Prop := ∀ l ∈ ls, l.length < readBufSize ∧ (0 : UInt8) ∉ l

instance (ls : List Str) : Decidable (StringsFit ls) := List.decidableBAll _ ls

theorem StringsFit.linesFit (h : StringsFit ls) : LinesFit ls := fun l hl => (h l hl).1

theorem StringsFit.map_cstr (h : StringsFit ls) : ls.map cstr = ls := by
  conv_rhs => rw [← List.map_id ls]
  exact map_congr_left fun l hl => cstr_eq (h l hl).2

theorem writeParamStr_eq (name value : Str) (h : StringsFit (fileLines file)) :
    writeParamStr name value file = some ((fileLines file).map (rewriteLine name value)).flatten := by
  have hcstr : (fileLines file).map (fun l => rewriteLine name value (cstr l)) =
      (fileLines file).map (rewriteLine name value) :=
    map_congr_left fun l hl => congrArg _ (cstr_eq (h l hl).2)
  rw [writeParamStr, rewriteLines_eq, if_pos h.linesFit, hcstr]
  rfl

theorem StringsFit.rewritten {value : Str} (h : StringsFit ls) (hname : (0 : UInt8) ∉ name)
    (hv : Plain value) (hline : (paramLine name value).length < readBufSize) :
    StringsFit (ls.map (rewriteLine name value)) := by
  intro out hout
  obtain ⟨l, hl, rfl⟩ := List.mem_map.mp hout
  by_cases hpre : name <+: l
  · rw [rewriteLine_match value hpre]
    refine ⟨hline, fun h0 => ?_⟩
    rcases mem_paramLine h0 with h0 | h0 | h0 | h0 | h0
    · exact hname h0
    · exact (hv 0 h0).2.2 rfl
    all_goals exact absurd h0 (by decide)
  · rw [rewriteLine_other value hpre]
    exact h l hl

theorem find_rewritten (h : ∃ l ∈ ls, name <+: l) :
    (ls.map (rewriteLine name value)).find? (startsWith name) = some (paramLine name value) := by
  obtain ⟨l₀, hl₀, hpre₀⟩ := h
  have hsome : ((ls.map (rewriteLine name value)).find? (startsWith name)).isSome := by
    rw [List.find?_isSome]
    refine ⟨_, List.mem_map_of_mem hl₀, startsWith_iff.mpr ?_⟩
    rw [rewriteLine_match value hpre₀]
    exact prefix_paramLine name value
  obtain ⟨out, hfind⟩ := Option.isSome_iff_exists.mp hsome
  obtain ⟨l, hl, rfl⟩ := List.mem_map.mp (List.mem_of_find?_eq_some hfind)
  have hstart := startsWith_iff.mp (List.find?_some hfind)
  have hpre : name <+: l := by
    by_contra hpre
    rw [rewriteLine_other value hpre] at hstart
    exact hpre hstart
  rw [hfind, rewriteLine_match value hpre]

/-- **What `WriteParamStr` writes is read back**, and writing it again changes nothing. -/
theorem writeParamStr_round_trip (name value file : Str) (size : Nat) (hfit : StringsFit (fileLines file))
    (hkey : ∃ l ∈ fileLines file, key l = name) (hv : Plain value) (hne : value ≠ [])
    (hline : (paramLine name value).length < readBufSize) (hsize : value.length < size) :
    ∃ file', writeParamStr name value file = some file' ∧ readParamStr (some file') name size = some (.ok value) ∧
      writeParamStr name value file' = some file' := by
  obtain ⟨l₀, hl₀, rfl⟩ := hkey
  have hsub : ∀ c ∈ key l₀, c ∈ l₀ := fun c hc => (key_starts l₀).subset hc
  have hcr : ∀ l ∈ fileLines file, (13 : UInt8) ∉ l := by
    intro l hl hc
    obtain ⟨c, -, hc⟩ := List.mem_map.mp (mem_of_mem_lines hl hc)
    exact eol_ne_cr c hc
  have hname : (10 : UInt8) ∉ key l₀ ∧ (13 : UInt8) ∉ key l₀ :=
    ⟨fun h => (mem_key h).2 rfl, fun h => hcr l₀ hl₀ (hsub _ h)⟩
  have houts : fileLines ((fileLines file).map (rewriteLine (key l₀) value)).flatten =
      (fileLines file).map (rewriteLine (key l₀) value) :=
    fileLines_rewritten (areLines_lines 10 _) hcr hname hv
  have hfit' : StringsFit (fileLines ((fileLines file).map (rewriteLine (key l₀) value)).flatten) := by
    rw [houts]
    exact hfit.rewritten (fun h0 => (hfit l₀ hl₀).2 (hsub _ h0)) hv hline
  refine ⟨_, writeParamStr_eq _ _ hfit, ?_, ?_⟩
  · rw [readParamStr, if_neg (by omega), readLoop_lines _ _ _ (by omega), if_pos hfit'.linesFit.linesUpTo,
      hfit'.map_cstr, houts, find_rewritten value ⟨l₀, hl₀, key_starts l₀⟩, Option.elim_some,
      storeValue, scanValue_paramLine _ hv hne, if_neg fun h => by omega]
    rfl
  · rw [writeParamStr_eq _ _ hfit', houts, List.map_map]
    exact congrArg (fun ls => some (List.flatten ls)) (map_congr_left fun l _ => rewriteLine_idem (key l₀) value l)

theorem writeParamStr_round_trip_ssid :
    ∃ file', writeParamStr (bytes "SSID") (bytes "cam") (bytes "BOOTPROTO DHCP\r\nSSID \"old\"") = some file' ∧
      readParamStr (some file') (bytes "SSID") 128 = some (.ok (bytes "cam")) ∧
      writeParamStr (bytes "SSID") (bytes "cam") file' = some file' :=
  writeParamStr_round_trip _ _ _ _ (by decide) (by decide) (by decide) (by decide) (by decide) (by decide)

end NuWicam.Cgi
