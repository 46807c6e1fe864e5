import NuWicam.Kernel.JpegStrips

/-!
# The pages that a picture is copied to (`jpegcodec.c`)

`JPEG_S_PARAM` takes as many pages as the user's buffer needs, and the decode-complete interrupts copy their rows to them.
Nothing compares the index with the number of pages, or the picture with the size of the buffer (`copiesRows_iff`).
-/

namespace NuWicam.Kernel.Strips

open List

def pageSize : Nat := 4096

/-- `nr_pages` in `JPEG_S_PARAM` -/
def nrPages (vaddr size : Nat) : Nat :=
  usub (u32 (vaddr + size + (pageSize - 1)) / pageSize * pageSize) (vaddr / pageSize * pageSize) / pageSize

structure Cursor where
  index : Nat
  offset : Nat

/-- A `memcpy` to a page -/
structure PageWrite where
  index : Nat
  offset : Nat
  data : List UInt8

def bytesAt (tmp : Nat → UInt8) (address n : Nat) : List UInt8 := (List.range n).map fun k => tmp (address + k)

/-- A row that is copied is in the buffer of the engine, so that no word wraps; with a size that did, `decopw_tsize` would
have no row. -/
def fillAgain (tmp : Nat → UInt8) : Nat → Cursor → Nat → Nat → Option (Cursor × List PageWrite)
  | 0, _, _, _ => none
  | fuel + 1, c, addr, dataToFill =>
    if dataToFill + c.offset ≥ pageSize then
      let n := pageSize - c.offset
      let w : PageWrite := ⟨c.index, c.offset, bytesAt tmp addr n⟩
      if dataToFill - n ≠ 0 then
        (fillAgain tmp fuel ⟨c.index + 1, 0⟩ (addr + n) (dataToFill - n)).map fun r => (r.1, w :: r.2)
      else some (⟨c.index + 1, 0⟩, [w])
    else some (⟨c.index, c.offset + dataToFill⟩, [⟨c.index, c.offset, bytesAt tmp addr dataToFill⟩])

def copyRows (tmp : Nat → UInt8) (rowSize rowDataSize : Nat) : Nat → Nat → Cursor → Option (Cursor × List PageWrite)
  | 0, _, c => some (c, [])
  | row + 1, address, c => do
    let (c, ws) ← fillAgain tmp (rowDataSize + 1) c address rowDataSize
    let (c, ws') ← copyRows tmp rowSize rowDataSize row (address + rowSize) c
    return (c, ws ++ ws')

def copyStrip (p : Priv) (tmp : Nat → UInt8) (c : Cursor) : Option (Cursor × List PageWrite) := do
  let row ← udiv p.tsize p.jpegAlignWidth
  copyRows tmp (p.jpegAlignWidth * p.outputFormat.bytes) (p.jpegWidth * p.outputFormat.bytes) (row / p.outputFormat.bytes) 0 c

/-- A decode-complete interrupt: `decopw_tsize`, and what the engine has left in the temporary buffer -/
structure Completion where
  tsize : Nat
  tmp : Nat → UInt8

def copyPicture (p : Priv) : List Completion → Cursor → Option (Cursor × List PageWrite)
  | [], c => some (c, [])
  | i :: is, c => do
    let (c, ws) ← copyStrip { p with tsize := i.tsize } i.tmp c
    let (c, ws') ← copyPicture p is c
    return (c, ws ++ ws')

/-! ## What is wanted -/

/-- The bytes of a `memcpy` with their addresses for the user -/
def PageWrite.stores (vaddr : Nat) (w : PageWrite) : List (UInt8 × Nat) :=
  w.data.zipIdx (vaddr / pageSize * pageSize + w.index * pageSize + w.offset)

def Completion.rows (p : Priv) (i : Completion) : Nat := i.tsize / p.jpegAlignWidth / p.outputFormat.bytes

def Completion.decoded (p : Priv) (i : Completion) : List (List UInt8) :=
  (List.range (i.rows p)).map fun k => bytesAt i.tmp (k * (p.jpegAlignWidth * p.outputFormat.bytes))
    (p.jpegAlignWidth * p.outputFormat.bytes)

/-- The first `stride` pixels of each row of the picture -/
def wantedBytes (stride : Nat) (p : Priv) (is : List Completion) : List UInt8 :=
  ((is.flatMap (·.decoded p)).map (·.take (stride * p.outputFormat.bytes))).flatten

/-- **The copy is right**: it stays in the pages, and the user sees the wanted bytes from `vaddr` on, within the buffer. -/
def CopiesRows (vaddr size stride : Nat) (p : Priv) (is : List Completion) : Prop :=
  ∃ c ws, copyPicture p is ⟨0, vaddr % pageSize⟩ = some (c, ws) ∧
    (∀ w ∈ ws, w.index < nrPages vaddr size ∧ w.offset < pageSize) ∧
    ws.flatMap (·.stores vaddr) = (wantedBytes stride p is).zipIdx vaddr ∧ (wantedBytes stride p is).length ≤ size

/-! ## Bytes -/

section

variable {tmp : Nat → UInt8} {a m n : Nat}

@[simp] theorem length_bytesAt : (bytesAt tmp a n).length = n := by
  simp [bytesAt]

theorem bytesAt_add : bytesAt tmp a (m + n) = bytesAt tmp a m ++ bytesAt tmp (a + m) n := by
  simp [bytesAt, range_add, Nat.add_assoc]

theorem take_bytesAt : (bytesAt tmp a n).take m = bytesAt tmp a (min m n) := by
  simp [bytesAt, ← map_take, take_range]

end

/-! ## The position -/

abbrev Cursor.at (n : Nat) : Cursor := ⟨n / pageSize, n % pageSize⟩

/-- The writes put `data` at the position `n` of the pages. Only rows without a byte make writes without one. -/
structure Lays (vaddr rowDataSize n : Nat) (data : List UInt8) (ws : List PageWrite) : Prop where
  stores : ws.flatMap (·.stores vaddr) = data.zipIdx (vaddr / pageSize * pageSize + n)
  inPage : ∀ w ∈ ws, w.offset < pageSize ∧ w.offset + w.data.length ≤ pageSize
  upTo : ∀ w ∈ ws, w.index * pageSize + w.offset + w.data.length ≤ n + data.length
  nonempty : ∀ w ∈ ws, w.data = [] → rowDataSize = 0

section

variable {vaddr r n : Nat} {tmp : Nat → UInt8} {d d' : List UInt8} {ws ws' : List PageWrite}

theorem Lays.nil : Lays vaddr r n [] [] := ⟨rfl, nofun, nofun, nofun⟩

theorem Lays.append (h : Lays vaddr r n d ws) (h' : Lays vaddr r (n + d.length) d' ws') :
    Lays vaddr r n (d ++ d') (ws ++ ws') := by
  refine ⟨?_, forall_mem_append.mpr ⟨h.inPage, h'.inPage⟩, ?_, forall_mem_append.mpr ⟨h.nonempty, h'.nonempty⟩⟩
  · rw [flatMap_append, h.stores, h'.stores, zipIdx_append, Nat.add_assoc]
  · rw [length_append, ← Nat.add_assoc]
    exact forall_mem_append.mpr ⟨fun w hw => Nat.le_trans (h.upTo w hw) (Nat.le_add_right _ _), h'.upTo⟩

theorem Lays.single {addr k : Nat} (hk : k + n % pageSize ≤ pageSize) (hempty : k = 0 → r = 0) :
    Lays vaddr r n (bytesAt tmp addr k) [⟨n / pageSize, n % pageSize, bytesAt tmp addr k⟩] := by
  have hn := Nat.div_add_mod' n pageSize
  refine ⟨?_, ?_, ?_, ?_⟩ <;> try simp only [forall_mem_singleton, length_bytesAt]
  · rw [flatMap_singleton, PageWrite.stores, Nat.add_assoc, hn]
  · exact ⟨Nat.mod_lt n (by decide), by omega⟩
  · omega
  · intro h
    exact hempty (by simpa using congrArg List.length h)

/-- **One row**: the loop ends behind it. -/
theorem fillAgain_spec (tmp : Nat → UInt8) (vaddr n addr : Nat) {fuel k : Nat} (hfuel : k < fuel) (hempty : k = 0 → r = 0) :
    ∃ ws, fillAgain tmp fuel (.at n) addr k = some (.at (n + k), ws) ∧ Lays vaddr r n (bytesAt tmp addr k) ws ∧ ws ≠ [] := by
  induction fuel generalizing n addr k with
  | zero => exact absurd hfuel (Nat.not_lt_zero k)
  | succ fuel ih =>
    have hlt : n % pageSize < pageSize := Nat.mod_lt n (by decide)
    have hn := Nat.div_add_mod' n pageSize
    simp only [Cursor.at, fillAgain]
    split
    · -- the page is filled up
      obtain ⟨m, rfl⟩ : ∃ m, k = pageSize - n % pageSize + m := ⟨k - (pageSize - n % pageSize), by omega⟩
      have hend : n + (pageSize - n % pageSize) = (n / pageSize + 1) * pageSize := by
        rw [Nat.add_one_mul]
        omega
      have hfirst : Lays vaddr r n (bytesAt tmp addr (pageSize - n % pageSize)) _ := .single (by omega) (by omega)
      rw [Nat.add_sub_cancel_left, ← Nat.add_assoc, hend]
      by_cases hm : m = 0
      · subst hm
        simp only [Nat.add_zero, Nat.mul_div_cancel _ (show 0 < pageSize by decide), Nat.mul_mod_left]
        exact ⟨_, rfl, hfirst, by simp⟩
      · obtain ⟨ws, hrun, hlays, -⟩ := ih ((n / pageSize + 1) * pageSize) (addr + (pageSize - n % pageSize))
          (k := m) (by omega) fun h => absurd h hm
        rw [Cursor.at, Nat.mul_div_cancel _ (by decide), Nat.mul_mod_left] at hrun
        rw [if_pos hm, hrun, bytesAt_add]
        refine ⟨_, rfl, hfirst.append ?_, by simp⟩
        rw [length_bytesAt, hend]
        exact hlays
    · have hdiv : (n + k) / pageSize = n / pageSize ∧ (n + k) % pageSize = n % pageSize + k := by
        simp only [pageSize] at *
        omega
      rw [hdiv.1, hdiv.2]
      exact ⟨_, rfl, Lays.single (by omega) hempty, by simp⟩

/-- **All rows of a strip.** -/
theorem copyRows_spec (tmp : Nat → UInt8) (vaddr r rowSize row address n : Nat) :
    ∃ ws, copyRows tmp rowSize r row address (.at n) = some (.at (n + row * r), ws) ∧
      Lays vaddr r n ((List.range row).flatMap fun k => bytesAt tmp (address + k * rowSize) r) ws ∧ (ws = [] ↔ row = 0) := by
  induction row generalizing address n with
  | zero => exact ⟨[], by simp [copyRows], .nil, by simp⟩
  | succ row ih =>
    obtain ⟨ws, hfill, hlays, hne⟩ := fillAgain_spec tmp vaddr n address (Nat.lt_succ_self r) id
    obtain ⟨ws', hrest, hlays', -⟩ := ih (address + rowSize) (n + r)
    refine ⟨ws ++ ws', ?_, ?_, by simp [hne]⟩
    · simp only [copyRows, hfill, hrest, Option.bind_eq_bind, Option.bind_some, Option.pure_def]
      rw [Nat.add_one_mul, Nat.add_assoc, Nat.add_comm r]
    · have hshift : ∀ k, address + rowSize + k * rowSize = address + (k + 1) * rowSize := fun k => by
        rw [Nat.add_one_mul, Nat.add_assoc, Nat.add_comm rowSize]
      simp only [hshift] at hlays'
      rw [range_succ_eq_map, flatMap_cons, flatMap_map, Nat.zero_mul, Nat.add_zero]
      exact hlays.append (by rwa [length_bytesAt])

end

/-! ## The picture -/

section

variable {p : Priv} {stride : Nat}

def rowBytes (stride : Nat) (p : Priv) : Nat := min stride p.jpegAlignWidth * p.outputFormat.bytes

def rowCount (p : Priv) (is : List Completion) : Nat := (is.map (·.rows p)).sum

theorem wanted_row (i : Completion) : ((i.decoded p).map (·.take (stride * p.outputFormat.bytes))).flatten =
    (List.range (i.rows p)).flatMap fun k =>
      bytesAt i.tmp (0 + k * (p.jpegAlignWidth * p.outputFormat.bytes)) (rowBytes stride p) := by
  rw [Completion.decoded, List.map_map, ← flatMap_def]
  simp only [Function.comp_def, take_bytesAt, rowBytes, Nat.zero_add, Nat.mul_min_mul_right]

/-- **All strips of a picture.** -/
theorem copyPicture_spec (vaddr : Nat) (is : List Completion) (hw : 0 < p.jpegAlignWidth)
    (hstride : p.jpegWidth = min stride p.jpegAlignWidth) (n : Nat) :
    ∃ ws, copyPicture p is (.at n) = some (.at (n + rowCount p is * rowBytes stride p), ws) ∧
      Lays vaddr (rowBytes stride p) n (wantedBytes stride p is) ws ∧
      (wantedBytes stride p is).length = rowCount p is * rowBytes stride p ∧ (ws = [] ↔ rowCount p is = 0) := by
  induction is generalizing n with
  | nil => exact ⟨[], by simp [copyPicture, rowCount], .nil, by simp [wantedBytes, rowCount], by simp [rowCount]⟩
  | cons i is ih =>
    obtain ⟨ws, hrun, hlays, hne⟩ := copyRows_spec i.tmp vaddr (rowBytes stride p)
      (p.jpegAlignWidth * p.outputFormat.bytes) (i.rows p) 0 n
    obtain ⟨ws', hrest, hlays', hlen, hne'⟩ := ih (n + i.rows p * rowBytes stride p)
    have hcount : rowCount p (i :: is) = i.rows p + rowCount p is := by simp [rowCount]
    have hwanted : wantedBytes stride p (i :: is) =
        ((i.decoded p).map (·.take (stride * p.outputFormat.bytes))).flatten ++ wantedBytes stride p is := by
      simp [wantedBytes]
    have hfirst : (((i.decoded p).map (·.take (stride * p.outputFormat.bytes))).flatten).length =
        i.rows p * rowBytes stride p := by
      rw [wanted_row]
      simp [length_flatMap]
    rw [← wanted_row] at hlays
    refine ⟨ws ++ ws', ?_, ?_, ?_, ?_⟩
    · have hstrip : copyStrip { p with tsize := i.tsize } i.tmp (.at n) =
          some (.at (n + i.rows p * rowBytes stride p), ws) := by
        simp only [copyStrip, udiv, if_neg (Nat.ne_of_gt hw), Option.bind_eq_bind, Option.bind_some, hstride]
        exact hrun
      simp only [copyPicture, hstrip, hrest, Option.bind_eq_bind, Option.bind_some, Option.pure_def]
      rw [hcount, Nat.add_mul, Nat.add_assoc]
    · rw [hwanted]
      exact hlays.append (hfirst ▸ hlays')
    · rw [hwanted, length_append, hfirst, hlen, hcount, Nat.add_mul]
    · rw [append_eq_nil_iff, hne, hne', hcount]
      omega

end

/-! ## Room for the picture -/

theorem nrPages_eq {vaddr : Nat} (hv : vaddr < 4294967296) (size : Nat) :
    nrPages vaddr size = (vaddr % pageSize + size + 4095) / pageSize % 1048576 := by
  unfold nrPages usub u32 pageSize
  omega

theorem Lays.index_lt_iff {vaddr r n nr : Nat} {data : List UInt8} {ws : List PageWrite} (h : Lays vaddr r n data ws)
    (hn : n < pageSize) (hr : data = [] → ws ≠ []) (hr' : data ≠ [] → r ≠ 0) :
    (∀ w ∈ ws, w.index < nr) ↔ 0 < nr ∧ n + data.length ≤ nr * pageSize := by
  constructor
  · intro hlt
    by_cases hdata : data = []
    · obtain ⟨w, hw⟩ := exists_mem_of_ne_nil ws (hr hdata)
      have := hlt w hw
      have hmul : pageSize ≤ nr * pageSize := Nat.le_mul_of_pos_left _ (by omega)
      rw [hdata, length_nil]
      omega
    · -- the write with the last byte
      have hmem : (data.getLast hdata, vaddr / pageSize * pageSize + n + (data.length - 1)) ∈
          ws.flatMap (·.stores vaddr) := by
        rw [h.stores, List.mk_add_mem_zipIdx_iff_getElem?, getLast_eq_getElem]
        exact List.getElem?_eq_getElem _
      obtain ⟨w, hw, hmem⟩ := mem_flatMap.mp hmem
      obtain ⟨-, hpos, -⟩ := mem_zipIdx hmem
      obtain ⟨-, hpage⟩ := h.inPage w hw
      have hmul : (w.index + 1) * pageSize ≤ nr * pageSize := Nat.mul_le_mul_right _ (hlt w hw)
      rw [Nat.add_one_mul] at hmul
      have := hlt w hw
      omega
  · rintro ⟨hpos, hle⟩ w hw
    have hup := h.upTo w hw
    refine Nat.lt_of_mul_lt_mul_right (a := pageSize) ?_
    by_cases hdata : data = []
    · have hmul : pageSize ≤ nr * pageSize := Nat.le_mul_of_pos_left _ hpos
      rw [hdata, length_nil] at hup
      omega
    · have hlen := length_pos_iff.mpr fun he => hr' hdata (h.nonempty w hw he)
      omega

/-- The header interrupt clamps `jpeg_width` to the aligned width. -/
theorem prepare_stride (pic : Picture) (p : Priv) :
    (prepare pic p).jpegWidth = min p.jpegWidth (prepare pic p).jpegAlignWidth := by
  unfold prepare
  dsimp only
  split <;> omega

/-- **The rows are copied to the user** exactly if they fit in the buffer, and its pages are counted without a wrap. -/
theorem copiesRows_iff {p : Priv} {vaddr size stride : Nat} {is : List Completion} (hv : vaddr < 4294967296)
    (hs : size < 4294967296) (hw : 0 < p.jpegAlignWidth) (hstride : p.jpegWidth = min stride p.jpegAlignWidth) :
    CopiesRows vaddr size stride p is ↔ rowCount p is * rowBytes stride p ≤ size ∧
      (rowCount p is = 0 ∨ 0 < vaddr % pageSize + size ∧
        (vaddr % pageSize + size ≤ 4294963200 ∨ 4294967296 < vaddr % pageSize + size ∧
          vaddr % pageSize + rowCount p is * rowBytes stride p ≤ pageSize)) := by
  have hoff : vaddr % pageSize < pageSize := Nat.mod_lt _ (by decide)
  obtain ⟨ws, hrun, hlays, hlen, hne⟩ := copyPicture_spec vaddr is hw hstride (vaddr % pageSize)
  rw [Cursor.at, Nat.div_eq_of_lt hoff, Nat.mod_eq_of_lt hoff] at hrun
  have hstores := hlays.stores
  rw [Nat.div_add_mod'] at hstores
  have hiff : CopiesRows vaddr size stride p is ↔
      (∀ w ∈ ws, w.index < nrPages vaddr size) ∧ rowCount p is * rowBytes stride p ≤ size := by
    rw [← hlen]
    constructor
    · rintro ⟨c, ws', hrun', hpages, -, hsize⟩
      cases hrun.symm.trans hrun'
      exact ⟨fun w hw => (hpages w hw).1, hsize⟩
    · rintro ⟨hpages, hsize⟩
      exact ⟨_, ws, hrun, fun w hw => ⟨hpages w hw, (hlays.inPage w hw).1⟩, hstores, hsize⟩
  rw [hiff, and_comm, and_congr_right_iff]
  intro hsize
  rcases Nat.eq_zero_or_pos (rowCount p is) with hzero | hpos
  · simp [hne.mpr hzero, hzero]
  · rw [hlays.index_lt_iff hoff (fun _ => mt hne.mp (by omega)), hlen, nrPages_eq hv]
    · generalize rowCount p is * rowBytes stride p = total at *
      simp only [pageSize] at *
      omega
    · intro hdata hr
      rw [hr, Nat.mul_zero] at hlen
      exact hdata (length_eq_zero_iff.mp hlen)

def twoStrips : List Completion := [⟨10240, fun _ => 1⟩, ⟨10240, fun _ => 2⟩]

theorem copiesRows_unaligned : CopiesRows 0x40000800 20480 320 (prepare ⟨.yuv420, 32, 320⟩ start) twoStrips :=
  (copiesRows_iff (by decide) (by decide) (by decide) (prepare_stride _ start)).mpr (by decide)

theorem copies_beyond_pages : ∃ c ws, copyPicture (prepare ⟨.yuv420, 32, 320⟩ start) twoStrips ⟨0, 0⟩ = some (c, ws) ∧
    (∃ w ∈ ws, nrPages 0x40000000 4096 ≤ w.index) ∧
    ¬ CopiesRows 0x40000000 4096 320 (prepare ⟨.yuv420, 32, 320⟩ start) twoStrips := by
  obtain ⟨ws, hrun, hlays, hlen, hne⟩ := copyPicture_spec 0x40000000 twoStrips
    (show 0 < (prepare ⟨.yuv420, 32, 320⟩ start).jpegAlignWidth by decide) (show _ = min 320 _ by decide) 0
  have hnot : ¬ ∀ w ∈ ws, w.index < nrPages 0x40000000 4096 := by
    rw [hlays.index_lt_iff (by decide) (fun _ => mt hne.mp (by decide)) (fun _ => by decide), hlen]
    decide
  refine ⟨_, ws, hrun, by simpa using hnot, ?_⟩
  rintro ⟨c, ws', hrun', hpages, -⟩
  cases hrun.symm.trans hrun'
  exact hnot fun w hw => (hpages w hw).1

end NuWicam.Kernel.Strips
