import NuWicam.Lib.CString
import Mathlib.Algebra.Ring.Nat
import Mathlib.Data.List.Induction

/-!
# MD5 (`md5.c`)

`md5Final_updates`: whatever the pieces are that a message is hashed in, the result is the digest of RFC 1321. What is proved
about the authentication uses no more of it than the length of its result.
-/

namespace NuWicam.Rtsp

open Lib List

structure Md5 where
  hash : Str → Str
  length_hash : ∀ s, (hash s).length = 16

structure Md5State where
  a : UInt32
  b : UInt32
  c : UInt32
  d : UInt32
deriving DecidableEq, Repr

/-- `inp` holds the bytes that do not fill a block yet. -/
structure Md5Context where
  buf : Md5State
  bits0 : UInt32
  bits1 : UInt32
  inp : Str
deriving DecidableEq, Repr

/-! ## The transformation of a block -/

def f1 (x y z : UInt32) : UInt32 := z ^^^ (x &&& (y ^^^ z))
def f2 (x y z : UInt32) : UInt32 := f1 z x y
def f3 (x y z : UInt32) : UInt32 := x ^^^ y ^^^ z
def f4 (x y z : UInt32) : UInt32 := y ^^^ (x ||| ~~~z)

/-! The arguments of `MD5STEP` in the four rounds: the index into `in`, the constant added to it, the shift. -/

def round1 : List (Nat × UInt32 × UInt32) :=
  [(0, 0xd76aa478, 7), (1, 0xe8c7b756, 12), (2, 0x242070db, 17), (3, 0xc1bdceee, 22),
   (4, 0xf57c0faf, 7), (5, 0x4787c62a, 12), (6, 0xa8304613, 17), (7, 0xfd469501, 22),
   (8, 0x698098d8, 7), (9, 0x8b44f7af, 12), (10, 0xffff5bb1, 17), (11, 0x895cd7be, 22),
   (12, 0x6b901122, 7), (13, 0xfd987193, 12), (14, 0xa679438e, 17), (15, 0x49b40821, 22)]

def round2 : List (Nat × UInt32 × UInt32) :=
  [(1, 0xf61e2562, 5), (6, 0xc040b340, 9), (11, 0x265e5a51, 14), (0, 0xe9b6c7aa, 20),
   (5, 0xd62f105d, 5), (10, 0x02441453, 9), (15, 0xd8a1e681, 14), (4, 0xe7d3fbc8, 20),
   (9, 0x21e1cde6, 5), (14, 0xc33707d6, 9), (3, 0xf4d50d87, 14), (8, 0x455a14ed, 20),
   (13, 0xa9e3e905, 5), (2, 0xfcefa3f8, 9), (7, 0x676f02d9, 14), (12, 0x8d2a4c8a, 20)]

def round3 : List (Nat × UInt32 × UInt32) :=
  [(5, 0xfffa3942, 4), (8, 0x8771f681, 11), (11, 0x6d9d6122, 16), (14, 0xfde5380c, 23),
   (1, 0xa4beea44, 4), (4, 0x4bdecfa9, 11), (7, 0xf6bb4b60, 16), (10, 0xbebfbc70, 23),
   (13, 0x289b7ec6, 4), (0, 0xeaa127fa, 11), (3, 0xd4ef3085, 16), (6, 0x04881d05, 23),
   (9, 0xd9d4d039, 4), (12, 0xe6db99e5, 11), (15, 0x1fa27cf8, 16), (2, 0xc4ac5665, 23)]

def round4 : List (Nat × UInt32 × UInt32) :=
  [(0, 0xf4292244, 6), (7, 0x432aff97, 10), (14, 0xab9423a7, 15), (5, 0xfc93a039, 21),
   (12, 0x655b59c3, 6), (3, 0x8f0ccc92, 10), (10, 0xffeff47d, 15), (1, 0x85845dd1, 21),
   (8, 0x6fa87e4f, 6), (15, 0xfe2ce6e0, 10), (6, 0xa3014314, 15), (13, 0x4e0811a1, 21),
   (4, 0xf7537e82, 6), (11, 0xbd3af235, 10), (2, 0x2ad7d2bb, 15), (9, 0xeb86d391, 21)]

/-- Every call moves each word on by one place. -/
def md5Step (f : UInt32 → UInt32 → UInt32 → UInt32) (block : List UInt32) (st : Md5State) (e : Nat × UInt32 × UInt32) :
    Md5State :=
  let w := st.a + (f st.b st.c st.d + (block.getD e.1 0 + e.2.1))
  ⟨st.d, (w <<< e.2.2 ||| w >>> (32 - e.2.2)) + st.b, st.b, st.c⟩

def md5Transform (buf : Md5State) (block : List UInt32) : Md5State :=
  let st := round1.foldl (md5Step f1 block) buf
  let st := round2.foldl (md5Step f2 block) st
  let st := round3.foldl (md5Step f3 block) st
  let st := round4.foldl (md5Step f4 block) st
  ⟨buf.a + st.a, buf.b + st.b, buf.c + st.c, buf.d + st.d⟩

def words : Str → List UInt32
  | a :: b :: c :: d :: rest =>
    (a.toUInt32 ||| b.toUInt32 <<< 8 ||| c.toUInt32 <<< 16 ||| d.toUInt32 <<< 24) :: words rest
  | _ => []

def wordBytes (w : UInt32) : Str := [w.toUInt8, (w >>> 8).toUInt8, (w >>> 16).toUInt8, (w >>> 24).toUInt8]

def Md5State.bytes (st : Md5State) : Str := wordBytes st.a ++ wordBytes st.b ++ wordBytes st.c ++ wordBytes st.d

/-! ## The context -/

def md5Init : Md5Context := ⟨⟨0x67452301, 0xefcdab89, 0x98badcfe, 0x10325476⟩, 0, 0, []⟩

def md5Blocks : Nat → Md5State → Str → Md5State × Str
  | 0, st, d => (st, d)
  | fuel + 1, st, d =>
    if 64 ≤ d.length then md5Blocks fuel (md5Transform st (words (d.take 64))) (d.drop 64) else (st, d)

def md5Update (ctx : Md5Context) (d : Str) : Md5Context :=
  let t := ctx.bits0
  let len := UInt32.ofNat d.length
  let bits0 := t + (len <<< 3)
  let bits1 := (if bits0 < t then ctx.bits1 + 1 else ctx.bits1) + (len >>> 29)
  let held := ((t >>> 3) &&& 0x3f).toNat
  if held ≠ 0 then
    if d.length < 64 - held then ⟨ctx.buf, bits0, bits1, ctx.inp.take held ++ d⟩
    else
      let st := md5Transform ctx.buf (words (ctx.inp.take held ++ d.take (64 - held)))
      let r := md5Blocks d.length st (d.drop (64 - held))
      ⟨r.1, bits0, bits1, r.2⟩
  else
    let r := md5Blocks d.length ctx.buf d
    ⟨r.1, bits0, bits1, r.2⟩

def md5Final (ctx : Md5Context) : Str :=
  let count := ((ctx.bits0 >>> 3) &&& 0x3f).toNat
  let p := ctx.inp.take count ++ [0x80]
  let room := 64 - 1 - count
  if room < 8 then
    let st := md5Transform ctx.buf (words (p ++ List.replicate room 0))
    (md5Transform st (words (List.replicate 56 0) ++ [ctx.bits0, ctx.bits1])).bytes
  else (md5Transform ctx.buf (words (p ++ List.replicate (room - 8) 0) ++ [ctx.bits0, ctx.bits1])).bytes

def md5 (s : Str) : Str := md5Final (md5Update md5Init s)

example : hexBytes (md5 (bytes "abc")) = bytes "900150983cd24fb0d6963f7d28e17f72" := by decide +kernel

def Md5.ofLibrary : Md5 := ⟨md5, fun s => by unfold md5 md5Final; dsimp only; split <;> rfl⟩

/-! ## Pieces -/

theorem md5Blocks_short {d : Str} (h : d.length < 64) (st : Md5State) : ∀ n, md5Blocks n st d = (st, d)
  | 0 => rfl
  | n + 1 => by rw [md5Blocks, if_neg (Nat.not_le.mpr h)]

theorem md5Blocks_fuel : ∀ (n : Nat) (st : Md5State) (d : Str), d.length ≤ n → md5Blocks n st d = md5Blocks d.length st d
  | 0, st, d, h => by rw [Nat.le_zero.mp h]
  | n + 1, st, d, h => by
    by_cases hd : 64 ≤ d.length
    · obtain ⟨k, hk⟩ : ∃ k, d.length = k + 1 := ⟨d.length - 1, by omega⟩
      have hdrop : (d.drop 64).length = d.length - 64 := length_drop
      rw [hk, md5Blocks, md5Blocks, if_pos hd, if_pos hd, md5Blocks_fuel n _ _ (by omega),
        md5Blocks_fuel k _ _ (by omega)]
    · have hd := Nat.lt_of_not_le hd
      rw [md5Blocks_short hd, md5Blocks_short hd]

theorem md5Blocks_block {d : Str} (h : 64 ≤ d.length) (st : Md5State) :
    md5Blocks d.length st d = md5Blocks (d.drop 64).length (md5Transform st (words (d.take 64))) (d.drop 64) := by
  obtain ⟨k, hk⟩ : ∃ k, d.length = k + 1 := ⟨d.length - 1, by omega⟩
  have hdrop : (d.drop 64).length = d.length - 64 := length_drop
  rw [hk, md5Blocks, if_pos h, md5Blocks_fuel k _ _ (by omega)]

theorem md5Blocks_length (st : Md5State) (d : Str) : (md5Blocks d.length st d).2.length = d.length % 64 := by
  induction hn : d.length using Nat.strong_induction_on generalizing st d with
  | _ n ih =>
    subst hn
    by_cases hd : 64 ≤ d.length
    · have hdrop : (d.drop 64).length = d.length - 64 := length_drop
      rw [md5Blocks_block hd, ih _ (by omega) _ _ rfl]
      omega
    · have hd := Nat.lt_of_not_le hd
      rw [md5Blocks_short hd, Nat.mod_eq_of_lt hd]

theorem md5Blocks_append (st : Md5State) (msg d : Str) : md5Blocks (msg ++ d).length st (msg ++ d) =
      md5Blocks ((md5Blocks msg.length st msg).2 ++ d).length (md5Blocks msg.length st msg).1
        ((md5Blocks msg.length st msg).2 ++ d) := by
  induction hn : msg.length using Nat.strong_induction_on generalizing st msg with
  | _ n ih =>
    subst hn
    by_cases hd : 64 ≤ msg.length
    · have hdrop : (msg.drop 64).length = msg.length - 64 := length_drop
      have hlong : 64 ≤ (msg ++ d).length := by rw [length_append]; omega
      rw [md5Blocks_block hlong, md5Blocks_block hd, take_append_of_le_length hd, drop_append_of_le_length hd,
        ih _ (by omega) _ _ rfl]
    · rw [md5Blocks_short (Nat.lt_of_not_le hd)]

/-! ## The digest of RFC 1321 -/

/-- The message, a byte `0x80`, zeros up to the last 8 bytes of a block, and the number of bits modulo `2^64` -/
def padded (msg : Str) : Str :=
  msg ++ (0x80 :: replicate ((119 - msg.length % 64) % 64) 0 ++
    (wordBytes (UInt32.ofNat (8 * msg.length)) ++ wordBytes (UInt32.ofNat (8 * msg.length / 2 ^ 32))))

def digest (msg : Str) : Str := (md5Blocks (padded msg).length md5Init.buf (padded msg)).1.bytes

/-- The context after the bytes `msg`, in however many pieces. -/
structure Md5Context.Holds (ctx : Md5Context) (msg : Str) : Prop where
  buf : ctx.buf = (md5Blocks msg.length md5Init.buf msg).1
  inp : ctx.inp = (md5Blocks msg.length md5Init.buf msg).2
  bits : ctx.bits0.toNat + 2 ^ 32 * ctx.bits1.toNat = 8 * msg.length % 2 ^ 64

section

variable {ctx : Md5Context} {msg d : Str}

theorem md5Init_holds : md5Init.Holds [] := ⟨rfl, rfl, rfl⟩

theorem Md5Context.Holds.held (h : ctx.Holds msg) : ((ctx.bits0 >>> 3) &&& 0x3f).toNat = ctx.inp.length := by
  have h63 : (0x3f : UInt32).toNat = 2 ^ 6 - 1 := rfl
  have hlt := ctx.bits0.toNat_lt
  have hbits := h.bits
  rw [UInt32.toNat_and, UInt32.toNat_shiftRight, h63, Nat.and_two_pow_sub_one_eq_mod, h.inp, md5Blocks_length,
    show (3 : UInt32).toNat % 32 = 3 from rfl, Nat.shiftRight_eq_div_pow]
  omega

theorem bits_add {t u : UInt32} {m n : Nat} (h : t.toNat + 2 ^ 32 * u.toNat = 8 * m % 2 ^ 64) (hn : n < 2 ^ 32) :
    (t + (UInt32.ofNat n <<< 3)).toNat +
      2 ^ 32 * ((if t + (UInt32.ofNat n <<< 3) < t then u + 1 else u) + (UInt32.ofNat n >>> 29)).toNat =
        8 * (m + n) % 2 ^ 64 := by
  have hlen : (UInt32.ofNat n).toNat = n := UInt32.toNat_ofNat_of_lt' hn
  have hlow : (UInt32.ofNat n <<< 3).toNat = 8 * n % 2 ^ 32 := by
    rw [UInt32.toNat_shiftLeft, hlen, show (3 : UInt32).toNat % 32 = 3 from rfl, Nat.shiftLeft_eq, Nat.mul_comm]
  have hhigh : (UInt32.ofNat n >>> 29).toNat = n / 2 ^ 29 := by
    rw [UInt32.toNat_shiftRight, hlen, show (29 : UInt32).toNat % 32 = 29 from rfl, Nat.shiftRight_eq_div_pow]
  have hone : (1 : UInt32).toNat = 1 := rfl
  have ht := t.toNat_lt
  have hu := u.toNat_lt
  simp only [UInt32.lt_iff_toNat_lt, UInt32.toNat_add, hlow, hhigh, apply_ite UInt32.toNat, hone]
  split <;> omega

theorem md5Update_holds (h : ctx.Holds msg) (hd : d.length < 2 ^ 32) : (md5Update ctx d).Holds (msg ++ d) := by
  have hinp : ctx.inp.length = msg.length % 64 := by rw [h.inp, md5Blocks_length]
  have hblocks := md5Blocks_append md5Init.buf msg d
  rw [← h.buf, ← h.inp] at hblocks
  have hbits := bits_add h.bits hd
  rw [← length_append] at hbits
  unfold md5Update
  simp only [h.held, take_length]
  split
  · split
    · rename_i hne hshort
      have hlt : (ctx.inp ++ d).length < 64 := by rw [length_append]; omega
      rw [md5Blocks_short hlt] at hblocks
      exact ⟨by rw [hblocks], by rw [hblocks], hbits⟩
    · rename_i hne hlong
      have hle : 64 ≤ (ctx.inp ++ d).length := by rw [length_append]; omega
      have hheld64 : ctx.inp.length ≤ 64 := by omega
      rw [md5Blocks_block hle, take_append, drop_append, take_of_length_le hheld64,
        drop_of_length_le hheld64, nil_append] at hblocks
      rw [md5Blocks_fuel d.length _ _ (by rw [length_drop]; omega), ← hblocks]
      exact ⟨rfl, rfl, hbits⟩
  · rename_i hzero
    have hnil : ctx.inp = [] := length_eq_zero_iff.mp (Decidable.not_not.mp hzero)
    rw [hnil, nil_append] at hblocks
    rw [← hblocks]
    exact ⟨rfl, rfl, hbits⟩

theorem words_append : ∀ {a : Str} (b : Str), 4 ∣ a.length → words (a ++ b) = words a ++ words b
  | [], _, _ => rfl
  | x :: y :: z :: w :: a, b, h => by
    rw [length_cons, length_cons, length_cons, length_cons] at h
    exact congrArg _ (words_append b (by omega))
  | [_], _, h | [_, _], _, h | [_, _, _], _, h => by simp at h

theorem words_wordBytes (w : UInt32) : words (wordBytes w) = [w] := by
  refine congrArg (· :: []) (UInt32.toBitVec_inj.mp ?_)
  ext i hi
  simp only [UInt32.toBitVec_or, UInt32.toBitVec_shiftLeft, UInt8.toBitVec_toUInt32, UInt32.toBitVec_toUInt8,
    UInt32.toBitVec_shiftRight]
  simp
  grind

theorem md5Blocks_cons {b : Str} (hb : b.length = 64) (st : Md5State) (rest : Str) :
    md5Blocks (b ++ rest).length st (b ++ rest) = md5Blocks rest.length (md5Transform st (words b)) rest := by
  rw [md5Blocks_block (by rw [length_append, hb]; omega), take_left' hb, drop_left' hb]

theorem Md5Context.Holds.final (h : ctx.Holds msg) : md5Final ctx = digest msg := by
  have hinp : ctx.inp.length = msg.length % 64 := by rw [h.inp, md5Blocks_length]
  have hlt : ctx.inp.length < 64 := by omega
  set tail := wordBytes ctx.bits0 ++ wordBytes ctx.bits1
  have hbits : wordBytes (UInt32.ofNat (8 * msg.length)) ++ wordBytes (UInt32.ofNat (8 * msg.length / 2 ^ 32)) = tail := by
    have hb := h.bits
    have h₀ := ctx.bits0.toNat_lt
    have h₁ := ctx.bits1.toNat_lt
    congr 2 <;> apply UInt32.toNat_inj.mp <;> rw [UInt32.toNat_ofNat'] <;> omega
  have hlast : ∀ {z : Str} (st : Md5State), z.length = 56 → md5Blocks (z ++ tail).length st (z ++ tail) =
      (md5Transform st (words z ++ [ctx.bits0, ctx.bits1]), []) := by
    intro z st hz
    have hlen : (z ++ tail).length = 64 := by rw [length_append, hz]; rfl
    have htail : words tail = [ctx.bits0, ctx.bits1] := by
      rw [words_append (a := wordBytes ctx.bits0) _ (Nat.dvd_refl 4), words_wordBytes, words_wordBytes]
      rfl
    rw [← append_nil (z ++ tail), md5Blocks_cons hlen, words_append _ (hz ▸ by decide), htail]
    rfl
  rw [digest, padded, hbits, md5Blocks_append, ← h.buf, ← h.inp, md5Final]
  simp only [h.held, take_length, ← hinp]
  split
  · -- the length does not fit into the block
    have hz : (119 - ctx.inp.length) % 64 = 64 - 1 - ctx.inp.length + 56 := by omega
    have hsplit : ctx.inp ++ (0x80 :: replicate ((119 - ctx.inp.length) % 64) 0 ++ tail) =
        (ctx.inp ++ [0x80] ++ replicate (64 - 1 - ctx.inp.length) 0) ++ (replicate 56 0 ++ tail) := by
      rw [hz, replicate_add]
      simp
    rw [hsplit, md5Blocks_cons (by simp; omega), hlast _ length_replicate]
  · have hz : (119 - ctx.inp.length) % 64 = 64 - 1 - ctx.inp.length - 8 := by omega
    have hsplit : ctx.inp ++ (0x80 :: replicate ((119 - ctx.inp.length) % 64) 0 ++ tail) =
        (ctx.inp ++ [0x80] ++ replicate (64 - 1 - ctx.inp.length - 8) 0) ++ tail := by
      rw [hz]
      simp
    rw [hsplit, hlast _ (by simp; omega)]

end

/-- **MD5 in pieces is the digest of the whole message.** -/
theorem md5Final_updates (pieces : List Str) (hlen : ∀ d ∈ pieces, d.length < 2 ^ 32) :
    md5Final (pieces.foldl md5Update md5Init) = digest pieces.flatten := by
  suffices h : (pieces.foldl md5Update md5Init).Holds pieces.flatten from h.final
  induction pieces using reverseRecOn with
  | nil => exact md5Init_holds
  | append_singleton ds d ih =>
    obtain ⟨hds, hd⟩ := forall_mem_append.mp hlen
    rw [foldl_append, flatten_append, flatten_singleton]
    exact md5Update_holds (ih hds) (hd d mem_cons_self)

theorem md5Final_updates_abc : md5Final ([bytes "a", bytes "bc"].foldl md5Update md5Init) = digest (bytes "abc") :=
  md5Final_updates _ (by decide)

end NuWicam.Rtsp
