import Mathlib.Algebra.Ring.Nat
import NuWicam.Lib.Base64
import NuWicam.Rtsp.Reader

/-!
# The input of a tunnel (`unbase64`, `do_read`)

The requests of a tunnelled connection arrive in base64, in pieces of any size, and `unbase64` decodes each piece where it
stands: `Dec` is its loop over the memory, `readAt` is `do_read` up to the decoded buffer, and `goOn` the rest of a round
(`tunnel_decodes`).
-/

namespace NuWicam.Rtsp

open Lib List Option

/-! ## Groups of characters -/

/-- The alphabet and the padding. -/
def inAlphabet (c : UInt8) : Bool := (base64 c).isSome

theorem unbase64Groups_eq : ∀ w : Str, unbase64Groups w = (whole unbase64Group w ++ leftover w, (leftover w).length)
  | [] => rfl
  | [_] => rfl
  | [_, _] => rfl
  | [_, _, _] => rfl
  | a :: b :: c :: d :: rest => by
    rw [unbase64Groups, unbase64Groups_eq rest, whole, leftover, List.append_assoc]

theorem unbase64_eq (d : Str) : unbase64 d = (whole unbase64Group (d.filter inAlphabet) ++ leftover (d.filter inAlphabet),
      (leftover (d.filter inAlphabet)).length) := unbase64Groups_eq _

theorem base64_char : ∀ v < 64, base64 (Base64.char v) = some v := by decide

theorem char_ne_pad : ∀ v < 64, Base64.char v ≠ 61 := by decide

theorem or_eq_add {m a b i : Nat} (hm : m = 2 ^ i * a) (hb : b < 2 ^ i) : m ||| b = a * 2 ^ i + b := by
  rw [hm, ← Nat.two_pow_add_eq_or_of_lt hb, Nat.mul_comm]

theorem shift_first : ∀ v < 64, ∀ w < 64, (v <<< 2) &&& 0xFC ||| (w >>> 4) = v * 4 + w / 16 := by
  intro v hv w hw
  have hhigh : ∀ v < 64, (v <<< 2) &&& 0xFC = 2 ^ 2 * v := by decide
  rw [Nat.shiftRight_eq_div_pow]
  exact or_eq_add (hhigh v hv) (by omega)

theorem shift_second : ∀ v < 64, ∀ w < 64, (v <<< 4) &&& 0xF0 ||| (w >>> 2) = v % 16 * 16 + w / 4 := by
  intro v hv w hw
  have hhigh : ∀ v < 64, (v <<< 4) &&& 0xF0 = 2 ^ 4 * (v % 16) := by decide
  rw [Nat.shiftRight_eq_div_pow]
  exact or_eq_add (hhigh v hv) (by omega)

theorem shift_third : ∀ v < 64, ∀ w < 64, (v <<< 6) &&& 0xC0 ||| w = v % 4 * 64 + w := by
  intro v hv w hw
  have hhigh : ∀ v < 64, (v <<< 6) &&& 0xC0 = 2 ^ 6 * (v % 4) := by decide
  exact or_eq_add (hhigh v hv) hw

def stored (a b c d : UInt8) : Str :=
  let v := fun x => (base64 x).getD 0
  [UInt8.ofNat ((v a <<< 2) &&& 0xFC ||| (v b >>> 4)), UInt8.ofNat ((v b <<< 4) &&& 0xF0 ||| (v c >>> 2)),
    UInt8.ofNat ((v c <<< 6) &&& 0xC0 ||| v d)]

/-- By how much `dest` grows. -/
def advance (c d : UInt8) : Nat := if d = 61 then (if c = 61 then 1 else 2) else 3

theorem unbase64Group_eq (a b c d : UInt8) : unbase64Group a b c d = (stored a b c d).take (advance c d) := by
  unfold unbase64Group advance
  split
  · split <;> rfl
  · rfl

theorem advance_one : advance Base64.pad Base64.pad = 1 := rfl

theorem advance_two {v : Nat} (h : v < 64) : advance (Base64.char v) Base64.pad = 2 := by
  unfold advance
  rw [if_pos (show Base64.pad = 61 from rfl), if_neg (char_ne_pad v h)]

theorem advance_three {v : Nat} (h : v < 64) (c : UInt8) : advance c (Base64.char v) = 3 := if_neg (char_ne_pad v h)

theorem advance_le (c d : UInt8) : advance c d ≤ 3 := by
  unfold advance
  split
  · split <;> omega
  · omega

theorem reads_group {s g : Str} (hg : g ∈ Base64.groups s) : Reads unbase64Group Base64.encodeGroup g := by
  have hbyte : ∀ (x : UInt8) (n : Nat), n = x.toNat → UInt8.ofNat n = x := fun x n h => by rw [h, UInt8.ofNat_toNat]
  have hpad : base64 Base64.pad = some 0 := by decide
  revert hg
  refine Base64.of_mem_groups ?_ ?_ ?_
  · intro a
    have ha := a.toNat_lt
    refine ⟨_, _, _, _, rfl, ?_⟩
    have h₁ := base64_char (a.toNat / 4) (by omega)
    have h₂ := base64_char (a.toNat % 4 * 16) (by omega)
    rw [unbase64Group_eq, advance_one]
    simp only [stored, h₁, h₂, hpad, getD_some]
    rw [shift_first _ (by omega) _ (by omega), hbyte a _ (by omega)]
    rfl
  · intro a b
    have ha := a.toNat_lt
    have hb := b.toNat_lt
    refine ⟨_, _, _, _, rfl, ?_⟩
    have h₁ := base64_char (a.toNat / 4) (by omega)
    have h₂ := base64_char (a.toNat % 4 * 16 + b.toNat / 16) (by omega)
    have h₃ := base64_char (b.toNat % 16 * 4) (by omega)
    rw [unbase64Group_eq, advance_two (by omega)]
    simp only [stored, h₁, h₂, h₃, hpad, getD_some]
    rw [shift_first _ (by omega) _ (by omega), shift_second _ (by omega) _ (by omega), hbyte a _ (by omega),
      hbyte b _ (by omega)]
    rfl
  · intro a b c
    have ha := a.toNat_lt
    have hb := b.toNat_lt
    have hc := c.toNat_lt
    refine ⟨_, _, _, _, rfl, ?_⟩
    have h₁ := base64_char (a.toNat / 4) (by omega)
    have h₂ := base64_char (a.toNat % 4 * 16 + b.toNat / 16) (by omega)
    have h₃ := base64_char (b.toNat % 16 * 4 + c.toNat / 64) (by omega)
    have h₄ := base64_char (c.toNat % 64) (by omega)
    rw [unbase64Group_eq, advance_three (by omega)]
    simp only [stored, h₁, h₂, h₃, h₄, getD_some]
    rw [shift_first _ (by omega) _ (by omega), shift_second _ (by omega) _ (by omega),
      shift_third _ (by omega) _ (by omega), hbyte a _ (by omega), hbyte b _ (by omega), hbyte c _ (by omega)]
    rfl

/-! ## The loop in the memory -/

/-- `none` outside the memory -/
def putAllAt : Str → Nat → Str → Option Str
  | d, _, [] => some d
  | d, i, x :: xs => if i < d.length then putAllAt (d.set i x) (i + 1) xs else none

theorem putAllAt_eq : ∀ (xs : Str) {d : Str} {i : Nat}, i + xs.length ≤ d.length →
    putAllAt d i xs = some (d.take i ++ xs ++ d.drop (i + xs.length))
  | [], d, i, _ => by simp [putAllAt]
  | x :: xs, d, i, h => by
    rw [List.length_cons] at h
    have hi : i < d.length := by omega
    have hset : d.set i x = (d.take i ++ [x]) ++ d.drop (i + 1) := by
      rw [set_eq_take_append_cons_drop, if_pos hi, append_assoc]
      rfl
    have hfront : (d.take i ++ [x]).length = i + 1 := by
      rw [length_append, length_take_of_le (by omega)]
      rfl
    have hlen : i + 1 + xs.length ≤ (d.set i x).length := by
      rw [length_set]
      omega
    have hback : (d.set i x).drop (i + 1 + xs.length) = d.drop (i + (x :: xs).length) := by
      rw [drop_set_of_lt (by omega), length_cons]
      congr 1
      omega
    rw [putAllAt, if_pos hi, putAllAt_eq xs hlen, hback, hset, take_left' hfront, append_assoc (d.take i)]
    rfl

/-- The variables of `unbase64`; `enc` holds the `i` characters of the open group. -/
structure Dec where
  d : Str
  src : Nat
  dest : Nat
  enc : Str

namespace Dec

def start (d : Str) : Dec := ⟨d, 0, 0, []⟩

def store (s : Dec) : Option Dec :=
  match s.enc with
  | [a, b, c, e] => (putAllAt s.d s.dest (stored a b c e)).map fun d =>
      { s with d := d, dest := s.dest + advance c e, enc := [] }
  | _ => some s

def turn (s : Dec) : Option Dec :=
  s.d[s.src]?.bind fun ch =>
    match base64 ch with
    | none => some { s with src := s.src + 1 }
    | some _ => store { s with src := s.src + 1, enc := s.enc ++ [ch] }

/-- At most `n` turns, as long as `src < len`. -/
def turns (len : Nat) : Nat → Dec → Option Dec
  | 0, s => some s
  | n + 1, s => if len ≤ s.src then some s else s.turn.bind (turns len n)

def finish (s : Dec) : Option (Str × Nat × Nat) :=
  (putAllAt s.d s.dest s.enc).map fun d => (d, s.dest + s.enc.length, s.enc.length)

end Dec

/-- `unbase64`: the memory after it, the returned length and `*remain` -/
def unbase64At (d : Str) (len : Nat) : Option (Str × Nat × Nat) :=
  (Dec.turns len len (.start d)).bind Dec.finish

/-- What holds of the variables after every turn, over a memory that held `d₀`. -/
structure Dec.Inv (d₀ : Str) (s : Dec) : Prop where
  length : s.d.length = d₀.length
  behind : s.dest + s.enc.length ≤ s.src
  unread : s.d.drop s.src = d₀.drop s.src
  decoded : s.d.take s.dest = whole unbase64Group ((d₀.take s.src).filter inAlphabet)
  kept : s.enc = leftover ((d₀.take s.src).filter inAlphabet)

namespace Dec

variable {d₀ : Str} {s : Dec}

theorem inv_start (d₀ : Str) : (start d₀).Inv d₀ := ⟨rfl, Nat.le_refl 0, rfl, rfl, rfl⟩

theorem store_short (h : s.enc.length < 4) : s.store = some s := by
  unfold store
  split
  · rename_i henc
    rw [henc] at h
    exact absurd h (by simp)
  · rfl

theorem Inv.getElem (h : s.Inv d₀) : s.d[s.src]? = d₀[s.src]? := by
  have hhead := congrArg (fun l => l[0]?) h.unread
  simpa using hhead

theorem Inv.unread_succ (h : s.Inv d₀) : s.d.drop (s.src + 1) = d₀.drop (s.src + 1) := by
  rw [← drop_drop, h.unread, drop_drop]

theorem Inv.enc_lt (h : s.Inv d₀) : s.enc.length < 4 := by
  rw [h.kept, length_leftover]
  omega

theorem filter_take_succ {ch : UInt8} {i : Nat} (h : d₀[i]? = some ch) (p : UInt8 → Bool) :
    (d₀.take (i + 1)).filter p = (d₀.take i).filter p ++ [ch].filter p := by
  rw [take_add_one, h, filter_append]
  rfl

theorem Inv.store_full (h : s.Inv d₀) {ch a b c e : UInt8} (hsrc : s.src < d₀.length)
    (hfilter : (d₀.take (s.src + 1)).filter inAlphabet = (d₀.take s.src).filter inAlphabet ++ [ch])
    (henc : s.enc ++ [ch] = [a, b, c, e]) :
    ∃ s', Dec.store { s with src := s.src + 1, enc := [a, b, c, e] } = some s' ∧ s'.Inv d₀ ∧ s'.src = s.src + 1 := by
  have hthree : s.enc.length = 3 := by
    have hlen := congrArg List.length henc
    simpa using hlen
  have hlen := h.length
  have hbehind := h.behind
  have hfit : s.dest + (stored a b c e).length ≤ s.d.length := by
    show s.dest + 3 ≤ s.d.length
    omega
  have hadv := advance_le c e
  have hleft : leftover ((d₀.take s.src).filter inAlphabet) ++ [ch] = [a, b, c, e] := by rw [← h.kept, henc]
  refine ⟨_, congrArg (Option.map _) (putAllAt_eq _ hfit), ⟨?_, ?_, ?_, ?_, ?_⟩, rfl⟩
  · simp only [length_append, length_take, length_drop, stored, length_cons, length_nil]
    omega
  · show s.dest + advance c e + 0 ≤ s.src + 1
    omega
  · show (s.d.take s.dest ++ stored a b c e ++ s.d.drop (s.dest + 3)).drop (s.src + 1) = d₀.drop (s.src + 1)
    have hfront : (s.d.take s.dest ++ stored a b c e).length = s.dest + 3 := by
      rw [length_append, length_take_of_le (by omega)]
      rfl
    rw [drop_append, drop_eq_nil_of_le (by omega), hfront, drop_drop, nil_append, ← h.unread_succ]
    congr 1
    omega
  · show (s.d.take s.dest ++ stored a b c e ++ s.d.drop (s.dest + 3)).take (s.dest + advance c e) =
      whole unbase64Group ((d₀.take (s.src + 1)).filter inAlphabet)
    have hdest : (s.d.take s.dest).length = s.dest := length_take_of_le (by omega)
    rw [hfilter, whole_append, hleft, ← h.decoded, append_assoc, take_append, hdest,
      take_of_length_le (by omega), Nat.add_sub_cancel_left, take_append_of_le_length hadv,
      ← unbase64Group_eq]
    exact congrArg _ (append_nil _).symm
  · rw [hfilter, leftover_append, hleft]
    rfl

/-- **One turn keeps the invariant.** -/
theorem Inv.turn (h : s.Inv d₀) (hsrc : s.src < d₀.length) : ∃ s', s.turn = some s' ∧ s'.Inv d₀ ∧ s'.src = s.src + 1 := by
  have hch := List.getElem?_eq_getElem hsrc
  set ch := d₀[s.src]
  have hlen := h.length
  have hbehind := h.behind
  unfold Dec.turn
  rw [h.getElem, hch, bind_some]
  split
  · -- a byte outside the alphabet is passed over
    rename_i hnone
    have hfilter : (d₀.take (s.src + 1)).filter inAlphabet = (d₀.take s.src).filter inAlphabet := by
      rw [filter_take_succ hch]
      simp [inAlphabet, hnone]
    refine ⟨_, rfl, ⟨hlen, Nat.le_succ_of_le hbehind, h.unread_succ, ?_, ?_⟩, rfl⟩
    · rw [hfilter]
      exact h.decoded
    · rw [hfilter]
      exact h.kept
  · rename_i v hsome
    have hfilter : (d₀.take (s.src + 1)).filter inAlphabet = (d₀.take s.src).filter inAlphabet ++ [ch] := by
      rw [filter_take_succ hch]
      simp [inAlphabet, hsome]
    have henc := h.enc_lt
    by_cases hshort : (s.enc ++ [ch]).length < 4
    · -- the group stays open
      refine ⟨_, store_short hshort, ⟨hlen, ?_, h.unread_succ, ?_, ?_⟩, rfl⟩
      · show s.dest + (s.enc ++ [ch]).length ≤ s.src + 1
        rw [length_append, length_singleton]
        omega
      · rw [hfilter, whole_append, ← h.kept, whole_of_short _ hshort, append_nil]
        exact h.decoded
      · rw [hfilter, leftover_append, ← h.kept, leftover_of_short hshort]
    · have hfour : ∃ a b c e, s.enc ++ [ch] = [a, b, c, e] := by
        have hlen4 : (s.enc ++ [ch]).length = 4 := by
          rw [length_append, length_singleton] at hshort ⊢
          omega
        match s.enc ++ [ch], hlen4 with
        | [a, b, c, e], _ => exact ⟨a, b, c, e, rfl⟩
      obtain ⟨a, b, c, e, hfull⟩ := hfour
      rw [hfull]
      exact h.store_full hsrc hfilter hfull

/-- **The loop keeps the invariant**, and every turn takes one byte. -/
theorem Inv.turns {len : Nat} (hlen : len ≤ d₀.length) : ∀ (n : Nat) {s : Dec}, s.Inv d₀ → s.src ≤ len →
    ∃ s', Dec.turns len n s = some s' ∧ s'.Inv d₀ ∧ s'.src = min len (s.src + n)
  | 0, s, h, hsrc => ⟨s, rfl, h, by omega⟩
  | n + 1, s, h, hsrc => by
    unfold Dec.turns
    split
    · exact ⟨s, rfl, h, by omega⟩
    · rename_i hlt
      obtain ⟨s', hs', hinv, hnext⟩ := h.turn (by omega)
      obtain ⟨s'', hs'', hinv', hsrc'⟩ := Inv.turns hlen n hinv (by omega)
      refine ⟨s'', ?_, hinv', by omega⟩
      rw [hs', bind_some, hs'']

theorem Inv.finish (h : s.Inv d₀) (hsrc : s.src ≤ d₀.length) :
    ∃ d', s.finish = some (d', (unbase64 (d₀.take s.src)).1.length, (unbase64 (d₀.take s.src)).2) ∧
      d'.length = d₀.length ∧ d'.take (unbase64 (d₀.take s.src)).1.length = (unbase64 (d₀.take s.src)).1 := by
  have hlen := h.length
  have hbehind := h.behind
  have hdest : (s.d.take s.dest).length = s.dest := length_take_of_le (by omega)
  have hres : (unbase64 (d₀.take s.src)).1 = s.d.take s.dest ++ s.enc := by rw [unbase64_eq, h.decoded, h.kept]
  have hcount : (unbase64 (d₀.take s.src)).2 = s.enc.length := by rw [unbase64_eq, h.kept]
  have hlength : (s.d.take s.dest ++ s.enc).length = s.dest + s.enc.length := by rw [length_append, hdest]
  refine ⟨s.d.take s.dest ++ s.enc ++ s.d.drop (s.dest + s.enc.length), ?_, ?_, ?_⟩
  · rw [Dec.finish, putAllAt_eq _ (by omega), hres, hcount, hlength]
    rfl
  · rw [length_append, hlength, length_drop]
    omega
  · rw [hres, take_left]

end Dec

theorem unbase64At_spec {d : Str} {len : Nat} (hlen : len ≤ d.length) :
    ∃ d', unbase64At d len = some (d', (unbase64 (d.take len)).1.length, (unbase64 (d.take len)).2) ∧
      d'.length = d.length ∧ d'.take (unbase64 (d.take len)).1.length = (unbase64 (d.take len)).1 ∧
      (unbase64 (d.take len)).1.length ≤ len ∧ (unbase64 (d.take len)).2 ≤ (unbase64 (d.take len)).1.length := by
  obtain ⟨s, hs, hinv, hsrc⟩ := Dec.Inv.turns hlen len (Dec.inv_start d) (Nat.zero_le len)
  have hsrc : s.src = len := by
    omega
  obtain ⟨d', hfin, hlength, htake⟩ := hinv.finish (by omega)
  rw [hsrc] at hfin htake
  have hbehind := hinv.behind
  have hdest : (s.d.take s.dest).length = s.dest := length_take_of_le (by have := hinv.length; omega)
  refine ⟨d', ?_, hlength, htake, ?_, ?_⟩
  · rw [unbase64At, hs, bind_some, hfin]
  · rw [unbase64_eq, ← hsrc, ← hinv.decoded, ← hinv.kept, length_append, hdest]
    exact hbehind
  · rw [unbase64_eq, length_append]
    omega

/-! ## Rounds of `do_read` -/

/-- The reading side of a connection with the whole memory of `req_buf`. -/
structure RawSide where
  proto : ConnProto
  reqBuf : Str
  reqLen : Nat
  base64Count : Int

namespace RawSide

def side (c : RawSide) : ReadSide := ⟨c.proto, c.reqBuf.take c.reqLen, c.base64Count⟩

def text (c : RawSide) : Str := c.reqBuf.take (c.reqLen - c.base64Count.toNat)

structure Ok (c : RawSide) : Prop where
  size : c.reqBuf.length = reqBufSize
  len : c.reqLen ≤ reqBufSize - 1
  count : c.base64Count.toNat ≤ c.reqLen

/-- `do_read` up to the decoded buffer, where `read()` returns `chunk`; `none` if there is no room for it -/
def readAt (c : RawSide) (chunk : Str) : Option RawSide :=
  if chunk = [] ∨ reqBufSize - 1 < c.reqLen + chunk.length then none
  else (putAllAt c.reqBuf c.reqLen chunk).bind fun mem =>
    if 0 ≤ c.base64Count then
      let reqLen := c.reqLen - c.base64Count.toNat
      (unbase64At (mem.drop reqLen) (chunk.length + c.base64Count.toNat)).map fun r =>
        { c with reqBuf := mem.take reqLen ++ r.1, reqLen := reqLen + r.2.1, base64Count := r.2.2 }
    else some { c with reqBuf := mem, reqLen := c.reqLen + chunk.length }

/-- `none` where the loop of `do_read` ends. A buffer that was handed on is empty afterwards. -/
def goOn (peer : Str → Bool) (c : RawSide) : Option RawSide :=
  if c.reqLen = reqBufSize - 1 then none
  else if 0 < c.base64Count then some c
  else match parseLoop peer c.side with
    | (.goesOn, r, _) => some ⟨r.proto, c.reqBuf.set c.reqLen 0, r.reqBuf.length, r.base64Count⟩
    | _ => none

end RawSide

theorem unbase64At_behind (kept enc tail : Str) : ∃ d', unbase64At ((kept ++ enc ++ tail).drop kept.length) enc.length =
        some (d', (unbase64 enc).1.length, (unbase64 enc).2) ∧
      d'.length = enc.length + tail.length ∧ d'.take (unbase64 enc).1.length = (unbase64 enc).1 ∧
      (unbase64 enc).1.length ≤ enc.length ∧ (unbase64 enc).2 ≤ (unbase64 enc).1.length := by
  have hdrop : (kept ++ enc ++ tail).drop kept.length = enc ++ tail := by rw [append_assoc, drop_left]
  have hlen : enc.length ≤ (enc ++ tail).length := by
    rw [length_append]
    omega
  obtain ⟨d', hd', hlength, htake, hle, hopen⟩ := unbase64At_spec hlen
  rw [take_left] at hd' htake hle hopen
  rw [hdrop]
  exact ⟨d', hd', by rw [hlength, length_append], htake, hle, hopen⟩

theorem RawSide.Ok.readAt {c : RawSide} (h : c.Ok) {chunk : Str} (hne : chunk ≠ [])
    (hfits : c.reqLen + chunk.length ≤ reqBufSize - 1) :
    ∃ c', c.readAt chunk = some c' ∧ c'.Ok ∧ c'.side = appendRead c.side chunk ∧ c'.reqLen ≤ c.reqLen + chunk.length := by
  obtain ⟨hsize, hlen, hcount⟩ := h
  set buf := c.reqBuf.take c.reqLen with hbuf
  set tail := c.reqBuf.drop (c.reqLen + chunk.length) with htail
  have hbufLen : buf.length = c.reqLen := length_take_of_le (by omega)
  have htailLen : tail.length = reqBufSize - (c.reqLen + chunk.length) := by rw [htail, length_drop, hsize]
  have hput : putAllAt c.reqBuf c.reqLen chunk = some (buf ++ chunk ++ tail) := putAllAt_eq chunk (by omega)
  have hguard : ¬ (chunk = [] ∨ reqBufSize - 1 < c.reqLen + chunk.length) := by
    rintro (hnil | hlong)
    · exact hne hnil
    · omega
  unfold RawSide.readAt
  rw [if_neg hguard, hput, bind_some]
  by_cases hpos : 0 ≤ c.base64Count
  · -- the open group and the new bytes are decoded together
    rw [if_pos hpos, appendRead, if_pos (show 0 ≤ c.side.base64Count from hpos)]
    simp only [RawSide.side, ← hbuf, hbufLen]
    set base := c.reqLen - c.base64Count.toNat with hbase
    have hkept : (buf.take base).length = base := length_take_of_le (by omega)
    have henc : (buf.drop base ++ chunk).length = chunk.length + c.base64Count.toNat := by
      rw [length_append, length_drop]
      omega
    have hmem : buf ++ chunk ++ tail = buf.take base ++ (buf.drop base ++ chunk) ++ tail := by
      rw [← append_assoc, take_append_drop]
    obtain ⟨d', hd', hdlen, hdtake, hle, hopen⟩ := unbase64At_behind (buf.take base) (buf.drop base ++ chunk) tail
    rw [← hmem, hkept, henc] at hd'
    have hfront : (buf ++ chunk ++ tail).take base = buf.take base := by
      rw [hmem, append_assoc, take_left' hkept]
    rw [hd', hfront]
    generalize unbase64 (buf.drop base ++ chunk) = r at hdtake hle hopen ⊢
    obtain ⟨out, remain⟩ := r
    dsimp only at hdtake hle hopen ⊢
    refine ⟨⟨c.proto, buf.take base ++ d', base + out.length, remain⟩, rfl, ⟨?_, ?_, ?_⟩, ?_, ?_⟩
    · rw [length_append, hkept, hdlen, htailLen]
      omega
    · show base + out.length ≤ reqBufSize - 1
      omega
    · show remain ≤ base + out.length
      omega
    · rw [take_append, take_of_length_le (show (buf.take base).length ≤ base + out.length by omega), hkept,
        Nat.add_sub_cancel_left, hdtake]
    · show base + out.length ≤ c.reqLen + chunk.length
      omega
  · have hfront : (buf ++ chunk).length = c.reqLen + chunk.length := by rw [length_append, hbufLen]
    rw [if_neg hpos, appendRead, if_neg (show ¬ 0 ≤ c.side.base64Count from hpos)]
    refine ⟨_, rfl, ⟨?_, hfits, ?_⟩, ?_, Nat.le_refl _⟩
    · rw [length_append, hfront, htailLen]
      omega
    · exact Nat.le_trans hcount (Nat.le_add_right ..)
    · simp only [RawSide.side, take_left' hfront, ← hbuf]

theorem handleRequest_rtsp (peer : Str → Bool) {c : ReadSide} (hproto : c.proto = .rtsp) : (handleRequest peer c).2 = c := by
  unfold handleRequest
  split
  · rfl
  split
  · rfl
  · rfl
  split
  · rfl
  · rw [hproto]

theorem parseClientData_rtsp (peer : Str → Bool) {c : ReadSide} (hproto : c.proto = .rtsp) :
    ∃ fin r ds, parseClientData peer c = (false, fin, r, ds) ∧ (r = c ∨ r = { c with reqBuf := [] }) := by
  have htake : (takeRequest peer c).2.1 = ⟨.rtsp, [], c.base64Count⟩ := by
    rw [takeRequest, handleRequest_rtsp peer hproto, ← hproto]
  unfold parseClientData
  generalize hp : c.proto = proto
  cases hproto.symm.trans hp
  dsimp only
  split
  · exact ⟨_, _, _, rfl, .inl rfl⟩
  split
  · split
    · exact ⟨_, _, _, rfl, .inl rfl⟩
    · exact ⟨_, _, _, rfl, .inr rfl⟩
  split
  · exact ⟨_, _, _, rfl, .inl rfl⟩
  · exact ⟨_, _, _, rfl, .inr htake⟩

/-- The text `t` and then the characters `rem` of an open group. -/
structure RawSide.Holds (c : RawSide) (t rem : Str) : Prop where
  buf : c.side.reqBuf = t ++ rem
  count : c.base64Count = rem.length

/-- `none` if a round has changed the text. -/
def RawSide.appended (c c₁ : RawSide) : Option Str :=
  if c.text <+: c₁.text then some (c₁.text.drop c.text.length) else none

/-- How many results of `read()` were taken, what they have appended, and the connection, if it has not been dropped. -/
structure Rounds where
  read : Nat
  got : Str
  fin : Option RawSide

def rounds (peer : Str → Bool) : RawSide → List Str → Option Rounds
  | c, [] => some ⟨0, [], some c⟩
  | c, chunk :: rest =>
    (c.readAt chunk).bind fun c₁ => (c.appended c₁).bind fun new =>
      match c₁.goOn peer with
      | none => some ⟨1, new, none⟩
      | some c₂ => (rounds peer c₂ rest).map fun r => ⟨r.read + 1, new ++ r.got, r.fin⟩

namespace RawSide

/-- The connection after these results of `read()`; `none` if a round has ended the loop -/
def after (peer : Str → Bool) (c : RawSide) (chunks : List Str) : Option RawSide :=
  chunks.foldlM (fun c chunk => (c.readAt chunk).bind (goOn peer)) c

/-- The loop ends in the last of `read` rounds. -/
def EndsAt (peer : Str → Bool) (c : RawSide) (chunks : List Str) (read : Nat) : Prop :=
  ∃ before chunk rest c₁ c₂, chunks = before ++ chunk :: rest ∧ read = before.length + 1 ∧ c.after peer before = some c₁ ∧
    c₁.readAt chunk = some c₂ ∧ c₂.goOn peer = none

variable {c : RawSide} {t rem : Str}

theorem after_cons {peer : Str → Bool} {chunk : Str} {c₁ c₂ : RawSide} (hread : c.readAt chunk = some c₁)
    (hgo : c₁.goOn peer = some c₂) (rest : List Str) : c.after peer (chunk :: rest) = c₂.after peer rest := by
  rw [after, foldlM_cons, hread, bind_some, hgo]
  rfl

theorem Holds.text_eq (h : c.Holds t rem) (hok : c.Ok) : c.text = t := by
  have hlen : t.length + rem.length = c.reqLen := by
    rw [← length_append, ← h.buf]
    exact length_take_of_le (by have := hok.size; have := hok.len; omega)
  have hcut : c.reqLen - c.base64Count.toNat = t.length := by
    rw [h.count, Int.toNat_natCast]
    omega
  have htake : c.text = (c.side.reqBuf).take t.length := by
    rw [text, hcut]
    show _ = (c.reqBuf.take c.reqLen).take t.length
    rw [take_take, Nat.min_eq_left (by omega)]
  rw [htake, h.buf, take_left]

/-- **One piece of input.** -/
theorem Holds.readAt (h : c.Holds t rem) (hok : c.Ok) (hrem : rem.filter inAlphabet = rem) {chunk : Str} (hne : chunk ≠ [])
    (hfits : c.reqLen + chunk.length ≤ reqBufSize - 1) :
    ∃ c₁, c.readAt chunk = some c₁ ∧ c₁.Ok ∧ c₁.proto = c.proto ∧ c₁.reqLen ≤ c.reqLen + chunk.length ∧
      c₁.Holds (t ++ whole unbase64Group (rem ++ chunk.filter inAlphabet)) (leftover (rem ++ chunk.filter inAlphabet)) := by
  obtain ⟨c₁, hread, hok₁, hside, hlen⟩ := hok.readAt hne hfits
  have hpos : 0 ≤ c.side.base64Count := by
    show 0 ≤ c.base64Count
    rw [h.count]
    omega
  have hkeep : c.side.reqBuf.length - c.side.base64Count.toNat = t.length := by
    show _ - c.base64Count.toNat = _
    rw [h.buf, h.count, Int.toNat_natCast, length_append, Nat.add_sub_cancel]
  have hinput : c.side.reqBuf.drop t.length = rem := by rw [h.buf, drop_left]
  have hbefore : c.side.reqBuf.take t.length = t := by rw [h.buf, take_left]
  rw [appendRead, if_pos hpos, hkeep] at hside
  dsimp only at hside
  rw [hinput, hbefore, unbase64_eq, filter_append, hrem] at hside
  refine ⟨c₁, hread, hok₁, congrArg ReadSide.proto hside, hlen, ?_, congrArg ReadSide.base64Count hside⟩
  rw [append_assoc]
  exact congrArg ReadSide.reqBuf hside

theorem Holds.goOn (h : c.Holds t rem) (hok : c.Ok) (hproto : c.proto = .rtsp) {peer : Str → Bool} {c' : RawSide}
    (hgo : c.goOn peer = some c') : ∃ t', c'.Holds t' rem ∧ c'.Ok ∧ c'.proto = .rtsp ∧ c'.reqLen ≤ c.reqLen := by
  obtain ⟨hsize, hlen, hcount⟩ := hok
  have hside : c.side.proto = .rtsp := hproto
  unfold RawSide.goOn at hgo
  split at hgo
  · cases hgo
  split at hgo
  · cases hgo
    exact ⟨t, h, ⟨hsize, hlen, hcount⟩, hproto, by omega⟩
  rename_i hopen
  have hrem : rem = [] := by
    rw [h.count] at hopen
    exact eq_nil_of_length_eq_zero (by omega)
  obtain ⟨fin, r, ds, hparse, hr⟩ := parseClientData_rtsp peer hside
  rw [parseLoop, hparse] at hgo
  have htake : (c.reqBuf.take c.reqLen).length = c.reqLen := length_take_of_le (by omega)
  have hset : (c.reqBuf.set c.reqLen 0).length = reqBufSize := by rw [length_set, hsize]
  cases fin with
  | dropped => cases hgo
  | crashed => cases hgo
  | goesOn =>
    cases hgo
    rcases hr with rfl | rfl
    · -- nothing was handed on
      refine ⟨t, ⟨?_, h.count⟩, ⟨hset, ?_, ?_⟩, hproto, ?_⟩
      · show (c.reqBuf.set c.reqLen 0).take (c.reqBuf.take c.reqLen).length = t ++ rem
        rw [htake, take_set_of_le (by omega)]
        exact h.buf
      · show (c.reqBuf.take c.reqLen).length ≤ _
        rw [htake]
        exact hlen
      · show c.base64Count.toNat ≤ (c.reqBuf.take c.reqLen).length
        rw [htake]
        exact hcount
      · show (c.reqBuf.take c.reqLen).length ≤ _
        rw [htake]
    · refine ⟨[], ⟨?_, h.count⟩, ⟨hset, Nat.zero_le _, ?_⟩, hproto, Nat.zero_le _⟩
      · rw [hrem]
        rfl
      · show c.base64Count.toNat ≤ 0
        omega

theorem Holds.appended (h : c.Holds t rem) (hok : c.Ok) {c₁ : RawSide} {new rem' : Str} (h₁ : c₁.Holds (t ++ new) rem')
    (hok₁ : c₁.Ok) : c.appended c₁ = some new := by
  rw [RawSide.appended, h.text_eq hok, h₁.text_eq hok₁, if_pos (prefix_append ..), drop_left]

end RawSide

structure Rounds.Decodes (peer : Str → Bool) (c : RawSide) (rem : Str) (chunks : List Str) (r : Rounds) : Prop where
  read_le : r.read ≤ chunks.length
  fin_eq : r.fin = c.after peer chunks
  ends : r.fin = none → c.EndsAt peer chunks r.read
  got : r.got = whole unbase64Group (rem ++ (chunks.take r.read).flatten.filter inAlphabet)
  all : ∀ c', r.fin = some c' → r.read = chunks.length ∧
    c'.base64Count = (leftover (rem ++ (chunks.take r.read).flatten.filter inAlphabet)).length

section

variable {peer : Str → Bool} {c c₁ c₂ : RawSide} {chunk rem : Str} {rest : List Str} {r : Rounds}

/-- A round that ends the loop. -/
theorem Rounds.decodes_last (hread : c.readAt chunk = some c₁) (hgo : c₁.goOn peer = none) :
    Rounds.Decodes peer c rem (chunk :: rest) ⟨1, whole unbase64Group (rem ++ chunk.filter inAlphabet), none⟩ := by
  have hfin : c.after peer (chunk :: rest) = none := by
    rw [RawSide.after, foldlM_cons, hread, bind_some, hgo]
    rfl
  refine ⟨Nat.succ_le_succ (Nat.zero_le _), hfin.symm, fun _ => ?_, ?_, fun c' hc' => by cases hc'⟩
  · exact ⟨[], chunk, rest, c, c₁, rfl, rfl, rfl, hread, hgo⟩
  · show whole unbase64Group _ = whole unbase64Group (rem ++ (List.filter inAlphabet [chunk].flatten))
    rw [flatten_singleton]

/-- One more round before the others. -/
theorem Rounds.Decodes.cons (h : r.Decodes peer c₂ (leftover (rem ++ chunk.filter inAlphabet)) rest)
    (hread : c.readAt chunk = some c₁) (hgo : c₁.goOn peer = some c₂) : Rounds.Decodes peer c rem (chunk :: rest)
      ⟨r.read + 1, whole unbase64Group (rem ++ chunk.filter inAlphabet) ++ r.got, r.fin⟩ := by
  have hseen : rem ++ ((chunk :: rest).take (r.read + 1)).flatten.filter inAlphabet =
      rem ++ chunk.filter inAlphabet ++ (rest.take r.read).flatten.filter inAlphabet := by
    rw [take_succ_cons, flatten_cons, filter_append, append_assoc]
  refine ⟨Nat.succ_le_succ h.read_le, h.fin_eq.trans (RawSide.after_cons hread hgo rest).symm, fun hfin => ?_, ?_, ?_⟩
  · obtain ⟨before, next, after, c₃, c₄, rfl, hlen, hbefore, hend⟩ := h.ends hfin
    refine ⟨chunk :: before, next, after, c₃, c₄, rfl, congrArg (· + 1) hlen, ?_, hend⟩
    rw [RawSide.after_cons hread hgo, hbefore]
  · rw [hseen, whole_append _ (rem ++ chunk.filter inAlphabet), h.got]
  · intro c' hc'
    obtain ⟨hall, hcount⟩ := h.all c' hc'
    refine ⟨congrArg (· + 1) hall, ?_⟩
    rw [hseen, leftover_append (rem ++ chunk.filter inAlphabet)]
    exact hcount

theorem filter_leftover (hrem : rem.filter inAlphabet = rem) (chunk : Str) :
    (leftover (rem ++ chunk.filter inAlphabet)).filter inAlphabet = leftover (rem ++ chunk.filter inAlphabet) := by
  refine filter_eq_self.mpr fun x hx => ?_
  rcases mem_append.mp (mem_of_mem_leftover hx) with hx | hx
  · rw [← hrem] at hx
    exact (mem_filter.mp hx).2
  · exact (mem_filter.mp hx).2

end

/-- **All rounds decode**, whatever is handed on in between. -/
theorem rounds_decode (peer : Str → Bool) : ∀ (chunks : List Str) {c : RawSide} {t rem : Str}, c.Holds t rem → c.Ok →
    c.proto = .rtsp → rem.length < 4 → rem.filter inAlphabet = rem → (∀ chunk ∈ chunks, chunk ≠ []) →
    c.reqLen + chunks.flatten.length ≤ reqBufSize - 1 → ∃ r, rounds peer c chunks = some r ∧ r.Decodes peer c rem chunks
  | [], c, t, rem, h, hok, hproto, hshort, hrem, hne, hfits => by
    refine ⟨_, rfl, Nat.le_refl 0, rfl, fun hfin => (by cases hfin), ?_, ?_⟩
    · show [] = whole unbase64Group (rem ++ [])
      rw [List.append_nil, whole_of_short _ hshort]
    · intro c' hc'
      cases hc'
      refine ⟨rfl, ?_⟩
      show c.base64Count = (leftover (rem ++ [])).length
      rw [List.append_nil, leftover_of_short hshort, h.count]
  | chunk :: rest, c, t, rem, h, hok, hproto, hshort, hrem, hne, hfits => by
    rw [List.forall_mem_cons] at hne
    rw [List.flatten_cons, List.length_append] at hfits
    obtain ⟨c₁, hread, hok₁, hproto₁, hlen₁, h₁⟩ := h.readAt hok hrem hne.1 (by omega)
    have hshort₁ : (leftover (rem ++ chunk.filter inAlphabet)).length < 4 := by
      rw [length_leftover]
      omega
    rw [rounds, hread, bind_some, h.appended hok h₁ hok₁, bind_some]
    cases hgo : c₁.goOn peer with
    | none => exact ⟨_, rfl, Rounds.decodes_last hread hgo⟩
    | some c₂ =>
      obtain ⟨t₂, h₂, hok₂, hproto₂, hlen₂⟩ := h₁.goOn hok₁ (hproto₁.trans hproto) hgo
      obtain ⟨r, hr, hdec⟩ := rounds_decode peer rest h₂ hok₂ hproto₂ hshort₁ (filter_leftover hrem chunk) hne.2 (by omega)
      exact ⟨_, congrArg (Option.map _) hr, hdec.cons hread hgo⟩

/-- **A tunnel decodes**: no turn of `unbase64` overwrites a byte that is not yet read; the rounds append the texts up to the
last whole group, and they end before the last result of `read()` only where the loop of `do_read` does. -/
theorem tunnel_decodes (peer : Str → Bool) (ss chunks : List Str) (c : RawSide) (hc : c.Ok) (hproto : c.proto = .rtsp)
    (hcount : c.base64Count = 0) (hcut : ∀ chunk ∈ chunks, chunk ≠ [])
    (hstream : chunks.flatten.filter inAlphabet <+: ss.flatMap Base64.encode)
    (hfits : c.reqLen + chunks.flatten.length ≤ reqBufSize - 1) : (∀ (d : Str) (len n : Nat), len ≤ d.length →
      ∃ s, Dec.turns len n (.start d) = some s ∧ s.d.drop s.src = d.drop s.src) ∧
    ∃ r, rounds peer c chunks = some r ∧ r.read ≤ chunks.length ∧ r.fin = c.after peer chunks ∧
      (r.fin = none → c.EndsAt peer chunks r.read) ∧
      r.got = ((ss.flatMap Base64.groups).take (((chunks.take r.read).flatten.filter inAlphabet).length / 4)).flatten ∧
      ∀ c', r.fin = some c' → r.read = chunks.length ∧
        c'.base64Count = ((chunks.flatten.filter inAlphabet).length % 4 : Nat) ∧
        (chunks.flatten.filter inAlphabet = ss.flatMap Base64.encode → r.got = ss.flatten) := by
  have hgroups : ∀ g ∈ ss.flatMap Base64.groups, Reads unbase64Group Base64.encodeGroup g := by
    intro g hg
    obtain ⟨s, _, hg⟩ := mem_flatMap.mp hg
    exact reads_group hg
  have hstart : c.Holds (c.reqBuf.take c.reqLen) [] := ⟨(append_nil _).symm, hcount⟩
  obtain ⟨r, hr, hdec⟩ := rounds_decode peer chunks hstart hc hproto (by decide) rfl hcut hfits
  -- what has been read so far is a part of the encoded texts
  have hpart : (chunks.take r.read).flatten.filter inAlphabet <+: (ss.flatMap Base64.groups).flatMap Base64.encodeGroup := by
    rw [← Base64.flatMap_encode]
    refine List.IsPrefix.trans (List.IsPrefix.filter _ ?_) hstream
    exact ⟨(chunks.drop r.read).flatten, by rw [← flatten_append, take_append_drop]⟩
  have hgot := hdec.got
  rw [nil_append, whole_of_part hgroups hpart] at hgot
  refine ⟨?_, r, hr, hdec.read_le, hdec.fin_eq, hdec.ends, hgot, ?_⟩
  · intro d len n hlen
    obtain ⟨s, hs, hinv, _⟩ := Dec.Inv.turns hlen n (Dec.inv_start d) (Nat.zero_le len)
    exact ⟨s, hs, hinv.unread⟩
  · intro c' hc'
    obtain ⟨hall, hcount'⟩ := hdec.all c' hc'
    have htake : chunks.take r.read = chunks := take_of_length_le (by omega)
    rw [htake] at hgot hcount'
    refine ⟨hall, ?_, fun hwhole => ?_⟩
    · rw [hcount', nil_append, length_leftover]
    · rw [hgot, hwhole, Base64.flatMap_encode, length_flatMap_of_reads hgroups, Nat.mul_div_cancel_left _ (by decide),
        take_length, Base64.flatten_flatMap_groups]

def tunnelled : RawSide := ⟨.rtsp, List.replicate reqBufSize 0, 0, 0⟩

theorem tunnel_decodes_two_texts : ∃ r, rounds (fun _ => false) tunnelled [bytes "SG", bytes "k=\nI", bytes "Q=="] = some r ∧
    r.read = 3 ∧ r.got = bytes "Hi!" := by
  obtain ⟨-, r, hr, -, hfin, -, -, hall⟩ := tunnel_decodes (fun _ => false) [bytes "Hi", bytes "!"]
    [bytes "SG", bytes "k=\nI", bytes "Q=="] tunnelled ⟨length_replicate, Nat.zero_le _, Nat.le_refl 0⟩ rfl rfl (by decide)
    (by decide) (by decide)
  have hafter : (tunnelled.after (fun _ => false) [bytes "SG", bytes "k=\nI", bytes "Q=="]).isSome := by decide +kernel
  rw [← hfin] at hafter
  obtain ⟨c', hc'⟩ := isSome_iff_exists.mp hafter
  obtain ⟨hread, -, hgot⟩ := hall c' hc'
  exact ⟨r, hr, hread, hgot (by decide)⟩

end NuWicam.Rtsp
