import NuWicam.Lib.Arena
import NuWicam.Rtsp.Checked
import NuWicam.Rtsp.Digest

/-!
# The `Authorization` header, byte by byte (`http-auth.c`)

`parse_auth_header` over the memory of the header and the six arrays of `struct digest_auth_info`; a loop that does not end
is an outcome of its own. `parseAuthHeaderAt_agrees`: it is the parser of `Digest`.
-/

namespace NuWicam.Rtsp

open Lib List Function

/-! ## The members of `struct digest_auth_info` -/

inductive AuthField
  | realm
  | uri
  | nonce
  | opaqueData
  | username
  | response
deriving DecidableEq, Repr

namespace AuthField

def all : List AuthField := [.realm, .uri, .nonce, .opaqueData, .username, .response]

def name : AuthField → Str
  | realm => bytes "realm"
  | uri => bytes "uri"
  | nonce => bytes "nonce"
  | opaqueData => bytes "opaque"
  | username => bytes "username"
  | response => bytes "response"

def size : AuthField → Nat
  | realm => 128
  | uri => 512
  | nonce => 128
  | opaqueData => 128
  | username => 128
  | response => 33

end AuthField

def DigestAuthInfo.get (auth : DigestAuthInfo) : AuthField → Str
  | .realm => auth.realm
  | .uri => auth.uri
  | .nonce => auth.nonce
  | .opaqueData => auth.opaqueData
  | .username => auth.username
  | .response => auth.response

def DigestAuthInfo.set (auth : DigestAuthInfo) (s : Str) : AuthField → DigestAuthInfo
  | .realm => { auth with realm := s }
  | .uri => { auth with uri := s }
  | .nonce => { auth with nonce := s }
  | .opaqueData => { auth with opaqueData := s }
  | .username => { auth with username := s }
  | .response => { auth with response := s }

theorem DigestAuthInfo.get_set (auth : DigestAuthInfo) (s : Str) (f g : AuthField) :
    (auth.set s f).get g = if g = f then s else auth.get g := by
  cases f <;> cases g <;> rfl

/-! ## The source -/

abbrev AuthMem := AuthField → Str

/-- `! strncasecmp(d + i, lit, strlen(lit))` -/
def matchAt (d : Str) : Nat → Str → Except Halt Bool
  | _, [] => .ok true
  | i, l :: lit => load d i >>= fun c => if lower c = lower l then matchAt d (i + 1) lit else .ok false

/-- `for (; d[i] != c; ++i) if (! d[i]) return -1;` -/
def findAt (c : UInt8) (d : Str) : Nat → Nat → Except Halt Nat
  | 0, _ => .error .endless
  | fuel + 1, i => load d i >>= fun x =>
      if x = c then .ok i else if x = 0 then .error .refused else findAt c d fuel (i + 1)

/-- `while (p(d[i])) ++i;` -/
def skipWhileAt (p : UInt8 → Bool) (d : Str) : Nat → Nat → Except Halt Nat
  | 0, _ => .error .endless
  | fuel + 1, i => load d i >>= fun x => if p x then skipWhileAt p d fuel (i + 1) else .ok i

def directiveValueAt (d : Str) (v : Nat) : Except Halt (Nat × Nat) :=
  load d v >>= fun c =>
  if c = 34 then findAt 34 d d.length (v + 1) >>= fun e => .ok (v + 1, e - (v + 1))
  else skipWhileAt (fun c => c != 44 && c != 32 && c != 0) d d.length v >>= fun e => .ok (v, e - v)

/-- `strncpy(a, d + v, len); a[len] = 0;` -/
def copyAt (d : Str) (v len : Nat) (a : Str) : Except Halt Str :=
  if d.length < v + len then .error .outside
  else if a.length ≤ len then .error .overfull
  else .ok ((d.drop v).take len ++ 0 :: a.drop (len + 1))

/-- The branches for the members `fs`, and the last one, for `algorithm`. -/
def setDirectiveAt (d : Str) (n v len : Nat) : List AuthField → AuthMem → Except Halt AuthMem
  | [], m => matchAt d n (bytes "algorithm=") >>= fun hit =>
      if hit then matchAt d v (bytes "md5") >>= fun ok => if ok then .ok m else .error .refused else .ok m
  | f :: fs, m => matchAt d n (f.name ++ [61]) >>= fun hit =>
      if hit then
        if f.size ≤ len then .error .refused
        else copyAt d v len (m f) >>= fun a => .ok (update m f a)
      else setDirectiveAt d n v len fs m

def isSep (c : UInt8) : Bool := c == 34 || c == 44 || c == 32

def parseDirectivesAt (d : Str) : Nat → Nat → AuthMem → Except Halt AuthMem
  | 0, _, _ => .error .endless
  | fuel + 1, n, m => load d n >>= fun c =>
      if c = 0 then .ok m
      else findAt 61 d d.length n >>= fun e => load d (e + 1) >>= fun x =>
        if x = 0 then .error .refused
        else directiveValueAt d (e + 1) >>= fun w => setDirectiveAt d n w.1 w.2 AuthField.all m >>= fun m =>
          skipWhileAt isSep d d.length (w.1 + w.2) >>= fun n => parseDirectivesAt d fuel n m

/-- `parse_auth_header` -/
def parseAuthHeaderAt (d : Str) (m : AuthMem) : Except Halt AuthMem :=
  matchAt d 0 (bytes "digest ") >>= fun hit =>
    if hit then parseDirectivesAt d d.length 7 m else .error .refused

/-! ## What stands ahead of a pointer -/

/-- From `i` on the memory holds the string `t` and its `NUL`. -/
def Rest (d : Str) (i : Nat) (t : Str) : Prop := 0 ∉ t ∧ d.drop i = t ++ [0]

section

variable {d t a : Str} {i fuel : Nat} {c : UInt8}

theorem Rest.move (h : Rest d i (a ++ t)) : Rest d (i + a.length) t := by
  refine ⟨fun h0 => h.1 (mem_append_right a h0), ?_⟩
  rw [← drop_drop, h.2, append_assoc, drop_left]

theorem Rest.tail (h : Rest d i (c :: t)) : Rest d (i + 1) t := Rest.move (a := [c]) h

theorem Rest.head_ne (h : Rest d i (c :: t)) : c ≠ 0 := fun h0 => h.1 (h0 ▸ mem_cons_self)

theorem Rest.length_lt (h : Rest d i t) : t.length < d.length := by
  have hlen := congrArg List.length h.2
  rw [length_drop, length_append, length_singleton] at hlen
  omega

theorem Rest.load (h : Rest d i t) : Rtsp.load d i = .ok (t.headD 0) := by
  have hget : d[i]? = some (t.headD 0) := by
    have hzero : (d.drop i)[0]? = d[i]? := by rw [List.getElem?_drop, Nat.add_zero]
    rw [← hzero, h.2]
    cases t with
    | nil => rfl
    | cons c t => rfl
  unfold Rtsp.load
  rw [hget]

theorem eq_of_lower {c d : UInt8} (hd : d < 65) (h : lower c = d) : c = d := by
  unfold lower at h
  split at h
  · rename_i hc
    have := congrArg UInt8.toNat h
    simp only [UInt8.le_iff_toNat_le, UInt8.lt_iff_toNat_lt, UInt8.toNat_add, UInt8.toNat_ofNat] at this hc hd
    omega
  · exact h

theorem matchAt_rest {lit : Str} (hlit : 0 ∉ lit) (h : Rest d i t) : matchAt d i lit = .ok (hasPfxCase lit t) := by
  induction lit generalizing i t with
  | nil => rfl
  | cons l lit ih =>
    rw [mem_cons, not_or] at hlit
    rw [matchAt, h.load]
    show (if lower (t.headD 0) = lower l then matchAt d (i + 1) lit else .ok false) = _
    cases t with
    | nil =>
      have hne : lower 0 ≠ lower l := fun he => hlit.1 (eq_of_lower (c := l) (by decide) he.symm).symm
      rw [headD_nil, if_neg hne]
      rfl
    | cons c t =>
      rw [headD_cons]
      show _ = Except.ok (lower l == lower c && hasPfxCase lit t)
      by_cases hc : lower c = lower l
      · rw [if_pos hc, ih hlit.2 h.tail, hc, beq_self_eq_true, Bool.true_and]
      · rw [if_neg hc, beq_eq_false_iff_ne.mpr (Ne.symm hc), Bool.false_and]

theorem findAt_rest (hc : c ≠ 0) (h : Rest d i t) (hfuel : t.length < fuel) :
    (strchr c t = none ∧ findAt c d fuel i = .error .refused) ∨
    ∃ a r, t = a ++ c :: r ∧ strchr c t = some (c :: r) ∧ findAt c d fuel i = .ok (i + a.length) := by
  induction t generalizing i fuel with
  | nil =>
    obtain ⟨fuel, rfl⟩ := Nat.exists_eq_succ_of_ne_zero (Nat.ne_of_gt hfuel)
    refine .inl ⟨rfl, ?_⟩
    rw [findAt, h.load]
    show (if (0 : UInt8) = c then _ else _) = _
    rw [if_neg (Ne.symm hc)]
    rfl
  | cons x t ih =>
    obtain ⟨fuel, rfl⟩ := Nat.exists_eq_succ_of_ne_zero (Nat.ne_of_gt (Nat.lt_of_le_of_lt (Nat.zero_le _) hfuel))
    by_cases hx : x = c
    · subst hx
      refine .inr ⟨[], t, rfl, if_pos rfl, ?_⟩
      rw [findAt, h.load]
      exact if_pos rfl
    · have hstep : findAt c d (fuel + 1) i = findAt c d fuel (i + 1) := by
        rw [findAt, h.load]
        exact (if_neg hx).trans (if_neg h.head_ne)
      have hstr : strchr c (x :: t) = strchr c t := if_neg hx
      rw [hstep, hstr]
      rcases ih h.tail (Nat.lt_of_succ_lt_succ hfuel) with ⟨hn, he⟩ | ⟨a, r, rfl, hs, he⟩
      · exact .inl ⟨hn, he⟩
      · refine .inr ⟨x :: a, r, rfl, hs, ?_⟩
        rw [he, length_cons, Nat.add_assoc, Nat.add_comm 1]

theorem skipWhileAt_rest {p : UInt8 → Bool} (hp : p 0 = false) (h : Rest d i t) (hfuel : t.length < fuel) :
    skipWhileAt p d fuel i = .ok (i + (t.takeWhile p).length) := by
  induction t generalizing i fuel with
  | nil =>
    obtain ⟨fuel, rfl⟩ := Nat.exists_eq_succ_of_ne_zero (Nat.ne_of_gt hfuel)
    rw [skipWhileAt, h.load]
    show (if p 0 = true then _ else _) = _
    rw [hp]
    rfl
  | cons x t ih =>
    obtain ⟨fuel, rfl⟩ := Nat.exists_eq_succ_of_ne_zero (Nat.ne_of_gt (Nat.lt_of_le_of_lt (Nat.zero_le _) hfuel))
    rw [skipWhileAt, h.load]
    show (if p x = true then _ else _) = _
    by_cases hx : p x
    · rw [if_pos hx, ih h.tail (Nat.lt_of_succ_lt_succ hfuel), takeWhile_cons_of_pos hx, length_cons,
        Nat.add_assoc, Nat.add_comm 1]
    · rw [if_neg hx, takeWhile_cons_of_neg hx]
      rfl

theorem directiveValue_quoted (h : strchr 34 t = some (34 :: a)) :
    directiveValue (34 :: t) = some (t.take (t.length - (a.length + 1)), 34 :: a) := by
  simp [directiveValue, h]

theorem directiveValue_open (h : strchr 34 t = none) : directiveValue (34 :: t) = none := by
  simp only [directiveValue, h]

theorem directiveValue_plain (h : t.headD 0 ≠ 34) :
    directiveValue t = some (t.takeWhile fun c => c != 44 && c != 32, t.dropWhile fun c => c != 44 && c != 32) := by
  unfold directiveValue
  split
  · exact absurd rfl h
  · rw [span_eq_takeWhile_dropWhile]

theorem takeWhile_noNul (p : UInt8 → Bool) (ht : 0 ∉ t) : t.takeWhile (fun c => p c && c != 0) = t.takeWhile p := by
  induction t with
  | nil => rfl
  | cons c t ih =>
    rw [mem_cons, not_or] at ht
    have hc : (c != 0) := bne_iff_ne.mpr (Ne.symm ht.1)
    simp only [takeWhile_cons, hc, Bool.and_true, ih ht.2]

theorem directiveValueAt_rest (h : Rest d i t) : (directiveValue t = none ∧ directiveValueAt d i = .error .refused) ∨
    ∃ value rest start, directiveValue t = some (value, rest) ∧ valueText t = value ++ rest ∧
      directiveValueAt d i = .ok (start, value.length) ∧ Rest d start (value ++ rest) := by
  by_cases hq : t.headD 0 = 34
  · obtain ⟨t, rfl⟩ : ∃ t', t = 34 :: t' := by
      cases t with
      | nil => exact absurd hq (by decide)
      | cons c t => exact ⟨t, congrArg (· :: t) hq⟩
    have hstart : directiveValueAt d i =
        (findAt 34 d d.length (i + 1) >>= fun e => .ok (i + 1, e - (i + 1))) := by
      rw [directiveValueAt, h.load]
      rfl
    rw [hstart]
    rcases findAt_rest (c := 34) (by decide) h.tail h.tail.length_lt with ⟨hn, he⟩ | ⟨a, r, rfl, hs, he⟩
    · rw [he]
      exact .inl ⟨directiveValue_open hn, rfl⟩
    · have htake : (a ++ 34 :: r).take ((a ++ 34 :: r).length - (r.length + 1)) = a := by
        rw [length_append, length_cons, Nat.add_sub_cancel, take_left]
      refine .inr ⟨a, 34 :: r, i + 1, ?_, rfl, ?_, h.tail⟩
      · rw [directiveValue_quoted hs, htake]
      · rw [he]
        show Except.ok (i + 1, i + 1 + a.length - (i + 1)) = _
        rw [Nat.add_sub_cancel_left]
  · have hstart : directiveValueAt d i =
        (skipWhileAt (fun c => c != 44 && c != 32 && c != 0) d d.length i >>= fun e => .ok (i, e - i)) := by
      rw [directiveValueAt, h.load]
      exact if_neg hq
    have htext : valueText t = t := if_neg fun he => hq (by rw [List.headD_eq_head?_getD, he]; rfl)
    refine .inr ⟨_, _, i, directiveValue_plain hq, ?_, ?_, ?_⟩
    · rw [htext, takeWhile_append_dropWhile]
    · rw [hstart, skipWhileAt_rest rfl h h.length_lt, takeWhile_noNul _ h.1]
      show Except.ok (i, i + _ - i) = _
      rw [Nat.add_sub_cancel_left]
    · rw [takeWhile_append_dropWhile]
      exact h

end

/-! ## It is the same parser -/

def AuthMem.Shows (m : AuthMem) (auth : DigestAuthInfo) : Prop :=
  ∀ f, (m f).length = f.size ∧ cstr (m f) = auth.get f

def SameResult : Option DigestAuthInfo → Except Halt AuthMem → Prop
  | some auth, .ok m => m.Shows auth
  | none, .error .refused => True
  | _, _ => False

theorem SameResult.cases {x : Option DigestAuthInfo} {y : Except Halt AuthMem} (h : SameResult x y) :
    (x = none ∧ y = .error .refused) ∨ ∃ auth m, x = some auth ∧ y = .ok m ∧ m.Shows auth := by
  cases x with
  | none =>
    cases y with
    | ok m => cases h
    | error e =>
      cases e with
      | refused => exact .inl ⟨rfl, rfl⟩
      | outside | overfull | endless => cases h
  | some auth =>
    cases y with
    | ok m => exact .inr ⟨auth, m, rfl, rfl, h⟩
    | error e => cases h

/-- `setDirective` with its branches for the members `fs`. -/
def setDirectiveFrom (n v value : Str) : List AuthField → DigestAuthInfo → Option DigestAuthInfo
  | [], auth =>
    if hasPfxCase (bytes "algorithm=") n then (if hasPfxCase (bytes "md5") v then some auth else none) else some auth
  | f :: fs, auth =>
    if hasPfxCase (f.name ++ [61]) n then storeValue f.size value fun s => auth.set s f
    else setDirectiveFrom n v value fs auth

theorem setDirective_eq (n v value : Str) (auth : DigestAuthInfo) :
    setDirective n v value auth = setDirectiveFrom n v value AuthField.all auth := rfl

section

variable {d t value rest : Str} {n v : Nat} {m : AuthMem} {auth : DigestAuthInfo}

theorem copyAt_rest {a : Str} (h : Rest d v (value ++ rest)) (hlen : value.length < a.length) :
    copyAt d v value.length a = .ok (value ++ 0 :: a.drop (value.length + 1)) := by
  have hd := congrArg List.length h.2
  simp only [length_drop, length_append, length_singleton] at hd
  have htake : (d.drop v).take value.length = value := by rw [h.2, append_assoc, take_left]
  unfold copyAt
  rw [if_neg (by omega), if_neg (Nat.not_le.mpr hlen), htake]

theorem AuthMem.Shows.store (hm : m.Shows auth) (hvalue : 0 ∉ value) {f : AuthField} (hlen : value.length < f.size) :
    AuthMem.Shows (update m f (value ++ 0 :: (m f).drop (value.length + 1))) (auth.set value f) := by
  intro g
  rw [DigestAuthInfo.get_set]
  by_cases hg : g = f
  · subst hg
    rw [update_self, if_pos rfl]
    refine ⟨?_, ?_⟩
    · rw [length_append, length_cons, length_drop, (hm g).1]
      omega
    · rw [cstr_append hvalue]
      exact append_nil value
  · rw [update_of_ne hg, if_neg hg]
    exact hm g

theorem name_noNul (f : AuthField) : 0 ∉ f.name ++ [61] := by
  cases f <;> decide

theorem setDirectiveAt_agrees (hn : Rest d n t) (hv : Rest d v (value ++ rest)) (hm : m.Shows auth) (fs : List AuthField) :
    SameResult (setDirectiveFrom t (value ++ rest) value fs auth) (setDirectiveAt d n v value.length fs m) := by
  induction fs with
  | nil =>
    rw [setDirectiveFrom, setDirectiveAt, matchAt_rest (by decide) hn]
    show SameResult _ (if hasPfxCase (bytes "algorithm=") t = true then _ else _)
    split
    · rw [matchAt_rest (by decide) hv]
      show SameResult _ (if hasPfxCase (bytes "md5") (value ++ rest) = true then _ else _)
      split
      · exact hm
      · trivial
    · exact hm
  | cons f fs ih =>
    rw [setDirectiveFrom, setDirectiveAt, matchAt_rest (name_noNul f) hn]
    show SameResult _ (if hasPfxCase (f.name ++ [61]) t = true then _ else _)
    split
    · unfold storeValue
      by_cases hlen : f.size ≤ value.length
      · rw [if_pos hlen, if_pos hlen]
        trivial
      · have hfit : value.length < (m f).length := by
          rw [(hm f).1]
          omega
        rw [if_neg hlen, if_neg hlen, copyAt_rest hv hfit]
        exact hm.store (fun h0 => hv.1 (mem_append_left _ h0)) (by omega)
    · exact ih

theorem parseDirectives_cons (fuel : Nat) (c : UInt8) (t : Str) (auth : DigestAuthInfo) :
    parseDirectives (fuel + 1) (c :: t) auth =
      match strchr 61 (c :: t) with
      | none => none
      | some eq =>
        if eq.tail = [] then none
        else match directiveValue eq.tail with
          | none => none
          | some (value, rest) =>
            match setDirective (c :: t) (valueText eq.tail) value auth with
            | none => none
            | some auth => parseDirectives fuel (rest.dropWhile isSep) auth := rfl

theorem length_dropWhile_le {r value rest : Str} (h : valueText r = value ++ rest) :
    (rest.dropWhile isSep).length ≤ r.length := by
  have hdrop := (dropWhile_suffix isSep (l := rest)).length_le
  have hval := congrArg List.length h
  have htail : (valueText r).length ≤ r.length := by
    unfold valueText
    split
    · exact (tail_sublist r).length_le
    · omega
  rw [length_append] at hval
  omega

theorem parseDirectivesAt_agrees {fuel fuel' : Nat} (hn : Rest d n t) (hm : m.Shows auth) (hfuel : t.length ≤ fuel)
    (hfuel' : t.length < fuel') : SameResult (parseDirectives fuel t auth) (parseDirectivesAt d fuel' n m) := by
  induction fuel' generalizing fuel t n m auth with
  | zero => exact absurd hfuel' (by omega)
  | succ fuel' ih =>
    rw [parseDirectivesAt, hn.load]
    cases t with
    | nil =>
      have hend : parseDirectives fuel [] auth = some auth := by cases fuel <;> rfl
      rw [hend]
      exact hm
    | cons c t =>
      obtain ⟨fuel, rfl⟩ : ∃ k, fuel = k + 1 := Nat.exists_eq_succ_of_ne_zero (by rw [length_cons] at hfuel; omega)
      show SameResult _ (if c = 0 then _ else _)
      rw [if_neg hn.head_ne, parseDirectives_cons]
      rcases findAt_rest (c := 61) (by decide) hn hn.length_lt with ⟨hnone, he⟩ | ⟨a, r, ht, hs, he⟩
      · rw [hnone, he]
        trivial
      rw [hs, he]
      have hr : Rest d (n + a.length + 1) r := by
        rw [ht] at hn
        exact hn.move.tail
      show SameResult (if r = [] then none else _) (Rtsp.load d (n + a.length + 1) >>= _)
      rw [hr.load]
      by_cases hnil : r = []
      · subst hnil
        trivial
      have hhead : r.headD 0 ≠ 0 := by
        cases r with
        | nil => exact absurd rfl hnil
        | cons x r => exact hr.head_ne
      show SameResult _ (if r.headD 0 = 0 then _ else _)
      rw [if_neg hnil, if_neg hhead, tail_cons]
      rcases directiveValueAt_rest hr with ⟨hnone, he'⟩ | ⟨value, rest, start, hvalue, htext, he', hv⟩
      · rw [hnone, he']
        trivial
      rw [hvalue, he', htext]
      show SameResult (match setDirective (c :: t) (value ++ rest) value auth with | none => none | some auth => _)
        (setDirectiveAt d n start value.length AuthField.all m >>= _)
      rw [setDirective_eq]
      rcases (setDirectiveAt_agrees hn hv hm AuthField.all).cases with ⟨hx, hy⟩ | ⟨auth', m', hx, hy, hm'⟩
      · rw [hx, hy]
        trivial
      rw [hx, hy]
      have hrest := hv.move
      rw [skipWhileAt_rest rfl hrest hrest.length_lt]
      -- what is left is shorter than what was there, since the `=` is gone
      have hlen := length_dropWhile_le htext
      have hlt := congrArg List.length ht
      simp only [length_append, length_cons] at hlt hfuel hfuel'
      refine ih ?_ hm' (by omega) (by omega)
      refine Rest.move (a := rest.takeWhile isSep) ?_
      rw [takeWhile_append_dropWhile]
      exact hrest

/-- **The byte-wise parser is the parser** of `Digest`, on every header. -/
theorem parseAuthHeaderAt_agrees (s : CStr) (hm : m.Shows .empty) :
    SameResult (parseAuthHeader s) (parseAuthHeaderAt (s.1 ++ [0]) m) := by
  have hs : Rest (s.1 ++ [0]) 0 s.1 := ⟨s.2, rfl⟩
  unfold parseAuthHeader parseAuthHeaderAt
  rw [matchAt_rest (by decide) hs]
  show SameResult _ (if hasPfxCase (bytes "digest ") s.1 = true then _ else _)
  split
  · rename_i hpfx
    have hlen : 7 ≤ s.1.length := by
      have := (List.isPrefixOf_iff_prefix.mp hpfx).length_le
      rwa [length_map, length_map] at this
    have hseven : Rest (s.1 ++ [0]) 7 (s.1.drop 7) := by
      refine ⟨fun h0 => s.2 (mem_of_mem_drop h0), ?_⟩
      rw [drop_append_of_le_length hlen]
    refine parseDirectivesAt_agrees hseven hm ?_ ?_
    · rw [length_drop]
      omega
    · rw [length_drop, length_append]
      omega
  · trivial

end

/-! ## Directives -/

/-- A directive `name=value`, the value in quotes or not. -/
structure AuthDirective where
  name : Str
  quoted : Bool
  value : Str
deriving DecidableEq, Repr

namespace AuthDirective

/-- What stands behind the `=`. -/
def written (d : AuthDirective) : Str := if d.quoted then 34 :: (d.value ++ [34]) else d.value

def text (d : AuthDirective) : Str := d.name ++ 61 :: d.written

def field (d : AuthDirective) : Option AuthField := AuthField.all.find? fun f => caseEq f.name d.name

/-- A name without `=`, blank, comma and quote; a quoted value without a quote, or an unquoted one, not empty, that begins
with no quote and has no blank or comma; and a value shorter than its array. -/
structure Wf (d : AuthDirective) : Prop where
  named : d.name ≠ []
  name : ∀ c ∈ d.name, c ≠ 0 ∧ c ≠ 61 ∧ isSep c = false
  quoted : d.quoted = true → ∀ c ∈ d.value, c ≠ 0 ∧ c ≠ 34
  plain : d.quoted = false → d.value ≠ [] ∧ d.value.headD 0 ≠ 34 ∧ ∀ c ∈ d.value, c ≠ 0 ∧ c ≠ 44 ∧ c ≠ 32
  fits : ∀ f, d.field = some f → d.value.length < f.size

def check (d : AuthDirective) : Bool :=
  !d.name.isEmpty && d.name.all (fun c => c != 0 && c != 61 && !isSep c) &&
    (if d.quoted then d.value.all fun c => c != 0 && c != 34
     else !d.value.isEmpty && d.value.headD 0 != 34 && d.value.all fun c => c != 0 && c != 44 && c != 32) &&
    d.field.all fun f => d.value.length < f.size

theorem wf_of_check {d : AuthDirective} (h : d.check) : d.Wf := by
  obtain ⟨name, quoted, value⟩ := d
  simp only [check, Bool.and_eq_true, Bool.not_eq_true', isEmpty_eq_false_iff, List.all_eq_true, bne_iff_ne,
    Option.all_eq_true, decide_eq_true_eq] at h
  obtain ⟨⟨⟨hnamed, hname⟩, hvalue⟩, hfits⟩ := h
  refine ⟨hnamed, fun c hc => and_assoc.mp (hname c hc), fun hq => ?_, fun hq => ?_, hfits⟩
  · subst hq
    simpa using hvalue
  · subst hq
    simpa [and_assoc] using hvalue

/-- An `algorithm` starts with `md5`. -/
def Md5 (d : AuthDirective) : Prop := caseEq (bytes "algorithm") d.name = true → hasPfxCase (bytes "md5") d.value = true

instance (d : AuthDirective) : Decidable d.Md5 := inferInstanceAs (Decidable (_ → _))

def apply (auth : DigestAuthInfo) (d : AuthDirective) : DigestAuthInfo :=
  match d.field with
  | some f => auth.set d.value f
  | none => auth

end AuthDirective

def directivesText : List (AuthDirective × Str) → Str
  | [] => []
  | (d, sep) :: ds => d.text ++ (sep ++ directivesText ds)

def Separated : List (AuthDirective × Str) → Prop
  | [] => True
  | (_, sep) :: ds => (ds ≠ [] → sep ≠ []) ∧ Separated ds

structure WfDirectives (ds : List (AuthDirective × Str)) : Prop where
  wf : ∀ x ∈ ds, x.1.Wf
  seps : ∀ x ∈ ds, ∀ c ∈ x.2, c = 44 ∨ c = 32
  separated : Separated ds
  once : ds.Pairwise fun x y => caseEq x.1.name y.1.name = false

def givenValue (ds : List (AuthDirective × Str)) (f : AuthField) : Str :=
  ((ds.find? fun x => caseEq f.name x.1.name).map fun x => x.1.value).getD []

/-! ### A directive in front of a text -/

theorem hasPfxCase_name {lit name : Str} (hlit : 61 ∉ lit) (hname : 61 ∉ name) (rest : Str) :
    hasPfxCase (lit ++ [61]) (name ++ 61 :: rest) = caseEq lit name := by
  induction lit generalizing name with
  | nil =>
    cases name with
    | nil => rfl
    | cons c name =>
      rw [mem_cons, not_or] at hname
      have hc : lower 61 ≠ lower c := fun he => hname.1 (eq_of_lower (by decide) he.symm).symm
      show (lower 61 == lower c && _) = false
      rw [beq_eq_false_iff_ne.mpr hc, Bool.false_and]
  | cons l lit ih =>
    rw [mem_cons, not_or] at hlit
    cases name with
    | nil =>
      have hl : lower l ≠ lower 61 := fun he => hlit.1 (eq_of_lower (by decide) he).symm
      show (lower l == lower 61 && _) = false
      rw [beq_eq_false_iff_ne.mpr hl, Bool.false_and]
    | cons c name =>
      rw [mem_cons, not_or] at hname
      have hstep : hasPfxCase (l :: lit ++ [61]) (c :: name ++ 61 :: rest) =
          (lower l == lower c && hasPfxCase (lit ++ [61]) (name ++ 61 :: rest)) := rfl
      have hcase : caseEq (l :: lit) (c :: name) = (lower l == lower c && caseEq lit name) := rfl
      rw [hstep, hcase, ih hlit.2 hname.2]

theorem hasPfxCase_append {lit a b : Str} (h : ∀ c, b.head? = some c → lower c ∉ lit.map lower) :
    hasPfxCase lit (a ++ b) = hasPfxCase lit a := by
  induction lit generalizing a with
  | nil => rfl
  | cons l lit ih =>
    cases a with
    | nil =>
      cases b with
      | nil => rfl
      | cons c b =>
        have hc : lower l ≠ lower c := fun he => h c rfl (he ▸ mem_cons_self)
        show (lower l == lower c && _) = false
        rw [beq_eq_false_iff_ne.mpr hc, Bool.false_and]
    | cons c a =>
      have hstep : ∀ r, hasPfxCase (l :: lit) (c :: r) = (lower l == lower c && hasPfxCase lit r) := fun _ => rfl
      rw [cons_append, hstep, hstep, ih fun c hc hmem => h c hc (mem_cons_of_mem _ hmem)]

theorem eq_of_caseEq_name {f g : AuthField} (h : caseEq f.name g.name) : f = g := by
  cases f <;> cases g <;> first | rfl | exact absurd h (by decide)

namespace AuthDirective

variable {d : AuthDirective} {sep rest : Str}

theorem field_eq_some_iff {f : AuthField} : d.field = some f ↔ caseEq f.name d.name = true := by
  unfold field
  constructor
  · intro h
    exact List.find?_some (p := fun f : AuthField => caseEq f.name d.name) h
  · intro h
    cases hg : AuthField.all.find? fun f => caseEq f.name d.name with
    | none =>
      have hall : f ∈ AuthField.all := by cases f <;> decide
      exact absurd h (List.find?_eq_none.mp hg f hall)
    | some g =>
      have hgd := List.find?_some (p := fun f : AuthField => caseEq f.name d.name) hg
      rw [eq_of_caseEq_name (caseEq_trans h (caseEq_symm hgd))]

theorem md5_of_field {f : AuthField} (h : d.field = some f) : d.Md5 := by
  intro halg
  have hsame := caseEq_trans halg (caseEq_symm (field_eq_some_iff.mp h))
  cases f <;> exact absurd hsame (by decide)

theorem setDirectiveFrom_text (hd : d.Wf) (rest v : Str) (auth : DigestAuthInfo) (fs : List AuthField) :
    setDirectiveFrom (d.name ++ 61 :: rest) v d.value fs auth =
      match fs.find? fun f => caseEq f.name d.name with
      | some f => storeValue f.size d.value fun s => auth.set s f
      | none =>
        if caseEq (bytes "algorithm") d.name then (if hasPfxCase (bytes "md5") v then some auth else none)
        else some auth := by
  have hname : 61 ∉ d.name := fun h => (hd.name 61 h).2.1 rfl
  induction fs with
  | nil =>
    have halg : hasPfxCase (bytes "algorithm=") (d.name ++ 61 :: rest) = caseEq (bytes "algorithm") d.name :=
      @hasPfxCase_name (bytes "algorithm") d.name (by decide) hname rest
    rw [setDirectiveFrom, halg, List.find?_nil]
  | cons f fs ih =>
    have hlit : 61 ∉ f.name := by cases f <;> decide
    rw [setDirectiveFrom, hasPfxCase_name hlit hname, ih, List.find?_cons]
    cases caseEq f.name d.name <;> rfl

theorem dropWhile_sep (hsep : ∀ c ∈ sep, c = 44 ∨ c = 32) (hrest : ∀ c, rest.head? = some c → isSep c = false) :
    (sep ++ rest).dropWhile isSep = rest := by
  have hall : ∀ c ∈ sep, isSep c := by
    intro c hc
    rcases hsep c hc with rfl | rfl
    · rfl
    · rfl
  rw [dropWhile_append_of_pos hall]
  cases rest with
  | nil => rfl
  | cons c rest => exact dropWhile_cons_of_neg (by rw [hrest c rfl]; decide)

theorem directiveValue_unquoted {value next : Str} (hne : value ≠ []) (hhead : value.headD 0 ≠ 34)
    (hchars : ∀ c ∈ value, c ≠ 44 ∧ c ≠ 32) (hstop : ∀ c, next.head? = some c → c = 44 ∨ c = 32) :
    directiveValue (value ++ next) = some (value, next) ∧ valueText (value ++ next) = value ++ next := by
  have hnot : (value ++ next).headD 0 ≠ 34 := by
    cases hv : value with
    | nil => exact absurd hv hne
    | cons c v =>
      rw [hv] at hhead
      exact hhead
  have hall : ∀ c ∈ value, (c != 44 && c != 32) := by
    intro c hc
    simp [(hchars c hc).1, (hchars c hc).2]
  have hend : next.takeWhile (fun c => c != 44 && c != 32) = [] ∧
      next.dropWhile (fun c => c != 44 && c != 32) = next := by
    cases hnext : next with
    | nil => exact ⟨rfl, rfl⟩
    | cons c r =>
      have hc : ¬ (c != 44 && c != 32) := by
        rcases hstop c (by rw [hnext]; rfl) with rfl | rfl
        · decide
        · decide
      exact ⟨takeWhile_cons_of_neg hc, dropWhile_cons_of_neg hc⟩
  constructor
  · rw [directiveValue_plain hnot, takeWhile_append_of_pos hall, dropWhile_append_of_pos hall, hend.1, hend.2,
      append_nil]
  · refine if_neg fun he => hnot ?_
    rw [List.headD_eq_head?_getD, he]
    rfl

theorem directiveValue_written (hd : d.Wf) (hsep : ∀ c ∈ sep, c = 44 ∨ c = 32) (hnext : sep ≠ [] ∨ rest = [])
    (hrest : ∀ c, rest.head? = some c → isSep c = false) :
    ∃ tail, directiveValue (d.written ++ (sep ++ rest)) = some (d.value, tail) ∧
      valueText (d.written ++ (sep ++ rest)) = d.value ++ tail ∧ tail.dropWhile isSep = rest ∧
      ∀ c, tail.head? = some c → c = 34 ∨ c = 44 ∨ c = 32 := by
  have hdrop := dropWhile_sep hsep hrest
  cases hq : d.quoted with
  | true =>
    have hquote : 34 ∉ d.value := fun h => (hd.quoted hq 34 h).2 rfl
    have hwritten : d.written ++ (sep ++ rest) = 34 :: (d.value ++ 34 :: (sep ++ rest)) := by simp [written, hq]
    rw [hwritten]
    refine ⟨34 :: (sep ++ rest), ?_, rfl, ?_, ?_⟩
    · rw [directiveValue_quoted (strchr_first _ hquote), length_append, length_cons, Nat.add_sub_cancel,
        take_left]
    · rw [dropWhile_cons_of_pos rfl, hdrop]
    · intro c hc
      cases hc
      exact .inl rfl
  | false =>
    obtain ⟨hne, hhead, hchars⟩ := hd.plain hq
    have hwritten : d.written = d.value := by simp [written, hq]
    -- behind the value there is a comma, a blank or nothing
    have hstop : ∀ c, (sep ++ rest).head? = some c → c = 44 ∨ c = 32 := by
      intro c hc
      cases sep with
      | nil =>
        rw [hnext.resolve_left (fun h => h rfl)] at hc
        cases hc
      | cons x sep =>
        cases hc
        exact hsep _ mem_cons_self
    obtain ⟨hvalue, htext⟩ := directiveValue_unquoted hne hhead (fun c hc => (hchars c hc).2) hstop
    rw [hwritten]
    exact ⟨sep ++ rest, hvalue, htext, hdrop, fun c hc => .inr (hstop c hc)⟩

theorem written_ne (hd : d.Wf) : d.written ≠ [] := by
  unfold written
  cases hq : d.quoted with
  | true => simp
  | false => simpa using (hd.plain hq).1

theorem parseDirectives_text (hd : d.Wf) (hsep : ∀ c ∈ sep, c = 44 ∨ c = 32) (hnext : sep ≠ [] ∨ rest = [])
    (hrest : ∀ c, rest.head? = some c → isSep c = false) (fuel : Nat) (auth : DigestAuthInfo) :
    parseDirectives (fuel + 1) (d.text ++ (sep ++ rest)) auth =
      if d.Md5 then parseDirectives fuel rest (d.apply auth) else none := by
  obtain ⟨tail, hvalue, htext, hdrop, hstop⟩ := directiveValue_written hd hsep hnext hrest
  have hname : 61 ∉ d.name := fun h => (hd.name 61 h).2.1 rfl
  have hsplit : d.text ++ (sep ++ rest) = d.name ++ 61 :: (d.written ++ (sep ++ rest)) := by simp [text]
  have hne : d.written ++ (sep ++ rest) ≠ [] := fun hnil => written_ne hd (append_eq_nil_iff.mp hnil).1
  -- the loop looks for the `=`, which is behind the name
  have hloop : parseDirectives (fuel + 1) (d.text ++ (sep ++ rest)) auth =
      match setDirective (d.text ++ (sep ++ rest)) (d.value ++ tail) d.value auth with
      | none => none
      | some auth => parseDirectives fuel rest auth := by
    rw [hsplit]
    cases hn : d.name with
    | nil => exact absurd hn hd.named
    | cons c name =>
      rw [cons_append, parseDirectives_cons, ← cons_append, ← hn, strchr_first _ hname]
      dsimp only
      rw [tail_cons, if_neg hne, hvalue, htext]
      dsimp only
      rw [hdrop]
  rw [hloop, setDirective_eq, hsplit, setDirectiveFrom_text hd]
  have hmd5 : hasPfxCase (bytes "md5") (d.value ++ tail) = hasPfxCase (bytes "md5") d.value := by
    refine hasPfxCase_append fun c hc => ?_
    rcases hstop c hc with rfl | rfl | rfl <;> decide
  rw [hmd5]
  unfold apply
  cases hf : d.field with
  | some f =>
    have hfind : (AuthField.all.find? fun f => caseEq f.name d.name) = some f := hf
    rw [hfind, if_pos (md5_of_field hf)]
    dsimp only
    rw [storeValue, if_neg (Nat.not_le.mpr (hd.fits f hf))]
  | none =>
    have hfind : (AuthField.all.find? fun f => caseEq f.name d.name) = none := hf
    rw [hfind]
    by_cases halg : caseEq (bytes "algorithm") d.name
    · rw [if_pos halg]
      by_cases hok : hasPfxCase (bytes "md5") d.value
      · have hyes : d.Md5 := fun _ => hok
        rw [if_pos hok, if_pos hyes]
      · have hno : ¬ d.Md5 := fun h => hok (h halg)
        rw [if_neg hok, if_neg hno]
    · have hyes : d.Md5 := fun h => absurd h halg
      rw [if_neg halg, if_pos hyes]

end AuthDirective

/-! ### All directives -/

section

variable {ds : List (AuthDirective × Str)}

theorem directivesText_head (h : ∀ x ∈ ds, x.1.Wf) : ∀ c, (directivesText ds).head? = some c → isSep c = false := by
  intro c hc
  cases ds with
  | nil => cases hc
  | cons x ds =>
    obtain ⟨d, sep⟩ := x
    have hd := (h _ mem_cons_self).name
    have hne := (h _ mem_cons_self).named
    cases hn : d.name with
    | nil => exact absurd hn hne
    | cons b name =>
      rw [directivesText, AuthDirective.text, hn] at hc
      cases hc
      rw [hn] at hd
      exact (hd _ mem_cons_self).2.2

theorem parseDirectives_directivesText (hwf : ∀ x ∈ ds, x.1.Wf) (hseps : ∀ x ∈ ds, ∀ c ∈ x.2, c = 44 ∨ c = 32)
    (hsep : Separated ds) {fuel : Nat} (hfuel : ds.length ≤ fuel) (auth : DigestAuthInfo) :
    parseDirectives fuel (directivesText ds) auth =
      if ∀ x ∈ ds, x.1.Md5 then some (ds.foldl (fun auth x => x.1.apply auth) auth) else none := by
  induction ds generalizing fuel auth with
  | nil =>
    cases fuel <;> rfl
  | cons x ds ih =>
    obtain ⟨d, sep⟩ := x
    obtain ⟨fuel, rfl⟩ : ∃ k, fuel = k + 1 := Nat.exists_eq_succ_of_ne_zero (by rw [length_cons] at hfuel; omega)
    rw [forall_mem_cons] at hwf hseps
    have hnext : sep ≠ [] ∨ directivesText ds = [] := by
      cases ds with
      | nil => exact .inr rfl
      | cons y ds => exact .inl (hsep.1 (by simp))
    rw [directivesText, AuthDirective.parseDirectives_text hwf.1 hseps.1 hnext (directivesText_head hwf.2),
      ih hwf.2 hseps.2 hsep.2 (Nat.le_of_succ_le_succ hfuel), foldl_cons]
    have hcons : (∀ x ∈ (d, sep) :: ds, x.1.Md5) ↔ d.Md5 ∧ ∀ x ∈ ds, x.1.Md5 := forall_mem_cons
    by_cases hd : d.Md5
    · rw [if_pos hd]
      by_cases hds : ∀ x ∈ ds, x.1.Md5
      · rw [if_pos hds, if_pos (hcons.mpr ⟨hd, hds⟩)]
      · rw [if_neg hds, if_neg (mt hcons.mp fun h => hds h.2)]
    · rw [if_neg hd, if_neg (mt hcons.mp fun h => hd h.1)]

theorem AuthDirective.get_apply (d : AuthDirective) (auth : DigestAuthInfo) (f : AuthField) :
    (d.apply auth).get f = if caseEq f.name d.name then d.value else auth.get f := by
  unfold AuthDirective.apply
  by_cases hf : caseEq f.name d.name
  · rw [if_pos hf, AuthDirective.field_eq_some_iff.mpr hf]
    rw [DigestAuthInfo.get_set, if_pos rfl]
  · rw [if_neg hf]
    cases hg : d.field with
    | none => rfl
    | some g =>
      have hne : f ≠ g := by
        rintro rfl
        exact hf (AuthDirective.field_eq_some_iff.mp hg)
      rw [DigestAuthInfo.get_set, if_neg hne]

theorem get_foldl (honce : ds.Pairwise fun x y => caseEq x.1.name y.1.name = false) (auth : DigestAuthInfo) (f : AuthField) :
    (ds.foldl (fun auth x => x.1.apply auth) auth).get f =
      ((ds.find? fun x => caseEq f.name x.1.name).map fun x => x.1.value).getD (auth.get f) := by
  induction ds generalizing auth with
  | nil => rfl
  | cons x ds ih =>
    rw [pairwise_cons] at honce
    rw [foldl_cons, ih honce.2, AuthDirective.get_apply, List.find?_cons]
    cases hf : caseEq f.name x.1.name with
    | false => rfl
    | true =>
      -- no later directive has the same name
      have hnone : (ds.find? fun y => caseEq f.name y.1.name) = none := by
        refine List.find?_eq_none.mpr fun y hy hfy => ?_
        have hxy := caseEq_trans (caseEq_symm hf) hfy
        rw [honce.1 y hy] at hxy
        cases hxy
      rw [hnone]
      rfl

theorem length_le_directivesText (hwf : ∀ x ∈ ds, x.1.Wf) : ds.length ≤ (directivesText ds).length := by
  induction ds with
  | nil => exact Nat.le_refl _
  | cons x ds ih =>
    rw [forall_mem_cons] at hwf
    have := ih hwf.2
    simp only [directivesText, AuthDirective.text, length_append, length_cons]
    omega

end

/-- The arrays after `memset`. -/
def AuthMem.cleared : AuthMem := fun f => List.replicate f.size 0

theorem cleared_shows : AuthMem.cleared.Shows .empty := by
  intro f
  refine ⟨length_replicate, ?_⟩
  cases f <;> decide

/-- The parser of `Digest` on a well-formed header. -/
theorem parseAuthHeader_directivesText {s scheme : Str} {ds : List (AuthDirective × Str)} (hs : s = scheme ++ directivesText ds)
    (hscheme : caseEq scheme (bytes "digest ") = true) (hwf : WfDirectives ds) : parseAuthHeader s =
      if ∀ x ∈ ds, x.1.Md5 then some (ds.foldl (fun auth x => x.1.apply auth) .empty) else none := by
  have hseven : scheme.length = 7 := by
    have := congrArg List.length (caseEq_iff.mp hscheme)
    rwa [length_map, length_map] at this
  have hpfx : hasPfxCase (bytes "digest ") s := by
    rw [hs]
    refine List.isPrefixOf_iff_prefix.mpr ?_
    rw [map_append, caseEq_iff.mp hscheme]
    exact prefix_append _ _
  have hdrop : s.drop 7 = directivesText ds := by rw [hs, drop_left' hseven]
  have hfuel : ds.length ≤ s.length := by
    have := length_le_directivesText hwf.wf
    rw [hs, length_append]
    omega
  rw [parseAuthHeader, if_pos hpfx, hdrop, parseDirectives_directivesText hwf.wf hwf.seps hwf.separated hfuel]

/-- **A header is parsed**: any string is refused or accepted, with nothing read or written outside; a well-formed one gives
its values, or is refused if an `algorithm` is another than MD5. -/
theorem auth_header_parsed (s : CStr) : (parseAuthHeaderAt (s.1 ++ [0]) .cleared = .error .refused ∨
      ∃ m, parseAuthHeaderAt (s.1 ++ [0]) .cleared = .ok m) ∧
    ∀ scheme ds, s.1 = scheme ++ directivesText ds → caseEq scheme (bytes "digest ") = true → WfDirectives ds →
      ((∃ m, parseAuthHeaderAt (s.1 ++ [0]) .cleared = .ok m ∧ ∀ f, cstr (m f) = givenValue ds f) ↔
        ∀ x ∈ ds, x.1.Md5) ∧
      ((∃ x ∈ ds, ¬ x.1.Md5) → parseAuthHeaderAt (s.1 ++ [0]) .cleared = .error .refused) := by
  have hagrees := parseAuthHeaderAt_agrees s cleared_shows
  refine ⟨?_, fun scheme ds hs hscheme hwf => ?_⟩
  · rcases hagrees.cases with ⟨-, hy⟩ | ⟨-, m, -, hy, -⟩
    · exact .inl hy
    · exact .inr ⟨m, hy⟩
  · rw [parseAuthHeader_directivesText hs hscheme hwf] at hagrees
    by_cases hmd5 : ∀ x ∈ ds, x.1.Md5
    · refine ⟨iff_of_true ?_ hmd5, fun h => absurd hmd5 (by simpa using h)⟩
      rw [if_pos hmd5] at hagrees
      rcases hagrees.cases with ⟨hx, -⟩ | ⟨auth, m, hx, hy, hm⟩
      · cases hx
      · cases hx
        refine ⟨m, hy, fun f => ?_⟩
        rw [(hm f).2, get_foldl hwf.once]
        cases f <;> rfl
    · rw [if_neg hmd5] at hagrees
      rcases hagrees.cases with ⟨-, hy⟩ | ⟨auth, m, hx, -⟩
      · refine ⟨iff_of_false ?_ hmd5, fun _ => hy⟩
        rintro ⟨m, hm, -⟩
        cases hy.symm.trans hm
      · cases hx

/-- `realm="c", uri=/live` -/
def twoDirectives : List (AuthDirective × Str) :=
  [(⟨bytes "realm", true, bytes "c"⟩, bytes ", "), (⟨bytes "uri", false, bytes "/live"⟩, [])]

theorem twoDirectives_wf : WfDirectives twoDirectives where
  wf := by
    rw [twoDirectives, forall_mem_cons, forall_mem_singleton]
    exact ⟨AuthDirective.wf_of_check (by decide), AuthDirective.wf_of_check (by decide)⟩
  seps := by
    rw [twoDirectives, forall_mem_cons, forall_mem_singleton]
    refine ⟨fun c hc => ?_, fun c hc => by cases hc⟩
    have : (bytes ", ").all (fun c => c == 44 || c == 32) := by decide
    simpa using List.all_eq_true.mp this c hc
  separated := ⟨by decide, by decide, trivial⟩
  once := by decide

theorem auth_header_parsed_two : ∃ m, parseAuthHeaderAt (bytes "Digest realm=\"c\", uri=/live" ++ [0]) .cleared = .ok m ∧
      ∀ f, cstr (m f) = givenValue twoDirectives f :=
  ((auth_header_parsed ⟨bytes "Digest realm=\"c\", uri=/live", by decide⟩).2 (bytes "Digest ") twoDirectives
    (by decide) (by decide) twoDirectives_wf).1.mpr (by decide)

/-- `algorithm=SHA-256` -/
def otherAlgorithm : List (AuthDirective × Str) := [(⟨bytes "algorithm", false, bytes "SHA-256"⟩, [])]

theorem otherAlgorithm_wf : WfDirectives otherAlgorithm where
  wf := by
    rw [otherAlgorithm, forall_mem_singleton]
    exact AuthDirective.wf_of_check (by decide)
  seps := by
    rw [otherAlgorithm, forall_mem_singleton]
    exact fun c hc => by cases hc
  separated := ⟨by decide, trivial⟩
  once := pairwise_singleton _ _

theorem auth_header_other_algorithm : WfDirectives otherAlgorithm ∧
      bytes "Digest algorithm=SHA-256" = bytes "Digest " ++ directivesText otherAlgorithm ∧
      parseAuthHeaderAt (bytes "Digest algorithm=SHA-256" ++ [0]) .cleared = .error .refused := by
  have hnone : parseAuthHeader (bytes "Digest algorithm=SHA-256") = none := by decide
  refine ⟨otherAlgorithm_wf, by decide, ?_⟩
  rcases (parseAuthHeaderAt_agrees ⟨bytes "Digest algorithm=SHA-256", by decide⟩ cleared_shows).cases with
    ⟨-, hy⟩ | ⟨auth, -, hx, -⟩
  · exact hy
  · cases hnone.symm.trans hx

end NuWicam.Rtsp
