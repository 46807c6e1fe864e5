import NuWicam.Rtsp.InPlace
import NuWicam.Rtsp.Overfull

/-!
# What `parse_pmsg` touches

For every buffer with a blank line before any `NUL`, which is what `parse_client_data` hands on: the parser keeps to the
message (`parser_stays_inside_iff`) and to the table of fields (`header_table_iff`) exactly if there is no header line after
the 32 that the table has room for.
-/

namespace NuWicam.Rtsp

open Lib List

/-! ## No way out but the table -/

variable {d : Str}

theorem startChecked_ahead (hblank : crlfcrlf <:+: d) : startChecked d = .error .refused ∨
      ∃ s, startChecked d = .ok s ∧ s.i ≤ s.msg.length ∧ Ahead (s.msg.drop s.i) := by
  have hfault := startOf_ne_fault (hblank.subset (by decide))
  refine (refused_or_ok (startChecked_alike d) hfault).imp_right ?_
  rintro ⟨s, ⟨sl, proto, rest⟩, hs, hok, hat⟩
  obtain ⟨t, ht⟩ := startOf_eq_ok hok
  rw [ht] at hblank
  refine ⟨s, hs, hat.inside, ?_⟩
  rw [hat.ahead]
  exact Ahead.after t.text_last t.text_few hblank

theorem headerChecked_ahead {i : Nat} {c : UInt8} {r : Str} (hahead : Ahead (d.drop i))
    (hskip : skipCr (d.drop i) = c :: r) (hc : headStart c) : headerChecked d (skipCrAt d i) = .error .refused ∨
      ∃ x, headerChecked d (skipCrAt d i) = .ok x ∧ x.2.1.length = d.length ∧ i < x.2.2 ∧ x.2.2 ≤ d.length ∧
        Ahead (x.2.1.drop x.2.2) := by
  have hfault := headerOf_ne_fault (hahead.cr_mem hskip hc).2
  refine (refused_or_ok (headerChecked_alike ((drop_skipCrAt rfl).trans hskip)) hfault).imp_right ?_
  rintro ⟨x, ⟨f, rest⟩, hx, hok, hat⟩
  obtain ⟨l, -, hahead'⟩ := hahead.header hskip hc hok
  rw [← show x.2.1.drop x.2.2 = rest from hat.ahead] at hahead'
  exact ⟨x, hx, hat.length, Nat.lt_of_le_of_lt (le_skipCrAt d i) hat.past, hat.inside, hahead'⟩

/-! ## The table of fields -/

/-- The entries of `msg->fields` that the loop writes, and `header_count` when it returns. After a write past the table the
source goes on with what that has done to `header_count`. -/
def tableUse : Nat → Nat → Str → Nat → List Nat × Nat
  | 0, n, _, _ => ([], n)
  | fuel + 1, n, d, i =>
    match d[skipCrAt d i]? with
    | none => ([], n)
    | some c =>
      if headStart c then
        if maxFields ≤ n then ([n], n)
        else
          match headerChecked d (skipCrAt d i) with
          | .error _ => ([n], n)
          | .ok x => (n :: (tableUse fuel (n + 1) x.2.1 x.2.2).1, (tableUse fuel (n + 1) x.2.1 x.2.2).2)
      else ([], n)

def pmsgTableUse (d : Str) : List Nat × Nat :=
  match startChecked d with
  | .error _ => ([], 0)
  | .ok s => tableUse (s.msg.length - s.i + 1) 0 s.msg s.i

theorem tableUse_count : ∀ (fuel : Nat) {n : Nat} (d : Str) (i : Nat), n ≤ maxFields → (tableUse fuel n d i).2 ≤ maxFields
  | 0, _, _, _, hn => hn
  | fuel + 1, n, d, i, hn => by
    rw [tableUse]
    split
    · exact hn
    split
    · split
      · exact hn
      · rename_i hfull
        split
        · exact hn
        · exact tableUse_count fuel _ _ (Nat.not_le.mp hfull)
    · exact hn

/-- **The loop** writes past the table, or returns with all writes in it. -/
theorem parseHeadersChecked_tableUse : ∀ (fuel : Nat) (xs : List (Nat × Nat)) {d : Str} {i : Nat}, i ≤ d.length →
    d.length - i < fuel → Ahead (d.drop i) →
      (parseHeadersChecked fuel xs d i = .error .overfull ∧ ∃ k ∈ (tableUse fuel xs.length d i).1, maxFields ≤ k) ∨
      ((parseHeadersChecked fuel xs d i = .error .refused ∨ ∃ y, parseHeadersChecked fuel xs d i = .ok y) ∧
        ∀ k ∈ (tableUse fuel xs.length d i).1, k < maxFields)
  | fuel + 1, xs, d, i, hi, hfuel, hahead => by
    have hname := skipCrAt_le hi
    rw [tableUse]
    by_cases hend : skipCrAt d i = d.length
    · rw [List.getElem?_eq_none (by omega), parseHeadersChecked_end hend]
      exact .inr ⟨.inr ⟨_, rfl⟩, fun k hk => by cases hk⟩
    have hlt : skipCrAt d i < d.length := by omega
    have hskip : skipCr (d.drop i) = d[skipCrAt d i] :: d.drop (skipCrAt d i + 1) := by
      rw [← drop_skipCrAt rfl, drop_eq_getElem_cons hlt]
    rw [parseHeadersChecked_turn (drop_eq_getElem_cons hlt), List.getElem?_eq_getElem hlt]
    generalize d[skipCrAt d i] = c at hskip
    by_cases hc : headStart c
    · obtain ⟨h10, h9, h32⟩ := headStart_iff.mp hc
      rw [if_neg h10, if_neg (not_or.mpr ⟨h9, h32⟩)]
      dsimp only
      rw [if_pos hc]
      by_cases hfull : maxFields ≤ xs.length
      · rw [if_pos hfull, if_pos hfull]
        exact .inl ⟨rfl, xs.length, mem_singleton_self _, hfull⟩
      · rw [if_neg hfull, if_neg hfull]
        have hin : xs.length < maxFields := by omega
        obtain href | ⟨x, hok, hlen, hprog, hle, hahead'⟩ := headerChecked_ahead hahead hskip hc
        · rw [href]
          exact .inr ⟨.inl rfl, fun k hk => by rw [mem_singleton.mp hk]; exact hin⟩
        · rw [hok]
          have ih := parseHeadersChecked_tableUse fuel (xs ++ [(skipCrAt d i, x.1)]) (by omega) (by omega) hahead'
          rw [length_append, length_singleton] at ih
          refine ih.imp ?_ ?_
          · rintro ⟨hover, k, hk, hge⟩
            exact ⟨hover, k, mem_cons_of_mem _ hk, hge⟩
          · rintro ⟨hret, hall⟩
            exact ⟨hret, forall_mem_cons.mpr ⟨hin, hall⟩⟩
    · dsimp only
      rw [if_neg hc]
      refine .inr ⟨?_, fun k hk => by cases hk⟩
      split
      · exact .inr ⟨_, rfl⟩
      · rename_i h10
        have hcont : c = 9 ∨ c = 32 := by
          by_contra hcont
          exact hc (headStart_iff.mpr ⟨h10, not_or.mp hcont⟩)
        exact .inl (if_pos hcont)

theorem parsePmsgChecked_tableUse (hblank : crlfcrlf <:+: d) :
    (parsePmsgChecked d = .error .overfull ∧ ∃ k ∈ (pmsgTableUse d).1, maxFields ≤ k) ∨
    ((parsePmsgChecked d = .error .refused ∨ ∃ x, parsePmsgChecked d = .ok x) ∧
      ∀ k ∈ (pmsgTableUse d).1, k < maxFields) := by
  unfold parsePmsgChecked pmsgTableUse
  obtain href | ⟨s, hs, hi, hahead⟩ := startChecked_ahead hblank
  · rw [href]
    exact .inr ⟨.inl rfl, fun k hk => by cases hk⟩
  · rw [hs]
    refine (parseHeadersChecked_tableUse _ [] hi (Nat.lt_succ_self _) hahead).imp ?_ ?_
    · rintro ⟨hover, huse⟩
      refine ⟨?_, huse⟩
      show (parseHeadersChecked _ [] s.msg s.i >>= _) = _
      rw [hover]
      rfl
    · rintro ⟨href | ⟨y, hy⟩, huse⟩
      · refine ⟨.inl ?_, huse⟩
        show (parseHeadersChecked _ [] s.msg s.i >>= _) = _
        rw [href]
        rfl
      · refine ⟨.inr ⟨(⟨y.2.1, s.resp, s.protoId, s.sl, y.1⟩, y.2.2), ?_⟩, huse⟩
        show (parseHeadersChecked _ [] s.msg s.i >>= _) = _
        rw [hy]
        rfl

theorem parsePmsgChecked_overfull_iff (hblank : crlfcrlf <:+: d) : parsePmsgChecked d = .error .overfull ↔ Overfull d := by
  rw [← parsePmsg_fault_iff hblank]
  have halike := parsePmsgChecked_alike d
  constructor
  · exact halike.of_error
  · intro h
    obtain ⟨hover, -⟩ | ⟨hres | ⟨x, hres⟩, -⟩ := parsePmsgChecked_tableUse hblank
    · exact hover
    · rw [halike.of_error hres] at h
      cases h
    · obtain ⟨y, hy, -⟩ := halike.of_ok hres
      rw [hy] at h
      cases h

/-! ## What is recorded -/

def Word.pointers : Word → List Nat
  | .int _ => []
  | .ptr p => [p]

/-- Protocol, method and URI (or the reason of a response), names and values. -/
def RawMsg.pointers (raw : RawMsg) : List Nat :=
  raw.protoId :: (raw.sl.1.pointers ++ raw.sl.2.pointers ++ raw.fields.flatMap fun x => [x.1, x.2])

theorem RawMsg.Reads.strAt {raw : RawMsg} {m : Pmsg} (h : raw.Reads m) {p : Nat} (hp : p ∈ raw.pointers) :
    ∃ s, StrAt raw.msg raw.msg.length p s := by
  rw [RawMsg.pointers, mem_cons, mem_append, mem_append] at hp
  rcases hp with rfl | (hp | hp) | hp
  · exact ⟨_, h.proto⟩
  · have hsl := h.sl
    cases hm : m.sl with
    | req method uri =>
      rw [hm] at hsl
      obtain ⟨q, q', hw, hq, -⟩ := hsl
      rw [hw, Word.pointers, mem_singleton] at hp
      exact ⟨_, hp ▸ hq⟩
    | stat code reason =>
      rw [hm] at hsl
      obtain ⟨q, hw, -⟩ := hsl
      rw [hw, Word.pointers] at hp
      cases hp
  · have hsl := h.sl
    cases hm : m.sl with
    | req method uri =>
      rw [hm] at hsl
      obtain ⟨q, q', hw, -, hq⟩ := hsl
      rw [hw, Word.pointers, mem_singleton] at hp
      exact ⟨_, hp ▸ hq⟩
    | stat code reason =>
      rw [hm] at hsl
      obtain ⟨q, hw, hq⟩ := hsl
      rw [hw, Word.pointers, mem_singleton] at hp
      exact ⟨_, hp ▸ hq⟩
  · obtain ⟨x, hx, hp⟩ := mem_flatMap.mp hp
    obtain ⟨k, hk, rfl⟩ := getElem_of_mem hx
    obtain ⟨hname, hvalue⟩ := h.fields.get hk (h.fields.length_eq ▸ hk)
    rw [mem_cons, mem_singleton] at hp
    rcases hp with rfl | rfl
    · exact ⟨_, hname⟩
    · exact ⟨_, hvalue⟩

/-- The parser returns `-1`, or a message of the same length whose strings all start inside and end with a `NUL` inside. -/
def StaysInside (d : Str) : Prop :=
  parsePmsgChecked d = .error .refused ∨
  ∃ raw n, parsePmsgChecked d = .ok (raw, n) ∧ raw.msg.length = d.length ∧
    ∀ p ∈ raw.pointers, ∃ s, StrAt raw.msg raw.msg.length p s

/-- All writes to `msg->fields` are in the table, and so is `header_count`. -/
def TableBound (d : Str) : Prop := (∀ k ∈ (pmsgTableUse d).1, k < maxFields) ∧ (pmsgTableUse d).2 ≤ maxFields

theorem pmsgTableUse_count (d : Str) : (pmsgTableUse d).2 ≤ maxFields := by
  unfold pmsgTableUse
  split
  · omega
  · exact tableUse_count _ _ _ (by omega)

/-! ## The buffers that `parse_client_data` hands on -/

theorem blank_of_strstr (h : (strstr crlfcrlf (cstr d)).isSome) : crlfcrlf <:+: d :=
  (strstr_isSome_iff.mp h).trans (List.takeWhile_prefix _).isInfix

/-- **The parser stays inside the message** exactly if there is not one header line too many. -/
theorem parser_stays_inside_iff (d : Str) (h : (strstr crlfcrlf (cstr d)).isSome) : StaysInside d ↔ ¬ Overfull d := by
  rw [← parsePmsgChecked_overfull_iff (blank_of_strstr h)]
  constructor
  · rintro (hres | ⟨raw, n, hres, -⟩) hover
    · rw [hres] at hover
      cases hover
    · rw [hres] at hover
      cases hover
  · intro hover
    obtain ⟨hres, -⟩ | ⟨hres | ⟨x, hres⟩, -⟩ := parsePmsgChecked_tableUse (blank_of_strstr h)
    · exact absurd hres hover
    · exact .inl hres
    · obtain ⟨m, -, hreads, -, hlen⟩ := (parsePmsgChecked_alike d).of_ok hres
      exact .inr ⟨x.1, x.2, hres, hlen, fun p hp => hreads.strAt hp⟩

/-- **The writes to the table stay inside** exactly if there is not one header line too many. -/
theorem header_table_iff (d : Str) (h : (strstr crlfcrlf (cstr d)).isSome) : TableBound d ↔ ¬ Overfull d := by
  rw [← parsePmsgChecked_overfull_iff (blank_of_strstr h)]
  constructor
  · rintro ⟨hall, -⟩ hover
    obtain ⟨-, k, hk, hge⟩ | ⟨hres | ⟨x, hres⟩, -⟩ := parsePmsgChecked_tableUse (blank_of_strstr h)
    · exact absurd (hall k hk) (Nat.not_lt.mpr hge)
    · rw [hres] at hover
      cases hover
    · rw [hres] at hover
      cases hover
  · intro hover
    obtain ⟨hres, -⟩ | ⟨-, hall⟩ := parsePmsgChecked_tableUse (blank_of_strstr h)
    · exact absurd hres hover
    · exact ⟨hall, pmsgTableUse_count d⟩

/-- A request with `n` short headers. -/
def shortHeaders (n : Nat) : Str :=
  bytes "OPTIONS * RTSP/1.0\r\n" ++ ((List.replicate n (bytes "A:\r\n")).flatten ++ bytes "\r\n")

theorem shortHeaders_full : (strstr crlfcrlf (cstr (shortHeaders 32))).isSome ∧ ¬ Overfull (shortHeaders 32) := by
  have hblank : (strstr crlfcrlf (cstr (shortHeaders 32))).isSome := by decide
  refine ⟨hblank, ?_⟩
  rw [← parsePmsgChecked_overfull_iff (blank_of_strstr hblank)]
  decide +kernel

theorem shortHeaders_stay_inside : (strstr crlfcrlf (cstr (shortHeaders 32))).isSome ∧ StaysInside (shortHeaders 32) :=
  ⟨shortHeaders_full.1, (parser_stays_inside_iff _ shortHeaders_full.1).mpr shortHeaders_full.2⟩

theorem shortHeaders_not_inside : (strstr crlfcrlf (cstr (shortHeaders 33))).isSome ∧ ¬ StaysInside (shortHeaders 33) := by
  have hover : parsePmsgChecked (shortHeaders 33) = .error .overfull := by decide +kernel
  refine ⟨by decide, ?_⟩
  rintro (hres | ⟨raw, n, hres, -⟩)
  · rw [hres] at hover
    cases hover
  · rw [hres] at hover
    cases hover

theorem shortHeaders_table_bound : (strstr crlfcrlf (cstr (shortHeaders 32))).isSome ∧ TableBound (shortHeaders 32) :=
  ⟨shortHeaders_full.1, (header_table_iff _ shortHeaders_full.1).mpr shortHeaders_full.2⟩

theorem shortHeaders_leave_table : (shortHeaders 33).length ≤ 4094 ∧ (strstr crlfcrlf (cstr (shortHeaders 33))).isSome ∧
    (∃ k ∈ (pmsgTableUse (shortHeaders 33)).1, maxFields ≤ k) ∧ ¬ TableBound (shortHeaders 33) := by
  have huse : maxFields ∈ (pmsgTableUse (shortHeaders 33)).1 := by decide +kernel
  exact ⟨by decide +kernel, by decide, ⟨_, huse, Nat.le_refl _⟩, fun hb => absurd (hb.1 _ huse) (Nat.lt_irrefl _)⟩

end NuWicam.Rtsp
