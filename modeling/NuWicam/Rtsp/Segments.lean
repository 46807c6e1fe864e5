import NuWicam.Rtsp.Reader
import Mathlib.Algebra.Ring.Nat

/-!
# Cutting a client's stream into reads

`parse_client_data` drops the whole buffer with every message it takes out of it, so what comes in the same read after the
end of a message is lost. Nothing is lost if and only if the reads can be grouped so that every group is one message
(`feed_eq_served_iff`).
-/

namespace NuWicam.Rtsp

open Lib List

/-! ## Streams of messages -/

inductive Msg
  | req (text : Str)
  | pkt (chan : UInt8) (d : Str)
deriving DecidableEq, Repr

namespace Msg

def wire : Msg → Str
  | req text => text
  | pkt chan d => 36 :: chan :: UInt8.ofNat (d.length / 256) :: UInt8.ofNat (d.length % 256) :: d

def dispatch : Msg → Dispatch
  | req text => .request text
  | pkt chan d => .packet chan d

/-- A request ends with its first blank line, has no `NUL` and does not start like a packet; the message fits in `req_buf`,
where `do_read` takes at most 4094 bytes. -/
def Fits : Msg → Prop
  | req text => strstr crlfcrlf text = some crlfcrlf ∧ (0 : UInt8) ∉ text ∧ text.head? ≠ some 36 ∧
      text.length < reqBufSize - 1
  | pkt _ d => d.length + 4 < reqBufSize - 1

def StartsRtsp : Msg → Prop
  | req text => ∃ rest, strchr 10 text = some rest ∧ firstLine (text.take (text.length - rest.length)) = some .rtsp
  | pkt _ _ => False

/-- A packet, or a request that `parse_pmsg` accepts. -/
def goesOn : Msg → Bool
  | req text =>
    match parsePmsg text with
    | .ok (⟨.req _ _, _, _⟩, _) => true
    | _ => false
  | pkt _ _ => true

end Msg

def served : List Msg → List Dispatch
  | [] => []
  | m :: ms => m.dispatch :: if m.goesOn then served ms else []

inductive Aligned : List Str → List Msg → Prop
  | nil : Aligned [] []
  | cons {group rest : List Str} {m : Msg} {ms : List Msg} :
      group.flatten = m.wire → Aligned rest ms → Aligned (group ++ rest) (m :: ms)

/-- Nothing in the buffer, no tunnel, and RTSP by now or by the first message. -/
structure Ready (c : ReadSide) (ms : List Msg) : Prop where
  buf : c.reqBuf = []
  plain : c.base64Count = -1
  proto : c.proto = .rtsp ∨ (c.proto = .start ∧ ∀ m ∈ ms.head?, m.StartsRtsp)

structure Reading (c : ReadSide) (m : Msg) (p : Str) : Prop where
  buf : c.reqBuf = p
  plain : c.base64Count = -1
  proto : c.proto = .rtsp ∨ (c.proto = .start ∧ m.StartsRtsp)

variable {ms : List Msg} (peer : Str → Bool)

theorem Ready.reading {c : ReadSide} {m : Msg} (h : Ready c (m :: ms)) : Reading c m [] :=
  ⟨h.buf, h.plain, h.proto.imp_right fun h => ⟨h.1, h.2 m rfl⟩⟩

def between : ReadSide := ⟨.rtsp, [], -1⟩

theorem ready_between (ms : List Msg) : Ready between ms := ⟨rfl, rfl, Or.inl rfl⟩

/-! ## Messages in the buffer -/

section Buffer

variable {m : Msg}

theorem Msg.Fits.four_le (h : m.Fits) : 4 ≤ m.wire.length := by
  cases m with
  | req text => exact Nat.le_trans (strstr_suffix_length h.1) (Nat.le_refl _)
  | pkt chan d => simp [wire]

theorem Msg.Fits.wire_ne_nil (h : m.Fits) : m.wire ≠ [] := fun hnil => by
  have h4 := h.four_le
  rw [hnil] at h4
  cases h4

theorem Msg.Fits.length_lt (h : m.Fits) : m.wire.length < reqBufSize - 1 := by
  cases m with
  | req text => exact h.2.2.2
  | pkt chan d => exact h

theorem strstr_none_of_cut {text p q : Str} (h : strstr crlfcrlf text = some crlfcrlf) (hpq : p ++ q = text)
    (hq : q ≠ []) : strstr crlfcrlf p = none := by
  cases hp : strstr crlfcrlf p with
  | none => rfl
  | some r =>
    exfalso
    have hr := strstr_append q hp
    rw [hpq, h] at hr
    have hlen := congrArg List.length (Option.some.inj hr)
    have h4 := (strstr_starts hp).length_le
    simp only [length_append] at hlen
    exact hq (length_eq_zero_iff.mp (by omega))

theorem requestText_append {text : Str} (h : strstr crlfcrlf text = some crlfcrlf) (tail : Str) :
    requestText (text ++ tail) = text := by
  have h4 := strstr_suffix_length h
  unfold requestText
  rw [strstr_append tail h]
  simp only [length_append]
  have e : text.length + tail.length - (crlfcrlf.length + tail.length) + 4 = text.length := by
    have : crlfcrlf.length = 4 := rfl
    omega
  rw [e, take_left]

theorem packetLen_wire {d : Str} {chan : UInt8} (h : d.length < 65536) (rest : Str) :
    packetLen (36 :: chan :: UInt8.ofNat (d.length / 256) :: UInt8.ofNat (d.length % 256) :: rest) = d.length := by
  have h1 : (UInt8.ofNat (d.length / 256)).toNat = d.length / 256 :=
    UInt8.toNat_ofNat_of_lt' (by unfold UInt8.size; omega)
  have h2 : (UInt8.ofNat (d.length % 256)).toNat = d.length % 256 :=
    UInt8.toNat_ofNat_of_lt' (by unfold UInt8.size; omega)
  simp only [packetLen, getD_cons_succ, getD_cons_zero, h1, h2]
  omega

theorem four_bytes : ∀ {p : Str}, 4 ≤ p.length → ∃ a b x y p', p = a :: b :: x :: y :: p'
  | a :: b :: x :: y :: p', _ => ⟨a, b, x, y, p', rfl⟩

variable (peer : Str → Bool)

theorem parse_partial (hm : m.Fits) {p q : Str} (hpq : p ++ q = m.wire) (hq : q ≠ [])
    (hp : p ≠ []) : parseClientData peer ⟨.rtsp, p, -1⟩ = (false, .goesOn, ⟨.rtsp, p, -1⟩, []) := by
  simp only [parseClientData]
  split
  · rfl
  · rename_i hlen
    cases m with
    | req text =>
      have hpq : p ++ q = text := hpq
      have hnul : (0 : UInt8) ∉ p := fun h => hm.2.1 (hpq ▸ mem_append_left q h)
      have hhead : p.head? ≠ some 36 := by
        intro h
        apply hm.2.2.1
        rw [← hpq, List.head?_append, h]
        rfl
      rw [if_neg hhead, cstr_eq hnul, strstr_none_of_cut hm.1 hpq hq]
      rfl
    | pkt chan d =>
      have hd : d.length < 65536 := by have := hm; unfold Msg.Fits reqBufSize at this; omega
      -- the four bytes of the packet's header are there
      obtain ⟨a, b, x, y, p', rfl⟩ : ∃ a b x y p', p = a :: b :: x :: y :: p' := four_bytes (by omega)
      simp only [Msg.wire, cons_append, List.cons.injEq] at hpq
      obtain ⟨rfl, rfl, rfl, rfl, hd'⟩ := hpq
      have hlt : p'.length < d.length := by
        rw [← hd', length_append]
        have := length_pos_iff.mpr hq
        omega
      rw [if_pos List.head?_cons, packetLen_wire hd, if_pos (by simp only [length_cons]; omega)]

theorem parse_whole (hm : m.Fits) (tail : Str) :
    ∃ e, parseClientData peer ⟨.rtsp, m.wire ++ tail, -1⟩ = (false, e, between, [m.dispatch]) ∧
      (tail = [] → (e = .goesOn ↔ m.goesOn)) := by
  have h4 := hm.four_le
  have hlen : ¬ (m.wire ++ tail).length < 4 := by simp only [length_append]; omega
  simp only [parseClientData, if_neg hlen]
  cases m with
  | req text =>
    obtain ⟨hend, hnul, hhead, _⟩ := hm
    have hne : text ≠ [] := by intro h; simp [Msg.wire, h] at h4
    have hhead' : (text ++ tail).head? ≠ some 36 := by
      rw [List.head?_append_of_ne_nil _ hne]; exact hhead
    have hfound : ¬ (strstr crlfcrlf (cstr (text ++ tail))).isNone := by
      rw [cstr_append hnul, strstr_append _ hend]; simp
    refine ⟨(handleRequest peer ⟨.rtsp, text ++ tail, -1⟩).1, ?_, ?_⟩
    · rw [Msg.wire, if_neg hhead', if_neg hfound]
      simp only [takeRequest, requestText_append hend, Msg.dispatch]
      have hside : (handleRequest peer ⟨.rtsp, text ++ tail, -1⟩).2 = ⟨.rtsp, text ++ tail, -1⟩ := by
        unfold handleRequest; split <;> (try rfl); split <;> (try rfl); split <;> rfl
      rw [hside]
      rfl
    · intro ht
      subst ht
      rw [append_nil]
      have h0 : text.head? ≠ some 0 := fun h => hnul (List.mem_of_head? h)
      unfold handleRequest Msg.goesOn
      rw [if_neg h0]
      simp only
      rcases parsePmsg text with (_ | _) | ⟨⟨_ | _, _, _⟩, _⟩ <;> simp
  | pkt chan d =>
    have hd : d.length < 65536 := by have := hm; unfold Msg.Fits reqBufSize at this; omega
    refine ⟨.goesOn, ?_, fun _ => by simp [Msg.goesOn]⟩
    simp only [Msg.wire, cons_append]
    have hin : ¬ (36 :: chan :: UInt8.ofNat (d.length / 256) :: UInt8.ofNat (d.length % 256) :: (d ++ tail)).length <
        d.length + 4 := by simp only [length_cons, length_append]; omega
    simp only [List.head?_cons, packetLen_wire hd, if_neg hin, ↓reduceIte]
    simp [Msg.dispatch, between]

theorem line_append {a r : Str} (h : strchr 10 a = some r) (b : Str) :
    (a ++ b).take ((a ++ b).length - (r ++ b).length) = a.take (a.length - r.length) := by
  have hle := strchr_length h
  have e : (a ++ b).length - (r ++ b).length = a.length - r.length := by simp only [length_append]; omega
  rw [e, take_append_of_le_length (by omega)]

theorem parse_start {a r b : Str} (hnul : (0 : UInt8) ∉ a) (h : strchr 10 a = some r)
    (hline : firstLine (a.take (a.length - r.length)) = some .rtsp) :
    parseClientData peer ⟨.start, a ++ b, -1⟩ = (true, .goesOn, ⟨.rtsp, a ++ b, -1⟩, []) := by
  simp only [parseClientData, cstr_append hnul, strchr_append (cstr b) h, line_append h, hline]

theorem parseLoop_partial (hm : m.Fits) {c : ReadSide} {p q : Str} (hc : Reading c m p)
    (hpq : p ++ q = m.wire) (hq : q ≠ []) (hp : p ≠ []) : ∃ c', parseLoop peer c = (.goesOn, c', []) ∧ Reading c' m p := by
  obtain ⟨proto, buf, count⟩ := c
  obtain ⟨rfl, rfl, hproto⟩ := hc
  have hrtsp := parse_partial peer hm hpq hq hp
  rcases hproto with rfl | ⟨rfl, hs⟩
  · exact ⟨⟨.rtsp, buf, -1⟩, by simp only [parseLoop, hrtsp], rfl, rfl, Or.inl rfl⟩
  · cases m with
    | pkt chan d => exact hs.elim
    | req text =>
      have hpq : buf ++ q = text := hpq
      have hnul : (0 : UInt8) ∉ buf := fun h => hm.2.1 (hpq ▸ mem_append_left q h)
      obtain ⟨rest, hrest, hline⟩ := hs
      cases hr : strchr 10 buf with
      | none =>
        refine ⟨⟨.start, buf, -1⟩, ?_, rfl, rfl, Or.inr ⟨rfl, rest, hrest, hline⟩⟩
        simp only [parseLoop, parseClientData, cstr_eq hnul, hr]
      | some r =>
        have hr' := strchr_append q hr
        rw [hpq, hrest] at hr'
        cases Option.some.inj hr'
        rw [← hpq, line_append hr] at hline
        have hstart := parse_start peer (b := []) hnul hr hline
        rw [append_nil] at hstart
        exact ⟨⟨.rtsp, buf, -1⟩, by simp only [parseLoop, hstart, hrtsp], rfl, rfl, Or.inl rfl⟩

theorem parseLoop_whole (hm : m.Fits) {c : ReadSide} {tail : Str} (hc : Reading c m (m.wire ++ tail)) :
    ∃ e, parseLoop peer c = (e, between, [m.dispatch]) ∧ (tail = [] → (e = .goesOn ↔ m.goesOn)) := by
  obtain ⟨proto, buf, count⟩ := c
  obtain ⟨rfl, rfl, hproto⟩ := hc
  obtain ⟨e, hrtsp, he⟩ := parse_whole peer hm tail
  refine ⟨e, ?_, he⟩
  rcases hproto with rfl | ⟨rfl, hs⟩
  · simp only [parseLoop, hrtsp]
  · cases m with
    | pkt chan d => exact hs.elim
    | req text =>
      obtain ⟨rest, hrest, hline⟩ := hs
      simp only [parseLoop, parse_start peer hm.2.1 hrest hline, Msg.wire] at hrtsp ⊢
      rw [hrtsp]

end Buffer

/-! ## Reads -/

section Reads

variable {m : Msg} {c : ReadSide} {p : Str}

theorem appendRead_plain (hc : Reading c m p) (chunk : Str) : Reading (appendRead c chunk) m (p ++ chunk) := by
  have hneg : ¬ (0 : Int) ≤ c.base64Count := by rw [hc.plain]; decide
  unfold appendRead
  rw [if_neg hneg]
  exact ⟨by rw [hc.buf], hc.plain, hc.proto⟩

variable (peer : Str → Bool) {chunk : Str}

theorem readStep_plain (hc : Reading c m p) (hne : chunk ≠ []) (hroom : p.length + chunk.length ≤ reqBufSize - 1) :
    readStep peer c chunk = some (if p.length + chunk.length = reqBufSize - 1 then (.dropped, appendRead c chunk, [])
      else parseLoop peer (appendRead c chunk)) := by
  have hr := appendRead_plain hc chunk
  have hok : ¬ (chunk = [] ∨ reqBufSize - 1 < c.reqBuf.length + chunk.length) := by
    rw [hc.buf]
    rintro (h | h)
    · exact hne h
    · omega
  have hneg : ¬ (0 : Int) < (appendRead c chunk).base64Count := by rw [hr.plain]; decide
  simp only [readStep, if_neg hok, hr.buf, length_append, if_neg hneg]
  split <;> rfl

theorem readStep_inside (hm : m.Fits) (hc : Reading c m p) {q : Str} (hne : chunk ≠ [])
    (hq : q ≠ []) (hw : p ++ (chunk ++ q) = m.wire) :
    ∃ c', readStep peer c chunk = some (.goesOn, c', []) ∧ Reading c' m (p ++ chunk) := by
  have hlen := hm.length_lt
  rw [← hw] at hlen
  simp only [length_append] at hlen
  obtain ⟨c', hloop, hc'⟩ := parseLoop_partial peer hm (appendRead_plain hc chunk) (q := q) (by simpa using hw) hq
    (by simp [hne])
  refine ⟨c', ?_, hc'⟩
  rw [readStep_plain peer hc hne (by omega), if_neg (by omega), hloop]

theorem readStep_end (hm : m.Fits) (hc : Reading c m p) (hne : chunk ≠ []) (hw : p ++ chunk = m.wire) :
    ∃ e, readStep peer c chunk = some (e, between, [m.dispatch]) ∧ (e = .goesOn ↔ m.goesOn) := by
  have hlen := hm.length_lt
  rw [← hw] at hlen
  simp only [length_append] at hlen
  have hr := appendRead_plain hc chunk
  rw [hw, ← append_nil m.wire] at hr
  obtain ⟨e, hloop, he⟩ := parseLoop_whole peer hm hr
  refine ⟨e, ?_, he rfl⟩
  rw [readStep_plain peer hc hne (by omega), if_neg (by omega), hloop]

/-- **A read past the end of a message** loses the rest, or the connection. -/
theorem readStep_past (hm : m.Fits) (hc : Reading c m p) {tail : Str} (hne : chunk ≠ [])
    (hw : p ++ chunk = m.wire ++ tail) {x : ReadEnd × ReadSide × List Dispatch} (hx : readStep peer c chunk = some x) :
    (x.1 = .dropped ∧ x.2.2 = []) ∨ ∃ e, x = (e, between, [m.dispatch]) := by
  by_cases hroom : p.length + chunk.length ≤ reqBufSize - 1
  · rw [readStep_plain peer hc hne hroom] at hx
    cases hx
    split
    · exact Or.inl ⟨rfl, rfl⟩
    · have hr := appendRead_plain hc chunk
      rw [hw] at hr
      obtain ⟨e, hloop, _⟩ := parseLoop_whole peer hm hr
      exact Or.inr ⟨e, hloop⟩
  · have hno : chunk = [] ∨ reqBufSize - 1 < c.reqBuf.length + chunk.length := Or.inr (by rw [hc.buf]; omega)
    rw [readStep, if_pos hno] at hx
    cases hx

end Reads

/-! ## No byte is dispatched twice -/

def Dispatch.size : Dispatch → Nat
  | .request text => text.length
  | .packet _ d => d.length + 4

def totalSize (ds : List Dispatch) : Nat := (ds.map Dispatch.size).sum

theorem size_dispatch (m : Msg) : m.dispatch.size = m.wire.length := by
  cases m <;> simp [Msg.dispatch, Msg.wire, Dispatch.size]

theorem length_requestText_le (buf : Str) : (requestText buf).length ≤ buf.length := by
  unfold requestText
  split
  · exact length_take_le' _ _
  · omega

theorem parse_size (buf : Str) : ∃ e buf' ds, parseClientData peer ⟨.rtsp, buf, -1⟩ = (false, e, ⟨.rtsp, buf', -1⟩, ds) ∧
      totalSize ds + buf'.length ≤ buf.length := by
  simp only [parseClientData]
  split
  · exact ⟨_, _, _, rfl, by simp [totalSize]⟩
  · rename_i hlen
    split
    · split
      · exact ⟨_, _, _, rfl, by simp [totalSize]⟩
      · refine ⟨_, _, _, rfl, ?_⟩
        simp only [totalSize, map_cons, map_nil, sum_cons, sum_nil, Dispatch.size,
          length_take, length_drop, length_nil]
        omega
    · split
      · exact ⟨_, _, _, rfl, by simp [totalSize]⟩
      · have hside : (handleRequest peer ⟨.rtsp, buf, -1⟩).2 = ⟨.rtsp, buf, -1⟩ := by
          unfold handleRequest; split <;> (try rfl); split <;> (try rfl); split <;> rfl
        refine ⟨(handleRequest peer ⟨.rtsp, buf, -1⟩).1, [], [.request (requestText buf)], ?_, ?_⟩
        · simp only [takeRequest, hside]
        · simpa [totalSize, Dispatch.size] using length_requestText_le buf

theorem readStep_size (buf chunk : Str) {x : ReadEnd × ReadSide × List Dispatch}
    (h : readStep peer ⟨.rtsp, buf, -1⟩ chunk = some x) :
    ∃ buf', x.2.1 = ⟨.rtsp, buf', -1⟩ ∧ totalSize x.2.2 + buf'.length ≤ buf.length + chunk.length := by
  have happ : appendRead ⟨.rtsp, buf, -1⟩ chunk = ⟨.rtsp, buf ++ chunk, -1⟩ := rfl
  obtain ⟨e, buf', ds, hparse, hsize⟩ := parse_size peer (buf ++ chunk)
  rw [length_append] at hsize
  simp only [readStep, happ] at h
  split at h
  · cases h
  · split at h
    · cases h
      exact ⟨buf ++ chunk, rfl, by simp [totalSize]⟩
    · cases h
      simp only [parseLoop, hparse]
      exact ⟨buf', rfl, hsize⟩

theorem feed_size (peer : Str → Bool) : ∀ (chunks : List Str) (buf : Str) {ds : List Dispatch},
    feed peer ⟨.rtsp, buf, -1⟩ chunks = some ds → totalSize ds ≤ buf.length + chunks.flatten.length
  | [], buf, ds, h => by cases h; simp [totalSize]
  | chunk :: rest, buf, ds, h => by
    rw [List.flatten_cons, List.length_append]
    cases hx : readStep peer ⟨.rtsp, buf, -1⟩ chunk with
    | none => simp [feed, hx] at h
    | some x =>
      obtain ⟨e, c', ds₁⟩ := x
      obtain ⟨buf', rfl, hsize⟩ := readStep_size peer buf chunk hx
      simp only [feed, hx] at h
      cases e with
      | goesOn =>
        obtain ⟨ds₂, hrest, rfl⟩ := Option.map_eq_some_iff.mp h
        have ih := feed_size peer rest buf' hrest
        simp only [totalSize, map_append, sum_append] at hsize ih ⊢
        omega
      | dropped => cases h; simp only at hsize; omega
      | crashed => cases h; simp only at hsize; omega

/-! ## Whole streams -/

theorem served_eq_map : ∀ {ms : List Msg}, (∀ m ∈ ms.dropLast, m.goesOn) → served ms = ms.map Msg.dispatch
  | [], _ => rfl
  | [m], _ => by simp [served]
  | m :: m' :: ms, h => by
    have hm := h m (by simp)
    have ih : served (m' :: ms) = _ := served_eq_map fun x hx => h x (mem_cons_of_mem _ hx)
    rw [served, if_pos hm, ih]
    rfl

theorem totalSize_map_dispatch (ms : List Msg) : totalSize (ms.map Msg.dispatch) = (ms.flatMap Msg.wire).length := by
  simp [totalSize, Function.comp_def, size_dispatch, length_flatMap]

theorem feed_group (peer : Str → Bool) {m : Msg} (hm : m.Fits) (rest : List Str) :
    ∀ (group : List Str) {c : ReadSide} {p q : Str} {ds : List Dispatch}, Reading c m p → p ++ q = m.wire → q ≠ [] →
      group.flatten = q → feed peer c (group ++ rest) = some ds →
      if m.goesOn then ∃ ds', feed peer between rest = some ds' ∧ ds = m.dispatch :: ds' else ds = [m.dispatch]
  | [], c, p, q, ds, _, _, hq, hg, _ => (hq hg.symm).elim
  | chunk :: group, c, p, q, ds, hc, hw, hq, hg, hfeed => by
    subst hg
    rw [List.flatten_cons] at hw
    by_cases hne : chunk = []
    · simp [feed, readStep, hne] at hfeed
    by_cases hrest : group.flatten = []
    · rw [hrest, List.append_nil] at hw
      obtain ⟨e, hstep, he⟩ := readStep_end peer hm hc hne hw
      simp only [cons_append, feed, hstep] at hfeed
      cases hgo : m.goesOn with
      | false =>
        cases e with
        | goesOn => simp [hgo] at he
        | dropped => simpa using hfeed.symm
        | crashed => simpa using hfeed.symm
      | true =>
        cases he.mpr hgo
        obtain ⟨ds', hds', rfl⟩ := Option.map_eq_some_iff.mp hfeed
        cases group with
        | nil => exact ⟨ds', hds', rfl⟩
        | cons x xs =>
          -- an empty chunk is no result of `read()`
          have hx : x = [] := (append_eq_nil_iff.mp hrest).1
          simp [feed, readStep, hx] at hds'
    · obtain ⟨c', hstep, hc'⟩ := readStep_inside peer hm hc hne hrest hw
      simp only [cons_append, feed, hstep, nil_append, Option.map_id'] at hfeed
      exact feed_group peer hm rest group hc' (by simpa using hw) hrest rfl hfeed

theorem feed_aligned {chunks : List Str} (h : Aligned chunks ms) :
    ∀ {c : ReadSide} {ds : List Dispatch}, (∀ m ∈ ms, m.Fits) → Ready c ms → feed peer c chunks = some ds →
      ds = served ms := by
  induction h with
  | nil =>
    intro c ds _ _ hfeed
    cases hfeed
    rfl
  | @cons group rest m ms hg _ ih =>
    intro c ds hfit hc hfeed
    have hm := hfit m (by simp)
    have key := feed_group peer hm rest group hc.reading (nil_append _) hm.wire_ne_nil hg hfeed
    cases hgo : m.goesOn with
    | false =>
      rw [hgo] at key
      rw [served, hgo]
      exact key
    | true =>
      rw [hgo] at key
      obtain ⟨ds', hrest, rfl⟩ := key
      rw [served, if_pos hgo, ih (fun x hx => hfit x (mem_cons_of_mem _ hx)) (ready_between ms) hrest]

theorem feed_past {c : ReadSide} {m : Msg} {p chunk tail : Str} {rest : List Str}
    {ds : List Dispatch} (hm : m.Fits) (hc : Reading c m p) (hne : chunk ≠ []) (hw : p ++ chunk = m.wire ++ tail)
    (htail : tail ≠ []) (hcut : ms.flatMap Msg.wire = tail ++ rest.flatten)
    (hfeed : feed peer c (chunk :: rest) = some ds) : ds ≠ (m :: ms).map Msg.dispatch := by
  rintro rfl
  have hpos := length_pos_iff.mpr htail
  have hsize : totalSize (ms.map Msg.dispatch) = tail.length + rest.flatten.length := by
    rw [totalSize_map_dispatch, hcut, length_append]
  cases hx : readStep peer c chunk with
  | none => simp [feed, hx] at hfeed
  | some x =>
    rcases readStep_past peer hm hc hne hw hx with ⟨he, hnil⟩ | ⟨e, rfl⟩
    · obtain ⟨e, c', ds'⟩ := x
      cases he
      cases hnil
      simp [feed, hx] at hfeed
    · have hshort : ∀ {ds' : List Dispatch}, totalSize ds' ≤ rest.flatten.length → ds' ≠ ms.map Msg.dispatch := by
        rintro ds' hle rfl
        omega
      simp only [feed, hx] at hfeed
      cases e with
      | goesOn =>
        obtain ⟨ds', hrest, hds⟩ := Option.map_eq_some_iff.mp hfeed
        have hle := feed_size peer rest [] hrest
        exact hshort (by simpa using hle) (List.cons.inj hds).2
      | dropped => exact hshort (Nat.zero_le _) (List.cons.inj (Option.some.inj hfeed)).2
      | crashed => exact hshort (Nat.zero_le _) (List.cons.inj (Option.some.inj hfeed)).2

theorem aligned_of_feed (peer : Str → Bool) : ∀ (chunks : List Str) {c : ReadSide} {m : Msg} {ms : List Msg} {p q : Str}
    {ds : List Dispatch}, (∀ x ∈ m :: ms, x.Fits) → (∀ x ∈ (m :: ms).dropLast, x.goesOn) → Reading c m p →
    p ++ q = m.wire → q ≠ [] → chunks.flatten = q ++ ms.flatMap Msg.wire → feed peer c chunks = some ds →
    ds = (m :: ms).map Msg.dispatch → ∃ group rest, chunks = group ++ rest ∧ group.flatten = q ∧ Aligned rest ms
  | [], c, m, ms, p, q, ds, _, _, _, _, hq, hcut, _, _ => (hq (List.append_eq_nil_iff.mp hcut.symm).1).elim
  | chunk :: rest, c, m, ms, p, q, ds, hfit, hgo, hc, hw, hq, hcut, hfeed, hds => by
    have hm := hfit m (by simp)
    by_cases hne : chunk = []
    · simp [feed, readStep, hne] at hfeed
    -- the read ends inside the message, with it, or after it
    by_cases hend : chunk = q
    · subst hend
      have hrest := append_cancel_left hcut
      cases ms with
      | nil => exact ⟨chunk :: rest, [], by simp, by simpa using hrest, .nil⟩
      | cons m' ms =>
        have hgo' := hgo m (by simp)
        obtain ⟨e, hstep, he⟩ := readStep_end peer hm hc hne hw
        cases he.mpr hgo'
        simp only [feed, hstep] at hfeed
        obtain ⟨ds', hds', rfl⟩ := Option.map_eq_some_iff.mp hfeed
        have hfit' : ∀ x ∈ m' :: ms, x.Fits := fun x hx => hfit x (mem_cons_of_mem _ hx)
        have hne' := (hfit' m' (by simp)).wire_ne_nil
        obtain ⟨group, rest', rfl, hgroup, hal⟩ := aligned_of_feed peer rest hfit'
          (fun x hx => hgo x (mem_cons_of_mem _ hx)) (ready_between (m' :: ms)).reading (nil_append _) hne'
          hrest hds' (List.cons.inj hds).2
        exact ⟨[chunk], group ++ rest', rfl, by simp, .cons hgroup hal⟩
    · rcases append_eq_append_iff.mp hcut with ⟨q', rfl, hrest⟩ | ⟨tail, rfl, htail⟩
      · have hq' : q' ≠ [] := fun h => hend (by rw [h, append_nil])
        obtain ⟨c', hstep, hc'⟩ := readStep_inside peer hm hc hne hq' hw
        simp only [feed, hstep, nil_append, Option.map_id'] at hfeed
        obtain ⟨group, rest', rfl, rfl, hal⟩ :=
          aligned_of_feed peer rest hfit hgo hc' (by simpa using hw) hq' hrest hfeed hds
        exact ⟨chunk :: group, rest', rfl, rfl, hal⟩
      · have htail' : tail ≠ [] := fun h => hend (by rw [h, append_nil])
        exact (feed_past peer hm hc hne (by rw [← hw, append_assoc]) htail' htail hfeed hds).elim

/-- **Segmentation**: the messages sent are dispatched in order if no read runs past one; and only then, if none but the last
ends the connection. -/
theorem feed_eq_served_iff (peer : Str → Bool) {c : ReadSide} {ms : List Msg} {chunks : List Str} {ds : List Dispatch}
    (hfit : ∀ m ∈ ms, m.Fits) (hc : Ready c ms) (hcut : chunks.flatten = ms.flatMap Msg.wire)
    (hread : feed peer c chunks = some ds) : (Aligned chunks ms → ds = served ms) ∧
      ((∀ m ∈ ms.dropLast, m.goesOn = true) → (ds = served ms ↔ Aligned chunks ms)) := by
  have hto := fun h : Aligned chunks ms => feed_aligned peer h hfit hc hread
  refine ⟨hto, fun hgo => ⟨fun hds => ?_, hto⟩⟩
  rw [served_eq_map hgo] at hds
  cases ms with
  | nil =>
    cases chunks with
    | nil => exact .nil
    | cons chunk rest =>
      have hnil : chunk = [] := (append_eq_nil_iff.mp hcut).1
      simp [feed, readStep, hnil] at hread
  | cons m ms =>
    have hne := (hfit m (by simp)).wire_ne_nil
    obtain ⟨group, rest, rfl, hgroup, hal⟩ :=
      aligned_of_feed peer chunks hfit hgo hc.reading (nil_append _) hne hcut hread hds
    exact .cons hgroup hal

def optionsRequest : Str := bytes "OPTIONS * RTSP/1.0\r\nCSeq: 1\r\n\r\n"

theorem optionsRequest_fits : (Msg.req optionsRequest).Fits := by
  unfold Msg.Fits
  decide +kernel

theorem optionsRequest_starts : (Msg.req optionsRequest).StartsRtsp :=
  ⟨(optionsRequest.drop 19), by decide +kernel, by decide +kernel⟩

theorem accept_ready (ms : List Msg) : Ready .accept (.req optionsRequest :: ms) :=
  ⟨rfl, rfl, Or.inr ⟨rfl, fun _ h => Option.some.inj h ▸ optionsRequest_starts⟩⟩

theorem feed_split_request :
    feed (fun _ => false) .accept [optionsRequest.take 5, optionsRequest.drop 5, (Msg.pkt 1 [7, 8]).wire] =
        some [.request optionsRequest, .packet 1 [7, 8]] ∧
      ([.request optionsRequest, .packet 1 [7, 8]] = served [.req optionsRequest, .pkt 1 [7, 8]] ↔
        Aligned [optionsRequest.take 5, optionsRequest.drop 5, (Msg.pkt 1 [7, 8]).wire]
          [.req optionsRequest, .pkt 1 [7, 8]]) := by
  have hread : feed (fun _ => false) .accept [optionsRequest.take 5, optionsRequest.drop 5, (Msg.pkt 1 [7, 8]).wire] =
      some [.request optionsRequest, .packet 1 [7, 8]] := by decide +kernel
  have hpkt : (Msg.pkt 1 [7, 8]).Fits := by unfold Msg.Fits; decide
  have hfit : ∀ m ∈ [Msg.req optionsRequest, .pkt 1 [7, 8]], m.Fits := by simp [optionsRequest_fits, hpkt]
  exact ⟨hread, (feed_eq_served_iff _ hfit (accept_ready _) (by decide +kernel) hread).2 (by decide +kernel)⟩

theorem feed_two_requests : (Msg.req optionsRequest).Fits ∧ Ready .accept [.req optionsRequest, .req optionsRequest] ∧
      [optionsRequest, optionsRequest].flatten = [optionsRequest ++ optionsRequest].flatten ∧
      feed (fun _ => false) .accept [optionsRequest, optionsRequest] =
        some [.request optionsRequest, .request optionsRequest] ∧
      feed (fun _ => false) .accept [optionsRequest ++ optionsRequest] = some [.request optionsRequest] ∧
      feed (fun _ => false) .accept [optionsRequest, optionsRequest] ≠
        feed (fun _ => false) .accept [optionsRequest ++ optionsRequest] := by
  have htwo : feed (fun _ => false) .accept [optionsRequest, optionsRequest] =
      some [.request optionsRequest, .request optionsRequest] := by decide +kernel
  have hone : feed (fun _ => false) .accept [optionsRequest ++ optionsRequest] = some [.request optionsRequest] := by
    decide +kernel
  exact ⟨optionsRequest_fits, accept_ready _, by simp, htwo, hone, by simp [htwo, hone]⟩

end NuWicam.Rtsp
